import PhilzTouch.ApplyPatch.Applypatch

/-!
# The prefix that LoadPartitionContents loads

`LoadPartitionContents` once more, with the block it reads into, the position in it and the hash
context that it feeds and looks into on the way.  It does what `loadPartitionContents` says, and
that finds the smallest of the listed sizes whose prefix has the hash listed with it: as long as
the sizes are numbers that `strtol` can return.
-/

namespace PhilzTouch.ApplyPatch

open List FileContents

/-- The hash of mincrypt: a context that is fed piece by piece gives the hash of all pieces. -/
structure Sha where
  Ctx : Type
  init : Ctx
  update : Ctx → Bytes → Ctx
  final : Ctx → Bytes
  sha1 : Bytes → Bytes
  final_updates : ∀ pieces : List Bytes, final (pieces.foldl update init) = sha1 pieces.flatten

/-- `FileContents` with the block that `data` points to, and with the recorded hash. -/
structure LoadedFile where
  data : Option Bytes
  size : Int
  sha1 : Bytes
  st : Meta

/-- The variables of the loop: the block at `file->data`, the offset of `p` in it, `file->size`
and `sha_ctx`. -/
structure LoadProgress (sha : Sha) where
  block : Bytes
  p : Nat
  size : Nat
  ctx : sha.Ctx

/-- The loop of `LoadPartitionContents`. -/
def loadPairs (sha : Sha) (partition : Partition) (file : LoadedFile) :
    (pairs : List (Nat × Option Text)) → LoadProgress sha → Action (Int × LoadedFile)
  | [], now => .ret (-1, { file with data := none, size := now.size })
  | (size, sha1sum) :: pairs, now => do
    let next := size - now.size
    let read ← readNext partition now.size next
    if read.length ≠ next then .ret (-1, { file with data := none, size := now.size })
    else
      let ctx := if next = 0 then now.ctx else sha.update now.ctx read
      let now := { now with
        block := overwrite now.block now.p read, size := now.size + read.length, ctx := ctx }
      match sha1sum with
      | none => .stop
      | some sha1sum =>
        match parseSha1 sha1sum with
        | none => .ret (-1, { file with data := none, size := now.size })
        | some parsedSha =>
          if sha.final now.ctx = parsedSha then
            .ret (0, ⟨some now.block, now.size, sha.final now.ctx, ⟨0o644, 0, 0⟩⟩)
          else loadPairs sha partition file pairs { now with p := now.p + read.length }

/-- What `malloc` returns. -/
def Memory.block (memory : Memory) (size : Nat) : Bytes :=
  (range size).map fun index : Nat => memory.heap index

/-- The pairs in the order of their sizes. -/
def bySize (pairs : List (Nat × Option Text)) : List (Nat × Option Text) :=
  pairs.insertionSort (·.1 ≤ ·.1)

/-- `LoadPartitionContents`. -/
def loadPartition (sha : Sha) (memory : Memory) (filename : Text) (file : LoadedFile) :
    Action (Int × LoadedFile) :=
  match strtok filename with
  | [] => .stop
  | magic :: fields =>
    match partitionType magic, fields with
    | none, _ => .ret (-1, file)
    | some _, [] => .stop
    | some type, name :: fields =>
      match parsePairs ((filename.count ':' - 1) / 2) fields with
      | .error .failed => .ret (-1, file)
      | .error _ => .stop
      | .ok pairs => do
        let opened ← Prog.call (Op.openPartition ⟨type, name⟩)
        if opened then
          match (bySize pairs).getLast? with
          | none => .stop
          | some (largest, _) =>
            loadPairs sha ⟨type, name⟩ file (bySize pairs) ⟨memory.block largest, 0, 0, sha.init⟩
        else .ret (-1, file)

/-! ## The names of partitions -/

/-- The largest number that `strtol` returns, `LONG_MAX`. -/
def longMax : Nat := 2 ^ 31 - 1

/-- A size and a hash in the name of a partition. -/
structure NamedPair where
  sizeStr : Text
  sha1Str : Text
  decimal : sizeStr ≠ [] ∧ sizeStr.all fun letter => '0' ≤ letter ∧ letter ≤ '9'
  positive : 0 < readDigits 0 sizeStr
  hexadecimal : sha1Str.length = 40 ∧ sha1Str.all fun letter => (hexDigit letter).isSome

namespace NamedPair

def size (pair : NamedPair) : Nat := readDigits 0 pair.sizeStr

/-- The pair as `LoadPartitionContents` has it after `strtol`. -/
def parsed (pair : NamedPair) : Nat × Option Text :=
  (min pair.size longMax, some pair.sha1Str)

/-- The prefix of this size has this hash. -/
def Matches (sha1 : Bytes → Bytes) (content : Bytes) (pair : NamedPair) : Prop :=
  pair.size ≤ content.length ∧ parseSha1 pair.sha1Str = some (sha1 (content.take pair.size))

end NamedPair

/-- A name that `LoadPartitionContents` is meant for. -/
structure PartitionName where
  type : PartitionType
  partition : Text
  pairs : List NamedPair
  named : partition ≠ [] ∧ ':' ∉ partition
  listed : pairs ≠ []

namespace PartitionName

def magic (name : PartitionName) : Text :=
  match name.type with
  | .mtd => ['M', 'T', 'D']
  | .emmc => ['E', 'M', 'M', 'C']

/-- What stands between the colons. -/
def fields (name : PartitionName) : List Text :=
  name.magic :: name.partition :: name.pairs.flatMap fun pair => [pair.sizeStr, pair.sha1Str]

def text (name : PartitionName) : Text := [':'].intercalate name.fields

def content (name : PartitionName) (disk : Disk) : Bytes :=
  (disk.devices ⟨name.type, name.partition⟩).data

end PartitionName

section Parsing

variable {text : Text}

theorem colon_notMem_of_decimal (decimal : text.all fun letter => '0' ≤ letter ∧ letter ≤ '9') :
    ':' ∉ text :=
  fun member => absurd (all_eq_true.mp decimal _ member) (by decide)

theorem colon_notMem_of_hexadecimal (hexadecimal : text.all fun letter => (hexDigit letter).isSome) :
    ':' ∉ text :=
  fun member => absurd (all_eq_true.mp hexadecimal _ member) (by decide)

theorem strtol_decimal (some : text ≠ [])
    (decimal : text.all fun letter => '0' ≤ letter ∧ letter ≤ '9') :
    strtol text = (min (readDigits 0 text) longMax : Nat) := by
  obtain ⟨first, rest, rfl⟩ := exists_cons_of_ne_nil some
  have digit := of_decide_eq_true (all_eq_true.mp decimal first mem_cons_self)
  have low : (48 : Nat) ≤ first.toNat := digit.1
  have high : first.toNat ≤ 57 := digit.2
  have space : isspace first = false := by
    have : first ≠ ' ' := by
      rintro rfl
      exact absurd low (by decide)
    simp only [isspace, this, decide_false, Bool.false_or, Bool.and_eq_false_imp, decide_eq_true_eq,
      decide_eq_false_iff_not]
    omega
  unfold strtol
  rw [dropWhile_cons_of_neg (by simp [space])]
  split
  · rename_i same
    cases same
    exact absurd low (by decide)
  · rename_i same
    cases same
    exact absurd low (by decide)
  · rw [longMax]
    omega

theorem parseHex_isSome {count : Nat} (length : text.length = 2 * count)
    (hexadecimal : text.all fun letter => (hexDigit letter).isSome) :
    ∃ digest, parseHex count text = some digest := by
  induction count generalizing text with
  | zero =>
    cases length_eq_zero_iff.mp length
    exact ⟨[], rfl⟩
  | succ count ih =>
    obtain ⟨high, low, rest, rfl⟩ : ∃ high low rest, text = high :: low :: rest := by
      match text, length with
      | high :: low :: rest, _ => exact ⟨high, low, rest, rfl⟩
      | [_], length => simp only [length_cons, length_nil] at length; omega
      | [], length => simp only [length_nil] at length; omega
    rw [all_cons, all_cons, Bool.and_eq_true, Bool.and_eq_true] at hexadecimal
    obtain ⟨upper, first⟩ := Option.isSome_iff_exists.mp hexadecimal.1
    obtain ⟨lower, second⟩ := Option.isSome_iff_exists.mp hexadecimal.2.1
    obtain ⟨digest, parsed⟩ := @ih rest (by simp only [length_cons] at length; omega)
      hexadecimal.2.2
    exact ⟨_, by rw [parseHex, first, second, parsed]; rfl⟩

theorem NamedPair.parseSha1_isSome (pair : NamedPair) :
    ∃ digest, parseSha1 pair.sha1Str = some digest :=
  parseHex_isSome pair.hexadecimal.1 pair.hexadecimal.2

theorem parsePairs_named (pairs : List NamedPair) :
    parsePairs pairs.length (pairs.flatMap fun pair => [pair.sizeStr, pair.sha1Str]) =
      .ok (pairs.map NamedPair.parsed) := by
  induction pairs with
  | nil => rfl
  | cons pair pairs ih =>
    have size : (strtol pair.sizeStr % 2 ^ 32).toNat = min pair.size longMax := by
      rw [strtol_decimal pair.decimal.1 pair.decimal.2, NamedPair.size, longMax]
      omega
    have positive := pair.positive
    rw [← NamedPair.size] at positive
    simp only [length_cons, flatMap_cons, cons_append, nil_append, parsePairs,
      tail_cons, head?_cons, size, ih, map_cons]
    rw [if_neg (by rw [longMax]; omega)]
    rfl

theorem count_intercalate {fields : List Text} (free : ∀ field ∈ fields, ':' ∉ field) :
    ([':'].intercalate fields).count ':' = fields.length - 1 := by
  induction fields with
  | nil => rfl
  | cons field fields ih =>
    have none : field.count ':' = 0 := count_eq_zero.mpr (free field mem_cons_self)
    cases fields with
    | nil => simpa [List.intercalate] using none
    | cons next fields =>
      have rest := ih (forall_mem_cons.mp free).2
      rw [intercalate_cons_cons, count_append, count_append, rest, none]
      simp [Nat.add_comm]

end Parsing

namespace PartitionName

variable (name : PartitionName)

theorem mem_fields : ∀ field ∈ name.fields, field ≠ [] ∧ ':' ∉ field := by
  intro field member
  simp only [fields, mem_cons, mem_flatMap, not_mem_nil, or_false] at member
  rcases member with rfl | rfl | ⟨pair, _, rfl | rfl⟩
  · unfold magic
    split <;> decide
  · exact name.named
  · exact ⟨pair.decimal.1, colon_notMem_of_decimal pair.decimal.2⟩
  · refine ⟨?_, colon_notMem_of_hexadecimal pair.hexadecimal.2⟩
    rw [← length_pos_iff, pair.hexadecimal.1]
    decide

theorem colon_notMem_fields : ∀ field ∈ name.fields, ':' ∉ field := fun field member =>
  (name.mem_fields field member).2

theorem strtok_text : strtok name.text = name.fields := by
  rw [strtok, tokens, text, splitOn_intercalate _ name.colon_notMem_fields (by simp [fields])]
  exact filter_eq_self.mpr fun field member => decide_eq_true (name.mem_fields field member).1

theorem partitionType_magic : partitionType name.magic = some name.type := by
  unfold magic
  cases name.type <;> decide

theorem pairs_text : (name.text.count ':' - 1) / 2 = name.pairs.length := by
  have twice : ∀ pairs : List NamedPair,
      (pairs.flatMap fun pair => [pair.sizeStr, pair.sha1Str]).length = 2 * pairs.length := by
    intro pairs
    induction pairs with
    | nil => rfl
    | cons pair pairs ih =>
      simp only [flatMap_cons, length_append, ih, length_cons, length_nil]
      omega
  rw [text, count_intercalate name.colon_notMem_fields, fields]
  simp only [length_cons, twice]
  omega

end PartitionName

/-! ## The loop in terms of what it has read -/

/-- What the caller sees of a loaded file. -/
structure View where
  data : Option Bytes
  size : Int
  sha1 : Bytes
  st : Meta

def LoadedFile.view (file : LoadedFile) : View :=
  ⟨file.data.map (·.take file.size.toNat), file.size, file.sha1, file.st⟩

/-- What the caller sees of a `FileContents`; the hash is recorded with the data. -/
def FileContents.view (lib : Library) (stale : Bytes) (file : FileContents) : View :=
  ⟨file.data.map (·.data), file.size, (file.sha1 lib).getD stale, file.st⟩

section Refinement

variable {sha : Sha} {lib : Library} {memory : Memory} {partition : Partition}

/-- The variables of the loop stand for the data that were read so far. -/
structure Represents (now : LoadProgress sha) (data : Bytes) : Prop where
  size : now.size = data.length
  position : now.p = data.length
  block : now.block.take data.length = data
  ctx : ∃ pieces : List Bytes, pieces.flatten = data ∧ now.ctx = pieces.foldl sha.update sha.init

theorem Represents.final {now : LoadProgress sha} {data : Bytes} (represents : Represents now data) :
    sha.final now.ctx = sha.sha1 data := by
  obtain ⟨pieces, rfl, fed⟩ := represents.ctx
  rw [fed, sha.final_updates]

theorem Represents.add {now : LoadProgress sha} {data read : Bytes} (represents : Represents now data)
    {next : Nat} (all : read.length = next) :
    Represents ⟨overwrite now.block now.p read, now.p + read.length, now.size + read.length,
      if next = 0 then now.ctx else sha.update now.ctx read⟩ (data ++ read) := by
  obtain ⟨pieces, same, fed⟩ := represents.ctx
  refine ⟨?_, ?_, ?_, ?_⟩
  · rw [represents.size, length_append]
  · rw [represents.position, length_append]
  · have front : (now.block.take data.length ++ read).length = (data ++ read).length := by
      rw [represents.block]
    dsimp only [overwrite]
    rw [represents.position, ← front, take_left, represents.block]
  · by_cases none : next = 0
    · have empty : read = [] := length_eq_zero_iff.mp (all.trans none)
      exact ⟨pieces, by rw [same, empty, append_nil], by rw [if_pos none, fed]⟩
    · exact ⟨pieces ++ [read], by simp [same], by rw [if_neg none, fed, foldl_append]; rfl⟩

theorem loadPairs_refines (hash : lib.sha1 = sha.sha1) (file : LoadedFile) (contents : FileContents)
    (st : contents.st = file.st)
    {pairs : List (Nat × Option Text)} {now : LoadProgress sha} {data : Bytes}
    (represents : Represents now data) (sorted : pairs.Pairwise (·.1 ≤ ·.1))
    (ahead : ∀ pair ∈ pairs, data.length ≤ pair.1) (small : ∀ pair ∈ pairs, pair.1 < 2 ^ 31) :
    (loadPairs sha partition file pairs now >>= fun loaded => .ret (loaded.1, loaded.2.view)) =
      (readPairs lib memory partition contents pairs data >>= fun loaded =>
        .ret (loaded.1, loaded.2.view lib file.sha1)) := by
  induction pairs generalizing now data with
  | nil => simp [loadPairs, readPairs, LoadedFile.view, view, size, sha1, represents.size, st]
  | cons pair pairs ih =>
    obtain ⟨size, sha1sum⟩ := pair
    have here : data.length ≤ size := ahead _ mem_cons_self
    have fits : size < 2 ^ 31 := small _ mem_cons_self
    simp only [loadPairs, readPairs, Prog.bind_assoc, represents.size]
    congr 1
    funext read
    by_cases short : read.length ≠ size - data.length
    · simp [if_pos short, LoadedFile.view, FileContents.view, FileContents.size, sha1, st]
    have all : read.length = size - data.length := not_not.mp short
    have added := represents.add all
    have reached : (data ++ read).length = size := by
      rw [length_append]
      omega
    rw [if_neg short, if_neg short]
    cases sha1sum with
    | none => rfl
    | some sha1sum =>
      dsimp only
      cases parseSha1 sha1sum with
      | none => simp [LoadedFile.view, FileContents.view, FileContents.size, FileContents.sha1, st]
      | some parsedSha =>
        have hashed := added.final
        dsimp only at hashed ⊢
        rw [hashed, hash]
        by_cases matched : sha.sha1 (data ++ read) = parsedSha
        · have block : (overwrite now.block now.p read).take size = data ++ read := by
            rw [← reached]
            exact added.block
          rw [if_pos matched, if_pos matched]
          simp only [Value.of?, reached, fits, dite_true, Prog.ret_bind, LoadedFile.view,
            FileContents.view, FileContents.size, FileContents.sha1, Option.map_some]
          rw [length_append] at reached
          rw [reached, Int.toNat_natCast, block, hash, Option.getD_some]
        rw [if_neg matched, if_neg matched]
        refine ih ⟨?_, added.position, added.block, added.ctx⟩ sorted.of_cons ?_ ?_
        · rw [← represents.size]
          exact added.size
        · intro pair member
          rw [reached]
          exact (pairwise_cons.mp sorted).1 pair member
        · exact (forall_mem_cons.mp small).2

end Refinement

/-! ## The smallest prefix -/

section Finding

variable {lib : Library} {memory : Memory} {partition : Partition} {disk : Disk} {content : Bytes}

/-- The prefix of a size has the hash that is listed with the size. -/
def HasHash (lib : Library) (content : Bytes) (pair : Nat × Option Text) : Prop :=
  pair.1 ≤ content.length ∧ pair.2.bind parseSha1 = some (lib.sha1 (content.take pair.1))

/-- Of the sizes whose prefix has its hash, the smallest has been loaded. -/
inductive Finds (lib : Library) (content : Bytes) (pairs : List (Nat × Option Text)) :
    Int × FileContents → Prop
  | found {pair : Nat × Option Text} {value : Value} {loaded : FileContents} (listed : pair ∈ pairs)
      (hash : HasHash lib content pair)
      (smallest : ∀ other ∈ pairs, HasHash lib content other → pair.1 ≤ other.1)
      (data : loaded.data = some value) (same : value.data = content.take pair.1) :
      Finds lib content pairs (0, loaded)
  | nothing {loaded : FileContents} (never : ∀ pair ∈ pairs, ¬ HasHash lib content pair)
      (data : loaded.data = none) : Finds lib content pairs (-1, loaded)

variable {pair : Nat × Option Text}

theorem Finds.cons {pairs : List (Nat × Option Text)}
    {loaded : Int × FileContents} (finds : Finds lib content pairs loaded)
    (other : ¬ HasHash lib content pair) : Finds lib content (pair :: pairs) loaded := by
  cases finds with
  | found listed hash smallest data same =>
    refine .found (mem_cons_of_mem _ listed) hash ?_ data same
    intro next member matched
    rcases mem_cons.mp member with rfl | later
    · exact absurd matched other
    · exact smallest next later matched
  | nothing never data =>
    refine .nothing ?_ data
    exact forall_mem_cons.mpr ⟨other, never⟩

/-- A read that succeeds gives what is left of the partition, as far as it is asked for. -/
theorem exec_readNext {α : Type} {choices : List Choice} (offset next : Nat)
    (held : (disk.devices partition).data = content)
    (ok : ∀ choice ∈ choices, choice = .ok) (enough : 0 < choices.length) :
    ∃ left, (∀ choice ∈ left, choice = .ok) ∧ choices.length ≤ left.length + 1 ∧
      ∀ rest : Bytes → Action α,
        storage.exec (readNext partition offset next >>= rest) choices disk =
          storage.exec (rest (content.slice offset next)) left disk := by
  unfold readNext
  split
  · rename_i none
    refine ⟨choices, ok, Nat.le_succ _, fun rest => ?_⟩
    rw [none, Bytes.slice, take_zero]
    rfl
  obtain ⟨first, left, rfl⟩ := exists_cons_of_length_pos enough
  cases ok first mem_cons_self
  refine ⟨left, (forall_mem_cons.mp ok).2, le_rfl, fun rest => ?_⟩
  rw [Machine.exec_call_bind]
  simp only [perform, held, Choice.accepted]
  rfl

theorem readPairs_finds (held : (disk.devices partition).data = content) (file : FileContents)
    {pairs : List (Nat × Option Text)} {data : Bytes} {choices : List Choice}
    (valid : ∀ pair ∈ pairs, ∃ digest, pair.2.bind parseSha1 = some digest)
    (small : ∀ pair ∈ pairs, pair.1 < 2 ^ 31) (sorted : pairs.Pairwise (·.1 ≤ ·.1))
    (ahead : ∀ pair ∈ pairs, data.length ≤ pair.1) (starts : data = content.take data.length)
    (ok : ∀ choice ∈ choices, choice = .ok) (enough : pairs.length ≤ choices.length) :
    ∃ loaded, storage.exec (readPairs lib memory partition file pairs data) choices disk =
      (disk, .done loaded) ∧ Finds lib content pairs loaded := by
  induction pairs generalizing data choices with
  | nil => exact ⟨_, rfl, .nothing nofun rfl⟩
  | cons pair pairs ih =>
    obtain ⟨size, sha1sum⟩ := pair
    have here : data.length ≤ size := ahead _ mem_cons_self
    have fits : size < 2 ^ 31 := small _ mem_cons_self
    obtain ⟨digest, parsed⟩ := valid _ mem_cons_self
    have begun : data.length ≤ content.length := by
      have := congrArg length starts
      rw [length_take] at this
      omega
    have later := (pairwise_cons.mp sorted).1
    have shorter : ∀ other ∈ (size, sha1sum) :: pairs, size ≤ other.1 := by
      exact forall_mem_cons.mpr ⟨le_rfl, later⟩
    obtain ⟨left, okLeft, spent, runs⟩ := exec_readNext data.length (size - data.length) held ok
      (lt_of_lt_of_le (Nat.succ_pos _) enough)
    unfold readPairs
    rw [runs]
    by_cases inside : size ≤ content.length
    · have read : (content.slice data.length (size - data.length)).length = size - data.length := by
        rw [Bytes.length_slice]
        omega
      have grown : data ++ content.slice data.length (size - data.length) = content.take size := by
        rw [starts, length_take, min_eq_left (by omega), Bytes.take_append_slice]
        congr 1
        omega
      rw [if_neg (not_not.mpr read)]
      cases sha1sum with
      | none => cases parsed
      | some sha1sum =>
        have parsed : parseSha1 sha1sum = some digest := parsed
        simp only [parsed, grown]
        by_cases matched : lib.sha1 (content.take size) = digest
        · have length : (content.take size).length < 2 ^ 31 := by
            rw [length_take]
            omega
          rw [if_pos matched]
          simp only [Value.of?, length, dite_true]
          exact ⟨_, rfl, .found mem_cons_self ⟨inside, by rw [matched]; exact parsed⟩
            (fun other member _ => shorter other member) rfl rfl⟩
        rw [if_neg matched]
        have reached : (content.take size).length = size := by
          rw [length_take]
          omega
        obtain ⟨loaded, ran, finds⟩ := ih (fun pair member => valid pair (by simp [member]))
          (fun pair member => small pair (by simp [member])) sorted.of_cons
          (fun pair member => by rw [reached]; exact later pair member)
          (by rw [reached]) okLeft
          (by rw [length_cons] at enough; omega)
        refine ⟨loaded, ran, finds.cons ?_⟩
        rintro ⟨_, hash⟩
        rw [show (some sha1sum).bind parseSha1 = some digest from parsed] at hash
        exact matched (Option.some.inj hash).symm
    have short : (content.slice data.length (size - data.length)).length ≠ size - data.length := by
      rw [Bytes.length_slice]
      omega
    rw [if_pos short]
    refine ⟨_, rfl, .nothing ?_ rfl⟩
    rintro other member ⟨fits, _⟩
    exact inside (le_trans (shorter other member) fits)

end Finding

/-! ## LoadPartitionContents -/

namespace PartitionName

variable {name : PartitionName}

/-- The pairs as the loop takes them. -/
def sorted (name : PartitionName) : List (Nat × Option Text) :=
  bySize (name.pairs.map NamedPair.parsed)

theorem mem_sorted : pair ∈ name.sorted ↔ ∃ named ∈ name.pairs, named.parsed = pair := by
  rw [sorted, bySize, mem_insertionSort, mem_map]

theorem pairwise_sorted : name.sorted.Pairwise (·.1 ≤ ·.1) :=
  pairwise_insertionSort _ _

theorem length_sorted : name.sorted.length = name.pairs.length := by
  rw [sorted, bySize, length_insertionSort, length_map]

theorem sorted_small : ∀ pair ∈ name.sorted, pair.1 < 2 ^ 31 := by
  intro pair member
  obtain ⟨named, _, rfl⟩ := mem_sorted.mp member
  rw [NamedPair.parsed, longMax]
  omega

theorem sorted_valid : ∀ pair ∈ name.sorted, ∃ digest, pair.2.bind parseSha1 = some digest := by
  intro pair member
  obtain ⟨named, _, rfl⟩ := mem_sorted.mp member
  exact named.parseSha1_isSome

variable {sha : Sha} {lib : Library} {memory : Memory} {disk : Disk}

theorem getLast?_sorted : ∃ pair, name.sorted.getLast? = some pair := by
  have some : name.sorted ≠ [] :=
    ne_nil_of_length_pos (length_sorted ▸ length_pos_iff.mpr name.listed)
  exact ⟨_, getLast?_eq_some_getLast some⟩

/-- `LoadPartitionContents` with its block and its context does what `loadPartitionContents`
says. -/
theorem loadPartition_refines (hash : lib.sha1 = sha.sha1) (file : LoadedFile)
    (contents : FileContents) (same : contents.view lib file.sha1 = file.view)
    (st : contents.st = file.st) :
    (loadPartition sha memory name.text file >>= fun loaded => .ret (loaded.1, loaded.2.view)) =
      (loadPartitionContents lib memory name.text contents >>= fun loaded =>
        .ret (loaded.1, loaded.2.view lib file.sha1)) := by
  obtain ⟨⟨largest, sha1Str⟩, last⟩ := @getLast?_sorted name
  rw [sorted] at last
  unfold loadPartition loadPartitionContents
  simp only [strtok_text, fields, partitionType_magic, pairs_text, parsePairs_named, last,
    Prog.bind_assoc]
  congr 1
  funext opened
  cases opened with
  | false => simp only [Bool.false_eq_true, if_false, Prog.ret_bind, same]
  | true =>
    rw [if_pos rfl, if_pos rfl, if_neg (by simpa using name.listed)]
    exact loadPairs_refines hash file contents st ⟨rfl, rfl, rfl, [], rfl, rfl⟩ pairwise_sorted
      (fun _ _ => Nat.zero_le _) sorted_small

theorem loadPartition_finds (hash : lib.sha1 = sha.sha1) (file : LoadedFile) {choices : List Choice}
    (ok : ∀ choice ∈ choices, choice = .ok) (enough : name.pairs.length < choices.length) :
    ∃ result loaded contents, storage.exec (loadPartition sha memory name.text file) choices disk =
        (disk, .done (result, loaded)) ∧
      Finds lib (name.content disk) name.sorted (result, contents) ∧
      loaded.view = contents.view lib file.sha1 := by
  obtain ⟨first, choices, rfl⟩ := exists_cons_of_length_pos (Nat.zero_lt_of_lt enough)
  cases ok first mem_cons_self
  rw [length_cons] at enough
  obtain ⟨⟨largest, sha1Str⟩, last⟩ := @getLast?_sorted name
  obtain ⟨⟨result, contents⟩, ran, finds⟩ := @readPairs_finds lib memory
    ⟨name.type, name.partition⟩ disk _ rfl ⟨none, file.size, file.st⟩ name.sorted [] choices
    sorted_valid sorted_small pairwise_sorted (fun _ _ => Nat.zero_le _) rfl
    (forall_mem_cons.mp ok).2 (Nat.le_of_lt_succ (length_sorted ▸ enough))
  have viewed := (storage.exec_map_eq_done fun loaded : Int × FileContents =>
    (loaded.1, loaded.2.view lib file.sha1)).mpr ⟨_, ran, rfl⟩
  rw [← @loadPairs_refines sha lib memory _ hash file ⟨none, file.size, file.st⟩ rfl name.sorted
    ⟨memory.block largest, 0, 0, sha.init⟩ [] ⟨rfl, rfl, rfl, [], rfl, rfl⟩ pairwise_sorted
    (fun _ _ => Nat.zero_le _) sorted_small] at viewed
  obtain ⟨⟨result', loaded⟩, loads, same⟩ := (storage.exec_map_eq_done _).mp viewed
  cases (Prod.mk.inj same).1
  refine ⟨result, loaded, contents, ?_, finds, (Prod.mk.inj same).2⟩
  rw [sorted] at last
  unfold loadPartition
  simp only [strtok_text, fields, partitionType_magic, pairs_text, parsePairs_named, last]
  rw [Machine.exec_call_bind]
  simp only [perform, decide_true, if_true]
  exact loads

end PartitionName

/-- The right prefix has been loaded. -/
structure FindsPrefix (sha1 : Bytes → Bytes) (content : Bytes) (pairs : List NamedPair)
    (result : Int) (loaded : LoadedFile) : Prop where
  exact : result = 0 ↔ ∃ pair ∈ pairs, pair.Matches sha1 content
  smallest : result = 0 → ∃ pair ∈ pairs, pair.Matches sha1 content ∧
    (∀ other ∈ pairs, other.Matches sha1 content → pair.size ≤ other.size) ∧
    loaded.data.map (·.take loaded.size.toNat) = some (content.take pair.size) ∧
    loaded.size = pair.size ∧ loaded.sha1 = sha1 (content.take pair.size)

/-- A size in the range of `strtol` leads to the prefix, or the larger ones lead to none. -/
def SizesInRange (sha1 : Bytes → Bytes) (content : Bytes) (pairs : List NamedPair) : Prop :=
  (∃ pair ∈ pairs, pair.size ≤ longMax ∧ pair.Matches sha1 content) ∨
    ∀ pair ∈ pairs, longMax < pair.size → ¬ pair.Matches sha1 content ∧
      ¬ (longMax ≤ content.length ∧ parseSha1 pair.sha1Str = some (sha1 (content.take longMax)))

section Range

variable {lib : Library} {content : Bytes} {pair : NamedPair}

theorem hasHash_parsed (inRange : pair.size ≤ longMax) :
    HasHash lib content pair.parsed ↔ pair.Matches lib.sha1 content := by
  rw [HasHash, NamedPair.parsed, min_eq_left inRange]
  rfl

theorem hasHash_parsed_large (large : longMax < pair.size) :
    HasHash lib content pair.parsed ↔ longMax ≤ content.length ∧
      parseSha1 pair.sha1Str = some (lib.sha1 (content.take longMax)) := by
  rw [HasHash, NamedPair.parsed, min_eq_right (le_of_lt large)]
  rfl

variable {pairs : List NamedPair} {sorted : List (Nat × Option Text)} {result : Int}
  {contents : FileContents} {loaded : LoadedFile} {stale : Bytes}

/-- A pair that matches is found, or one of the larger sizes is to blame. -/
theorem hasHash_or_large (sorts : ∀ pair, pair ∈ sorted ↔ ∃ named ∈ pairs, named.parsed = pair)
    (member : pair ∈ pairs) (matched : pair.Matches lib.sha1 content) :
    (pair.parsed ∈ sorted ∧ HasHash lib content pair.parsed ∧ pair.parsed.1 = pair.size) ∨
      longMax < pair.size := by
  by_cases large : longMax < pair.size
  · exact .inr large
  · have inRange := Nat.le_of_not_lt large
    exact .inl ⟨(sorts _).mpr ⟨pair, member, rfl⟩, (hasHash_parsed inRange).mpr matched,
      min_eq_left inRange⟩

/-- What is found among the sizes after `strtol` is right if and only if `strtol` has not cut the
sizes that matter. -/
theorem findsPrefix_iff (sorts : ∀ pair, pair ∈ sorted ↔ ∃ named ∈ pairs, named.parsed = pair)
    (finds : Finds lib content sorted (result, contents))
    (viewed : loaded.view = contents.view lib stale) :
    FindsPrefix lib.sha1 content pairs result loaded ↔ SizesInRange lib.sha1 content pairs := by
  cases finds with
  | @found pair value _ listed hash smallest data same =>
    have length : value.data.length = pair.1 := by
      rw [same, length_take, min_eq_left hash.1]
    simp only [LoadedFile.view, view, size, sha1, data, same,
      Option.map_some, Option.getD_some, View.mk.injEq, length_take, min_eq_left hash.1] at viewed
    obtain ⟨seen, size, hashed, _⟩ := viewed
    obtain ⟨named, listed, cut⟩ := (sorts pair).mp listed
    have bound : pair.1 ≤ longMax := by
      rw [← cut]
      exact min_le_right _ _
    constructor
    · intro found
      obtain ⟨right, member, matched, _, read, _⟩ := found.smallest rfl
      have sizes : pair.1 = right.size := by
        rw [seen, Option.some.injEq] at read
        have := congrArg List.length read
        rw [length_take, length_take, Nat.min_eq_left hash.1, Nat.min_eq_left matched.1] at this
        exact this
      exact .inl ⟨right, member, sizes ▸ bound, matched⟩
    intro inRange
    -- the listed pair whose size is the one that was loaded
    obtain ⟨right, member, matched, sizes⟩ : ∃ right ∈ pairs,
        right.Matches lib.sha1 content ∧ right.size = pair.1 := by
      by_cases small : named.size ≤ longMax
      · rw [← cut] at hash ⊢
        exact ⟨named, listed, (hasHash_parsed small).mp hash, (Nat.min_eq_left small).symm⟩
      have large := Nat.lt_of_not_le small
      rw [← cut] at hash
      rcases inRange with ⟨other, there, low, matched⟩ | outside
      · have least := smallest other.parsed ((sorts _).mpr ⟨other, there, rfl⟩)
          ((hasHash_parsed low).mpr matched)
        refine ⟨other, there, matched, ?_⟩
        rw [← cut, NamedPair.parsed, NamedPair.parsed] at least
        rw [← cut, NamedPair.parsed]
        omega
      · exact absurd ((hasHash_parsed_large large).mp hash) (outside named listed large).2
    refine ⟨iff_of_true rfl ⟨right, member, matched⟩, fun _ => ⟨right, member, matched, ?_, ?_⟩⟩
    · intro other there alike
      rcases hasHash_or_large sorts there alike with ⟨kept, good, uncut⟩ | large
      · have least := smallest _ kept good
        omega
      · omega
    · rw [sizes]
      exact ⟨seen, size, hashed⟩
  | nothing never data =>
    constructor
    · intro found
      refine .inr fun pair member large => ⟨fun matched => ?_, fun cut => ?_⟩
      · exact absurd (found.exact.mpr ⟨pair, member, matched⟩) (by decide)
      · exact never _ ((sorts _).mpr ⟨pair, member, rfl⟩) ((hasHash_parsed_large large).mpr cut)
    intro inRange
    refine ⟨iff_of_false (by decide) ?_, nofun⟩
    rintro ⟨pair, member, matched⟩
    rcases hasHash_or_large sorts member matched with ⟨kept, good, _⟩ | large
    · exact never _ kept good
    rcases inRange with ⟨other, there, low, alike⟩ | outside
    · exact never _ ((sorts _).mpr ⟨other, there, rfl⟩) ((hasHash_parsed low).mpr alike)
    · exact (outside pair member large).1 matched

end Range

theorem PartitionName.loads_iff {sha : Sha} {memory : Memory} (name : PartitionName)
    {file : LoadedFile} {disk : Disk} {choices : List Choice}
    (ok : ∀ choice ∈ choices, choice = .ok) (enough : name.pairs.length < choices.length) :
    ∃ result loaded, storage.exec (loadPartition sha memory name.text file) choices disk =
        (disk, .done (result, loaded)) ∧
      (FindsPrefix sha.sha1 (name.content disk) name.pairs result loaded ↔
        SizesInRange sha.sha1 (name.content disk) name.pairs) := by
  obtain ⟨lib, hash⟩ : ∃ lib : Library, lib.sha1 = sha.sha1 :=
    ⟨⟨sha.sha1, ⟨id, fun data => (data, .corrupt)⟩, ⟨fun _ => none, fun _ _ _ => none⟩⟩, rfl⟩
  obtain ⟨result, loaded, contents, ran, finds, viewed⟩ :=
    @loadPartition_finds name sha lib memory disk hash file choices ok enough
  refine ⟨result, loaded, ran, ?_⟩
  rw [← hash]
  exact findsPrefix_iff (fun _ => mem_sorted) finds viewed

/-- `LoadPartitionContents` returns, and it has found the right prefix if and only if no size that
`strtol` cuts to `LONG_MAX` matters. -/
theorem loadPartition_finds_prefix_iff (sha : Sha) (memory : Memory) (name : PartitionName)
    (file : LoadedFile) (disk : Disk) (choices : List Choice)
    (ok : ∀ choice ∈ choices, choice = .ok) (enough : name.pairs.length < choices.length) :
    ∃ result loaded, storage.exec (loadPartition sha memory name.text file) choices disk =
        (disk, .done (result, loaded)) ∧
      (FindsPrefix sha.sha1 (name.content disk) name.pairs result loaded ↔
        SizesInRange sha.sha1 (name.content disk) name.pairs) :=
  name.loads_iff ok enough

/-- A hash that depends on the number of bytes alone. -/
def lengthSha (digest : Nat → Bytes) : Sha where
  Ctx := Nat
  init := 0
  update total piece := total + piece.length
  final := digest
  sha1 data := digest data.length
  final_updates pieces := by
    have sums : ∀ total, pieces.foldl (fun total piece => total + piece.length) total =
        total + pieces.flatten.length := by
      induction pieces with
      | nil => exact fun _ => rfl
      | cons piece pieces ih =>
        intro total
        rw [foldl_cons, ih, flatten_cons, length_append, Nat.add_assoc]
    rw [sums, Nat.zero_add]

/-- A device `d` with the given contents. -/
def deviceDisk (data : Bytes) : Disk where
  files := fun _ => none
  devices := fun _ => ⟨data, true⟩

/-- `EMMC:d:2:0202…02:1:0909…09`. -/
def twoSizes : PartitionName where
  type := .emmc
  partition := ['d']
  pairs := [
    { sizeStr := ['2'], sha1Str := (replicate 20 ['0', '2']).flatten,
      decimal := by decide, positive := by decide, hexadecimal := by decide },
    { sizeStr := ['1'], sha1Str := (replicate 20 ['0', '9']).flatten,
      decimal := by decide, positive := by decide, hexadecimal := by decide }]
  named := by decide
  listed := by decide

theorem loadPartition_finds_prefix_two :
    ∃ result loaded, storage.exec (loadPartition (lengthSha fun count => replicate 20 count.toUInt8)
        ⟨0, ⟨0, 0, 0⟩, fun _ => 0, 0⟩ twoSizes.text ⟨none, 0, [], ⟨0, 0, 0⟩⟩)
        [.ok, .ok, .ok] (deviceDisk [1, 2, 3]) = (deviceDisk [1, 2, 3], .done (result, loaded)) ∧
      FindsPrefix (fun data => replicate 20 data.length.toUInt8) [1, 2, 3] twoSizes.pairs
        result loaded := by
  obtain ⟨result, loaded, ran, right⟩ := loadPartition_finds_prefix_iff
    (lengthSha fun count => replicate 20 count.toUInt8) ⟨0, ⟨0, 0, 0⟩, fun _ => 0, 0⟩ twoSizes
    ⟨none, 0, [], ⟨0, 0, 0⟩⟩ (deviceDisk [1, 2, 3]) [.ok, .ok, .ok] (by decide) (by decide)
  refine ⟨result, loaded, ran, right.mpr (.inl ⟨_, mem_cons_self, ?_, ?_, ?_⟩)⟩
  · decide
  · decide
  · decide

/-- `EMMC:d:2147483648:0000…00`. -/
def hugeSize : PartitionName where
  type := .emmc
  partition := ['d']
  pairs := [
    { sizeStr := ['2', '1', '4', '7', '4', '8', '3', '6', '4', '8'],
      sha1Str := (replicate 20 ['0', '0']).flatten,
      decimal := by decide, positive := by decide, hexadecimal := by decide }]
  named := by decide
  listed := by decide

/-- A partition of 2 GiB that has the listed hash is not found. -/
theorem loadPartition_misses_prefix : ∃ result loaded, storage.exec (loadPartition
        (lengthSha fun count => replicate 20 (if count = 2 ^ 31 then 0 else 1))
        ⟨0, ⟨0, 0, 0⟩, fun _ => 0, 0⟩ hugeSize.text ⟨none, 0, [], ⟨0, 0, 0⟩⟩)
        [.ok, .ok] (deviceDisk (replicate (2 ^ 31) 7)) =
          (deviceDisk (replicate (2 ^ 31) 7), .done (result, loaded)) ∧
      ¬ FindsPrefix (fun data => replicate 20 (if data.length = 2 ^ 31 then 0 else 1))
        (replicate (2 ^ 31) 7) hugeSize.pairs result loaded := by
  obtain ⟨result, loaded, ran, right⟩ := @PartitionName.loads_iff
    (lengthSha fun count => replicate 20 (if count = 2 ^ 31 then 0 else 1))
    ⟨0, ⟨0, 0, 0⟩, fun _ => 0, 0⟩ hugeSize ⟨none, 0, [], ⟨0, 0, 0⟩⟩
    (deviceDisk (replicate (2 ^ 31) 7)) [.ok, .ok] (by decide) (by decide)
  refine ⟨result, loaded, ran, fun found => ?_⟩
  have size : ∀ pair ∈ hugeSize.pairs, pair.size = 2 ^ 31 := by decide
  have length : (hugeSize.content (deviceDisk (replicate (2 ^ 31) 7))).length = 2 ^ 31 :=
    length_replicate
  rcases right.mp found with ⟨pair, member, low, _⟩ | outside
  · rw [size pair member] at low
    exact absurd low (by decide)
  refine (outside _ mem_cons_self (by decide)).1 ⟨?_, ?_⟩
  · rw [length, size _ mem_cons_self]
  · rw [size _ mem_cons_self, take_of_length_le (Nat.le_of_eq length)]
    change _ = some (replicate 20 (if List.length _ = _ then 0 else 1))
    rw [if_pos length]
    decide

end PhilzTouch.ApplyPatch
