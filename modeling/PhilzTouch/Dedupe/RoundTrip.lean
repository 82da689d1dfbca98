import PhilzTouch.Dedupe.History
import PhilzTouch.Dedupe.Extract

/-!
# Storing a tree and restoring it

The lines of a manifest are followed in the order in which they were written: each one
makes one object, at a place where there was none.  What comes back differs from what was
stored in the sticky bit, which is not written, in user and group identifiers that do not
fit a `long`, and in blobs that were there before under the same name and size.  A link
target of more than 40 bytes overruns the buffer it is read into.
-/

namespace PhilzTouch.Dedupe

open List Function

variable {sha256 : Bytes → Digest} {blobDir : Bytes}

/-! ## Keys tell digests apart -/

theorem hexDigit_injective {left right : Nat} (smallLeft : left < 16) (smallRight : right < 16)
    (same : hexDigit left = hexDigit right) : left = right := by
  have all : ∀ left right : Fin 16, hexDigit left = hexDigit right → left = right := by decide
  exact Fin.mk.inj (all ⟨left, smallLeft⟩ ⟨right, smallRight⟩ same)

theorem hexByte_injective {left right : UInt8} (same : hexByte left = hexByte right) :
    left = right := by
  obtain ⟨high, low⟩ := cons.inj same
  have bounds := And.intro left.toNat_lt right.toNat_lt
  have highs : left.toNat / 16 = right.toNat / 16 := hexDigit_injective (by omega) (by omega) high
  have lows : left.toNat % 16 = right.toNat % 16 :=
    hexDigit_injective (by omega) (by omega) (cons.inj low).1
  exact UInt8.toNat_inj.mp (by omega)

variable {left right : Bytes}

theorem flatMap_hexByte_injective
    (same : left.flatMap hexByte = right.flatMap hexByte) : left = right := by
  induction left generalizing right with
  | nil =>
    cases right with
    | nil => rfl
    | cons value right => cases same
  | cons value left ih =>
    cases right with
    | nil => cases same
    | cons other right =>
      rw [flatMap_cons, flatMap_cons] at same
      obtain ⟨first, rest⟩ := append_inj same rfl
      rw [hexByte_injective first, ih rest]

theorem blobKey_injective {left right : Digest} (same : blobKey left = blobKey right) :
    left = right := by
  have sizes := And.intro (length_psum left) (length_psum right)
  obtain ⟨front, back⟩ := append_inj same (by simp only [length_take]; omega)
  have whole : psum left = psum right := by
    rw [← take_append_drop 3 (psum left), ← take_append_drop 3 (psum right), front,
      (cons.inj back).2]
  exact Subtype.ext (flatMap_hexByte_injective whole)

/-! ## What a run leaves in the blob directory -/

/-- The blob that stands for a file after the run: the one that was there before, if it
has the size of the file, or the content. -/
def Expected (sha256 : Bytes → Digest) (blobDir : Bytes) (before : Store)
    (content blob : Bytes) : Prop :=
  SameSize sha256 blobDir before content ∧ before (outBlob sha256 blobDir content) = some blob ∨
    ¬ SameSize sha256 blobDir before content ∧ blob = content

/-- No two contents have the same digest. -/
def CollisionFree (sha256 : Bytes → Digest) (contents : List Bytes) : Prop :=
  ∀ left ∈ contents, ∀ right ∈ contents, sha256 left = sha256 right → left = right

variable {contents : List Bytes}

theorem CollisionFree.outBlob (free : CollisionFree sha256 contents)
    (inLeft : left ∈ contents) (inRight : right ∈ contents)
    (same : outBlob sha256 blobDir left = outBlob sha256 blobDir right) : left = right :=
  free left inLeft right inRight (blobKey_injective (join_injective blobDir same))

/-- Blobs are as before, or complete where there was none of the size. -/
def Advanced (sha256 : Bytes → Digest) (blobDir : Bytes) (before : Store) (contents : List Bytes)
    (store : Store) : Prop :=
  ∀ content ∈ contents,
    store (outBlob sha256 blobDir content) = before (outBlob sha256 blobDir content) ∨
      store (outBlob sha256 blobDir content) = some content ∧
        ¬ SameSize sha256 blobDir before content

variable {before : Store}

theorem Advanced.fresh {store : Store} (advanced : Advanced sha256 blobDir before contents store)
    {content : Bytes} (member : content ∈ contents)
    (fresh : ¬ SameSize sha256 blobDir store content) : ¬ SameSize sha256 blobDir before content := by
  rcases advanced content member with old | ⟨-, new⟩
  · rwa [SameSize, old] at fresh
  · exact new

theorem keeps_expected (free : CollisionFree sha256 contents) :
    Keeps sha256 blobDir True contents (Advanced sha256 blobDir before contents)
      fun content store => content ∈ contents ∧ ∃ blob,
        Expected sha256 blobDir before content blob ∧
          store (outBlob sha256 blobDir content) = some blob where
  tmp content data advanced := by
    intro other member
    rw [update_of_ne (outBlob_ne_tmpOutBlob other content)]
    exact advanced other member
  tmpEach content data stored := by
    rwa [update_of_ne (outBlob_ne_tmpOutBlob _ content)]
  reuse {store content} member advanced same := by
    refine ⟨member, ?_⟩
    rcases advanced content member with old | ⟨stored, fresh⟩
    · obtain ⟨blob, found, size⟩ := same
      rw [old] at found
      exact ⟨blob, Or.inl ⟨⟨blob, found, size⟩, found⟩, by rw [old, found]⟩
    · exact ⟨content, Or.inr ⟨fresh, rfl⟩, stored⟩
  place {store content} member advanced fresh := by
    intro other inside
    by_cases same : outBlob sha256 blobDir other = outBlob sha256 blobDir content
    · obtain rfl := free.outBlob inside member same
      rw [update_self]
      exact Or.inr ⟨rfl, advanced.fresh inside (fresh trivial)⟩
    · rw [update_of_ne same]
      exact advanced other inside
  placed {store content stored} member advanced fresh earlier := by
    have known : stored ∈ contents := by
      rcases earlier with rfl | ⟨inside, -⟩
      · exact member
      · exact inside
    refine ⟨known, ?_⟩
    by_cases same : outBlob sha256 blobDir stored = outBlob sha256 blobDir content
    · obtain rfl := free.outBlob known member same
      rw [update_self]
      exact ⟨stored, Or.inr ⟨advanced.fresh known (fresh trivial), rfl⟩, rfl⟩
    · rw [update_of_ne same]
      rcases earlier with rfl | ⟨-, blob, expected, found⟩
      · exact absurd rfl same
      · exact ⟨blob, expected, found⟩

/-! ## Trees and their places -/

/-- A name that a directory entry can have. -/
def NameOk (name : Bytes) : Prop :=
  name ≠ [] ∧ slash ∉ name ∧ name ≠ ascii "." ∧ name ≠ ascii ".."

/-- The names of the entries of a directory. -/
def Dir.names : Dir → List Bytes
  | empty => []
  | file entry _ rest | link entry _ rest | dir entry _ rest | special entry rest =>
    entry.name :: rest.names

/-- Every name is one that an entry can have, and no directory has two entries of one
name. -/
def Dir.WellNamed : Dir → Prop
  | empty => True
  | file entry _ rest | link entry _ rest | special entry rest =>
    NameOk entry.name ∧ entry.name ∉ rest.names ∧ rest.WellNamed
  | dir entry entries rest =>
    NameOk entry.name ∧ entry.name ∉ rest.names ∧ entries.WellNamed ∧ rest.WellNamed

/-- The objects of a tree with the names that lead to them. -/
def Dir.objects (place : List Bytes) : Dir → List (List Bytes × Object)
  | empty => []
  | file entry content rest =>
    (place ++ [entry.name],
      .file entry.st.mode.val entry.st.uid.toNat entry.st.gid.toNat content) ::
    rest.objects place
  | link entry target rest =>
    (place ++ [entry.name], .link entry.st.uid.toNat entry.st.gid.toNat target) ::
    rest.objects place
  | dir entry entries rest =>
    (place ++ [entry.name], .dir entry.st.mode.val entry.st.uid.toNat entry.st.gid.toNat) ::
    (entries.objects (place ++ [entry.name]) ++ rest.objects place)
  | special _ rest => rest.objects place

variable {tree : Dir} {place : List Bytes} {item : List Bytes × Object}

theorem Dir.mem_objects (member : item ∈ tree.objects place) :
    ∃ name more, item.1 = place ++ name :: more ∧ name ∈ tree.names := by
  induction tree generalizing place with
  | empty => cases member
  | file entry content rest ih | link entry content rest ih =>
    rcases mem_cons.mp member with rfl | later
    · exact ⟨entry.name, [], rfl, mem_cons_self⟩
    · obtain ⟨name, more, at_, inside⟩ := ih later
      exact ⟨name, more, at_, mem_cons_of_mem _ inside⟩
  | dir entry entries rest ihEntries ihRest =>
    rcases mem_cons.mp member with rfl | others
    · exact ⟨entry.name, [], rfl, mem_cons_self⟩
    rcases mem_append.mp others with below | later
    · obtain ⟨name, more, at_, -⟩ := ihEntries below
      refine ⟨entry.name, name :: more, ?_, mem_cons_self⟩
      rw [at_, append_assoc, singleton_append]
    · obtain ⟨name, more, at_, inside⟩ := ihRest later
      exact ⟨name, more, at_, mem_cons_of_mem _ inside⟩
  | special entry rest ih =>
    obtain ⟨name, more, at_, inside⟩ := ih member
    exact ⟨name, more, at_, mem_cons_of_mem _ inside⟩

/-! ## Paths -/

/-- The path leads to this place below the output directory. -/
structure Leads (path : Bytes) (place : List Bytes) : Prop where
  relative : path.head? = some (byte '.')
  names : components path = place
  inside : ascii ".." ∉ place

theorem leads_start : Leads (ascii ".") [] := ⟨by decide, by decide, by decide⟩

variable {name : Bytes}

theorem Leads.join {d : Bytes} (leads : Leads d place) (ok : NameOk name) :
    Leads (join d name) (place ++ [name]) where
  relative := by
    have first := leads.relative
    cases d with
    | nil => cases first
    | cons char d => exact first
  names := by
    have last : (tokens slash name).filter (· ≠ ascii ".") = [name] := by
      simp [tokens_of_notMem ok.1 ok.2.1, ok.2.2.1]
    rw [components, Dedupe.join, tokens_append, filter_append, last]
    exact congrArg (· ++ [name]) leads.names
  inside := by
    rw [mem_append, mem_singleton, not_or]
    exact ⟨leads.inside, fun same => ok.2.2.2 same.symm⟩

theorem Leads.resolve {path : Bytes} (leads : Leads path place) : resolve path = .ok place := by
  have relative : path.head? ≠ some slash := by
    rw [leads.relative]
    decide
  rw [Dedupe.resolve, leads.names, if_neg]
  rintro (absolute | up)
  · exact relative absolute
  · exact leads.inside up

/-! ## One line -/

/-- The identifier that comes back. -/
def heldId (id : Nat) : Nat := min id (2 ^ 31 - 1)

theorem toId_atoi (old : Nat) (id : UInt32) : toId old (atoi (numeral 10 id.toNat)) = heldId id.toNat := by
  rw [atoi_numeral, clamp, toId, heldId]
  split <;> omega

theorem mode_decToOct (mode : Fin 0o10000) :
    (decToOct (atoi (numeral 8 (mode.val &&& 0o6777))) % 0o10000).toNat = mode.val &&& 0o6777 := by
  have bound : mode.val &&& 0o6777 < 0o10000 := lt_of_le_of_lt Nat.and_le_left mode.isLt
  rw [decToOct_numeral (lt_trans bound (by decide))]
  omega

def IsDir (files : Files) (place : List Bytes) : Prop :=
  place = [] ∨ ∃ mode uid gid, files place = some (.dir mode uid gid)

variable {files : Files}

theorem IsDir.parentIsDir (isDir : IsDir files place) (name : Bytes) :
    parentIsDir files (place ++ [name]) = .ok true := by
  have filled : place ++ [name] ≠ [] := by simp
  rw [Dedupe.parentIsDir, if_neg filled, dropLast_concat]
  rcases isDir with rfl | ⟨mode, uid, gid, found⟩
  · rw [if_pos rfl]
  · rw [found]
    split <;> rfl

section

variable {unmasked : Nat} {store : Store} {files : Files} {entry : Entry} {d : Bytes}
  {place : List Bytes}

/-- The assumptions on the line of an entry: it can be read, its directory exists, and
there is nothing at its place. -/
structure Ready (files : Files) (entry : Entry) (d : Bytes) (place : List Bytes) : Prop where
  label : ∀ text ∈ entry.label, Plain text
  plain : Plain (join d entry.name)
  leads : Leads (join d entry.name) (place ++ [entry.name])
  isDir : IsDir files place
  free : files (place ++ [entry.name]) = none

section

variable (ready : Ready files entry d place)

include ready

theorem extractLine_printStat {type : Char} {tail : Bytes}
    (typed : byte type ≠ tab) (isLine : IsLine (printStat type entry (join d entry.name) ++ tail))
    (short : (printStat type entry (join d entry.name) ++ tail).length < pathMax) :
    extractLine blobDir unmasked store 2 (printStat type entry (join d entry.name) ++ tail) files =
      if [byte type] = ascii "f" then
        extractFile blobDir unmasked store (recordOf type entry (join d entry.name) tail) files
      else if [byte type] = ascii "l" then
        extractLink (recordOf type entry (join d entry.name) tail) files
      else if [byte type] = ascii "d" then
        extractDir unmasked (recordOf type entry (join d entry.name) tail) files
      else .error (.returned 1) := by
  rw [extractLine, cString_of_isLine isLine, readRecord_printStat ready.label ready.plain typed short]
  rfl

theorem extractLine_blob {key size blob : Bytes}
    (plainKey : Plain key) (plainSize : Plain size) (shortKey : key.length < 128)
    (shortSize : size.length < 32) (short : (printStat 'f' entry (join d entry.name) ++
      (key ++ tab :: (size ++ [tab, newline]))).length < pathMax)
    (room : (join blobDir key).length < pathMax) (found : store (join blobDir key) = some blob) :
    extractLine blobDir unmasked store 2 (printStat 'f' entry (join d entry.name) ++
        (key ++ tab :: (size ++ [tab, newline]))) files = .ok (update files (place ++ [entry.name])
        (some (.file (entry.st.mode.val &&& 0o6777) (heldId entry.st.uid.toNat)
          (heldId entry.st.gid.toNat) blob))) := by
  have keyRead := tokenize_append plainKey.1 shortKey (size ++ [tab, newline])
  have sizeRead : tokenize 32 tab (some (size ++ [tab, newline])) = .ok (size, some [newline]) :=
    tokenize_append plainSize.1 shortSize [newline]
  rw [extractLine_printStat ready (by decide) (isLine_fields
    (inline_printStat ready.label ready.plain (by decide)) plainKey plainSize) short,
    if_pos (by decide)]
  simp only [extractFile, recordOf, keyRead, sizeRead, orFault, ok_bind, ready.leads.resolve,
    copyBlob, if_pos room, found, writeFile, ready.isDir.parentIsDir, ready.free, if_true,
    pure_bind, chown, lchown, chmod, update_self, update_idem, toId_atoi, mode_decToOct]

theorem extractLine_file {content blob : Bytes} (room : blobDir.length + 66 < pathMax)
    (short : (printStat 'f' entry (join d entry.name) ++ printBlob sha256 content).length < pathMax)
    (found : store (outBlob sha256 blobDir content) = some blob) :
    extractLine blobDir unmasked store 2
        (printStat 'f' entry (join d entry.name) ++ printBlob sha256 content) files =
      .ok (update files (place ++ [entry.name])
        (some (.file (entry.st.mode.val &&& 0o6777) (heldId entry.st.uid.toNat)
          (heldId entry.st.gid.toNat) blob))) := by
  have fits : (outBlob sha256 blobDir content).length < pathMax := by
    rw [length_outBlob]
    exact room
  rw [printBlob] at short ⊢
  exact extractLine_blob ready (plain_blobKey _) (plain_numeralInt _)
    (by rw [length_blobKey]; decide) (length_numeralInt _) short fits found

theorem extractLine_link {target : Bytes} (plainTarget : Plain target)
    (short : (printStat 'l' entry (join d entry.name) ++ printTarget target).length < pathMax) :
    extractLine blobDir unmasked store 2
        (printStat 'l' entry (join d entry.name) ++ printTarget target) files =
      if target.length ≤ 40 then .ok (update files (place ++ [entry.name])
          (some (.link (heldId entry.st.uid.toNat) (heldId entry.st.gid.toNat) target)))
      else .error (.fault .overrun) := by
  rw [extractLine_printStat ready (by decide) (isLine_link ready.label ready.plain plainTarget) short,
    if_neg (by decide), if_pos (by decide)]
  have made : ∀ object, makeEntry files (place ++ [entry.name]) object =
      .ok (update files (place ++ [entry.name]) (some object)) := by
    intro object
    rw [makeEntry, ready.isDir.parentIsDir, ok_bind, if_pos ⟨rfl, ready.free⟩]
    rfl
  split
  next fits =>
    have targetRead : tokenize 41 tab (some (printTarget target)) = .ok (target, some [newline]) :=
      tokenize_append plainTarget.1 (Nat.lt_succ_of_le fits) [newline]
    simp only [extractLink, recordOf, targetRead, orFault, ok_bind, reduceCtorEq, if_false,
      ready.leads.resolve, made, lchown, update_self, update_idem, toId_atoi]
    rfl
  next long =>
    have overrun : tokenize 41 tab (some (printTarget target)) = .error .overrun := by
      rw [printTarget, tokenize, cut_append plainTarget.1]
      exact if_neg (by omega)
    simp only [extractLink, recordOf, overrun, orFault]
    rfl

theorem extractLine_dir
    (short : (printStat 'd' entry (join d entry.name) ++ [newline]).length < pathMax) :
    extractLine blobDir unmasked store 2
        (printStat 'd' entry (join d entry.name) ++ [newline]) files =
      .ok (update files (place ++ [entry.name])
        (some (.dir (entry.st.mode.val &&& 0o6777) (heldId entry.st.uid.toNat)
          (heldId entry.st.gid.toNat)))) := by
  rw [extractLine_printStat ready (by decide) (isLine_dir ready.label ready.plain) short,
    if_neg (by decide), if_neg (by decide), if_pos (by decide)]
  simp only [extractDir, recordOf, ready.leads.resolve, ok_bind, makeEntry,
    ready.isDir.parentIsDir, ready.free, and_self, if_true, pure_bind, chown, lchown, chmod,
    update_self, update_idem, toId_atoi, mode_decToOct]

end

end

/-! ## The whole tree -/

/-- One object after the other is put at its place. -/
def plant (files : Files) : List (List Bytes × Object) → Files
  | [] => files
  | item :: items => plant (update files item.1 (some item.2)) items

theorem plant_append (files : Files) (first second : List (List Bytes × Object)) :
    plant files (first ++ second) = plant (plant files first) second := by
  induction first generalizing files with
  | nil => rfl
  | cons item first ih => exact ih _

variable {items : List (List Bytes × Object)}

theorem plant_of_notMem (absent : ∀ item ∈ items, item.1 ≠ place) (files : Files) :
    plant files items place = files place := by
  induction items generalizing files with
  | nil => rfl
  | cons item items ih =>
    obtain ⟨here, later⟩ := forall_mem_cons.mp absent
    rw [plant, ih later, update_of_ne here.symm]

/-- What comes back for an object, if `blob` stands for the contents of files. -/
def restored (blob : Bytes → Bytes) : Object → Object
  | .file mode uid gid content => .file (mode &&& 0o6777) (heldId uid) (heldId gid) (blob content)
  | .link uid gid target => .link (heldId uid) (heldId gid) target
  | .dir mode uid gid => .dir (mode &&& 0o6777) (heldId uid) (heldId gid)

/-- The objects that come back. -/
def restoredItems (blob : Bytes → Bytes) (items : List (List Bytes × Object)) :
    List (List Bytes × Object) :=
  items.map fun item => (item.1, restored blob item.2)

def Dir.targets : Dir → List Bytes
  | empty => []
  | file _ _ rest | special _ rest => rest.targets
  | link _ target rest => target :: rest.targets
  | dir _ entries rest => entries.targets ++ rest.targets

variable {blob : Bytes → Bytes}

section

variable {unmasked : Nat} {store : Store}

theorem extractLines_append (version : Int) (first second : List Bytes) (files : Files) :
    extractLines blobDir unmasked store version (first ++ second) files =
      extractLines blobDir unmasked store version first files >>=
        extractLines blobDir unmasked store version second := by
  induction first generalizing files with
  | nil => rfl
  | cons line first ih =>
    rw [cons_append, extractLines, extractLines]
    cases extractLine blobDir unmasked store version line files with
    | error halt => rfl
    | ok after => exact ih after

/-- What is known of the files while the directory at `d` is restored. -/
structure Restoring (files : Files) (place : List Bytes) (tree : Dir) : Prop where
  isDir : IsDir files place
  free : ∀ item ∈ tree.objects place, files item.1 = none

theorem objects_ne_place : ∀ item ∈ tree.objects place, item.1 ≠ place := by
  intro item member same
  obtain ⟨name, more, at_, -⟩ := Dir.mem_objects member
  rw [at_] at same
  exact absurd (append_right_eq_self.mp same) (cons_ne_nil _ _)

theorem IsDir.plant (isDir : IsDir files place) (absent : ∀ item ∈ items, item.1 ≠ place) :
    IsDir (plant files items) place := by
  rcases isDir with top | ⟨mode, uid, gid, found⟩
  · exact Or.inl top
  · exact Or.inr ⟨mode, uid, gid, by rw [plant_of_notMem absent, found]⟩

/-- Nothing in the rest of a directory is under a name that it does not have. -/
theorem Dir.objects_apart {rest : Dir} (fresh : name ∉ rest.names) (place more : List Bytes) :
    ∀ item ∈ rest.objects place, place ++ name :: more ≠ item.1 := by
  intro item member same
  obtain ⟨other, more', at_, inside⟩ := Dir.mem_objects member
  rw [at_] at same
  exact fresh ((cons.inj (append_cancel_left same)).1 ▸ inside)

theorem Restoring.next {rest : Dir} (isDir : IsDir files place)
    (free : ∀ item ∈ rest.objects place, files item.1 = none) (fresh : name ∉ rest.names)
    (under : ∀ item ∈ items, ∃ more, item.1 = place ++ name :: more) :
    Restoring (plant files items) place rest where
  isDir := isDir.plant fun item member same => by
    obtain ⟨more, at_⟩ := under item member
    rw [at_] at same
    exact absurd (append_right_eq_self.mp same) (cons_ne_nil _ _)
  free item member := by
    rw [plant_of_notMem, free item member]
    intro planted found
    obtain ⟨more, at_⟩ := under planted found
    rw [at_]
    exact Dir.objects_apart fresh place more item member

theorem unlessExcluded_none (path : Bytes) (text : List Bytes) : unlessExcluded [] path text = text :=
  if_neg not_mem_nil

/-- The lines of a tree put one object after the other at its place, up to the first
link whose target is too long. -/
theorem extractLines_manifestLines (room : blobDir.length + 66 < pathMax) (named : tree.WellNamed)
    (legible : tree.Legible) {d : Bytes} (leads : Leads d place) (plain : Plain d)
    (short : ∀ line ∈ manifestLines sha256 [] d tree, line.length < pathMax)
    (blobs : ∀ content ∈ storedContents [] d tree,
      store (outBlob sha256 blobDir content) = some (blob content))
    (restoring : Restoring files place tree) :
    extractLines blobDir unmasked store 2 (manifestLines sha256 [] d tree) files =
      if ∀ target ∈ tree.targets, target.length ≤ 40 then
        .ok (plant files (restoredItems blob (tree.objects place)))
      else .error (.fault .overrun) := by
  induction tree generalizing d place files with
  | empty => rfl
  | file entry content rest ih =>
    obtain ⟨ok, fresh, later⟩ := named
    obtain ⟨name, label, legibleRest⟩ := legible.file
    rw [manifestLines, unlessExcluded_none] at short ⊢
    rw [storedContents, unlessExcluded_none] at blobs
    obtain ⟨here, behind⟩ := forall_mem_cons.mp short
    obtain ⟨stored, blobsRest⟩ := forall_mem_cons.mp blobs
    obtain ⟨free, freeRest⟩ := forall_mem_cons.mp restoring.free
    have ready : Ready files entry d place :=
      ⟨label, plain.join name, leads.join ok, restoring.isDir, free⟩
    have next : Restoring (plant files [(place ++ [entry.name], restored blob
        (.file entry.st.mode.val entry.st.uid.toNat entry.st.gid.toNat content))]) place rest :=
      .next restoring.isDir freeRest fresh (forall_mem_singleton.mpr ⟨[], rfl⟩)
    rw [singleton_append, extractLines, extractLine_file ready room here stored, ok_bind]
    exact ih later legibleRest leads plain behind blobsRest next
  | link entry target rest ih =>
    obtain ⟨ok, fresh, later⟩ := named
    obtain ⟨name, plainTarget, label, legibleRest⟩ := legible.link
    rw [manifestLines, unlessExcluded_none] at short ⊢
    obtain ⟨here, behind⟩ := forall_mem_cons.mp short
    obtain ⟨free, freeRest⟩ := forall_mem_cons.mp restoring.free
    have ready : Ready files entry d place :=
      ⟨label, plain.join name, leads.join ok, restoring.isDir, free⟩
    have next : Restoring (plant files [(place ++ [entry.name], restored blob
        (.link entry.st.uid.toNat entry.st.gid.toNat target))]) place rest :=
      .next restoring.isDir freeRest fresh (forall_mem_singleton.mpr ⟨[], rfl⟩)
    rw [singleton_append, extractLines, extractLine_link ready plainTarget here]
    by_cases fits : target.length ≤ 40
    · have same : (∀ other ∈ (Dir.link entry target rest).targets, other.length ≤ 40) ↔
          ∀ other ∈ rest.targets, other.length ≤ 40 := by
        simp [Dir.targets, fits]
      rw [if_pos fits, ok_bind]
      simp only [same]
      exact ih later legibleRest leads plain behind blobs next
    · have long : ¬ ∀ other ∈ (Dir.link entry target rest).targets, other.length ≤ 40 :=
        fun all => fits (all target mem_cons_self)
      rw [if_neg fits, if_neg long]
      rfl
  | dir entry entries rest ihEntries ihRest =>
    obtain ⟨ok, fresh, below, later⟩ := named
    obtain ⟨name, label, legibleBelow, legibleRest⟩ := legible.dir
    rw [manifestLines, unlessExcluded_none] at short ⊢
    rw [storedContents, unlessExcluded_none] at blobs
    obtain ⟨inside, behind⟩ := forall_mem_append.mp short
    obtain ⟨here, shortBelow⟩ := forall_mem_cons.mp inside
    obtain ⟨blobsBelow, blobsRest⟩ := forall_mem_append.mp blobs
    obtain ⟨free, freeOthers⟩ := forall_mem_cons.mp restoring.free
    obtain ⟨freeBelow, freeRest⟩ := forall_mem_append.mp freeOthers
    have ready : Ready files entry d place :=
      ⟨label, plain.join name, leads.join ok, restoring.isDir, free⟩
    have restoringBelow : Restoring (update files (place ++ [entry.name])
        (some (restored blob (.dir entry.st.mode.val entry.st.uid.toNat entry.st.gid.toNat))))
        (place ++ [entry.name]) entries := by
      refine ⟨Or.inr ⟨_, _, _, update_self _ _ _⟩, ?_⟩
      intro item member
      rw [update_of_ne (objects_ne_place item member), freeBelow item member]
    have next : Restoring (plant files ((place ++ [entry.name], restored blob
        (.dir entry.st.mode.val entry.st.uid.toNat entry.st.gid.toNat)) ::
        restoredItems blob (entries.objects (place ++ [entry.name])))) place rest := by
      refine .next restoring.isDir freeRest fresh ?_
      refine forall_mem_cons.mpr ⟨⟨[], rfl⟩, ?_⟩
      intro item member
      obtain ⟨source, inside, rfl⟩ := mem_map.mp member
      obtain ⟨other, more, at_, -⟩ := Dir.mem_objects inside
      exact ⟨other :: more, by rw [at_, append_assoc, singleton_append]⟩
    have first := ihEntries below legibleBelow (leads.join ok) (plain.join name) shortBelow
      blobsBelow restoringBelow
    have second := ihRest later legibleRest leads plain behind blobsRest next
    rw [cons_append, extractLines, extractLine_dir ready here, ok_bind, extractLines_append]
    change extractLines blobDir unmasked store 2 _ (update files (place ++ [entry.name])
      (some (restored blob (.dir entry.st.mode.val entry.st.uid.toNat entry.st.gid.toNat)))) >>= _ = _
    rw [first]
    have both : (∀ target ∈ (Dir.dir entry entries rest).targets, target.length ≤ 40) ↔
        (∀ target ∈ entries.targets, target.length ≤ 40) ∧
          ∀ target ∈ rest.targets, target.length ≤ 40 := forall_mem_append
    by_cases fitsBelow : ∀ target ∈ entries.targets, target.length ≤ 40
    · have same := both.trans (and_iff_right fitsBelow)
      rw [if_pos fitsBelow, ok_bind]
      simp only [same]
      have items : restoredItems blob ((Dir.dir entry entries rest).objects place) =
          ((place ++ [entry.name], restored blob
            (.dir entry.st.mode.val entry.st.uid.toNat entry.st.gid.toNat)) ::
            restoredItems blob (entries.objects (place ++ [entry.name]))) ++
          restoredItems blob (rest.objects place) := by
        simp [Dir.objects, restoredItems]
      rw [items, plant_append]
      exact second
    · rw [if_neg fitsBelow, if_neg fun all => fitsBelow (both.mp all).1]
      rfl
  | special entry rest ih =>
    obtain ⟨ok, fresh, later⟩ := named
    exact ih later legible.special leads plain short blobs ⟨restoring.isDir, restoring.free⟩

end

/-! ## The round trip -/

/-- Every object of the tree is there, and it is the same. -/
def Restores (tree : Dir) (files : Files) : Prop :=
  ∀ item ∈ tree.objects [], files item.1 = some item.2

/-- What comes back unchanged: no sticky bit, identifiers that fit a `long`, and link
targets that fit their buffer. -/
def Object.Kept : Object → Prop
  | file mode uid gid _ => mode &&& 0o1000 = 0 ∧ uid < 2 ^ 31 ∧ gid < 2 ^ 31
  | link uid gid target => uid < 2 ^ 31 ∧ gid < 2 ^ 31 ∧ target.length ≤ 40
  | dir mode uid gid => mode &&& 0o1000 = 0 ∧ uid < 2 ^ 31 ∧ gid < 2 ^ 31

/-- The trees that come back, given the blobs that were there before. -/
structure Restorable (sha256 : Bytes → Digest) (blobDir : Bytes) (before : Store) (tree : Dir) :
    Prop where
  kept : ∀ item ∈ tree.objects [], item.2.Kept
  blobs : ∀ content ∈ storedContents [] (ascii ".") tree, ∀ old,
    before (outBlob sha256 blobDir content) = some old →
    toInt old.length = toInt content.length → old = content

theorem sticky_iff {mode : Nat} (small : mode < 0o10000) :
    mode &&& 0o6777 = mode ↔ mode &&& 0o1000 = 0 := by
  have all : ∀ high low : Fin 64, (64 * high.val + low.val) &&& 0o6777 = 64 * high.val + low.val ↔
        (64 * high.val + low.val) &&& 0o1000 = 0 := by decide +kernel
  have split : 64 * (mode / 64) + mode % 64 = mode := Nat.div_add_mod mode 64
  have here := all ⟨mode / 64, by omega⟩ ⟨mode % 64, Nat.mod_lt _ (by decide)⟩
  rwa [split] at here

theorem heldId_iff (id : Nat) : heldId id = id ↔ id < 2 ^ 31 := by
  rw [heldId]
  omega

/-- An object whose mode has 12 bits and whose data are among these. -/
def Object.Within (contents targets : List Bytes) : Object → Prop
  | file mode _ _ content => mode < 0o10000 ∧ content ∈ contents
  | link _ _ target => target ∈ targets
  | dir mode _ _ => mode < 0o10000

theorem Object.Within.mono {targets contents' targets' : List Bytes} {object : Object}
    (within : object.Within contents targets) (more : ∀ content ∈ contents, content ∈ contents')
    (moreTargets : ∀ target ∈ targets, target ∈ targets') : object.Within contents' targets' := by
  cases object with
  | file mode uid gid content => exact ⟨within.1, more content within.2⟩
  | link uid gid target => exact moreTargets target within
  | dir mode uid gid => exact within

theorem Dir.objects_within (d : Bytes) (member : item ∈ tree.objects place) :
    item.2.Within (storedContents [] d tree) tree.targets := by
  induction tree generalizing place d with
  | empty => cases member
  | file entry content rest ih =>
    rw [storedContents, unlessExcluded_none]
    rcases mem_cons.mp member with rfl | later
    · exact ⟨entry.st.mode.isLt, mem_cons_self⟩
    · exact (ih d later).mono (fun _ => mem_cons_of_mem _) fun _ => id
  | link entry target rest ih =>
    rcases mem_cons.mp member with rfl | later
    · exact mem_cons_self
    · exact (ih d later).mono (fun _ => id) fun _ => mem_cons_of_mem _
  | dir entry entries rest ihEntries ihRest =>
    rw [storedContents, unlessExcluded_none]
    rcases mem_cons.mp member with rfl | others
    · exact entry.st.mode.isLt
    · rcases mem_append.mp others with below | later
      · exact (ihEntries _ below).mono (fun _ => mem_append_left _) fun _ => mem_append_left _
      · exact (ihRest d later).mono (fun _ => mem_append_right _) fun _ => mem_append_right _
  | special entry rest ih => exact ih d member

theorem Dir.file_of_content {d content : Bytes} (place : List Bytes)
    (stored : content ∈ storedContents [] d tree) :
    ∃ item ∈ tree.objects place, ∃ mode uid gid, item.2 = .file mode uid gid content := by
  induction tree generalizing place d with
  | empty => cases stored
  | file entry other rest ih =>
    rw [storedContents, unlessExcluded_none] at stored
    rcases mem_cons.mp stored with rfl | later
    · exact exists_mem_cons_of _ ⟨_, _, _, rfl⟩
    · exact exists_mem_cons_of_exists (ih place later)
  | link entry target rest ih => exact exists_mem_cons_of_exists (ih place stored)
  | dir entry entries rest ihEntries ihRest =>
    rw [storedContents, unlessExcluded_none] at stored
    refine exists_mem_cons_of_exists ?_
    simp only [mem_append, or_and_right, exists_or]
    exact (mem_append.mp stored).imp (ihEntries _) (ihRest place)
  | special entry rest ih => exact ih place stored

theorem Dir.link_of_target {target : Bytes} (place : List Bytes) (linked : target ∈ tree.targets) :
    ∃ item ∈ tree.objects place, ∃ uid gid, item.2 = .link uid gid target := by
  induction tree generalizing place with
  | empty => cases linked
  | file entry content rest ih => exact exists_mem_cons_of_exists (ih place linked)
  | link entry other rest ih =>
    rcases mem_cons.mp linked with rfl | later
    · exact exists_mem_cons_of _ ⟨_, _, rfl⟩
    · exact exists_mem_cons_of_exists (ih place later)
  | dir entry entries rest ihEntries ihRest =>
    refine exists_mem_cons_of_exists ?_
    simp only [mem_append, or_and_right, exists_or]
    exact (mem_append.mp linked).imp (ihEntries _) (ihRest place)
  | special entry rest ih => exact ih place linked

theorem Dir.objects_distinct (named : tree.WellNamed) (place : List Bytes) :
    (tree.objects place).Pairwise fun first second => first.1 ≠ second.1 := by
  induction tree generalizing place with
  | empty => exact .nil
  | file entry content rest ih | link entry content rest ih =>
    obtain ⟨-, fresh, later⟩ := named
    exact pairwise_cons.mpr ⟨objects_apart fresh place [], ih later place⟩
  | dir entry entries rest ihEntries ihRest =>
    obtain ⟨-, fresh, below, later⟩ := named
    refine pairwise_cons.mpr ⟨?_, pairwise_append.mpr ⟨ihEntries below _, ihRest later place, ?_⟩⟩
    · exact forall_mem_append.mpr
        ⟨fun item inside => (objects_ne_place item inside).symm, objects_apart fresh place []⟩
    · intro item inside other behind
      obtain ⟨name, more, at_, -⟩ := Dir.mem_objects inside
      rw [at_, append_assoc, singleton_append]
      exact objects_apart fresh place (name :: more) other behind
  | special entry rest ih => exact ih named.2.2 place

theorem plant_of_mem (distinct : items.Pairwise fun first second => first.1 ≠ second.1)
    (files : Files) (member : item ∈ items) : plant files items item.1 = some item.2 := by
  induction items generalizing files with
  | nil => cases member
  | cons first items ih =>
    obtain ⟨apart, later⟩ := pairwise_cons.mp distinct
    rcases mem_cons.mp member with rfl | behind
    · rw [plant, plant_of_notMem fun other inside => (apart other inside).symm, update_self]
    · exact ih later _ behind

theorem plant_restoredItems (named : tree.WellNamed) (blob : Bytes → Bytes)
    (member : item ∈ tree.objects []) :
    plant (fun _ => none) (restoredItems blob (tree.objects [])) item.1 =
      some (restored blob item.2) := by
  have distinct : (restoredItems blob (tree.objects [])).Pairwise
      fun first second => first.1 ≠ second.1 := pairwise_map.mpr (Dir.objects_distinct named [])
  exact plant_of_mem distinct _ (mem_map.mpr ⟨item, member, rfl⟩)

/-- An object comes back unchanged exactly if it is one that does, and its blob is its
content. -/
theorem restored_iff {targets : List Bytes} {object : Object}
    (within : object.Within contents targets) (short : ∀ target ∈ targets, target.length ≤ 40) :
    restored blob object = object ↔ object.Kept ∧
      ∀ mode uid gid content, object = .file mode uid gid content → blob content = content := by
  cases object with
  | file mode uid gid content =>
    simp only [restored, Object.file.injEq, sticky_iff within.1, heldId_iff, Object.Kept]
    constructor
    · rintro ⟨noSticky, smallUid, smallGid, same⟩
      refine ⟨⟨noSticky, smallUid, smallGid⟩, ?_⟩
      rintro _ _ _ _ ⟨-, -, -, rfl⟩
      exact same
    · rintro ⟨⟨noSticky, smallUid, smallGid⟩, same⟩
      exact ⟨noSticky, smallUid, smallGid, same _ _ _ _ ⟨rfl, rfl, rfl, rfl⟩⟩
  | link uid gid target =>
    simp [restored, heldId_iff, Object.Kept, short target within]
  | dir mode uid gid =>
    simp [restored, sticky_iff (show mode < 0o10000 from within), heldId_iff, Object.Kept]

/-- What a `c` run that returned 0 leaves behind. -/
theorem backup_leaves (free : CollisionFree sha256 (storedContents [] (ascii ".") tree))
    {choices : List StoreChoice} {text : Bytes}
    (ended : (blobStore.exec (backup sha256 blobDir [] tree) choices before).2 = .done (0, text))
    (truthful : ∀ step ∈ blobStore.steps (backup sha256 blobDir [] tree) choices before,
      Truthful step) :
    text = manifestText sha256 [] tree ∧ ∀ content ∈ storedContents [] (ascii ".") tree, ∃ blob,
        Expected sha256 blobDir before content blob ∧
          (blobStore.exec (backup sha256 blobDir [] tree) choices before).1
            (outBlob sha256 blobDir content) = some blob := by
  have started : Advanced sha256 blobDir before (storedContents [] (ascii ".") tree) before :=
    fun _ _ => Or.inl rfl
  have safe := backup_safe (keeps_expected free) (.inl trivial : True ∨ _)
    (fun _ _ => .inl trivial) started
  obtain ⟨same, -, each⟩ := (safe.exec started fun step member _ => truthful step member).2 _ ended rfl
  exact ⟨same, fun content member => (each content member).2⟩

/-- The blob of a content is right exactly if no other blob of its size was there. -/
theorem Expected.right_iff {content blob : Bytes}
    (expected : Expected sha256 blobDir before content blob) :
    blob = content ↔ ∀ old, before (outBlob sha256 blobDir content) = some old →
      toInt old.length = toInt content.length → old = content := by
  rcases expected with ⟨⟨old, found, size⟩, stored⟩ | ⟨fresh, rfl⟩
  · have same : old = blob := Option.some.inj (found.symm.trans stored)
    subst same
    constructor
    · rintro rfl other again _
      exact Option.some.inj (again.symm.trans found)
    · intro right
      exact right old found size
  · refine iff_of_true rfl ?_
    intro old found size
    exact absurd ⟨old, found, size⟩ fresh

/-- A tree that was stored is restored exactly if it has no sticky bit, its identifiers
fit a `long`, its link targets fit their buffer, and no blob of the name and size of one
of its files held something else before. -/
theorem restore_iff (room : blobDir.length + 70 < pathMax) {tree : Dir} (named : tree.WellNamed)
    (storable : Storable sha256 [] tree)
    (free : CollisionFree sha256 (storedContents [] (ascii ".") tree)) {before : Store}
    {choices : List StoreChoice} {text : Bytes}
    (ended : (blobStore.exec (backup sha256 blobDir [] tree) choices before).2 = .done (0, text))
    (truthful : ∀ step ∈ blobStore.steps (backup sha256 blobDir [] tree) choices before,
      Truthful step) (unmasked : Nat) (stack : Bytes) : (∃ files, extract blobDir unmasked
        (blobStore.exec (backup sha256 blobDir [] tree) choices before).1 stack text = .ok files ∧
      Restores tree files) ↔ Restorable sha256 blobDir before tree := by
  obtain ⟨rfl, left⟩ := backup_leaves free ended truthful
  generalize (blobStore.exec (backup sha256 blobDir [] tree) choices before).1 = after at left
  -- the blobs as a function of the contents they stand for
  let blob : Bytes → Bytes := fun content => (after (outBlob sha256 blobDir content)).getD []
  have blobs : ∀ content ∈ storedContents [] (ascii ".") tree,
      after (outBlob sha256 blobDir content) = some (blob content) ∧
        Expected sha256 blobDir before content (blob content) := by
    intro content member
    obtain ⟨held, expected, found⟩ := left content member
    have same : blob content = held := by simp only [blob, found, Option.getD_some]
    rw [same]
    exact ⟨found, expected⟩
  have run : extract blobDir unmasked after stack (manifestText sha256 [] tree) =
      if ∀ target ∈ tree.targets, target.length ≤ 40 then
        .ok (plant (fun _ => none) (restoredItems blob (tree.objects [])))
      else .error (.fault .overrun) := by
    have opened : openManifest stack (fgetsLines (manifestText sha256 [] tree)) =
        (2, manifestLines sha256 [] (ascii ".") tree) := by
      rw [fgetsLines_manifestText storable.legible storable.lines, openManifest_versionLine]
    simp only [extract, opened]
    rw [if_neg (show ¬ dedupeVersion < 2 by decide)]
    exact extractLines_manifestLines (by omega) named storable.legible leads_start (by decide)
      storable.lines (fun content member => (blobs content member).1) ⟨Or.inl rfl, fun _ _ => rfl⟩
  rw [run]
  have found := fun item (member : item ∈ tree.objects []) => plant_restoredItems named blob member
  have within := fun item (member : item ∈ tree.objects []) =>
    Dir.objects_within (ascii ".") member
  constructor
  · rintro ⟨files, succeeded, restores⟩
    split at succeeded
    next short =>
      cases succeeded
      have same : ∀ item ∈ tree.objects [], restored blob item.2 = item.2 := fun item member =>
        Option.some.inj ((found item member).symm.trans (restores item member))
      have each := fun item member => (restored_iff (within item member) short).mp (same item member)
      refine ⟨fun item member => (each item member).1, ?_⟩
      intro content member
      obtain ⟨item, inside, mode, uid, gid, same⟩ := Dir.file_of_content [] member
      exact (blobs content member).2.right_iff.mp ((each item inside).2 mode uid gid content same)
    next => cases succeeded
  intro restorable
  have short : ∀ target ∈ tree.targets, target.length ≤ 40 := by
    intro target member
    obtain ⟨⟨place, _⟩, inside, uid, gid, rfl⟩ := Dir.link_of_target [] member
    exact (restorable.kept _ inside).2.2
  rw [if_pos short]
  refine ⟨_, rfl, fun item member => ?_⟩
  rw [found item member]
  refine congrArg some ((restored_iff (within item member) short).mpr
    ⟨restorable.kept item member, ?_⟩)
  intro mode uid gid content same
  have data := within item member
  rw [same] at data
  exact (blobs content data.2).2.right_iff.mpr (restorable.blobs content data.2)

/-- A directory whose mode is given, with a file and a link to it. -/
def sampleDirectory (mode : Fin 0o10000) : Dir :=
  .dir ⟨ascii "tmp", ⟨mode, 0, 0, 1, 2, 3⟩, none⟩
    (.file ⟨ascii "a", ⟨0o644, 1000, 1000, 1, 2, 3⟩, none⟩ [1]
      (.link ⟨ascii "b", ⟨0o777, 0, 0, 1, 2, 3⟩, none⟩ (ascii "a") .empty)) .empty

/-- The run that stores it into an empty blob directory. -/
def sampleRun (mode : Fin 0o10000) : Store × Outcome (Int × Bytes) :=
  blobStore.exec (backup sampleSha (ascii "/blobs") [] (sampleDirectory mode)) (replicate 20 .ok)
    fun _ => none

/-- The sticky bit of a directory is lost: `tmp` with mode 01777 comes back with 0777. -/
theorem restore_loses_sticky_bit :
    (sampleRun 0o1777).2 = .done (0, manifestText sampleSha [] (sampleDirectory 0o1777)) ∧
      ¬ ∃ files, extract (ascii "/blobs") 0o755 (sampleRun 0o1777).1 []
        (manifestText sampleSha [] (sampleDirectory 0o1777)) = .ok files ∧
          Restores (sampleDirectory 0o1777) files := by
  refine ⟨by decide +kernel, ?_⟩
  rintro ⟨files, restored, restores⟩
  have place : (([ascii "tmp"], .dir 0o1777 0 0) : List Bytes × Object) ∈
      (sampleDirectory 0o1777).objects [] := mem_cons_self
  have there : (extract (ascii "/blobs") 0o755 (sampleRun 0o1777).1 []
      (manifestText sampleSha [] (sampleDirectory 0o1777))).toOption.bind (· [ascii "tmp"]) =
        some (.dir 0o777 0 0) := by decide +kernel
  rw [restored] at there
  have both := there.symm.trans (restores _ place)
  exact absurd both (by decide)

/-- Without the sticky bit, everything comes back. -/
theorem restore_iff_without_sticky_bit :
    ∃ files, extract (ascii "/blobs") 0o755 (sampleRun 0o755).1 []
        (manifestText sampleSha [] (sampleDirectory 0o755)) = .ok files ∧
      Restores (sampleDirectory 0o755) files := by
  have named : (sampleDirectory 0o755).WellNamed :=
    ⟨⟨by decide, by decide, by decide, by decide⟩, not_mem_nil,
      ⟨⟨by decide, by decide, by decide, by decide⟩, by decide,
        ⟨by decide, by decide, by decide, by decide⟩, not_mem_nil, trivial⟩, trivial⟩
  have storable : Storable sampleSha [] (sampleDirectory 0o755) :=
    ⟨by decide +kernel, by decide +kernel, by unfold ShortLines; decide +kernel⟩
  have contents : storedContents [] (ascii ".") (sampleDirectory 0o755) = [[1]] := by decide +kernel
  have free : CollisionFree sampleSha (storedContents [] (ascii ".") (sampleDirectory 0o755)) := by
    rw [contents]
    exact fun _ left _ right _ => (mem_singleton.mp left).trans (mem_singleton.mp right).symm
  have ended : (sampleRun 0o755).2 =
      .done (0, manifestText sampleSha [] (sampleDirectory 0o755)) := by decide +kernel
  refine (restore_iff (by decide) named storable free ended ?_ 0o755 []).mpr ⟨?_, fun _ _ => nofun⟩
  · intro step member path _
    rw [eq_of_mem_replicate (blobStore.choice_mem member)]
    decide
  · exact forall_mem_cons.mpr ⟨⟨by decide, by decide, by decide⟩, forall_mem_cons.mpr
      ⟨⟨by decide, by decide, by decide⟩, forall_mem_singleton.mpr ⟨by decide, by decide, by decide⟩⟩⟩

end PhilzTouch.Dedupe
