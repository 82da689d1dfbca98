import PhilzTouch.Dedupe.StoreSpec
import PhilzTouch.Dedupe.GcLossless

/-!
# Manifests that were written are read back

If names, labels and link targets hold no tab, no newline and no NUL, and no line is too
long for the line buffer, then every line that `dedupe c` prints is taken apart into the
fields it was printed from.
-/

namespace PhilzTouch.Dedupe

open List

variable {sha256 : Bytes → Digest} {blobDir : Bytes} {excludes : List Bytes}

/-- A text that a field of a manifest can hold. -/
def Plain (text : Bytes) : Prop := tab ∉ text ∧ newline ∉ text ∧ (0 : UInt8) ∉ text

instance (text : Bytes) : Decidable (Plain text) := inferInstanceAs (Decidable (_ ∧ _ ∧ _))

variable {left right : Bytes}

theorem Plain.append (first : Plain left) (second : Plain right) : Plain (left ++ right) := by
  simp only [Plain, mem_append, not_or]
  exact ⟨⟨first.1, second.1⟩, ⟨first.2.1, second.2.1⟩, ⟨first.2.2, second.2.2⟩⟩

theorem Plain.join {d name : Bytes} (first : Plain d) (second : Plain name) : Plain (join d name) :=
  first.append (.append (show Plain [slash] by decide) second)

theorem plain_digits {text : Bytes} (digits : ∀ char ∈ text, isDigit char = true) : Plain text :=
  ⟨notMem_of_isDigit digits rfl, notMem_of_isDigit digits rfl, notMem_of_isDigit digits rfl⟩

theorem plain_decimal (value : Nat) : Plain (numeral 10 value) :=
  plain_digits (numeral_isDigit (by decide) (by decide) value)

theorem plain_octal (value : Nat) : Plain (numeral 8 value) :=
  plain_digits (numeral_isDigit (by decide) (by decide) value)

theorem plain_numeralInt (value : Int) : Plain (numeralInt value) := by
  rw [numeralInt]
  split
  · exact .append (show Plain [byte '-'] by decide) (plain_decimal _)
  · exact plain_decimal _

theorem plain_hexDigit {value : Nat} (small : value < 16) : Plain [hexDigit value] := by
  interval_cases value <;> decide

theorem plain_psum (digest : Digest) : Plain (psum digest) := by
  rw [psum]
  generalize digest.1 = bytes
  induction bytes with
  | nil => decide
  | cons value bytes ih =>
    have high : Plain [hexDigit (value.toNat / 16)] := plain_hexDigit (by
      have bound := value.toNat_lt
      omega)
    have low : Plain [hexDigit (value.toNat % 16)] := plain_hexDigit (Nat.mod_lt _ (by decide))
    exact (high.append low).append ih

theorem Plain.sublist {text part : Bytes} (plain : Plain text) (sub : part.Sublist text) :
    Plain part :=
  ⟨fun member => plain.1 (sub.subset member), fun member => plain.2.1 (sub.subset member),
    fun member => plain.2.2 (sub.subset member)⟩

theorem plain_blobKey (digest : Digest) : Plain (blobKey digest) :=
  ((plain_psum digest).sublist (take_sublist _ _)).append
    (.append (show Plain [slash] by decide) ((plain_psum digest).sublist (drop_sublist _ _)))

/-! ## Reading a line -/

@[simp] theorem ok_bind {ε α β : Type} (value : α) (next : α → Except ε β) :
    (Except.ok value >>= next) = next value := rfl

theorem tokenize_append {room : Nat} {sep : UInt8} {token : Bytes} (absent : sep ∉ token)
    (fits : token.length < room) (rest : Bytes) :
    tokenize room sep (some (token ++ sep :: rest)) = .ok (token, some rest) := by
  rw [tokenize, cut_append absent]
  simp only [if_pos fits]

theorem length_numeral_uint32 (value : UInt32) : (numeral 10 value.toNat).length < 32 := by
  have bound : value.toNat < 10 ^ 10 := lt_of_lt_of_le value.toNat_lt (by decide)
  exact lt_of_le_of_lt (length_numeral (by decide) bound (by decide)) (by decide)

theorem length_numeral_mode (mode : Fin 0o10000) :
    (numeral 8 (mode.val &&& 0o6777)).length < 8 := by
  have bound : mode.val &&& 0o6777 < 8 ^ 4 := lt_of_le_of_lt Nat.and_le_left mode.isLt
  exact lt_of_le_of_lt (length_numeral (by decide) bound (by decide)) (by decide)

theorem length_numeralInt (value : Int) : (numeralInt (toInt value)).length < 32 := by
  have low : -(2 ^ 31) ≤ toInt value := Int.le_bmod (by decide)
  have high : toInt value < 2 ^ 31 := Int.bmod_lt (by decide)
  have bound : (toInt value).natAbs < 10 ^ 10 := by omega
  have digits : (numeral 10 (toInt value).natAbs).length ≤ 10 :=
    length_numeral (by decide) bound (by decide)
  rw [numeralInt]
  split
  · rw [length_cons]
    omega
  · omega

/-- A text that can stand within a line. -/
def Inline (text : Bytes) : Prop := newline ∉ text ∧ (0 : UInt8) ∉ text

theorem inline_nil : Inline [] := ⟨not_mem_nil, not_mem_nil⟩

theorem Inline.append (first : Inline left) (second : Inline right) : Inline (left ++ right) :=
  ⟨not_mem_append first.1 second.1, not_mem_append first.2 second.2⟩

theorem Inline.field {text rest : Bytes} (first : Inline text) (later : Inline rest) :
    Inline (text ++ tab :: rest) :=
  first.append (.append (show Inline [tab] from ⟨by decide, by decide⟩) later)

/-- A line that ends in its only newline and holds no NUL. -/
def IsLine (line : Bytes) : Prop :=
  (∃ body, line = body ++ [newline] ∧ newline ∉ body) ∧ (0 : UInt8) ∉ line

theorem isLine_append {front back : Bytes} (first : Inline front) (second : Inline back) :
    IsLine (front ++ (back ++ [newline])) := by
  have both := first.append second
  rw [← append_assoc]
  exact ⟨⟨_, rfl, both.1⟩, not_mem_append both.2 (by decide)⟩

theorem isLine_fields {front key size : Bytes} (first : Inline front) (plainKey : Plain key)
    (plainSize : Plain size) : IsLine (front ++ (key ++ tab :: (size ++ [tab, newline]))) := by
  have ended : key ++ tab :: (size ++ [tab, newline]) =
      (key ++ tab :: (size ++ [tab])) ++ [newline] := by simp
  rw [ended]
  exact isLine_append first (.field plainKey.2 (.field plainSize.2 inline_nil))

theorem cString_of_isLine {line : Bytes} (isLine : IsLine line) : cString line = line :=
  cString_eq_self isLine.2

/-- The record that is read from the line of an entry. -/
def recordOf (type : Char) (entry : Entry) (path tail : Bytes) : Record :=
  ⟨[byte type], numeral 8 (entry.st.mode.val &&& 0o6777), numeral 10 entry.st.uid.toNat,
    numeral 10 entry.st.gid.toNat, path, some tail⟩

section

variable {type : Char} {entry : Entry} {path : Bytes} (label : ∀ text ∈ entry.label, Plain text)
  (plain : Plain path)

include label

theorem plain_label : Plain (entry.label.getD (ascii "unlabel")) := by
  cases known : entry.label with
  | none => decide
  | some text => exact label text known

include plain

theorem readRecord_printStat {tail : Bytes} (typed : byte type ≠ tab)
    (short : (printStat type entry path ++ tail).length < pathMax) :
    readRecord 2 (printStat type entry path ++ tail) = .ok (recordOf type entry path tail) := by
  simp only [printStat, append_assoc, cons_append, nil_append, length_append, length_cons] at short
  have line : printStat type entry path ++ tail = [byte type] ++ tab ::
      (numeral 8 (entry.st.mode.val &&& 0o6777) ++ tab :: (numeral 10 entry.st.uid.toNat ++ tab ::
        (numeral 10 entry.st.gid.toNat ++ tab :: (entry.label.getD (ascii "unlabel") ++ tab ::
          (numeral 10 entry.st.atime.toNat ++ tab :: (numeral 10 entry.st.mtime.toNat ++ tab ::
            (numeral 10 entry.st.ctime.toNat ++ tab :: (path ++ tab :: tail)))))))) := by
    simp only [printStat, append_assoc, cons_append, nil_append]
  have typeFree : tab ∉ [byte type] := by
    simpa using fun same : tab = byte type => typed same.symm
  have typeRead : ∀ rest, tokenize 4 tab (some ([byte type] ++ tab :: rest)) =
      .ok ([byte type], some rest) := tokenize_append typeFree (by simp)
  have modeRead := fun rest =>
    tokenize_append (plain_octal (entry.st.mode.val &&& 0o6777)).1
      (length_numeral_mode entry.st.mode) rest
  have numberRead := fun (value : UInt32) rest =>
    tokenize_append (plain_decimal value.toNat).1 (length_numeral_uint32 value) rest
  have labelRead : ∀ rest,
      tokenize pathMax tab (some (entry.label.getD (ascii "unlabel") ++ tab :: rest)) =
        .ok (entry.label.getD (ascii "unlabel"), some rest) :=
    tokenize_append (plain_label label).1 (by omega)
  have pathRead : ∀ rest, tokenize pathMax tab (some (path ++ tab :: rest)) =
      .ok (path, some rest) := tokenize_append plain.1 (by omega)
  simp only [line, readRecord, readTimes, typeRead, modeRead, numberRead, labelRead, pathRead,
    ok_bind, pure_bind, if_pos le_rfl]
  rfl

theorem inline_printStat (typed : Plain [byte type]) : Inline (printStat type entry path) := by
  have decimal := fun value : UInt32 => (plain_decimal value.toNat).2
  refine .field typed.2 (.field (plain_octal _).2 (.field (decimal _) (.field (decimal _) ?_)))
  refine .field (plain_label label).2 (.field (decimal _) (.field (decimal _) ?_))
  exact .field (decimal _) (.field plain.2 inline_nil)

theorem isLine_file (content : Bytes) :
    IsLine (printStat 'f' entry path ++ printBlob sha256 content) :=
  isLine_fields (inline_printStat label plain (by decide)) (plain_blobKey _) (plain_numeralInt _)

theorem isLine_link {target : Bytes} (plainTarget : Plain target) :
    IsLine (printStat 'l' entry path ++ printTarget target) := by
  have printed : printTarget target = (target ++ [tab]) ++ [newline] := by simp [printTarget]
  rw [printed]
  exact isLine_append (inline_printStat label plain (by decide)) (.field plainTarget.2 inline_nil)

theorem isLine_dir : IsLine (printStat 'd' entry path ++ [newline]) :=
  isLine_append (inline_printStat label plain (by decide)) inline_nil

theorem gcLine_blob {key size : Bytes} (plainKey : Plain key) (plainSize : Plain size)
    (shortKey : key.length < 128) (shortSize : size.length < 32)
    (short : (printStat 'f' entry path ++ (key ++ tab :: (size ++ [tab, newline]))).length < pathMax)
    (room : (join blobDir key).length < pathMax) :
    gcLine blobDir 2 (printStat 'f' entry path ++ (key ++ tab :: (size ++ [tab, newline]))) =
      .ok (some (join blobDir key)) := by
  have keyRead := tokenize_append plainKey.1 shortKey (size ++ [tab, newline])
  have sizeRead : tokenize 32 tab (some (size ++ [tab, newline])) = .ok (size, some [newline]) :=
    tokenize_append plainSize.1 shortSize [newline]
  have isLine : IsLine (printStat 'f' entry path ++ (key ++ tab :: (size ++ [tab, newline]))) :=
    isLine_fields (inline_printStat label plain (by decide)) plainKey plainSize
  rw [gcLine, cString_of_isLine isLine, readRecord_printStat label plain (by decide) short, ok_bind,
    if_pos (show (recordOf 'f' entry path _).type = fileType from rfl)]
  simp only [recordOf, keyRead, sizeRead, ok_bind, if_pos room]
  rfl

theorem gcLine_file (content : Bytes)
    (short : (printStat 'f' entry path ++ printBlob sha256 content).length < pathMax)
    (room : blobDir.length + 66 < pathMax) :
    gcLine blobDir 2 (printStat 'f' entry path ++ printBlob sha256 content) =
      .ok (some (outBlob sha256 blobDir content)) := by
  have fits : (outBlob sha256 blobDir content).length < pathMax := by
    rw [length_outBlob]
    exact room
  rw [printBlob] at short ⊢
  exact gcLine_blob label plain (plain_blobKey _) (plain_numeralInt _)
    (by rw [length_blobKey]; decide) (length_numeralInt _) short fits

theorem gcLine_other {tail : Bytes} (typed : byte type ≠ tab) (other : [byte type] ≠ fileType)
    (isLine : IsLine (printStat type entry path ++ tail))
    (short : (printStat type entry path ++ tail).length < pathMax) :
    gcLine blobDir 2 (printStat type entry path ++ tail) = .ok none := by
  rw [gcLine, cString_of_isLine isLine, readRecord_printStat label plain typed short, ok_bind,
    if_neg (show (recordOf type entry path tail).type ≠ fileType from other)]
  rfl

end

/-! ## The lines of a tree -/

/-- The texts of a tree that its manifest holds. -/
def Dir.texts : Dir → List Bytes
  | empty => []
  | file entry _ rest => entry.name :: (entry.label.toList ++ rest.texts)
  | link entry target rest => entry.name :: target :: (entry.label.toList ++ rest.texts)
  | dir entry entries rest =>
    entry.name :: (entry.label.toList ++ (entries.texts ++ rest.texts))
  | special entry rest => entry.name :: (entry.label.toList ++ rest.texts)

/-! ## What `gc` finds on the lines of a tree -/

theorem gcLines_append {version : Int} {first second firstUsed secondUsed : List Bytes}
    (readFirst : gcLines blobDir version first = .ok firstUsed)
    (readSecond : gcLines blobDir version second = .ok secondUsed) :
    gcLines blobDir version (first ++ second) = .ok (firstUsed ++ secondUsed) := by
  induction first generalizing firstUsed with
  | nil =>
    cases readFirst
    exact readSecond
  | cons line first ih =>
    obtain ⟨blob, lineRead, readFirst⟩ := bind_ok readFirst
    obtain ⟨more, moreRead, readFirst⟩ := bind_ok readFirst
    cases readFirst
    rw [cons_append, gcLines, lineRead, ok_bind, ih moreRead, ok_bind, append_assoc]
    rfl

/-- Names, labels and link targets hold no tab, no newline and no NUL. -/
def Dir.Legible (tree : Dir) : Prop := ∀ text ∈ tree.texts, Plain text

instance (tree : Dir) : Decidable tree.Legible := inferInstanceAs (Decidable (∀ _ ∈ _, _))

namespace Dir.Legible

variable {entry : Entry} {content target : Bytes} {entries rest : Dir}

theorem file (legible : (Dir.file entry content rest).Legible) :
    Plain entry.name ∧ (∀ text ∈ entry.label, Plain text) ∧ rest.Legible := by
  simpa only [Legible, texts, forall_mem_cons, forall_mem_append, Option.mem_toList, Option.mem_def]
    using legible

theorem link (legible : (Dir.link entry target rest).Legible) :
    Plain entry.name ∧ Plain target ∧ (∀ text ∈ entry.label, Plain text) ∧ rest.Legible := by
  simpa only [Legible, texts, forall_mem_cons, forall_mem_append, Option.mem_toList, Option.mem_def]
    using legible

theorem dir (legible : (Dir.dir entry entries rest).Legible) :
    Plain entry.name ∧ (∀ text ∈ entry.label, Plain text) ∧ entries.Legible ∧ rest.Legible := by
  simpa only [Legible, texts, forall_mem_cons, forall_mem_append, Option.mem_toList, Option.mem_def]
    using legible

theorem special (legible : (Dir.special entry rest).Legible) : rest.Legible := by
  have all : Plain entry.name ∧ (∀ text ∈ entry.label, Plain text) ∧ rest.Legible := by
    simpa only [Legible, texts, forall_mem_cons, forall_mem_append, Option.mem_toList,
    Option.mem_def] using legible
  exact all.2.2

end Dir.Legible

variable {text : List Bytes}

theorem forall_mem_unlessExcluded {holds : Bytes → Prop} (all : ∀ line ∈ text, holds line) :
    ∀ line ∈ unlessExcluded excludes path text, holds line :=
  fun line member => all line (mem_unlessExcluded.mp member).2

variable {tree : Dir}

theorem manifestLines_isLine (legible : tree.Legible) {d : Bytes} (plain : Plain d) :
    ∀ line ∈ manifestLines sha256 excludes d tree, IsLine line := by
  induction tree generalizing d with
  | empty => exact fun line member => absurd member not_mem_nil
  | file entry content rest ih =>
    obtain ⟨name, label, later⟩ := legible.file
    refine forall_mem_append.mpr ⟨forall_mem_unlessExcluded ?_, ih later plain⟩
    exact forall_mem_singleton.mpr (isLine_file label (plain.join name) content)
  | link entry target rest ih =>
    obtain ⟨name, plainTarget, label, later⟩ := legible.link
    refine forall_mem_append.mpr ⟨forall_mem_unlessExcluded ?_, ih later plain⟩
    exact forall_mem_singleton.mpr (isLine_link label (plain.join name) plainTarget)
  | dir entry entries rest ihEntries ihRest =>
    obtain ⟨name, label, below, later⟩ := legible.dir
    refine forall_mem_append.mpr ⟨forall_mem_unlessExcluded ?_, ihRest later plain⟩
    exact forall_mem_cons.mpr
      ⟨isLine_dir label (plain.join name), ihEntries below (plain.join name)⟩
  | special entry rest ih => exact ih legible.special plain

theorem gcLines_unlessExcluded {used : List Bytes}
    (read : path ∉ excludes → gcLines blobDir 2 text = .ok used) :
    gcLines blobDir 2 (unlessExcluded excludes path text) =
      .ok (unlessExcluded excludes path used) := by
  rw [unlessExcluded, unlessExcluded]
  split
  next => rfl
  next included => exact read included

theorem map_unlessExcluded (path : Bytes) (f : Bytes → Bytes) (text : List Bytes) :
    (unlessExcluded excludes path text).map f = unlessExcluded excludes path (text.map f) := by
  rw [unlessExcluded, unlessExcluded]
  split <;> rfl

theorem gcLines_manifestLines (room : blobDir.length + 66 < pathMax) (legible : tree.Legible)
    {d : Bytes} (plain : Plain d)
    (short : ∀ line ∈ manifestLines sha256 excludes d tree, line.length < pathMax) :
    gcLines blobDir 2 (manifestLines sha256 excludes d tree) =
      .ok ((storedContents excludes d tree).map (outBlob sha256 blobDir)) := by
  induction tree generalizing d with
  | empty => rfl
  | file entry content rest ih =>
    obtain ⟨name, label, later⟩ := legible.file
    obtain ⟨here, behind⟩ := forall_mem_append.mp short
    rw [storedContents, map_append, map_unlessExcluded]
    refine gcLines_append (gcLines_unlessExcluded fun included => ?_) (ih later plain behind)
    have fits := here _ (mem_unlessExcluded.mpr ⟨included, mem_cons_self⟩)
    rw [gcLines, gcLine_file label (plain.join name) content fits room]
    rfl
  | link entry target rest ih =>
    obtain ⟨name, plainTarget, label, later⟩ := legible.link
    obtain ⟨here, behind⟩ := forall_mem_append.mp short
    have noBlob : gcLines blobDir 2 (unlessExcluded excludes (join d entry.name)
        [printStat 'l' entry (join d entry.name) ++ printTarget target]) =
        .ok (unlessExcluded excludes (join d entry.name) []) := by
      refine gcLines_unlessExcluded fun included => ?_
      have fits := here _ (mem_unlessExcluded.mpr ⟨included, mem_cons_self⟩)
      have isLine : IsLine (printStat 'l' entry (join d entry.name) ++ printTarget target) :=
        isLine_link label (plain.join name) plainTarget
      rw [gcLines, gcLine_other label (plain.join name) (by decide) (by decide) isLine fits]
      rfl
    rw [unlessExcluded_nil] at noBlob
    exact gcLines_append noBlob (ih later plain behind)
  | dir entry entries rest ihEntries ihRest =>
    obtain ⟨name, label, below, later⟩ := legible.dir
    obtain ⟨here, behind⟩ := forall_mem_append.mp short
    rw [storedContents, map_append, map_unlessExcluded]
    refine gcLines_append (gcLines_unlessExcluded fun included => ?_) (ihRest later plain behind)
    obtain ⟨fits, fitBelow⟩ := forall_mem_cons.mp fun line member =>
      here line (mem_unlessExcluded.mpr ⟨included, member⟩)
    have isLine : IsLine (printStat 'd' entry (join d entry.name) ++ [newline]) :=
      isLine_dir label (plain.join name)
    rw [gcLines, gcLine_other label (plain.join name) (by decide) (by decide) isLine fits,
      ok_bind, ihEntries below (plain.join name) fitBelow]
    rfl
  | special entry rest ih => exact ih legible.special plain short

/-! ## The whole manifest -/

/-- A manifest whose lines are shorter than `PATH_MAX`. -/
def ShortLines (sha256 : Bytes → Digest) (excludes : List Bytes) (tree : Dir) : Prop :=
  ∀ line ∈ manifestLines sha256 excludes (ascii ".") tree, line.length < pathMax

theorem lines_manifestText (legible : tree.Legible) :
    lines newline (manifestText sha256 excludes tree) =
      versionLine :: manifestLines sha256 excludes (ascii ".") tree := by
  refine lines_flatten (forall_mem_cons.mpr ⟨⟨ascii "dedupe\t2", by decide, by decide⟩, ?_⟩)
  intro line member
  exact (manifestLines_isLine legible (by decide) line member).1

theorem fgetsLines_manifestText (legible : tree.Legible) (short : ShortLines sha256 excludes tree) :
    fgetsLines (manifestText sha256 excludes tree) =
      versionLine :: manifestLines sha256 excludes (ascii ".") tree := by
  rw [← lines_manifestText legible]
  refine fgetsLines_eq_lines ?_
  rw [lines_manifestText legible]
  exact forall_mem_cons.mpr ⟨by decide, short⟩

theorem openManifest_versionLine (stale : Bytes) (body : List Bytes) :
    openManifest stale (versionLine :: body) = (2, body) := by
  have scanned : sscanfVersion (cString versionLine) = some 2 := by decide
  rw [openManifest, scanned]

/-- `gc` reads such a manifest to its end. -/
theorem readsThrough_manifestText (room : blobDir.length + 66 < pathMax) (legible : tree.Legible)
    (short : ShortLines sha256 excludes tree) :
    ReadsThrough blobDir (manifestText sha256 excludes tree) := by
  have body : gcBody (manifestText sha256 excludes tree) =
      (2, manifestLines sha256 excludes (ascii ".") tree) := by
    rw [gcBody, fgetsLines_manifestText legible short, openManifest_versionLine]
  rw [ReadsThrough, Newer, body]
  exact ⟨lt_irrefl 2, _, gcLines_manifestLines room legible (by decide) short⟩

/-- The keys that a manifest records are those of the files that were stored. -/
theorem recordedKeys_manifestText (legible : tree.Legible) (short : ShortLines sha256 excludes tree) :
    recordedKeys (lines newline (manifestText sha256 excludes tree)) =
      (storedContents excludes (ascii ".") tree).map fun content => blobKey (sha256 content) := by
  have noDir : ([] : Bytes).length + 66 < pathMax := by decide
  have read := gcLines_ok (gcLines_manifestLines noDir legible (by decide) short)
  rw [recordedKeys, lines_manifestText legible, openManifest_versionLine]
  apply (map_injective_iff.mpr (join_injective []))
  rw [map_map]
  exact read.symm

end PhilzTouch.Dedupe
