import PhilzTouch.Verifier

/-!
# The memory that verify_file reads

`verify_file` again, with every access to its buffers written out: the footer, the
end-of-central-directory record and the signature inside it.  The guard on the start of
the signature is taken from the footer, but the position that is read is counted from
the end of the record, whose size is another number of the footer.  The two are never
compared.
-/

namespace PhilzTouch.Verifier

open List

variable {Key : Type}

def byteAt (buffer : Bytes) (index : Nat) : Except Verdict UInt8 :=
  match buffer[index]? with
  | some byte => .ok byte
  | none => .error .fault

/-- `return VERIFY_FAILURE` when the condition holds. -/
def failIf (condition : Prop) [Decidable condition] : Except Verdict Unit :=
  if condition then .error .failure else .ok ()

/-- Whether the magic number stands at `i`; the comparison ends at the first byte that
differs. -/
def markerAt (eocd : Bytes) (i : Nat) : Except Verdict Bool := do
  if (← byteAt eocd i) ≠ 0x50 then pure false
  else if (← byteAt eocd (i + 1)) ≠ 0x4b then pure false
  else if (← byteAt eocd (i + 2)) ≠ 0x05 then pure false
  else pure ((← byteAt eocd (i + 3)) == 0x06)

/-- The loop that looks for a second magic number: `for (i = 4; i < eocd_size-3; ++i)`. -/
def scanMarker (eocd : Bytes) : (fuel i : Nat) → Except Verdict Bool
  | 0, _ => .ok false
  | fuel + 1, i =>
    if i < eocd.length - 3 then do
      if (← markerAt eocd i) then pure true else scanMarker eocd fuel (i + 1)
    else .ok false

/-- The hashing loop; an `fread` that finds less than it asks for fails. -/
def hashReads (file : Bytes) (signed_len : Nat) : (fuel so_far : Nat) → Bytes → Except Verdict Bytes
  | 0, _, ctx => .ok ctx
  | fuel + 1, so_far, ctx =>
    if so_far < signed_len then do
      let size := if signed_len - so_far < BUFFER_SIZE then signed_len - so_far else BUFFER_SIZE
      failIf ((file.slice so_far size).length ≠ size)
      hashReads file signed_len fuel (so_far + size) (ctx ++ file.slice so_far size)
    else .ok ctx

variable (file : Bytes)

/-- The checks of `verify_file` up to the hashing loop: the record they leave in memory. -/
def readEocd (file : Bytes) : Except Verdict Bytes := do
  failIf (file.length < FOOTER_SIZE)
  let footer := footerOf file
  let f0 ← byteAt footer 0
  let f1 ← byteAt footer 1
  let f2 ← byteAt footer 2
  let f3 ← byteAt footer 3
  let f4 ← byteAt footer 4
  let f5 ← byteAt footer 5
  failIf (f2 ≠ 0xff ∨ f3 ≠ 0xff)
  let comment_size := f4.toNat + 256 * f5.toNat
  let signature_start := f0.toNat + 256 * f1.toNat
  failIf (signature_start < FOOTER_SIZE + RSANUMBYTES)
  let eocd_size := comment_size + EOCD_HEADER_SIZE
  failIf (file.length < eocd_size)
  let eocd := file.drop (file.length - eocd_size)
  let marker ← markerAt eocd 0
  failIf (marker = false)
  let again ← scanMarker eocd eocd.length 4
  failIf (again = true)
  pure eocd

/-- `verify_file`. -/
def verifyReads (crypto : Crypto Key) (file : Bytes) (pKeys : List (Certificate Key)) :
    Except Verdict Verdict := do
  let eocd ← readEocd file
  let signed_len := file.length - eocd.length + EOCD_HEADER_SIZE - 2
  let read ← hashReads file signed_len signed_len 0 []
  let need_sha1 := pKeys.any fun key => key.hash_len == SHA_DIGEST_SIZE
  let need_sha256 := pKeys.any fun key => key.hash_len == SHA256_DIGEST_SIZE
  pure (tryKeys crypto eocd (crypto.sha1 (if need_sha1 then read else []))
    (crypto.sha256 (if need_sha256 then read else [])) pKeys)

/-- How the call ends. -/
def verifyFileReads (crypto : Crypto Key) (file : Bytes) (pKeys : List (Certificate Key)) :
    Verdict :=
  match verifyReads crypto file pKeys with
  | .ok verdict => verdict
  | .error verdict => verdict

/-! ## The magic number -/

theorem byteAt_of_lt {buffer : Bytes} {index : Nat} (inside : index < buffer.length) :
    byteAt buffer index = .ok buffer[index] := by
  rw [byteAt, getElem?_eq_getElem inside]

theorem startsWithMarker_short {bytes : Bytes} (short : bytes.length < 4) :
    startsWithMarker bytes = false := by
  match bytes with
  | [] | [_] | [_, _] | [_, _, _] => simp [startsWithMarker]
  | _ :: _ :: _ :: _ :: _ => simp only [length_cons] at short; omega

theorem containsMarker_short {bytes : Bytes} (short : bytes.length < 4) :
    containsMarker bytes = false := by
  induction bytes with
  | nil => rfl
  | cons byte rest ih =>
    rw [containsMarker, startsWithMarker_short short, ih (by rw [length_cons] at short; omega)]
    rfl

theorem markerAt_eq {eocd : Bytes} {i : Nat} (inside : i + 4 ≤ eocd.length) :
    markerAt eocd i = .ok (startsWithMarker (eocd.drop i)) := by
  rw [drop_marker inside, startsWithMarker_cons, markerAt, byteAt_of_lt (by omega : i < eocd.length),
    byteAt_of_lt (by omega : i + 1 < eocd.length), byteAt_of_lt (by omega : i + 2 < eocd.length),
    byteAt_of_lt (by omega : i + 3 < eocd.length)]
  generalize eocd[i] = a, eocd[i + 1] = b, eocd[i + 2] = c, eocd[i + 3] = d
  by_cases first : a = 0x50
  · by_cases second : b = 0x4b
    · by_cases third : c = 0x05 <;> simp [first, second, third, bind, Except.bind, pure, Except.pure]
    · simp [first, second, bind, Except.bind, pure, Except.pure]
  · simp [first, bind, Except.bind, pure, Except.pure]

/-- The loop looks at every position behind `i` and never past the end. -/
theorem scanMarker_eq (eocd : Bytes) (fuel i : Nat) (enough : eocd.length ≤ i + fuel) :
    scanMarker eocd fuel i = .ok (containsMarker (eocd.drop i)) := by
  induction fuel generalizing i with
  | zero =>
    rw [scanMarker, drop_eq_nil_of_le (by omega)]
    rfl
  | succ fuel ih =>
    rw [scanMarker]
    split
    next inside =>
      rw [markerAt_eq (by omega), ih (i + 1) (by omega),
        drop_eq_getElem_cons (by omega : i < eocd.length), containsMarker]
      cases startsWithMarker (eocd[i] :: eocd.drop (i + 1)) <;> rfl
    next outside =>
      rw [containsMarker_short (by rw [length_drop]; omega)]

/-! ## The checks and the hashing loop -/

theorem failIf_bind {α : Type} (condition : Prop) [Decidable condition] (next : Except Verdict α) :
    (failIf condition >>= fun _ => next) = if condition then .error .failure else next := by
  rw [failIf]
  split <;> rfl

theorem footer_bytes {file : Bytes} (long : FOOTER_SIZE ≤ file.length) :
    ∃ f0 f1 f2 f3 f4 f5, footerOf file = [f0, f1, f2, f3, f4, f5] := by
  have length : (footerOf file).length = 6 := by
    rw [footerOf, length_drop]
    simp only [FOOTER_SIZE] at long ⊢
    omega
  match footerOf file, length with
  | [f0, f1, f2, f3, f4, f5], _ => exact ⟨f0, f1, f2, f3, f4, f5, rfl⟩

theorem both_ff_iff (low high : UInt8) :
    low.toNat + 256 * high.toNat = 0xffff ↔ low = 0xff ∧ high = 0xff := by
  have small := low.toNat_lt
  constructor
  · intro whole
    exact ⟨UInt8.toNat_inj.mp (by change low.toNat = 255; omega),
      UInt8.toNat_inj.mp (by change high.toNat = 255; omega)⟩
  · rintro ⟨rfl, rfl⟩
    rfl

/-- No check reads outside the footer or the record. -/
theorem readEocd_eq : readEocd file =
      if Checks file then .ok (file.drop (eocdStart file)) else .error .failure := by
  rw [readEocd, failIf_bind]
  split
  next short =>
    rw [if_neg fun checks => by have := checks.footer; omega]
  next long =>
  obtain ⟨f0, f1, f2, f3, f4, f5, bytes⟩ := footer_bytes (Nat.le_of_not_lt long)
  have start : signatureStart file = f0.toNat + 256 * f1.toNat := by
    simp [signatureStart, footer16, bytes, Bytes.slice, Bytes.toNatLE]
  have comment : commentSize file = f4.toNat + 256 * f5.toNat := by
    simp [commentSize, footer16, bytes, Bytes.slice, Bytes.toNatLE]
  have marks : footer16 (footerOf file) 2 = f2.toNat + 256 * f3.toNat := by
    simp [footer16, bytes, Bytes.slice, Bytes.toNatLE]
  have record : f4.toNat + 256 * f5.toNat + EOCD_HEADER_SIZE = eocdSize file := by
    rw [eocdSize, comment]
  simp only [bytes]
  change (failIf (f2 ≠ 0xff ∨ f3 ≠ 0xff) >>= fun _ => _) = _
  rw [failIf_bind]
  split
  next wrong =>
    rw [if_neg fun checks => by
      have both := (both_ff_iff f2 f3).mp (marks ▸ checks.marks)
      exact wrong.elim (fun h => h both.1) (fun h => h both.2)]
  next right =>
  have both : f2 = 0xff ∧ f3 = 0xff := by simpa using right
  simp only [failIf_bind, record, ← start]
  split
  next early =>
    rw [if_neg fun checks => by have := checks.start; omega]
  next late =>
  split
  next small =>
    rw [if_neg fun checks => by have := checks.room; omega]
  next room =>
  have size : (file.drop (eocdStart file)).length = eocdSize file := by
    rw [length_drop, eocdStart]
    omega
  have header : 22 ≤ eocdSize file := Nat.le_add_left _ _
  change (markerAt (file.drop (eocdStart file)) 0 >>= fun _ => _) = _
  rw [markerAt_eq (by omega), drop_zero]
  change (if startsWithMarker (file.drop (eocdStart file)) = false then _ else _) = _
  split
  next different =>
    rw [if_neg fun checks => by simp [checks.marker] at different]
  next same =>
  rw [← eocdStart, scanMarker_eq _ _ _ (Nat.le_add_left _ _)]
  change (if containsMarker ((file.drop (eocdStart file)).drop 4) = true then _
    else _) = _
  split
  next again =>
    rw [if_neg fun checks => by rw [checks.unique] at again; cases again]
  next unique =>
    rw [if_pos ⟨Nat.le_of_not_lt long, by rw [marks, both_ff_iff]; exact both,
      Nat.le_of_not_lt late, Nat.le_of_not_lt room, by simpa using same,
      by simpa using unique⟩]
    rfl

/-- The loop never runs out of bytes. -/
theorem hashReads_eq (signed_len fuel so_far : Nat) (ctx : Bytes)
    (inside : signed_len ≤ file.length) :
    hashReads file signed_len fuel so_far ctx = .ok (hashLoop file signed_len fuel so_far ctx) := by
  induction fuel generalizing so_far ctx with
  | zero => rfl
  | succ fuel ih =>
    rw [hashReads, hashLoop]
    split
    · generalize chunk : (if signed_len - so_far < BUFFER_SIZE then signed_len - so_far
        else BUFFER_SIZE) = size
      have bound : so_far + size ≤ signed_len := by
        rw [BUFFER_SIZE] at chunk
        split at chunk <;> omega
      simp only [failIf_bind]
      rw [if_neg (by rw [Bytes.length_slice]; omega)]
      exact ih _ _
    · rfl

theorem hashLoop_eq (signed_len fuel so_far : Nat)
    (progress : so_far ≤ signed_len) (enough : signed_len ≤ so_far + fuel) :
    hashLoop file signed_len fuel so_far (file.take so_far) = file.take signed_len := by
  induction fuel generalizing so_far with
  | zero =>
    rw [hashLoop, Nat.le_antisymm progress enough]
  | succ fuel ih =>
    rw [hashLoop]
    split
    next more =>
      generalize chunk : (if signed_len - so_far < BUFFER_SIZE then signed_len - so_far
        else BUFFER_SIZE) = size
      have bound : 0 < size ∧ so_far + size ≤ signed_len := by
        rw [BUFFER_SIZE] at chunk
        split at chunk <;> omega
      simp only
      rw [Bytes.take_append_slice]
      exact ih (so_far + size) bound.2 (by omega)
    next finished =>
      rw [Nat.le_antisymm progress (Nat.le_of_not_lt finished)]

theorem hashSigned_eq (needed : Bool) :
    hashSigned file needed = if needed then signedPrefix file else [] := by
  rw [hashSigned, signedPrefix]
  split
  · exact hashLoop_eq file (signedLen file) (signedLen file) 0 (Nat.zero_le _) (Nat.le_add_left _ _)
  · rfl

variable (crypto : Crypto Key)

/-- Every read of the footer, of the record and of the file stays inside: the model with
checked reads is the one without. -/
theorem verifyFileReads_eq (pKeys : List (Certificate Key)) :
    verifyFileReads crypto file pKeys = verifyFile crypto file pKeys := by
  rw [verifyFileReads, verifyReads, readEocd_eq, verifyFile_eq]
  by_cases checks : Checks file
  · rw [if_pos checks, if_pos checks]
    have total := checks.layout.eocdStart_add
    have whole : file.length - (file.drop (eocdStart file)).length + EOCD_HEADER_SIZE - 2 =
        signedLen file := by
      rw [length_drop, signedLen]
      omega
    have inside : signedLen file ≤ file.length := by
      have := checks.layout.signedLen_eq
      omega
    simp only [bind, Except.bind, whole, hashReads_eq file _ _ _ _ inside]
    rfl
  · rw [if_neg checks, if_neg checks]
    rfl

/-! ## What the reads are -/

/-- The keys the last loop hands to `RSA_verify`. -/
def Certificate.Usable (key : Certificate Key) : Prop :=
  key.hash_len = SHA_DIGEST_SIZE ∨ key.hash_len = SHA256_DIGEST_SIZE

/-- The first byte of the signature, as an index of the record:
`eocd_size - 6 - RSANUMBYTES`. -/
def signatureIndex (file : Bytes) : Int :=
  (eocdSize file : Int) - FOOTER_SIZE - RSANUMBYTES

/-- The digest a key signs, of the file up to its comment length field. -/
def digestFor (crypto : Crypto Key) (file : Bytes) (key : Certificate Key) : Bytes :=
  if key.hash_len = SHA_DIGEST_SIZE then
    crypto.sha1 (file.take (file.length - commentSize file - 2))
  else crypto.sha256 (file.take (file.length - commentSize file - 2))

/-- What `verify_file` should read and decide. -/
structure ReadsOnly (crypto : Crypto Key) (file : Bytes) (pKeys : List (Certificate Key)) :
    Prop where
  /-- No read leaves a buffer. -/
  inside : verifyFileReads crypto file pKeys ≠ .fault
  /-- A signature that is handed on lies between the comment length field and the footer. -/
  comment : Checks file → (∃ key ∈ pKeys, key.Usable) →
    (EOCD_HEADER_SIZE : Int) ≤ signatureIndex file ∧
      signatureIndex file + RSANUMBYTES ≤ (eocdSize file : Int) - FOOTER_SIZE
  /-- Success means that the checks pass and a key accepts. -/
  exact : verifyFileReads crypto file pKeys = .success ↔ Checks file ∧ ∃ key ∈ pKeys, key.Usable ∧
      crypto.rsaVerify key.public_key
        (file.slice (file.length - FOOTER_SIZE - RSANUMBYTES) RSANUMBYTES)
        (digestFor crypto file key) = true

theorem tryKeys_unusable (eocd sha1 sha256 : Bytes)
    (pKeys : List (Certificate Key)) (none : ∀ key ∈ pKeys, ¬ key.Usable) :
    tryKeys crypto eocd sha1 sha256 pKeys = .failure := by
  induction pKeys with
  | nil => rfl
  | cons key keys ih =>
    have unusable := none key mem_cons_self
    rw [Certificate.Usable, not_or] at unusable
    rw [tryKeys, if_neg unusable.1, if_neg unusable.2]
    exact ih (forall_mem_cons.mp none).2

/-- With a signature inside the record the loop over the keys decides whether one of them
accepts it. -/
theorem tryKeys_signed (eocd sha1 sha256 signature : Bytes)
    (found : signatureOf eocd = some signature) (pKeys : List (Certificate Key)) :
    tryKeys crypto eocd sha1 sha256 pKeys ≠ .fault ∧
      (tryKeys crypto eocd sha1 sha256 pKeys = .success ↔
        ∃ key ∈ pKeys, key.Usable ∧ crypto.rsaVerify key.public_key signature
          (if key.hash_len = SHA_DIGEST_SIZE then sha1 else sha256) = true) := by
  induction pKeys with
  | nil => simp [tryKeys]
  | cons key keys ih =>
    rw [tryKeys, found, exists_mem_cons_iff, Certificate.Usable]
    by_cases first : key.hash_len = SHA_DIGEST_SIZE
    · by_cases accepted : crypto.rsaVerify key.public_key signature sha1 = true
      · simp [first, accepted]
      · simpa [first, accepted] using ih
    by_cases second : key.hash_len = SHA256_DIGEST_SIZE
    · have other : SHA256_DIGEST_SIZE ≠ SHA_DIGEST_SIZE := by decide
      by_cases accepted : crypto.rsaVerify key.public_key signature sha256 = true
      · simp [second, accepted, other]
      · simpa [second, accepted, other] using ih
    · simpa [first, second] using ih

theorem signatureOf_eocd {file : Bytes} (checks : Checks file)
    (long : FOOTER_SIZE + RSANUMBYTES ≤ commentSize file) :
    signatureOf (file.drop (eocdStart file)) =
      some (file.slice (file.length - FOOTER_SIZE - RSANUMBYTES) RSANUMBYTES) := by
  have total := checks.layout.eocdStart_add
  have size : (file.drop (eocdStart file)).length = eocdSize file := by
    rw [length_drop]
    omega
  have header : eocdSize file = commentSize file + EOCD_HEADER_SIZE := rfl
  have position : eocdStart file + (eocdSize file - FOOTER_SIZE - RSANUMBYTES) =
      file.length - FOOTER_SIZE - RSANUMBYTES := by omega
  rw [signatureOf, if_pos (by omega), size, Bytes.slice, drop_drop, position, Bytes.slice]

/-- The digest a usable key is tried with: its hash context was fed the whole signed part. -/
theorem digestFor_eq {file : Bytes} (checks : Checks file)
    {pKeys : List (Certificate Key)} {key : Certificate Key} (member : key ∈ pKeys)
    (usable : key.Usable) : (if key.hash_len = SHA_DIGEST_SIZE then
      crypto.sha1 (hashSigned file (pKeys.any fun key => key.hash_len == SHA_DIGEST_SIZE))
    else crypto.sha256
      (hashSigned file (pKeys.any fun key => key.hash_len == SHA256_DIGEST_SIZE))) =
      digestFor crypto file key := by
  have length : file.length - commentSize file - 2 = signedLen file := by
    have := checks.layout.signedLen_eq
    omega
  rw [digestFor, length, ← signedPrefix]
  simp only [hashSigned_eq]
  split
  next first =>
    have needed : (pKeys.any fun key => key.hash_len == SHA_DIGEST_SIZE) = true :=
      any_eq_true.mpr ⟨key, member, beq_iff_eq.mpr first⟩
    rw [if_pos needed]
  next other =>
    have needed : (pKeys.any fun key => key.hash_len == SHA256_DIGEST_SIZE) = true :=
      any_eq_true.mpr ⟨key, member, beq_iff_eq.mpr (usable.resolve_left other)⟩
    rw [if_pos needed]

/-- `verify_file` reads only what it should exactly when a comment that passes the checks,
with a key to try, is long enough for a signature and the footer. -/
theorem verify_file_reads_only (crypto : Crypto Key) (file : Bytes)
    (pKeys : List (Certificate Key)) :
    ReadsOnly crypto file pKeys ↔ (Checks file → (∃ key ∈ pKeys, key.Usable) →
        FOOTER_SIZE + RSANUMBYTES ≤ commentSize file) := by
  constructor
  · intro reads checks usable
    have range := (reads.comment checks usable).1
    simp only [signatureIndex, eocdSize, FOOTER_SIZE, RSANUMBYTES, EOCD_HEADER_SIZE] at range ⊢
    omega
  intro long
  have verdict := verifyFile_eq crypto file pKeys
  rw [← verifyFileReads_eq] at verdict
  by_cases tried : Checks file ∧ ∃ key ∈ pKeys, key.Usable
  · obtain ⟨checks, usable⟩ := tried
    have result := tryKeys_signed crypto (file.drop (eocdStart file))
      (crypto.sha1 (hashSigned file (pKeys.any fun key => key.hash_len == SHA_DIGEST_SIZE)))
      (crypto.sha256
        (hashSigned file (pKeys.any fun key => key.hash_len == SHA256_DIGEST_SIZE)))
      _ (signatureOf_eocd checks (long checks usable)) pKeys
    rw [if_pos checks] at verdict
    rw [← verdict] at result
    constructor
    · exact result.1
    · intro _ _
      have room := long checks usable
      simp only [signatureIndex, eocdSize, FOOTER_SIZE, RSANUMBYTES, EOCD_HEADER_SIZE] at room ⊢
      omega
    rw [result.2, and_iff_right checks]
    constructor
    · rintro ⟨key, member, kind, accepted⟩
      exact ⟨key, member, kind, digestFor_eq crypto checks member kind ▸ accepted⟩
    · rintro ⟨key, member, kind, accepted⟩
      exact ⟨key, member, kind, (digestFor_eq crypto checks member kind).symm ▸ accepted⟩
  have failed : verifyFileReads crypto file pKeys = .failure := by
    rw [verdict]
    split
    next checks =>
      exact tryKeys_unusable _ _ _ _ _ fun key member kind => tried ⟨checks, key, member, kind⟩
    next => rfl
  constructor
  · rw [failed]; simp
  · exact fun checks usable => absurd ⟨checks, usable⟩ tried
  · rw [failed]
    refine ⟨by simp, ?_⟩
    rintro ⟨checks, key, member, kind, _⟩
    exact absurd ⟨checks, key, member, kind⟩ tried

/-- A record without entries whose comment is only the footer: it passes every check, and the
signature would begin 234 bytes before the buffer. -/
def shortComment : Bytes :=
  [0x50, 0x4b, 0x05, 0x06] ++ replicate 16 0 ++ [6, 0] ++ [6, 1, 0xff, 0xff, 6, 0]

/-- A library whose digests are empty and whose keys accept nothing. -/
def rejectingCrypto : Crypto Unit := ⟨fun _ => [], fun _ => [], fun _ _ _ => false⟩

/-- With one SHA-1 key the short comment makes `verify_file` read outside its buffer. -/
theorem short_comment_read_outside :
    verifyFileReads rejectingCrypto shortComment [⟨SHA_DIGEST_SIZE, ()⟩] = .fault ∧
      signatureIndex shortComment = -234 ∧
      ¬ ReadsOnly rejectingCrypto shortComment [⟨SHA_DIGEST_SIZE, ()⟩] := by
  have outside : verifyFileReads rejectingCrypto shortComment [⟨SHA_DIGEST_SIZE, ()⟩] = .fault := by
    decide +kernel
  exact ⟨outside, by decide +kernel, fun reads => reads.inside outside⟩

end PhilzTouch.Verifier
