import PhilzTouch.Lib.Bytes

/-!
# Whole-file signature verification

A model of `verify_file` of `verifier.c`.  The file is a byte string whose reads
succeed; the hash functions and `RSA_verify` belong to libmincrypt and are
parameters.
-/

namespace PhilzTouch.Verifier

/-- What `verify_file` uses of libmincrypt.  `rsaVerify key signature hash` is
`RSA_verify` on a signature of `RSANUMBYTES` bytes. -/
structure Crypto (Key : Type) where
  sha1 : Bytes → Bytes
  sha256 : Bytes → Bytes
  rsaVerify : Key → Bytes → Bytes → Bool

/-- A public key and the length of the digest it signs. -/
structure Certificate (Key : Type) where
  hash_len : Nat
  public_key : Key
  deriving DecidableEq, Repr

def SHA_DIGEST_SIZE : Nat := 20
def SHA256_DIGEST_SIZE : Nat := 32
def RSANUMBYTES : Nat := 256
def FOOTER_SIZE : Nat := 6
def EOCD_HEADER_SIZE : Nat := 22
def BUFFER_SIZE : Nat := 4096

/-- How a call of `verify_file` ends; `fault` is a read outside the buffer that
holds the end-of-central-directory record. -/
inductive Verdict where
  | success
  | failure
  | fault
  deriving DecidableEq, Repr

/-- The magic number `$50 $4b $05 $06` at the start of a byte string. -/
def startsWithMarker : Bytes → Bool
  | 0x50 :: 0x4b :: 0x05 :: 0x06 :: _ => true
  | _ => false

/-- The magic number at any position of a byte string. -/
def containsMarker : Bytes → Bool
  | [] => false
  | byte :: rest => startsWithMarker (byte :: rest) || containsMarker rest

/-- Little-endian 16-bit number at `index` of the footer. -/
def footer16 (footer : Bytes) (index : Nat) : Nat :=
  (footer.slice index 2).toNatLE

def footerOf (file : Bytes) : Bytes := file.drop (file.length - FOOTER_SIZE)

/-- Size of the archive comment that the footer announces. -/
def commentSize (file : Bytes) : Nat := footer16 (footerOf file) 4

/-- Start of the signature, counted from the end of the file. -/
def signatureStart (file : Bytes) : Nat := footer16 (footerOf file) 0

/-- Size of the end-of-central-directory record with its comment. -/
def eocdSize (file : Bytes) : Nat := commentSize file + EOCD_HEADER_SIZE

/-- Position of the record that `verify_file` checks. -/
def eocdStart (file : Bytes) : Nat := file.length - eocdSize file

/-- Everything except the signature data and its length: all of the file up to
the comment length field. -/
def signedLen (file : Bytes) : Nat := eocdStart file + EOCD_HEADER_SIZE - 2

def signedPrefix (file : Bytes) : Bytes := file.take (signedLen file)

variable {Key : Type}

/-- The loop that feeds the signed part of the file to a hash context, one buffer
at a time.  The context is the byte string hashed so far. -/
def hashLoop (file : Bytes) (signed_len : Nat) :
    (fuel so_far : Nat) → Bytes → Bytes
  | 0, _, ctx => ctx
  | fuel + 1, so_far, ctx =>
    if so_far < signed_len then
      let size := if signed_len - so_far < BUFFER_SIZE then signed_len - so_far
        else BUFFER_SIZE
      hashLoop file signed_len fuel (so_far + size) (ctx ++ file.slice so_far size)
    else
      ctx

/-- The context after the loop, empty when no key needs that digest. -/
def hashSigned (file : Bytes) (needed : Bool) : Bytes :=
  if needed then hashLoop file (signedLen file) (signedLen file) 0 [] else []

/-- The bytes handed to `RSA_verify` as the signature. -/
def signatureOf (eocd : Bytes) : Option Bytes :=
  if FOOTER_SIZE + RSANUMBYTES ≤ eocd.length then
    some (eocd.slice (eocd.length - FOOTER_SIZE - RSANUMBYTES) RSANUMBYTES)
  else
    none

def tryKeys (crypto : Crypto Key) (eocd sha1 sha256 : Bytes) :
    List (Certificate Key) → Verdict
  | [] => .failure
  | key :: keys =>
    let hash :=
      if key.hash_len = SHA_DIGEST_SIZE then some sha1
      else if key.hash_len = SHA256_DIGEST_SIZE then some sha256
      else none
    match hash with
    | none => tryKeys crypto eocd sha1 sha256 keys
    | some hash =>
      match signatureOf eocd with
      | none => .fault
      | some signature =>
        if crypto.rsaVerify key.public_key signature hash then .success
        else tryKeys crypto eocd sha1 sha256 keys

/-- Verify the signature in the archive comment against a list of keys. -/
def verifyFile (crypto : Crypto Key) (file : Bytes) (pKeys : List (Certificate Key)) : Verdict :=
  -- fseek(f, -FOOTER_SIZE, SEEK_END)
  if file.length < FOOTER_SIZE then .failure
  else if footer16 (footerOf file) 2 ≠ 0xffff then .failure
  else if signatureStart file < FOOTER_SIZE + RSANUMBYTES then .failure
  -- fseek(f, -eocd_size, SEEK_END)
  else if file.length < eocdSize file then .failure
  else
    let eocd := file.drop (eocdStart file)
    if !startsWithMarker eocd then .failure
    else if containsMarker (eocd.drop 4) then .failure
    else
      let need_sha1 := pKeys.any fun key => key.hash_len == SHA_DIGEST_SIZE
      let need_sha256 := pKeys.any fun key => key.hash_len == SHA256_DIGEST_SIZE
      tryKeys crypto eocd (crypto.sha1 (hashSigned file need_sha1))
        (crypto.sha256 (hashSigned file need_sha256)) pKeys

/-- What acceptance says about the layout of the file. -/
structure Layout (file : Bytes) : Prop where
  footer : FOOTER_SIZE ≤ file.length
  room : eocdSize file ≤ file.length
  marker : startsWithMarker (file.drop (eocdStart file)) = true
  unique : containsMarker ((file.drop (eocdStart file)).drop 4) = false

/-- The footer and record checks of `verify_file`. -/
structure Checks (file : Bytes) : Prop where
  footer : FOOTER_SIZE ≤ file.length
  marks : footer16 (footerOf file) 2 = 0xffff
  start : FOOTER_SIZE + RSANUMBYTES ≤ signatureStart file
  room : eocdSize file ≤ file.length
  marker : startsWithMarker (file.drop (eocdStart file)) = true
  unique : containsMarker ((file.drop (eocdStart file)).drop 4) = false

theorem checks_iff (file : Bytes) :
    Checks file ↔ FOOTER_SIZE ≤ file.length ∧ footer16 (footerOf file) 2 = 0xffff ∧
      FOOTER_SIZE + RSANUMBYTES ≤ signatureStart file ∧ eocdSize file ≤ file.length ∧
      startsWithMarker (file.drop (eocdStart file)) = true ∧
      containsMarker ((file.drop (eocdStart file)).drop 4) = false := by
  constructor
  · intro checks
    exact ⟨checks.footer, checks.marks, checks.start, checks.room, checks.marker, checks.unique⟩
  · rintro ⟨footer, marks, start, room, marker, unique⟩
    exact ⟨footer, marks, start, room, marker, unique⟩

instance (file : Bytes) : Decidable (Checks file) := decidable_of_iff' _ (checks_iff file)

theorem Checks.layout {file : Bytes} (checks : Checks file) : Layout file :=
  ⟨checks.footer, checks.room, checks.marker, checks.unique⟩

/-- The checks of `verifyFile` as one condition. -/
theorem verifyFile_eq (crypto : Crypto Key) (file : Bytes) (pKeys : List (Certificate Key)) :
    verifyFile crypto file pKeys = if Checks file then tryKeys crypto (file.drop (eocdStart file))
          (crypto.sha1 (hashSigned file (pKeys.any fun key => key.hash_len == SHA_DIGEST_SIZE)))
          (crypto.sha256
            (hashSigned file (pKeys.any fun key => key.hash_len == SHA256_DIGEST_SIZE))) pKeys
      else .failure := by
  by_cases checks : Checks file
  · rw [if_pos checks, verifyFile, if_neg (Nat.not_lt.mpr checks.footer),
      if_neg (not_not.mpr checks.marks), if_neg (Nat.not_lt.mpr checks.start),
      if_neg (Nat.not_lt.mpr checks.room)]
    dsimp only
    rw [checks.marker, checks.unique]
    rfl
  rw [if_neg checks]
  rw [checks_iff] at checks
  unfold verifyFile
  split
  · rfl
  split
  · rfl
  split
  · rfl
  split
  · rfl
  next footer marks start room =>
  simp only [Nat.le_of_not_lt footer, not_not.mp marks, Nat.le_of_not_lt start,
    Nat.le_of_not_lt room, true_and, not_and] at checks
  dsimp only
  cases marker : startsWithMarker (file.drop (eocdStart file)) with
  | false => rfl
  | true =>
    rw [(Bool.not_eq_false _).mp (checks marker)]
    rfl

/-- An accepted file has passed the footer and record checks. -/
theorem layout_of_success {crypto : Crypto Key} {file : Bytes} {pKeys : List (Certificate Key)}
    (accepted : verifyFile crypto file pKeys = .success) : Layout file := by
  rw [verifyFile_eq] at accepted
  split at accepted
  next checks => exact checks.layout
  next => cases accepted

namespace Layout

variable {file : Bytes}

theorem eocdStart_add (layout : Layout file) : eocdStart file + eocdSize file = file.length := by
  have room := layout.room
  unfold eocdStart
  omega

theorem signedLen_eq (layout : Layout file) :
    signedLen file + 2 + commentSize file = file.length := by
  have total := layout.eocdStart_add
  simp only [signedLen, eocdSize, EOCD_HEADER_SIZE] at *
  omega

end Layout

theorem startsWithMarker_cons (a b c d : UInt8) (rest : Bytes) :
    startsWithMarker (a :: b :: c :: d :: rest) =
      (a == 0x50 && (b == 0x4b && (c == 0x05 && d == 0x06))) := by
  by_cases first : a = 0x50
  · by_cases second : b = 0x4b
    · by_cases third : c = 0x05
      · by_cases fourth : d = 0x06
        · subst first second third fourth
          rfl
        · simp [startsWithMarker, first, second, third, fourth]
      · simp [startsWithMarker, first, second, third]
    · simp [startsWithMarker, first, second]
  · simp [startsWithMarker, first]

theorem drop_marker {bytes : Bytes} {i : Nat} (inside : i + 4 ≤ bytes.length) :
    bytes.drop i = bytes[i] :: bytes[i + 1] :: bytes[i + 2] :: bytes[i + 3] :: bytes.drop (i + 4) := by
  rw [List.drop_eq_getElem_cons (by omega), List.drop_eq_getElem_cons (by omega),
    List.drop_eq_getElem_cons (by omega), List.drop_eq_getElem_cons (by omega)]

theorem startsWithMarker_drop_of_containsMarker {bytes : Bytes}
    (absent : containsMarker bytes = false) (index : Nat) :
    startsWithMarker (bytes.drop index) = false := by
  induction bytes generalizing index with
  | nil => simp [startsWithMarker]
  | cons byte rest ih =>
    simp only [containsMarker, Bool.or_eq_false_iff] at absent
    cases index with
    | zero => exact absent.1
    | succ index => exact ih absent.2 index

end PhilzTouch.Verifier
