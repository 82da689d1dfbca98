import PhilzTouch.ApplyPatch.Bspatch
import PhilzTouch.ApplyPatch.Qsufsort

/-!
# Making a bsdiff patch

The rest of `bsdiff.c`: the search in the sorted suffixes, the scan for matches and
the patch file.  The host's `off_t` holds every value that occurs, so the variables
are plain integers; a read or write outside its array has no result, and neither has
a loop that uses up its `fuel`.
-/

namespace PhilzTouch.ApplyPatch

/-- `bytes[index]`, if there is such a byte. -/
def byteAt (bytes : Bytes) (index : Int) : Option UInt8 :=
  if index < 0 then none else bytes[index.toNat]?

/-- `bytes + index`, if that is a place inside the string or just behind it. -/
def pointer (bytes : Bytes) (index : Int) : Option Bytes :=
  if 0 ≤ index ∧ index.toNat ≤ bytes.length then some (bytes.drop index.toNat) else none

/-- `matchlen`: the length of the longest common prefix. -/
def matchlen : (old new : Bytes) → Nat
  | a :: old, b :: new => if a ≠ b then 0 else matchlen old new + 1
  | _, _ => 0

/-- `memcmp(old,new,MIN(oldsize,newsize))<0`. -/
def memcmpLess : (old new : Bytes) → Bool
  | a :: old, b :: new => if a = b then memcmpLess old new else a < b
  | _, _ => false

/-- `search`: the length of a match of `new` in `old`, and where it starts. -/
def search (I : Cells) (old new : Bytes) : (fuel st en : Nat) → Option (Int × Int)
  | 0, _, _ => none
  | fuel + 1, st, en =>
    if en - st < 2 then do
      let low ← I.load st
      let high ← I.load en
      let lowOld ← pointer old low
      let highOld ← pointer old high
      if matchlen lowOld new > matchlen highOld new then some (matchlen lowOld new, low)
      else some (matchlen highOld new, high)
    else do
      let x := st + (en - st) / 2
      let middle ← I.load x
      let middleOld ← pointer old middle
      if memcmpLess middleOld new then search I old new fuel x en
      else search I old new fuel st x

/-- `offtout`: eight bytes, the top bit of the last one being the sign. -/
def offtout (x : Int) : Bytes :=
  let buf := Bytes.ofNatLE 8 x.natAbs
  if x < 0 then buf.take 7 ++ [buf.getD 7 0 ||| 0x80] else buf

/-- `(place<oldsize)&&(old[place]==new[scan])`. -/
def matchesAt (old new : Bytes) (place scan : Int) : Option Bool :=
  if place < old.length then do
    let a ← byteAt old place
    let b ← byteAt new scan
    some (a = b)
  else some false

/-- `for(;scsc<scan+len;scsc++)`: how many bytes up to `stop` match at the last offset. -/
def countOld (old new : Bytes) (lastoffset stop : Int) :
    (fuel : Nat) → (scsc oldscore : Int) → Option (Int × Int)
  | 0, _, _ => none
  | fuel + 1, scsc, oldscore =>
    if scsc < stop then do
      let same ← matchesAt old new (scsc + lastoffset) scsc
      countOld old new lastoffset stop fuel (scsc + 1) (if same then oldscore + 1 else oldscore)
    else some (scsc, oldscore)

/-- The variables of the scan that the inner loop changes. -/
structure Scan where
  scan : Int
  len : Int
  pos : Int
  oldscore : Int

/-- The loop `for(scsc=scan+=len;scan<newsize;scan++)`. -/
def scanLoop (I : Cells) (old new : Bytes) (lastoffset : Int) :
    (fuel : Nat) → (scsc : Int) → (state : Scan) → Option Scan
  | 0, _, _ => none
  | fuel + 1, scsc, state =>
    if state.scan < new.length then do
      let here ← pointer new state.scan
      let (len, pos) ← search I old here (old.length + 1) 0 old.length
      let (scsc, oldscore) ← countOld old new lastoffset (state.scan + len) (new.length + 1) scsc
        state.oldscore
      if (len = oldscore ∧ len ≠ 0) ∨ len > oldscore + 8 then
        some ⟨state.scan, len, pos, oldscore⟩
      else do
        let same ← matchesAt old new (state.scan + lastoffset) state.scan
        scanLoop I old new lastoffset fuel scsc
          ⟨state.scan + 1, len, pos, if same then oldscore - 1 else oldscore⟩
    else some state

/-- The loop that extends the last match forwards: the best length so far is `lenf`. -/
def extendForward (old new : Bytes) (scan lastscan lastpos : Int) :
    (fuel : Nat) → (i s Sf lenf : Int) → Option Int
  | 0, _, _, _, _ => none
  | fuel + 1, i, s, Sf, lenf =>
    if lastscan + i < scan ∧ lastpos + i < old.length then do
      let a ← byteAt old (lastpos + i)
      let b ← byteAt new (lastscan + i)
      let s := if a = b then s + 1 else s
      let i := i + 1
      if s * 2 - i > Sf * 2 - lenf then extendForward old new scan lastscan lastpos fuel i s s i
      else extendForward old new scan lastscan lastpos fuel i s Sf lenf
    else some lenf

/-- The loop that extends the new match backwards: the best length so far is `lenb`. -/
def extendBackward (old new : Bytes) (scan lastscan pos : Int) :
    (fuel : Nat) → (i s Sb lenb : Int) → Option Int
  | 0, _, _, _, _ => none
  | fuel + 1, i, s, Sb, lenb =>
    if scan ≥ lastscan + i ∧ pos ≥ i then do
      let a ← byteAt old (pos - i)
      let b ← byteAt new (scan - i)
      let s := if a = b then s + 1 else s
      if s * 2 - i > Sb * 2 - lenb then extendBackward old new scan lastscan pos fuel (i + 1) s s i
      else extendBackward old new scan lastscan pos fuel (i + 1) s Sb lenb
    else some lenb

/-- The loop over the overlap of the two extensions: where to cut it. `scanf` and
`posf` are where the overlap starts in the last match, `scanb` and `posb` in the new
one. -/
def splitOverlap (old new : Bytes) (scanf posf scanb posb overlap : Int) :
    (fuel : Nat) → (i s Ss lens : Int) → Option Int
  | 0, _, _, _, _ => none
  | fuel + 1, i, s, Ss, lens =>
    if i < overlap then do
      let a ← byteAt new (scanf + i)
      let b ← byteAt old (posf + i)
      let c ← byteAt new (scanb + i)
      let d ← byteAt old (posb + i)
      let s := if a = b then s + 1 else s
      let s := if c = d then s - 1 else s
      if s > Ss then splitOverlap old new scanf posf scanb posb overlap fuel (i + 1) s s (i + 1)
      else splitOverlap old new scanf posf scanb posb overlap fuel (i + 1) s Ss lens
    else some lens

/-- `db[dblen+i]=new[lastscan+i]-old[lastpos+i]` for the first `count` values of `i`. -/
def diffBytes (old new : Bytes) (lastscan lastpos : Int) (count : Nat) : Option Bytes :=
  (List.range count).mapM fun i : Nat => do
    let a ← byteAt new (lastscan + i)
    let b ← byteAt old (lastpos + i)
    some (a - b)

/-- `eb[eblen+i]=new[start+i]` for the first `count` values of `i`. -/
def extraBytes (new : Bytes) (start : Int) (count : Nat) : Option Bytes :=
  (List.range count).mapM fun i : Nat => byteAt new (start + i)

/-- What the scan has produced: the last match, and the three blocks of the patch. -/
structure Emitted where
  lastscan : Int
  lastpos : Int
  lastoffset : Int
  ctrl : Bytes
  db : Bytes
  eb : Bytes

/-- `lenb`, which is 0 at the end of `new`. -/
def backwardLength (old new : Bytes) (scan lastscan pos : Int) : Option Int :=
  if scan < new.length then extendBackward old new scan lastscan pos (new.length + 1) 1 0 0 0
  else some 0

/-- `lenf` and `lenb` after their overlap has been divided between them. -/
def divideOverlap (old new : Bytes) (scan pos lastscan lastpos lenf lenb : Int) :
    Option (Int × Int) :=
  if lastscan + lenf > scan - lenb then do
    let overlap := (lastscan + lenf) - (scan - lenb)
    let lens ← splitOverlap old new (lastscan + lenf - overlap) (lastpos + lenf - overlap)
      (scan - lenb) (pos - lenb) overlap (new.length + 1) 0 0 0 0
    some (lenf + (lens - overlap), lenb - lens)
  else some (lenf, lenb)

/-- The body of `if((len!=oldscore) || (scan==newsize))`: one control triple.  The
buffers `db` and `eb` hold `newsize+1` bytes. -/
def emit (old new : Bytes) (scan pos : Int) (last : Emitted) : Option Emitted := do
  let lenf ← extendForward old new scan last.lastscan last.lastpos (new.length + 1) 0 0 0 0
  let lenb ← backwardLength old new scan last.lastscan pos
  let (lenf, lenb) ← divideOverlap old new scan pos last.lastscan last.lastpos lenf lenb
  let extra := (scan - lenb) - (last.lastscan + lenf)
  let diff ← diffBytes old new last.lastscan last.lastpos lenf.toNat
  let rest ← extraBytes new (last.lastscan + lenf) extra.toNat
  if last.db.length + diff.length ≤ new.length + 1 ∧
      last.eb.length + rest.length ≤ new.length + 1 then
    some {
      lastscan := scan - lenb
      lastpos := pos - lenb
      lastoffset := pos - scan
      ctrl := last.ctrl ++ (offtout lenf ++ offtout extra ++
        offtout ((pos - lenb) - (last.lastpos + lenf)))
      db := last.db ++ diff
      eb := last.eb ++ rest }
  else none

/-- The loop `while(scan<newsize)`. -/
def diffLoop (I : Cells) (old new : Bytes) :
    (fuel : Nat) → (scan len pos : Int) → (last : Emitted) → Option Emitted
  | 0, _, _, _, _ => none
  | fuel + 1, scan, len, pos, last =>
    if scan < new.length then do
      let state ← scanLoop I old new last.lastoffset (new.length + 1) (scan + len)
        ⟨scan + len, len, pos, 0⟩
      if state.len ≠ state.oldscore ∨ state.scan = new.length then do
        let last ← emit old new state.scan state.pos last
        diffLoop I old new fuel state.scan state.len state.pos last
      else diffLoop I old new fuel state.scan state.len state.pos last
    else some last

/-- `if (*IP == NULL)`: the sorted suffixes of `old`, computed on the first call only.
The arrays that `qsufsort` fills are fresh memory. -/
def sortedSuffixes (old : Bytes) : (ip : Option Cells) → Option Cells
  | some I => some I
  | none => qsufsort (List.replicate (old.length + 1) 0) (List.replicate (old.length + 1) 0) old

/-- `bsdiff`: the patch file, and the sorted suffixes of `old` for later calls.  The
loop sets `pos` before it uses it. -/
def bsdiff (bz : Bz2) (old : Bytes) (ip : Option Cells) (new : Bytes) : Option (Bytes × Cells) := do
  let I ← sortedSuffixes old ip
  let emitted ← diffLoop I old new (2 * new.length + 2) 0 0 0 ⟨0, 0, 0, [], [], []⟩
  let ctrl := bz.compress emitted.ctrl
  let db := bz.compress emitted.db
  let eb := bz.compress emitted.eb
  let header := bsdiffMagic ++ offtout ctrl.length ++ offtout db.length ++ offtout new.length
  some (header ++ ctrl ++ db ++ eb, I)

end PhilzTouch.ApplyPatch
