import PhilzTouch.Lib.Bytes
import PhilzTouch.Lib.Cells

/-!
# Suffix sorting in `bsdiff.c`

`split` and `qsufsort`, loop by loop.  `I` and `V` are the two arrays of the C
code; a step that would leave them has no result, and so has a loop that uses up
its `fuel`.
-/

namespace PhilzTouch.ApplyPatch

/-- `V[I[index]+h]`. -/
def key (I V : Cells) (h index : Nat) : Option Int := do
  let suffix ← I.load index
  V.load (suffix + h)

/-- The loop `for(i=1;k+i<start+len;i++)` of `split`: the least key `x` of the cells
from `k` on, with the `j` cells that have it moved to the front. -/
def selectLeast (V : Cells) (h k : Nat) :
    (left i j : Nat) → (x : Int) → (I : Cells) → Option (Nat × Cells)
  | 0, _, j, _, I => some (j, I)
  | left + 1, i, j, x, I => do
    let next ← key I V h (k + i)
    let j := if next < x then 0 else j
    let x := if next < x then next else x
    if next = x then
      let I ← I.swap (k + j : Nat) (k + i : Nat)
      selectLeast V h k left (i + 1) (j + 1) x I
    else selectLeast V h k left (i + 1) j x I

/-- `for(i=0;i<count;i++) V[I[base+i]]=value`. -/
def setRanks (I : Cells) (base : Nat) (value : Int) : (left i : Nat) → (V : Cells) → Option Cells
  | 0, _, V => some V
  | left + 1, i, V => do
    let suffix ← I.load (base + i : Nat)
    let V ← V.store suffix value
    setRanks I base value left (i + 1) V

/-- The end of a group in `split`: its members get the index of its last cell, and a
group of one is marked as sorted. -/
def closeGroup (I V : Cells) (base count : Nat) : Option (Cells × Cells) := do
  let V ← setRanks I base (base + count - 1) count 0 V
  if count = 1 then
    let I ← I.store base (-1)
    some (I, V)
  else some (I, V)

/-- The branch `len<16` of `split`: `for(k=start;k<start+len;k+=j)`. -/
def splitShort (h stop : Nat) : (fuel k : Nat) → (I V : Cells) → Option (Cells × Cells)
  | 0, _, _, _ => none
  | fuel + 1, k, I, V =>
    if k < stop then do
      let x ← key I V h k
      let (j, I) ← selectLeast V h k (stop - (k + 1)) 1 1 x I
      let (I, V) ← closeGroup I V k j
      splitShort h stop fuel (k + j) I V
    else some (I, V)

/-- How many of the cells from `i` on have a key below `x`, and how many have `x`. -/
def countKeys (I V : Cells) (h : Nat) (x : Int) :
    (left i jj kk : Nat) → Option (Nat × Nat)
  | 0, _, jj, kk => some (jj, kk)
  | left + 1, i, jj, kk => do
    let next ← key I V h i
    countKeys I V h x left (i + 1) (if next < x then jj + 1 else jj)
      (if next = x then kk + 1 else kk)

/-- The loop `while(i<jj)` of `split`. -/
def moveUp (V : Cells) (h : Nat) (x : Int) (jj kk : Nat) :
    (fuel i j k : Nat) → (I : Cells) → Option (Nat × Nat × Cells)
  | 0, _, _, _, _ => none
  | fuel + 1, i, j, k, I =>
    if i < jj then do
      let next ← key I V h i
      if next < x then moveUp V h x jj kk fuel (i + 1) j k I
      else if next = x then do
        let I ← I.swap i (jj + j : Nat)
        moveUp V h x jj kk fuel i (j + 1) k I
      else do
        let I ← I.swap i (kk + k : Nat)
        moveUp V h x jj kk fuel i j (k + 1) I
    else some (j, k, I)

/-- The loop `while(jj+j<kk)` of `split`. -/
def moveEqual (V : Cells) (h : Nat) (x : Int) (jj kk : Nat) :
    (fuel j k : Nat) → (I : Cells) → Option Cells
  | 0, _, _, _ => none
  | fuel + 1, j, k, I =>
    if jj + j < kk then do
      let next ← key I V h (jj + j)
      if next = x then moveEqual V h x jj kk fuel (j + 1) k I
      else do
        let I ← I.swap (jj + j : Nat) (kk + k : Nat)
        moveEqual V h x jj kk fuel j (k + 1) I
    else some I

/-- `split`, on the `len` cells from `start` on. -/
def split (h : Nat) : (fuel start len : Nat) → (I V : Cells) → Option (Cells × Cells)
  | 0, _, _, _, _ => none
  | fuel + 1, start, len, I, V =>
    if len < 16 then splitShort h (start + len) (len + 1) start I V
    else do
      let x ← key I V h (start + len / 2)
      let (less, equal) ← countKeys I V h x len start 0 0
      let jj := start + less
      let kk := jj + equal
      let (j, k, I) ← moveUp V h x jj kk (len + 1) start 0 0 I
      let I ← moveEqual V h x jj kk (len + 1) j k I
      let (I, V) ← if start < jj then split h fuel start (jj - start) I V else some (I, V)
      let (I, V) ← closeGroup I V jj (kk - jj)
      if kk < start + len then split h fuel kk (start + len - kk) I V else some (I, V)

/-- `for(i=0;i<oldsize;i++) buckets[old[i]]++`. -/
def countBytes : (old : Bytes) → (buckets : Cells) → Option Cells
  | [], buckets => some buckets
  | byte :: rest, buckets => do
    let count ← buckets.load byte.toNat
    let buckets ← buckets.store byte.toNat (count + 1)
    countBytes rest buckets

/-- `for(i=1;i<256;i++) buckets[i]+=buckets[i-1]`, from `i` on. -/
def accumulate : (left i : Nat) → (buckets : Cells) → Option Cells
  | 0, _, buckets => some buckets
  | left + 1, i, buckets => do
    let here ← buckets.load i
    let below ← buckets.load (i - 1 : Nat)
    let buckets ← buckets.store i (here + below)
    accumulate left (i + 1) buckets

/-- `for(i=255;i>0;i--) buckets[i]=buckets[i-1]`, from `i` down. -/
def shiftUp : (i : Nat) → (buckets : Cells) → Option Cells
  | 0, buckets => some buckets
  | i + 1, buckets => do
    let below ← buckets.load i
    let buckets ← buckets.store (i + 1 : Nat) below
    shiftUp i buckets

/-- `for(i=0;i<oldsize;i++) I[++buckets[old[i]]]=i`. -/
def placeSuffixes : (old : Bytes) → (i : Nat) → (buckets I : Cells) → Option (Cells × Cells)
  | [], _, buckets, I => some (buckets, I)
  | byte :: rest, i, buckets, I => do
    let last ← buckets.load byte.toNat
    let buckets ← buckets.store byte.toNat (last + 1)
    let I ← I.store (last + 1) i
    placeSuffixes rest (i + 1) buckets I

/-- `for(i=0;i<oldsize;i++) V[i]=buckets[old[i]]`. -/
def firstRanks (buckets : Cells) : (old : Bytes) → (i : Nat) → (V : Cells) → Option Cells
  | [], _, V => some V
  | byte :: rest, i, V => do
    let last ← buckets.load byte.toNat
    let V ← V.store i last
    firstRanks buckets rest (i + 1) V

/-- `for(i=1;i<256;i++) if(buckets[i]==buckets[i-1]+1) I[buckets[i]]=-1`, from `i` on. -/
def markSingles (buckets : Cells) : (left i : Nat) → (I : Cells) → Option Cells
  | 0, _, I => some I
  | left + 1, i, I => do
    let here ← buckets.load i
    let below ← buckets.load (i - 1 : Nat)
    if here = below + 1 then
      let I ← I.store here (-1)
      markSingles buckets left (i + 1) I
    else markSingles buckets left (i + 1) I

/-- The bucket sort by first byte at the start of `qsufsort`. -/
def bucketSort (old : Bytes) (I V : Cells) : Option (Cells × Cells) := do
  let buckets ← countBytes old (List.replicate 256 0)
  let buckets ← accumulate 255 1 buckets
  let buckets ← shiftUp 255 buckets
  let buckets ← buckets.store 0 0
  let (buckets, I) ← placeSuffixes old 0 buckets I
  let I ← I.store 0 old.length
  let V ← firstRanks buckets old 0 V
  let V ← V.store old.length 0
  let I ← markSingles buckets 255 1 I
  let I ← I.store 0 (-1)
  some (I, V)

/-- `if(len) I[i-len]=-len`. -/
def closeRun (I : Cells) (i len : Nat) : Option Cells :=
  if len ≠ 0 then I.store ((i : Int) - len) (-len) else some I

/-- The loop over the groups inside one pass of `qsufsort`; `i` and `len` never go
below zero. -/
def sweep (size h : Nat) : (fuel i len : Nat) → (I V : Cells) → Option (Cells × Cells)
  | 0, _, _, _, _ => none
  | fuel + 1, i, len, I, V =>
    if i < size + 1 then do
      let head ← I.load i
      if head < 0 then
        sweep size h fuel (i + (-head).toNat) (len + (-head).toNat) I V
      else do
        let I ← closeRun I i len
        let last ← V.load head
        let len := (last + 1 - i).toNat
        let (I, V) ← split h len i len I V
        sweep size h fuel (i + len) 0 I V
    else do
      let I ← closeRun I i len
      some (I, V)

/-- `for(h=1;I[0]!=-(oldsize+1);h+=h)`. -/
def passes (size : Nat) : (fuel h : Nat) → (I V : Cells) → Option (Cells × Cells)
  | 0, _, _, _ => none
  | fuel + 1, h, I, V => do
    let head ← I.load 0
    if head = -(size + 1) then some (I, V)
    else do
      let (I, V) ← sweep size h (size + 2) 0 0 I V
      passes size fuel (h + h) I V

/-- `for(i=0;i<oldsize+1;i++) I[V[i]]=i`, from `i` on. -/
def invertRanks (V : Cells) : (left i : Nat) → (I : Cells) → Option Cells
  | 0, _, I => some I
  | left + 1, i, I => do
    let rank ← V.load i
    let I ← I.store rank i
    invertRanks V left (i + 1) I

/-- `qsufsort`: what it leaves in `I`, for arrays that hold anything at the start. -/
def qsufsort (I V : Cells) (old : Bytes) : Option Cells := do
  let (I, V) ← bucketSort old I V
  let (I, V) ← passes old.length (old.length + 2) 1 I V
  invertRanks V (old.length + 1) 0 I

end PhilzTouch.ApplyPatch
