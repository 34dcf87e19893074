import ArityArrays.Arrays.Placement
import ArityArrays.Support.Unwind

/-!
# The gapped array

A `GappedArray` keeps its present elements in ascending order in a block with
spare slots between them.  The header has two bitmaps: `occupancy` is the set
of present indices and `live` the set of filled slots, and the element of rank
`r` in the one stands in the slot of rank `r` in the other.
-/

namespace ArityArrays

open ArityTries Checked

namespace GappedArray

/-- The block of a gapped array.  `block` counts the blocks the array had
before this one; it tells one allocation from the next, as the pointer to it
does. -/
structure Inner (T : Type) (A : Arity) where
  occupancy : Bitmap A.LEN
  live : Bitmap A.LEN
  capExp : ℕ
  data : Block T
  block : ℕ

def Inner.capacity {T : Type} {A : Arity} (inner : Inner T A) : ℕ :=
  2 ^ inner.capExp

end GappedArray

/-- A gapped array; unallocated until the first insertion. -/
structure GappedArray (T : Type) (A : Arity) where
  inner : Option (GappedArray.Inner T A)

namespace GappedArray

variable {T : Type} {A : Arity}

/-! ## Observations -/

def new : GappedArray T A := ⟨none⟩

def capacity (g : GappedArray T A) : ℕ :=
  match g.inner with
  | none => 0
  | some inner => inner.capacity

/-- The logical-membership bitmap. -/
def bitmap (g : GappedArray T A) : Bitmap A.LEN :=
  match g.inner with
  | none => Bitmap.ZERO
  | some inner => inner.occupancy

def count (g : GappedArray T A) : ℕ := Bitmap.countOnes g.bitmap

def isEmpty (g : GappedArray T A) : Bool := g.count = 0

/-- The physical slot of a present index. -/
def slotOf (inner : Inner T A) (index : A.Index) (message : String) :
    Checked A.Index :=
  let r := Bitmap.rank inner.occupancy index
  expect (Bitmap.select inner.live r) message

def get (g : GappedArray T A) (index : A.Index) : Checked (Option T) :=
  match g.inner with
  | none => .ok none
  | some inner =>
      if Bitmap.test inner.occupancy index then do
        let p ← slotOf inner index
          "present ⇒ rank < count == live popcount"
        let v ← inner.data.get p
        return some v
      else .ok none

/-- The slot of the element that a mutable reference to `index` points to. -/
def getMut (g : GappedArray T A) (index : A.Index) : Checked (Option ℕ) :=
  match g.inner with
  | none => .ok none
  | some inner =>
      if Bitmap.test inner.occupancy index then do
        let p ← slotOf inner index "present ⇒ rank < count"
        let _ ← inner.data.get p
        return some p.val
      else .ok none

/-- Assign `f v` through a mutable reference to the value `v` in `slot`. -/
def writeThrough (g : GappedArray T A) (slot : ℕ) (f : T → T) :
    Checked (T × GappedArray T A) := do
  let inner ← expect g.inner "a reference into an allocated block"
  let v ← inner.data.get slot
  let out ← inner.data.replace slot (f v)
  return (out.1, ⟨some { inner with data := out.2 }⟩)

/-- Assign `f v` to the place of `index`, if `get_mut` finds a value `v`. -/
def assignMut (g : GappedArray T A) (index : A.Index) (f : T → T) :
    Checked (Option T × GappedArray T A) := do
  let slot ← g.getMut index
  match slot with
  | none => return (none, g)
  | some slot =>
      let out ← g.writeThrough slot f
      return (some out.1, out.2)

/-! ## Removal -/

def remove (g : GappedArray T A) (index : A.Index) :
    Checked (Option T × GappedArray T A) :=
  match g.inner with
  | none => .ok (none, g)
  | some inner => do
      if ¬Bitmap.test inner.occupancy index then
        return (none, g)
      let p ← slotOf inner index "present ⇒ rank < count"
      let pIdx : A.Index ← expect (tryFromUsize p.val) "p < cap <= N"
      let out ← inner.data.read p
      return (some out.1, ⟨some { inner with
        occupancy := Bitmap.withoutBit inner.occupancy index
        live := Bitmap.withoutBit inner.live pIdx
        data := out.2 }⟩)

def takeOnlyChild (g : GappedArray T A) :
    Checked (Option (A.Index × T) × GappedArray T A) :=
  if Bitmap.countOnes g.bitmap ≠ 1 then .ok (none, g)
  else
    match (⟨g.bitmap⟩ : BitIter A.LEN).next.1 with
    | none => .ok (none, g)
    | some only => do
        let out ← g.remove only
        return (out.1.map fun value => (only, value), out.2)

/-! ## Rebuilding -/

/-- The live bitmap of `count` elements spread over `cap` slots. -/
def spreadLive (A : Arity) (count cap : ℕ) (message : String) :
    Checked (Bitmap A.LEN) :=
  (List.range count).foldlM (fun live r => do
    let p ← spreadPos r count cap
    let pIdx ← expect (tryFromUsize p) message
    return Bitmap.withBit live pIdx) Bitmap.ZERO

/-- The slots of the set bits of a bitmap, in order. -/
def slots (b : Bitmap A.LEN) : List ℕ := (Bitmap.bits b).map Fin.val

/-- Move all elements to a fresh block of `newCap` slots. -/
def rebuildTo (g : GappedArray T A) (newCap : ℕ) : Checked (GappedArray T A) :=
  match g.inner with
  | none => .ok g
  | some old => do
      let count := Bitmap.countOnes old.occupancy
      debugAssert (count ≤ newCap ∧ newCap = 2 ^ newCap.log2)
        "assertion failed: count <= new_cap && new_cap.is_power_of_two()"
      let newCapExp ← capExpOf newCap
      let newLive ← spreadLive A count newCap "p < new_cap <= N"
      let moved ← transfer ((slots old.live).zip (slots newLive)) old.data
        (Block.alloc newCap)
      moved.1.dealloc old.capacity
      return ⟨some ⟨old.occupancy, newLive, newCapExp, moved.2, old.block + 1⟩⟩

/-- The state of the fill loop of `rebuildWithInsert`. -/
structure Refill (T : Type) where
  src : Block T
  dst : Block T
  value : Option T
  oldSlots : List ℕ

/-- Fill the slot `np` of rank `nr`: the inserted rank takes the new value, any
other rank the next old element. -/
def refill (newRank : ℕ) (s : Refill T) (np nr : ℕ) : Checked (Refill T) :=
  if nr = newRank then do
    let v ← expect s.value "inserted rank visited once"
    let dst ← s.dst.write np v
    return { s with
      dst := dst
      value := none }
  else do
    let op ← expect s.oldSlots.head? "an old element for each non-inserted rank"
    let moved ← s.src.moveTo op s.dst np 1
    return { s with
      src := moved.1
      dst := moved.2
      oldSlots := s.oldSlots.tail }

/-- Move all elements and the new one to a fresh block of `newCap` slots. -/
def rebuildWithInsert (g : GappedArray T A) (index : A.Index) (value : T)
    (newCap : ℕ) : Checked (GappedArray T A) := do
  let old ← expect g.inner "rebuild_with_insert requires an allocation"
  debugAssert (¬Bitmap.test old.occupancy index)
    "assertion failed: !occ.test(index)"
  let newOcc := Bitmap.withBit old.occupancy index
  let newCount := Bitmap.countOnes newOcc
  debugAssert (newCount ≤ newCap ∧ newCap = 2 ^ newCap.log2)
    "assertion failed: new_count <= new_cap && new_cap.is_power_of_two()"
  let newRank := Bitmap.rank newOcc index
  let newCapExp ← capExpOf newCap
  let newLive ← spreadLive A newCount newCap "p < new_cap <= N"
  let filled ← (slots newLive).zipIdx.foldlM
    (fun s slot => refill newRank s slot.1 slot.2)
    { src := old.data
      dst := Block.alloc newCap
      value := some value
      oldSlots := slots old.live }
  filled.src.dealloc old.capacity
  return ⟨some ⟨newOcc, newLive, newCapExp, filled.dst, old.block + 1⟩⟩

/-! ## Insertion -/

/-- The live slot of the predecessor by rank of an absent index, `-1` below the
least. -/
def lowerNeighbor (occ live : Bitmap A.LEN) (index : A.Index) : Checked ℤ :=
  let r := Bitmap.rank occ index
  if r = 0 then .ok (-1)
  else do
    let k ← expect (u32TryFrom (r - 1)) "r <= 256 fits u32"
    let p ← expect (Bitmap.select live k) "r-1 < count"
    return (p.val : ℤ)

/-- The live slot of the successor by rank of an absent index, `cap` above the
greatest. -/
def upperNeighbor (occ live : Bitmap A.LEN) (cap count : ℕ)
    (index : A.Index) : Checked ℕ :=
  let r := Bitmap.rank occ index
  if r = count then .ok cap
  else do
    let k ← expect (u32TryFrom r) "r <= 256 fits u32"
    let p ← expect (Bitmap.select live k) "r < count"
    return p.val

/-- The slots that bracket the rank of an absent index. -/
def neighborBounds (occ live : Bitmap A.LEN) (cap count : ℕ)
    (index : A.Index) : Checked (ℤ × ℕ) := do
  let pLo ← lowerNeighbor occ live index
  let pHi ← upperNeighbor occ live cap count index
  return (pLo, pHi)

/-- The nearest hole at or below `start` and its distance. -/
def nearestHoleLeft (live : Bitmap A.LEN) (start : ℤ) :
    Checked (Option (ℕ × ℕ)) :=
  if start < 0 then .ok none
  else do
    let hole ← Bitmap.nearestClearAtOrBelow live start.toNat
    match hole with
    | none => return none
    | some hole =>
        let dist ← usizeSub start.toNat hole
        return some (hole.val, dist)

/-- The nearest hole in `[start, cap)` and its distance. -/
def nearestHoleRight (live : Bitmap A.LEN) (start cap : ℕ) :
    Checked (Option (ℕ × ℕ)) := do
  let hole ← Bitmap.nearestClearIn live start cap
  match hole with
  | none => return none
  | some hole =>
      let dist ← usizeSub hole start
      return some (hole.val, dist)

/-- Shift the run `(hole, pHi)` down by one and write to slot `pHi - 1`. -/
def shiftLeftAndWrite (inner : Inner T A) (index : A.Index) (hole pHi : ℕ)
    (value : T) : Checked (Inner T A) := do
  let n ← usizeSub pHi hole
  let n ← usizeSub n 1
  let data ← inner.data.moveWithin (hole + 1) hole n
  let writeAt ← usizeSub pHi 1
  let data ← data.write writeAt value
  let holeIdx ← expect (tryFromUsize hole) "hole < cap"
  return { inner with
    occupancy := Bitmap.withBit inner.occupancy index
    live := Bitmap.withBit inner.live holeIdx
    data := data }

/-- Shift the run `[pHi, hole)` up by one and write to slot `pHi`. -/
def shiftRightAndWrite (inner : Inner T A) (index : A.Index) (pHi hole : ℕ)
    (value : T) : Checked (Inner T A) := do
  let n ← usizeSub hole pHi
  let data ← inner.data.moveWithin pHi (pHi + 1) n
  let data ← data.write pHi value
  let holeIdx ← expect (tryFromUsize hole) "hole < cap"
  return { inner with
    occupancy := Bitmap.withBit inner.occupancy index
    live := Bitmap.withBit inner.live holeIdx
    data := data }

/-- Write to the hole `hp`. -/
def writeIntoHole (inner : Inner T A) (index : A.Index) (hp : ℕ) (value : T) :
    Checked (Inner T A) := do
  let hpIdx ← expect (tryFromUsize hp) "hp < cap <= N"
  debugAssert (¬Bitmap.test inner.live hpIdx)
    "assertion failed: !live.test(hp_idx)"
  let data ← inner.data.write hp value
  return { inner with
    occupancy := Bitmap.withBit inner.occupancy index
    live := Bitmap.withBit inner.live hpIdx
    data := data }

/-- The part of `placeAbsent` for adjacent neighbours: the cheapest of a shift
to the left, a shift to the right and a rebuild. -/
def placeAdjacent (g : GappedArray T A) (inner : Inner T A) (index : A.Index)
    (value : T) (pLo : ℤ) (pHi : ℕ) : Checked (GappedArray T A) := do
  let cap := inner.capacity
  let left ← nearestHoleLeft inner.live pLo
  let right ← nearestHoleRight inner.live pHi cap
  let respreadCost := Bitmap.countOnes inner.occupancy
  let leftCost := left.elim usizeMax Prod.snd
  let rightCost := right.elim usizeMax Prod.snd
  if leftCost ≤ rightCost ∧ leftCost ≤ respreadCost then
    let hole ← expect left "left_cost finite ⇒ Some"
    let inner ← shiftLeftAndWrite inner index hole.1 pHi value
    return ⟨some inner⟩
  else if rightCost ≤ respreadCost then
    let hole ← expect right "right_cost finite ⇒ Some"
    let inner ← shiftRightAndWrite inner index pHi hole.1 value
    return ⟨some inner⟩
  else
    g.rebuildWithInsert index value cap

/-- Place `value` at an absent index, given spare capacity. -/
def placeAbsent (g : GappedArray T A) (index : A.Index) (value : T) :
    Checked (GappedArray T A) := do
  let inner ← expect g.inner "place_absent requires an allocation"
  let cap := inner.capacity
  let count := Bitmap.countOnes inner.occupancy
  let bounds ← neighborBounds inner.occupancy inner.live cap count index
  let pLo := bounds.1
  let pHi := bounds.2
  let lo := (pLo + 1).toNat
  let between ← Bitmap.nearestClearIn inner.live lo pHi
  match between with
  | some hole =>
      let inner ← writeIntoHole inner index hole value
      return ⟨some inner⟩
  | none => g.placeAdjacent inner index value pLo pHi

def insert (g : GappedArray T A) (index : A.Index) (value : T) :
    Checked (Option T × GappedArray T A) :=
  match g.inner with
  | none => do
      let occ := Bitmap.withBit Bitmap.ZERO index
      let first : A.Index ← expect (tryFromUsize 0) "0 < N"
      let live := Bitmap.withBit Bitmap.ZERO first
      let data ← (Block.alloc 1).write 0 value
      return (none, ⟨some ⟨occ, live, 0, data, 0⟩⟩)
  | some inner => do
      if Bitmap.test inner.occupancy index then
        let p ← slotOf inner index "present ⇒ rank < count"
        let out ← inner.data.replace p value
        return (some out.1, ⟨some { inner with data := out.2 }⟩)
      let count := Bitmap.countOnes inner.occupancy
      if count = inner.capacity then
        let newCap ← pow2CapFor A (count + 1)
        let g ← g.rebuildWithInsert index value newCap
        return (none, g)
      let g ← g.placeAbsent index value
      return (none, g)

/-- Insert the pairs in turn, dropping what they displace. -/
def extend (g : GappedArray T A) (entries : List (A.Index × T)) :
    Checked (GappedArray T A) :=
  entries.foldlM (fun g entry => do
    let out ← g.insert entry.1 entry.2
    return out.2) g

/-! ## Capacity -/

def withCapacity (T : Type) (A : Arity) (n : ℕ) : Checked (GappedArray T A) := do
  let cap ← pow2CapFor A n
  if cap = 0 then
    return new
  let capExp ← capExpOf cap
  return ⟨some ⟨Bitmap.ZERO, Bitmap.ZERO, capExp, Block.alloc cap, 0⟩⟩

def reserve (g : GappedArray T A) (n : ℕ) : Checked (GappedArray T A) := do
  let want := saturatingAdd g.count n
  let target ← pow2CapFor A want
  if target ≤ g.capacity then
    return g
  match g.inner with
  | some _ => g.rebuildTo target
  | none => withCapacity T A want

/-- Free an allocated array without elements, as its destructor does. -/
def dropEmpty (g : GappedArray T A) : Checked Unit :=
  match g.inner with
  | none => .ok ()
  | some inner => inner.data.dealloc inner.capacity

def shrinkToFit (g : GappedArray T A) : Checked (GappedArray T A) := do
  let count := g.count
  if count = 0 then
    g.dropEmpty
    return new
  let target ← pow2CapFor A count
  if target < g.capacity then
    g.rebuildTo target
  else
    return g

/-! ## Clearing -/

/-- Drop the elements in the slots of `remaining`.  Before each one, a guard
over the slots after it is armed that drops those on unwinding.  Elements of a
type without a destructor are just left. -/
def dropLiveElems {n : ℕ} (d : Destructor T) (remaining : Bitmap n) :
    Routine (Block T) T :=
  if d.needsDrop = false then
    fun b => .ok ⟨b.vacate ((Bitmap.bits remaining).map Fin.val), [], .returns⟩
  else
    match _h : (⟨remaining⟩ : BitIter n).next.1 with
    | none => Routine.done
    | some i =>
        let rest := dropLiveElems d (Bitmap.withoutBit remaining i)
        (Routine.guarded (Block.dropInPlace d i) rest).andThen rest
termination_by Bitmap.countOnes remaining
decreasing_by
  rw [BitIter.next_fst] at _h
  exact Nat.lt_of_lt_of_eq (Nat.lt_succ_self _)
    (Bitmap.countOnes_withoutBit (Bitmap.mem_of_select _h))

/-- Drop all elements and keep the allocation. -/
def clear (d : Destructor T) (g : GappedArray T A) :
    Checked (Outcome (GappedArray T A) T) :=
  match g.inner with
  | none => .ok ⟨g, [], .returns⟩
  | some inner => do
      -- Membership is reset first, so no panic can leave a live bit behind.
      let cleared := { inner with
        occupancy := Bitmap.ZERO
        live := Bitmap.ZERO }
      let out ← dropLiveElems d inner.live inner.data
      return ⟨⟨some { cleared with data := out.state }⟩, out.events, out.exit⟩

end GappedArray

end ArityArrays
