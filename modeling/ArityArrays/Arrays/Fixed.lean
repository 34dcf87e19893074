import ArityArrays.Arrays.Placement
import ArityArrays.Arrays.Slots

/-!
# The fixed array

A `FixedArray` stores one value for every index.  With optional values it is a
map from indices, and the staging area of every conversion and bulk
construction.
-/

namespace ArityArrays

open ArityTries Checked

/-- One value for every index of the arity. -/
@[ext] structure FixedArray (T : Type) (A : Arity) where
  slots : A.Index → T

namespace FixedArray

variable {T : Type} {A : Arity}

def fromFn (f : A.Index → T) : FixedArray T A := ⟨f⟩

def get (a : FixedArray T A) (i : A.Index) : T := a.slots i

/-- Assign to the place of index `i`. -/
def assign (a : FixedArray T A) (i : A.Index) (v : T) : FixedArray T A :=
  ⟨Function.update a.slots i v⟩

def replace (a : FixedArray T A) (i : A.Index) (v : T) : T × FixedArray T A :=
  (a.get i, a.assign i v)

def asSlice (a : FixedArray T A) : List T := List.ofFn a.slots

/-! ### Iteration -/

/-- The iterator over the pairs of an index and its value. -/
def pairs : DoubleEnded (NicheRangeInclusive A.LEN × List T) (A.Index × T) :=
  NicheRangeInclusive.iterator.zip NicheRangeInclusive.len
    sliceIter fun xs => .ok xs.length

def intoIter (a : FixedArray T A) : NicheRangeInclusive A.LEN × List T :=
  (NicheRangeInclusive.full A.LEN, a.asSlice)

/-! ### Optional values -/

def new : FixedArray (Option T) A := fromFn fun _ => none

def count (a : FixedArray (Option T) A) : ℕ :=
  (a.asSlice.filter Option.isSome).length

def take (a : FixedArray (Option T) A) (i : A.Index) :
    Option T × FixedArray (Option T) A :=
  a.replace i none

/-- Assign `f v` to the place of index `i`, if it holds a value `v`. -/
def assignMut (a : FixedArray (Option T) A) (i : A.Index) (f : T → T) :
    Option T × FixedArray (Option T) A :=
  match a.get i with
  | none => (none, a)
  | some v => (some v, a.assign i (some (f v)))

/-- The iterator over the present entries. -/
def presentIter :
    DoubleEnded (NicheRangeInclusive A.LEN × List (Option T)) (A.Index × T) :=
  pairs.filterMap fun entry => entry.2.map fun v => (entry.1, v)

def takeOnlyChild (a : FixedArray (Option T) A) :
    Checked (Option (A.Index × T) × FixedArray (Option T) A) := do
  let first ← presentIter.next a.intoIter
  match first.1 with
  | none => return (none, a)
  | some only =>
      let second ← presentIter.next first.2
      if second.1.isSome then return (none, a)
      let taken := a.take only.1
      return (taken.1.map fun v => (only.1, v), taken.2)

/-- The bitmap of the present indices. -/
def present (a : FixedArray (Option T) A) : Checked (Bitmap A.LEN) :=
  (pairs.filterMap fun entry : A.Index × Option T =>
    if entry.2.isSome then some entry else none).fold
      (fun bits entry => .ok (Bitmap.withBit bits entry.1)) Bitmap.ZERO
      a.intoIter

/-- The map an array of optional values stands for. -/
def contents (a : FixedArray (Option T) A) : ChildMap A.LEN T := ⟨a.slots⟩

/-! ### What the operations observe -/

section Iteration

theorem map_fst_pairs (a : FixedArray T A) :
    ((List.finRange A.LEN).map fun i => (i, a.slots i)).map Prod.fst =
      List.finRange A.LEN := by
  simp [Function.comp_def]

theorem pairs_refines : (pairs (T := T) (A := A)).Refines
    (DoubleEnded.Zipped NicheRangeInclusive.Left Eq) :=
  NicheRangeInclusive.refines.zip sliceIter_refines
    NicheRangeInclusive.len_of_left (by
      rintro xs ys rfl
      rfl)

theorem zipped_intoIter (a : FixedArray T A) :
    DoubleEnded.Zipped NicheRangeInclusive.Left Eq a.intoIter
      ((List.finRange A.LEN).map fun i => (i, a.slots i)) := by
  refine ⟨?_, ?_⟩
  · rw [map_fst_pairs]
    exact NicheRangeInclusive.left_full A.LEN
  · simp [intoIter, asSlice, List.ofFn_eq_map]

variable (a : FixedArray (Option T) A)

theorem presentIter_refines : (presentIter (T := T) (A := A)).Refines
    (DoubleEnded.Filtered (DoubleEnded.Zipped NicheRangeInclusive.Left Eq)
      fun entry => entry.2.map fun v => (entry.1, v)) :=
  pairs_refines.filterMap _

theorem filtered_intoIter :
    DoubleEnded.Filtered (DoubleEnded.Zipped NicheRangeInclusive.Left Eq)
      (fun entry => entry.2.map fun v => (entry.1, v)) a.intoIter
      a.contents.iterPresent :=
  ⟨_, a.zipped_intoIter, by
    rw [ChildMap.iterPresent, List.filterMap_map]
    rfl⟩

theorem present_eq : a.present = .ok a.contents.present := by
  unfold present
  rw [(pairs_refines.filterMap _).fold ⟨_, a.zipped_intoIter, rfl⟩,
    DoubleEnded.foldlM_ok]
  congr 1
  rw [ChildMap.present, ChildMap.iterPresent, List.filterMap_map,
    List.foldl_filterMap, List.foldl_filterMap]
  congr 1
  funext bits i
  cases h : a.slots i <;> simp [ChildMap.get, contents, h]

theorem count_eq : a.count = a.contents.count := by
  rw [count, ChildMap.count, ChildMap.iterPresent, asSlice, List.ofFn_eq_map,
    List.filter_map, List.length_map]
  induction List.finRange A.LEN with
  | nil => rfl
  | cons i is ih =>
      cases h : a.slots i with
      | none => simpa [ChildMap.get, contents, h] using ih
      | some v => simpa [ChildMap.get, contents, h] using ih

end Iteration

@[simp] theorem contents_new :
    (new : FixedArray (Option T) A).contents = ChildMap.empty := rfl

theorem contents_assign_some (a : FixedArray (Option T) A) (i : A.Index)
    (v : T) : (a.assign i (some v)).contents = a.contents.set i v := rfl

theorem get_contents (a : FixedArray (Option T) A) (i : A.Index) :
    a.contents.get i = a.get i := rfl

theorem assignMut_eq (a : FixedArray (Option T) A) (i : A.Index) (f : T → T) :
    (a.assignMut i f).1 = a.contents.get i ∧
      (a.assignMut i f).2.contents = a.contents.modify i f := by
  rw [assignMut, ChildMap.modify, get_contents]
  cases a.get i with
  | none => exact ⟨rfl, rfl⟩
  | some v => exact ⟨rfl, contents_assign_some a i (f v)⟩

theorem contents_injective {a b : FixedArray (Option T) A}
    (h : a.contents = b.contents) : a = b := by
  cases a
  cases b
  cases h
  rfl

theorem takeOnlyChild_eq (a : FixedArray (Option T) A) :
    ∃ a', a.takeOnlyChild = .ok (a.contents.takeOnlyChild.1, a') ∧
      a'.contents = a.contents.takeOnlyChild.2 := by
  have hstart := a.filtered_intoIter
  unfold takeOnlyChild ChildMap.takeOnlyChild
  cases hlist : a.contents.iterPresent with
  | nil =>
      rw [hlist] at hstart
      obtain ⟨s, hnext, -⟩ := presentIter_refines.nil (e := .front) hstart
      exact ⟨a, by simp [DoubleEnded.next, hnext], rfl⟩
  | cons only rest =>
      rw [hlist] at hstart
      obtain ⟨s, hnext, hs⟩ := presentIter_refines.front hstart
      cases rest with
      | nil =>
          obtain ⟨t, hnext', -⟩ := presentIter_refines.nil (e := .front) hs
          have honly : a.contents.get only.1 = some only.2 :=
            ChildMap.mem_iterPresent.mp (by rw [hlist]; simp)
          refine ⟨a.assign only.1 none, ?_, rfl⟩
          rw [get_contents] at honly
          simp [DoubleEnded.next, hnext, hnext', take, replace, honly]
      | cons second rest =>
          obtain ⟨t, hnext', -⟩ := presentIter_refines.front hs
          exact ⟨a, by simp [DoubleEnded.next, hnext, hnext'], rfl⟩

end FixedArray

end ArityArrays
