import ArityArrays.Arrays.Iteration
import ArityArrays.Arrays.Packed

/-!
# Iterators of the packed array

The shared iterators find the elements by counting ranks from both ends, the
mutable ones walk a slice of the block, and the owning one moves the elements
out of the block it took over.
-/

namespace ArityArrays.PackedArray

open ArityTries Checked DoubleEnded

variable {T : Type} {A : Arity}

/-- The elements behind the data pointer; a null pointer has no slots. -/
def data (a : PackedArray T A) : Block T :=
  match a.inner with
  | none => Block.alloc 0
  | some inner => inner.data

/-! ## Shared iterators -/

/-- How `PresentIter` and `Iter` find the elements: by their ranks, counted
from both ends. -/
structure Ranks (T : Type) where
  data : Block T
  count : ℕ
  frontRank : ℕ
  backConsumed : ℕ

def Ranks.take : End → Ranks T → Checked (T × Ranks T)
  | .front, s => do
      let v ← s.data.get s.frontRank
      return (v, { s with frontRank := s.frontRank + 1 })
  | .back, s => do
      let last ← usizeSub s.count 1
      let rank ← usizeSub last s.backConsumed
      let v ← s.data.get rank
      return (v, { s with backConsumed := s.backConsumed + 1 })

def ranks (a : PackedArray T A) : Ranks T := ⟨a.data, a.count, 0, 0⟩

abbrev PresentIter : DoubleEnded (BitIter A.LEN × Ranks T) (A.Index × T) :=
  ofPresent Ranks.take

def iterPresent (a : PackedArray T A) : BitIter A.LEN × Ranks T :=
  (⟨a.bitmap⟩, a.ranks)

abbrev Iter : DoubleEnded
    (NicheRangeInclusive A.LEN × Scattered A.LEN (Ranks T))
    (A.Index × Option T) :=
  ofSlots Ranks.take

def iter (a : PackedArray T A) :
    NicheRangeInclusive A.LEN × Scattered A.LEN (Ranks T) :=
  (NicheRangeInclusive.full A.LEN, ⟨a.bitmap, a.ranks⟩)

/-! ## Mutable iterators -/

/-- The membership bitmap paired with the places of the dense elements. -/
def presentSliceMut (a : PackedArray T A) :
    Checked (Bitmap A.LEN × List (Place T)) :=
  match a.inner with
  | none => .ok (Bitmap.ZERO, [])
  | some inner => do
      let count := Bitmap.countOnes inner.bitmap
      let elems ← (List.range count).mapM (refMut inner.data)
      return (inner.bitmap, elems)

abbrev PresentIterMut :
    DoubleEnded (BitIter A.LEN × List (Place T)) (A.Index × Place T) :=
  BitIter.iterator.zip BitIter.len sliceIter fun xs => .ok xs.length

/-- As many as both sides have left. -/
def PresentIterMut.len (s : BitIter A.LEN × List (Place T)) : Checked ℕ := do
  let k ← s.1.len
  return min k s.2.length

def iterPresentMut (a : PackedArray T A) :
    Checked (BitIter A.LEN × List (Place T)) := do
  let out ← a.presentSliceMut
  return (⟨out.1⟩, out.2)

abbrev IterMut : DoubleEnded
    (NicheRangeInclusive A.LEN × Scattered A.LEN (List (Place T)))
    (A.Index × Option (Place T)) :=
  ofSlots (sliceIter.demand fun _ =>
    "a set bit has a matching dense element")

def iterMut (a : PackedArray T A) :
    Checked (NicheRangeInclusive A.LEN × Scattered A.LEN (List (Place T))) := do
  let out ← a.presentSliceMut
  return (NicheRangeInclusive.full A.LEN, ⟨out.1, out.2⟩)

/-! ## The owning iterator -/

/-- What `IntoIter` keeps besides its set-bit cursor: the block, and the ranks
of the elements not yet moved out. -/
structure Owned (T : Type) where
  ptr : Option (Block T)
  front : ℕ
  back : ℕ
  count : ℕ

def Owned.take : End → Owned T → Checked (T × Owned T)
  | .front, s => do
      let ptr ← expect s.ptr "a set bit implies an allocated block"
      let out ← ptr.read s.front
      return (out.1, { s with
        ptr := some out.2
        front := s.front + 1 })
  | .back, s => do
      let back ← usizeSub s.back 1
      let ptr ← expect s.ptr "a set bit implies an allocated block"
      let out ← ptr.read back
      return (out.1, { s with
        ptr := some out.2
        back := back })

abbrev IntoIter : DoubleEnded (BitIter A.LEN × Owned T) (A.Index × T) :=
  ofPresent Owned.take

def intoIter (a : PackedArray T A) : BitIter A.LEN × Owned T :=
  match a.inner with
  | none => (⟨Bitmap.ZERO⟩, ⟨none, 0, 0, 0⟩)
  | some inner =>
      let count := Bitmap.countOnes inner.bitmap
      (⟨inner.bitmap⟩, ⟨some inner.data, 0, count, count⟩)

/-! ## What they have left -/

/-- The ranks counted from neither end hold the values `vs`. -/
def Ranks.Left (s : Ranks T) (vs : List T) : Prop :=
  s.frontRank + vs.length + s.backConsumed = s.count ∧
    (List.range' s.frontRank vs.length).map s.data.slot = vs.map some

theorem Ranks.supplies : Supplies (Ranks.take (T := T)) Ranks.Left where
  front := by
    rintro s v vs ⟨hcount, hslots⟩
    rw [List.length_cons, List.range'_succ, List.map_cons, List.map_cons,
      List.cons.injEq] at hslots
    rw [List.length_cons] at hcount
    exact ⟨{ s with frontRank := s.frontRank + 1 },
      by simp [take, Block.get_of_slot hslots.1], by simp only []; omega,
      hslots.2⟩
  back := by
    rintro s vs v ⟨hcount, hslots⟩
    rw [List.length_append, List.length_singleton, List.range'_concat,
      List.map_append, List.map_append, List.map_singleton,
      List.map_singleton] at hslots
    rw [List.length_append, List.length_singleton] at hcount
    obtain ⟨hslots, hlast⟩ := List.append_inj' hslots rfl
    have hget : s.data.get (s.count - 1 - s.backConsumed) = .ok v := by
      refine Block.get_of_slot ?_
      have hrank : s.count - 1 - s.backConsumed = s.frontRank + 1 * vs.length := by
        omega
      rw [hrank]
      exact List.singleton_inj.mp hlast
    exact ⟨{ s with backConsumed := s.backConsumed + 1 },
      by simp [take, usizeSub_of_le (show 1 ≤ s.count by omega),
        usizeSub_of_le (show s.backConsumed ≤ s.count - 1 by omega), hget],
      by simp only []; omega, hslots⟩

/-- The block of an owning iterator, if it has one, has `blockCap` slots and
holds the values `vs` in its ranks from `front` up to `back`, and nothing
else. -/
def Owned.Left (blockCap : Option ℕ) (s : Owned T) (vs : List T) : Prop :=
  s.ptr.map (fun _ => s.count) = blockCap ∧ s.front + vs.length = s.back ∧
    match s.ptr with
    | none => vs = []
    | some b => b.cap = s.count ∧
        (List.range' s.front vs.length).map b.slot = vs.map some ∧
        ∀ p, p < s.front ∨ s.back ≤ p → b.slot p = none

theorem Owned.supplies (blockCap : Option ℕ) :
    Supplies (Owned.take (T := T)) (Owned.Left blockCap) where
  front := by
    rintro ⟨ptr, front, back, count⟩ v vs ⟨hblock, hback, hptr⟩
    cases ptr with
    | none => cases hptr
    | some b =>
        obtain ⟨hcap, hslots, hfree⟩ := hptr
        simp only [List.length_cons] at hback hfree
        rw [List.length_cons, List.range'_succ, List.map_cons, List.map_cons,
          List.cons.injEq] at hslots
        refine ⟨⟨some { b with slot := Function.update b.slot front none },
          front + 1, back, count⟩,
          by simp [take, Block.read_of_slot hslots.1], hblock,
          by simp only []; omega, hcap, ?_, ?_⟩
        · rw [← hslots.2]
          refine List.map_congr_left fun p hp => ?_
          have hne : p ≠ front := by
            simp only [List.mem_range'_1] at hp
            omega
          exact Function.update_of_ne hne _ _
        · intro p hp
          simp only [] at hp
          by_cases hpf : p = front
          · subst hpf
            exact Function.update_self _ _ _
          · simp only [Function.update_of_ne hpf]
            exact hfree p (by omega)
  back := by
    rintro ⟨ptr, front, back, count⟩ vs v ⟨hblock, hback, hptr⟩
    cases ptr with
    | none => simp at hptr
    | some b =>
        obtain ⟨hcap, hslots, hfree⟩ := hptr
        simp only [List.length_append, List.length_singleton] at hback hfree
        rw [List.length_append, List.length_singleton, List.range'_concat,
          List.map_append, List.map_append, List.map_singleton,
          List.map_singleton] at hslots
        obtain ⟨hslots, hlast⟩ := List.append_inj' hslots rfl
        have hslot : b.slot (back - 1) = some v := by
          have hrank : back - 1 = front + 1 * vs.length := by omega
          rw [hrank]
          exact List.singleton_inj.mp hlast
        refine ⟨⟨some { b with slot := Function.update b.slot (back - 1) none },
          front, back - 1, count⟩,
          by simp [take, usizeSub_of_le (show 1 ≤ back by omega),
            Block.read_of_slot hslot], hblock,
          by simp only []; omega, hcap, ?_, ?_⟩
        · rw [← hslots]
          refine List.map_congr_left fun p hp => ?_
          have hne : p ≠ back - 1 := by
            simp only [List.mem_range'_1] at hp
            omega
          exact Function.update_of_ne hne _ _
        · intro p hp
          simp only [] at hp
          by_cases hpb : p = back - 1
          · subst hpb
            exact Function.update_self _ _ _
          · simp only [Function.update_of_ne hpb]
            exact hfree p (by omega)

/-! ## Under any calls -/

section Start

variable {a : PackedArray T A} {m : ChildMap A.LEN T}

/-- The first slots of the block hold the values in order. -/
theorem Dense.map_slot {n : ℕ} {m : ChildMap n T} {b : Block T}
    (h : Dense m b) :
    (List.range' 0 m.values.length).map b.slot = m.values.map some := by
  rw [ChildMap.length_values, ← List.range_eq_range',
    ← ChildMap.countOnes_present, ← Bitmap.map_rank_bits]
  exact h.placed.map_slot

theorem Dense.slot_of_values {n : ℕ} {m : ChildMap n T} {b : Block T}
    (h : Dense m b) {j : ℕ} {v : T} (hv : m.values[j]? = some v) :
    b.slot j = some v := by
  have hslots := congrArg (·[j]?) h.map_slot
  have hj : j < m.values.length := (List.getElem?_eq_some_iff.mp hv).1
  simpa [hv, List.getElem?_range' hj] using hslots

theorem Holds.data_slots (h : a.Holds m) :
    (List.range' 0 m.values.length).map a.data.slot = m.values.map some := by
  unfold data
  cases hinner : a.inner with
  | none =>
      obtain rfl := h.of_none hinner
      rw [ChildMap.values_empty]
      rfl
  | some inner =>
      obtain ⟨-, -, hdense⟩ := h.of_some hinner
      exact hdense.map_slot

theorem Holds.ranks_left (h : a.Holds m) : a.ranks.Left m.values := by
  refine ⟨?_, h.data_slots⟩
  simp [ranks, h.count_eq, ChildMap.length_values]

theorem Holds.iterPresent (h : a.Holds m) :
    PresentIter.ActsAs (fun s => s.1.len)
      (fun _ => PresentIter.foldFrom) a.iterPresent m.iterPresent := by
  unfold PackedArray.iterPresent
  rw [h.bitmap_eq]
  exact ofPresent_actsAs Ranks.supplies h.ranks_left

theorem Holds.collect_iterPresent (h : a.Holds m) :
    PresentIter.collect a.iterPresent = .ok m.iterPresent := by
  unfold PackedArray.iterPresent
  rw [h.bitmap_eq]
  exact (ofPresent_refines Ranks.supplies).collect (ofPresent_start h.ranks_left)

theorem Holds.iter (h : a.Holds m) :
    Iter.ActsAs (fun s => s.1.len) (fun _ => Iter.foldFrom) a.iter
      m.entries := by
  unfold PackedArray.iter
  rw [h.bitmap_eq]
  exact ofSlots_actsAs Ranks.supplies h.ranks_left

theorem Holds.presentSliceMut (h : a.Holds m) :
    a.presentSliceMut =
      .ok (m.present, (places m (Bitmap.rank m.present)).values) := by
  unfold PackedArray.presentSliceMut
  cases hinner : a.inner with
  | none =>
      obtain rfl := h.of_none hinner
      rw [places_empty, ChildMap.values_empty, ChildMap.present_empty]
      rfl
  | some inner =>
      obtain ⟨-, hbm, hdense⟩ := h.of_some hinner
      have hplaces := mapM_refMut
        (places m (Bitmap.rank m.present)).values
        fun z hz => hdense.placed.slot_of_place hz
      rw [map_slot_places, Bitmap.map_rank_bits] at hplaces
      simp only [hbm, hplaces, ok_bind, pure_eq_ok]

theorem Holds.iterPresentMut (h : a.Holds m) :
    ∃ s, a.iterPresentMut = .ok s ∧
      PresentIterMut.ActsAs PresentIterMut.len
        (fun _ => PresentIterMut.foldFrom) s
        (places m (Bitmap.rank m.present)).iterPresent := by
  refine ⟨(⟨m.present⟩, (places m (Bitmap.rank m.present)).values), ?_, ?_⟩
  · simp only [PackedArray.iterPresentMut, h.presentSliceMut, ok_bind,
      pure_eq_ok]
  · refine (BitIter.refines.zip sliceIter_refines BitIter.len_of_left
      (by rintro xs ys rfl; rfl)).actsAs ?_ (fun _ _ _ _ _ => rfl) ?_
    · rintro s zs ⟨hs, hslice⟩
      simp only [PresentIterMut.len, BitIter.len_of_left hs, hslice, ok_bind,
        pure_eq_ok, List.length_map, Nat.min_self]
    · refine ⟨?_, rfl⟩
      rw [ChildMap.map_fst_iterPresent, places, ChildMap.present_map]
      rfl

theorem Holds.iterMut (h : a.Holds m) :
    ∃ s, a.iterMut = .ok s ∧
      IterMut.ActsAs (fun s => s.1.len) (fun _ => IterMut.foldFrom) s
        (places m (Bitmap.rank m.present)).entries := by
  have hacts := ofSlots_actsAs (c := places m (Bitmap.rank m.present))
    (sliceIter_refines.demand fun _ => "a set bit has a matching dense element")
    rfl
  refine ⟨_, ?_, hacts⟩
  simp only [PackedArray.iterMut, h.presentSliceMut, ok_bind, pure_eq_ok,
    places, ChildMap.present_map]

/-- The number of slots of the block, if there is one. -/
def blockCap (a : PackedArray T A) : Option ℕ :=
  a.inner.map fun inner => Bitmap.countOnes inner.bitmap

/-- The iterator takes over the block. -/
theorem Holds.owned_left (h : a.Holds m) :
    a.intoIter.1 = ⟨m.present⟩ ∧
      a.intoIter.2.Left a.blockCap m.values := by
  unfold intoIter blockCap
  cases hinner : a.inner with
  | none =>
      obtain rfl := h.of_none hinner
      simp [Owned.Left, Bitmap.ZERO]
  | some inner =>
      obtain ⟨-, hbm, hdense⟩ := h.of_some hinner
      refine ⟨congrArg BitIter.mk hbm, rfl, ?_, ?_, ?_, ?_⟩
      · simp [hbm, ChildMap.countOnes_present, ChildMap.length_values]
      · simp only [hbm, ChildMap.countOnes_present]
        exact hdense.cap
      · exact hdense.map_slot
      · intro p hp
        refine hdense.slot_eq_none ?_
        simpa [hbm, ChildMap.countOnes_present] using hp

theorem Holds.intoIter (h : a.Holds m) :
    IntoIter.ActsAs (fun s => s.1.len) (fun _ => IntoIter.foldFrom) a.intoIter
      m.iterPresent := by
  have hacts := ofPresent_actsAs (Owned.supplies a.blockCap)
    h.owned_left.2
  rwa [← h.owned_left.1] at hacts

theorem Holds.collect_intoIter (h : a.Holds m) :
    IntoIter.collect a.intoIter = .ok m.iterPresent := by
  have hstart := ofPresent_start h.owned_left.2
  rw [← h.owned_left.1] at hstart
  exact (ofPresent_refines (Owned.supplies a.blockCap)).collect hstart

end Start

end ArityArrays.PackedArray
