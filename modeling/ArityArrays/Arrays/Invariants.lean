import ArityArrays.Arrays.Programs

/-!
# The representation invariants

What the two sparse arrays promise about their blocks, spelled out in terms of
bitmaps, capacities and slots.  Both hold in every state a program reaches.
-/

namespace ArityArrays

open ArityTries Checked

variable {T : Type} {A : Arity}

/-! ## The gapped array -/

namespace GappedArray

/-- An allocated block with the entries of `m`: the slot of rank `r` among the
live ones holds the value of the index of rank `r` among the present ones, and
nothing else is initialised. -/
structure Valid (inner : Inner T A) (m : ChildMap A.LEN T) : Prop where
  capacity : ∃ k, inner.capacity = 2 ^ k
  le : inner.capacity ≤ A.LEN
  block : inner.data.cap = inner.capacity
  bound : ∀ p ∈ inner.live, p.val < inner.capacity
  popcount : Bitmap.countOnes inner.live = Bitmap.countOnes inner.occupancy
  initialised : ∀ p : ℕ,
    (inner.data.slot p).isSome ↔ ∃ q ∈ inner.live, q.val = p
  members : ∀ i, i ∈ inner.occupancy ↔ (m.get i).isSome
  values : ∀ (r : ℕ) (i p : A.Index),
    Bitmap.select inner.occupancy r = some i →
      Bitmap.select inner.live r = some p → inner.data.slot p = m.get i

section Valid

variable {inner : Inner T A} {m : ChildMap A.LEN T} {pos : A.Index → ℕ}

theorem Laid.valid (h : Laid inner m pos) : Valid inner m where
  capacity := ⟨inner.capExp, rfl⟩
  le := h.le
  block := h.cap
  bound p hp := by
    obtain ⟨i, hi, hpos⟩ := h.mem_live.mp hp
    rw [← hpos]
    exact h.pos_lt hi
  popcount := h.countOnes_live
  initialised p := (h.exists_live p).symm
  members i := by
    rw [h.occupancy, ChildMap.mem_present, Option.isSome_iff_exists]
  values r i p hi hp := by
    rw [h.occupancy] at hi
    have hselect := h.select_live r
    rw [hp, hi, Option.map_some, Option.map_some, Option.some.injEq] at hselect
    rw [hselect]
    exact h.placed.value i (Bitmap.mem_of_select hi)

/-- The slot of a present index. -/
def slotAt (inner : Inner T A) (i : A.Index) : ℕ :=
  ((Bitmap.select inner.live
    (Bitmap.rank inner.occupancy i)).map Fin.val).getD 0

theorem Laid.slotAt_eq (h : Laid inner m pos) {i : A.Index}
    (hi : i ∈ m.present) : slotAt inner i = pos i := by
  rw [slotAt, h.select_live, h.occupancy, Bitmap.select_rank hi]
  rfl

theorem Valid.occupancy_eq (h : Valid inner m) :
    inner.occupancy = m.present := by
  ext i
  rw [h.members, ChildMap.mem_present, Option.isSome_iff_exists]

theorem Valid.exists_slot (h : Valid inner m) {i : A.Index}
    (hi : i ∈ m.present) :
    ∃ p, Bitmap.select inner.live (Bitmap.rank inner.occupancy i) = some p ∧
      slotAt inner i = p.val := by
  rw [← h.occupancy_eq] at hi
  have hrank := Bitmap.rank_lt_countOnes hi
  rw [← h.popcount] at hrank
  obtain ⟨p, hp⟩ := Bitmap.exists_select hrank
  exact ⟨p, hp, by rw [slotAt, hp]; rfl⟩

/-- A valid block is laid out by rank. -/
theorem Valid.laid (h : Valid inner m) : Laid inner m (slotAt inner) where
  occupancy := h.occupancy_eq
  live p := by
    rw [h.initialised]
    refine ⟨fun hp => ⟨p, hp, rfl⟩, ?_⟩
    rintro ⟨q, hq, hqp⟩
    rwa [← Fin.ext hqp]
  cap := h.block
  le := h.le
  placed := by
    constructor
    · intro i hi j hj hij
      obtain ⟨p, hp, hslot⟩ := h.exists_slot hi
      obtain ⟨q, hq, hslot'⟩ := h.exists_slot hj
      rw [hslot, hslot']
      have hrank := (Bitmap.select_eq_some.mp hp).2
      have hrank' := (Bitmap.select_eq_some.mp hq).2
      rw [← h.occupancy_eq] at hi
      have hlt := Bitmap.rank_lt_rank hi hij
      rw [← hrank, ← hrank'] at hlt
      exact Bitmap.lt_of_rank_lt hlt
    · intro i hi
      obtain ⟨p, hp, hslot⟩ := h.exists_slot hi
      rw [hslot, h.block]
      exact h.bound p (Bitmap.mem_of_select hp)
    · intro i hi
      obtain ⟨p, hp, hslot⟩ := h.exists_slot hi
      rw [hslot]
      refine h.values _ i p (Bitmap.select_rank ?_) hp
      rwa [h.occupancy_eq]
    · intro p hfree
      by_contra hne
      obtain ⟨q, hq, rfl⟩ := (h.initialised p).mp
        (Option.isSome_iff_ne_none.mpr hne)
      have hrank := Bitmap.rank_lt_countOnes hq
      rw [h.popcount] at hrank
      obtain ⟨i, hi⟩ := Bitmap.exists_select hrank
      obtain ⟨hmem, hirank⟩ := Bitmap.select_eq_some.mp hi
      refine hfree i (h.occupancy_eq ▸ hmem) ?_
      rw [slotAt, hirank, Bitmap.select_rank hq]
      rfl

end Valid

/-- In every state a program reaches, a gapped array is unallocated or its
block is valid for the map that the calls leave behind, and no assertion fails
on the way. -/
theorem gapped_runs_valid (d : Destructor T) (calls : List (Call T A)) :
    ∃ out, (Vars.perform d).run calls Vars.new = .ok out ∧
      ((∀ v, d.fails v = false) → out ≠ none) ∧
      ∀ answers s, out = some (answers, s) →
        answers = (Model.run (Call.model d) calls
          (ChildMap.empty, ChildMap.empty)).1 ∧
        ∃ m, m = (Model.run (Call.model d) calls
            (ChildMap.empty, ChildMap.empty)).2.2 ∧
          ((s.gapped.inner = none ∧ m = ChildMap.empty) ∨
            ∃ inner, s.gapped.inner = some inner ∧ Valid inner m) ∧
          (∀ i, s.gapped.get i = .ok (m.get i)) ∧
          (∀ i v, ∃ g', s.gapped.insert i v = .ok (m.get i, g')) ∧
          ∀ i, ∃ g', s.gapped.remove i = .ok (m.get i, g') := by
  obtain ⟨out, hrun, hquiet, hall⟩ := Vars.run_spec d calls
  refine ⟨out, hrun, hquiet, fun answers s hout => ?_⟩
  obtain ⟨hanswers, -, hg⟩ := hall answers s hout
  refine ⟨hanswers, _, rfl, ?_, get_spec hg, ?_, ?_⟩
  · rcases hg with hnone | ⟨inner, hinner, pos, hlaid⟩
    · exact Or.inl hnone
    · exact Or.inr ⟨inner, hinner, hlaid.valid⟩
  · intro i v
    obtain ⟨g', hinsert, -⟩ := insert_spec hg i v
    exact ⟨g', hinsert⟩
  · intro i
    obtain ⟨g', hremove, -⟩ := remove_spec hg i
    exact ⟨g', hremove⟩

end GappedArray

/-! ## The packed array -/

namespace PackedArray

/-- A packed array with the entries of `m`: unallocated exactly if the bitmap
is zero, and otherwise with one initialised slot for every set bit. -/
structure Valid (a : PackedArray T A) (m : ChildMap A.LEN T) : Prop where
  allocated : a.inner = none ↔ a.bitmap = Bitmap.ZERO
  isEmpty : a.isEmpty = decide (a.count = 0)
  members : ∀ i, i ∈ a.bitmap ↔ (m.get i).isSome
  block : ∀ inner, a.inner = some inner →
    inner.data.cap = Bitmap.countOnes inner.bitmap
  initialised : ∀ inner, a.inner = some inner →
    ∀ p, (inner.data.slot p).isSome ↔ p < Bitmap.countOnes inner.bitmap
  values : ∀ inner, a.inner = some inner → ∀ (r : ℕ) (i : A.Index),
    Bitmap.select inner.bitmap r = some i → inner.data.slot r = m.get i

theorem Holds.valid {a : PackedArray T A} {m : ChildMap A.LEN T}
    (h : a.Holds m) : a.Valid m where
  allocated := by
    rw [h.bitmap_eq, Bitmap.ZERO, ChildMap.present_eq_empty]
    refine ⟨h.of_none, fun hm => ?_⟩
    rcases h with ⟨hnone, -⟩ | ⟨inner, -, hne, -⟩
    · exact hnone
    · exact absurd (ChildMap.present_eq_empty.mpr hm) hne
  isEmpty := by rw [h.isEmpty_eq, h.count_eq]
  members i := by
    rw [h.bitmap_eq, ChildMap.mem_present, Option.isSome_iff_exists]
  block inner hinner := by
    obtain ⟨-, hbitmap, hdense⟩ := h.of_some hinner
    rw [hdense.cap, hbitmap, ChildMap.countOnes_present]
  initialised inner hinner p := by
    obtain ⟨-, hbitmap, hdense⟩ := h.of_some hinner
    rw [hdense.isSome_slot, hbitmap, ChildMap.countOnes_present]
  values inner hinner r i hi := by
    obtain ⟨-, hbitmap, hdense⟩ := h.of_some hinner
    rw [hbitmap] at hi
    obtain ⟨hmem, hrank⟩ := Bitmap.select_eq_some.mp hi
    rw [← hrank]
    exact hdense.placed.value i hmem

/-- The elements around slot `r` of a larger block: those from `r` on have
moved up by one. -/
structure ShiftedUp (b b' : Block T) (r : ℕ) (v : T) : Prop where
  below : ∀ q < r, b'.slot q = b.slot q
  self : b'.slot r = some v
  above : ∀ q, r ≤ q → b'.slot (q + 1) = b.slot q

/-- The elements around slot `r` of a smaller block: those after `r` have moved
down by one. -/
structure ShiftedDown (b b' : Block T) (r : ℕ) : Prop where
  below : ∀ q < r, b'.slot q = b.slot q
  above : ∀ q, r ≤ q → b'.slot q = b.slot (q + 1)

/-- What the operations that change the size do to the elements. -/
structure Shifts (a : PackedArray T A) (m : ChildMap A.LEN T) : Prop where
  insert : ∀ i v, m.get i = none → ∃ a', a.insert i v = .ok (none, a') ∧
    a'.Valid (m.set i v) ∧ ∀ inner, a.inner = some inner →
      ∃ inner', a'.inner = some inner' ∧ ShiftedUp inner.data inner'.data
        (Bitmap.rank inner.bitmap i) v
  remove : ∀ i v, m.get i = some v → ∃ a', a.remove i = .ok (some v, a') ∧
    a'.Valid (m.erase i) ∧ ∀ inner inner', a.inner = some inner →
      a'.inner = some inner' → ShiftedDown inner.data inner'.data
        (Bitmap.rank inner.bitmap i)

theorem Holds.shifts {a : PackedArray T A} {m : ChildMap A.LEN T}
    (h : a.Holds m) : a.Shifts m where
  insert i v hi := by
    obtain ⟨a', hinsert, ha', hslots⟩ := insert_spec h i v
    rw [hi] at hinsert
    refine ⟨a', hinsert, ha'.valid, fun inner hinner => ?_⟩
    obtain ⟨inner', hinner', hbelow, hself, habove⟩ := hslots inner hinner hi
    rw [(h.of_some hinner).2.1]
    exact ⟨inner', hinner', hbelow, hself, habove⟩
  remove i v hv := by
    obtain ⟨a', hremove, ha', hslots⟩ := remove_spec h i
    rw [hv] at hremove
    refine ⟨a', hremove, ha'.valid, fun inner inner' hinner hinner' => ?_⟩
    obtain ⟨hbelow, habove⟩ := hslots inner inner' hinner hinner' (by simp [hv])
    rw [(h.of_some hinner).2.1]
    exact ⟨hbelow, habove⟩

/-- In every state a program reaches, a packed array is valid for the map that
the calls leave behind, and its operations shift the elements of higher rank
only. -/
theorem packed_runs_valid (d : Destructor T) (calls : List (Call T A)) :
    ∃ out, (Vars.perform d).run calls Vars.new = .ok out ∧
      ((∀ v, d.fails v = false) → out ≠ none) ∧
      ∀ answers s, out = some (answers, s) →
        answers = (Model.run (Call.model d) calls
          (ChildMap.empty, ChildMap.empty)).1 ∧
        ∃ m, m = (Model.run (Call.model d) calls
            (ChildMap.empty, ChildMap.empty)).2.1 ∧
          s.packed.Valid m ∧ s.packed.Shifts m := by
  obtain ⟨out, hrun, hquiet, hall⟩ := Vars.run_spec d calls
  refine ⟨out, hrun, hquiet, fun answers s hout => ?_⟩
  obtain ⟨hanswers, ha, -⟩ := hall answers s hout
  exact ⟨hanswers, _, rfl, ha.valid, ha.shifts⟩

end PackedArray

end ArityArrays
