import ArityArrays.Arrays.Gapped

/-!
# The layout of a gapped block

An allocated array stands for a map when its block holds the map's entries in
ascending slots, `occupancy` is the set of the map's indices and `live` the set
of initialised slots.  Lookup, overwriting and removal follow from that.
-/

namespace ArityArrays.GappedArray

open ArityTries Checked Function

variable {T : Type} {A : Arity}

/-- The block holds the entries of `m` in the slots `pos`. -/
structure Laid (inner : Inner T A) (m : ChildMap A.LEN T)
    (pos : A.Index → ℕ) : Prop where
  occupancy : inner.occupancy = m.present
  live : ∀ p : A.Index, p ∈ inner.live ↔ (inner.data.slot p).isSome
  placed : Placed m inner.data pos
  cap : inner.data.cap = inner.capacity
  le : inner.capacity ≤ A.LEN

/-- The array stands for the map `m`. -/
def Holds (g : GappedArray T A) (m : ChildMap A.LEN T) : Prop :=
  (g.inner = none ∧ m = ChildMap.empty) ∨
    ∃ inner, g.inner = some inner ∧ ∃ pos, Laid inner m pos

section Laid

variable {inner : Inner T A} {m : ChildMap A.LEN T} {pos : A.Index → ℕ}
variable {i : A.Index} {v : T}

theorem Laid.pos_lt (h : Laid inner m pos) (hi : i ∈ m.present) :
    pos i < inner.capacity := by
  rw [← h.cap]
  exact h.placed.bound i hi

theorem Laid.pos_lt_LEN (h : Laid inner m pos) (hi : i ∈ m.present) :
    pos i < A.LEN :=
  (h.pos_lt hi).trans_le h.le

theorem Laid.exists_live (h : Laid inner m pos) (p : ℕ) :
    (∃ q ∈ inner.live, q.val = p) ↔ (inner.data.slot p).isSome := by
  constructor
  · rintro ⟨q, hq, rfl⟩
    exact (h.live q).mp hq
  · intro hp
    obtain ⟨i, hi, rfl⟩ := h.placed.isSome_slot.mp hp
    exact ⟨⟨pos i, h.pos_lt_LEN hi⟩, (h.live _).mpr hp, rfl⟩

theorem Laid.mem_live (h : Laid inner m pos) {p : A.Index} :
    p ∈ inner.live ↔ ∃ i ∈ m.present, pos i = p := by
  rw [h.live, h.placed.isSome_slot]

/-- The live slots in order are the positions of the present indices. -/
theorem Laid.slots_live (h : Laid inner m pos) :
    slots inner.live = (Bitmap.bits m.present).map pos :=
  h.placed.bits_eq_map h.exists_live

theorem Laid.countOnes_live (h : Laid inner m pos) :
    Bitmap.countOnes inner.live = Bitmap.countOnes inner.occupancy := by
  have := congrArg List.length h.slots_live
  simpa [slots, Bitmap.length_bits, h.occupancy] using this

theorem Laid.countOnes_occupancy (h : Laid inner m pos) :
    Bitmap.countOnes inner.occupancy = m.count := by
  rw [h.occupancy, ChildMap.countOnes_present]

/-- The live slot of rank `k` is the position of the index of rank `k`. -/
theorem Laid.select_live (h : Laid inner m pos) (k : ℕ) :
    (Bitmap.select inner.live k).map Fin.val =
      (Bitmap.select m.present k).map pos := by
  have := congrArg (·[k]?) h.slots_live
  simpa [slots, Bitmap.select] using this

theorem Laid.exists_select (h : Laid inner m pos) {k : ℕ} {j : A.Index}
    (hj : Bitmap.select m.present k = some j) :
    ∃ p : A.Index, Bitmap.select inner.live k = some p ∧ p.val = pos j := by
  have := h.select_live k
  rw [hj, Option.map_some] at this
  exact Option.map_eq_some_iff.mp this

/-- The physical slot of a present index. -/
theorem Laid.slotOf_eq (h : Laid inner m pos) (hi : i ∈ m.present)
    (message : String) :
    ∃ p : A.Index, slotOf inner i message = .ok p ∧ p.val = pos i := by
  obtain ⟨p, hp, hpos⟩ := h.exists_select (Bitmap.select_rank hi)
  exact ⟨p, by simp [slotOf, h.occupancy, hp], hpos⟩

theorem Laid.test_eq (h : Laid inner m pos) (i : A.Index) :
    Bitmap.test inner.occupancy i = (m.get i).isSome := by
  rw [h.occupancy, ChildMap.test_present]

/-- Swapping the value of an entry keeps the layout. -/
theorem Laid.overwrite (h : Laid inner m pos) (hv : m.get i = some v) (w : T) :
    Laid { inner with data := { inner.data with
      slot := update inner.data.slot (pos i) (some w) } } (m.set i w) pos := by
  have hi := ChildMap.mem_present.mpr ⟨v, hv⟩
  refine ⟨?_, ?_, h.placed.overwrite hi w, h.cap, h.le⟩
  · rw [ChildMap.present_set_of_some hv]
    exact h.occupancy
  · intro p
    rw [h.live]
    by_cases hp : p.val = pos i
    · simp [hp, h.placed.slot_of_get hv]
    · simp [hp]

/-- Taking an entry out clears its two bits. -/
theorem Laid.erase (h : Laid inner m pos) (hv : m.get i = some v)
    {p : A.Index} (hp : p.val = pos i) :
    Laid { inner with
      occupancy := Bitmap.withoutBit inner.occupancy i
      live := Bitmap.withoutBit inner.live p
      data := { inner.data with slot := update inner.data.slot p none } }
      (m.erase i) pos := by
  have hi := ChildMap.mem_present.mpr ⟨v, hv⟩
  refine ⟨?_, ?_, ?_, h.cap, h.le⟩
  · rw [ChildMap.present_erase, ← h.occupancy]
    rfl
  · intro q
    rw [Bitmap.mem_withoutBit, h.live]
    by_cases hq : q = p
    · simp [hq]
    · have hval : q.val ≠ p.val := fun hval => hq (Fin.ext hval)
      simp [hq, hval]
  · have := h.placed.erase hi
    rwa [← hp] at this

end Laid

/-! ## Lookup, overwriting and removal -/

/-- The capacity and the block are the same. -/
def KeepsBlock (g g' : GappedArray T A) : Prop :=
  g'.capacity = g.capacity ∧
    g'.inner.map Inner.block = g.inner.map Inner.block

theorem KeepsBlock.refl (g : GappedArray T A) : KeepsBlock g g := ⟨rfl, rfl⟩

theorem KeepsBlock.trans {g g' g'' : GappedArray T A} (h : KeepsBlock g g')
    (h' : KeepsBlock g' g'') : KeepsBlock g g'' :=
  ⟨h'.1.trans h.1, h'.2.trans h.2⟩

theorem keepsBlock_of_some {g : GappedArray T A} {inner inner' : Inner T A}
    (hinner : g.inner = some inner) (hcap : inner'.capExp = inner.capExp)
    (hblock : inner'.block = inner.block) : KeepsBlock g ⟨some inner'⟩ := by
  refine ⟨?_, ?_⟩
  · simp [capacity, hinner, Inner.capacity, hcap]
  · simp [hinner, hblock]

section Spec

variable {g : GappedArray T A} {m : ChildMap A.LEN T} {i : A.Index} {v : T}
variable {inner : Inner T A}

theorem holds_new : (new : GappedArray T A).Holds ChildMap.empty :=
  Or.inl ⟨rfl, rfl⟩

theorem Holds.of_none (h : g.Holds m) (hnone : g.inner = none) :
    m = ChildMap.empty := by
  rcases h with ⟨-, hm⟩ | ⟨inner, hinner, -⟩
  · exact hm
  · rw [hnone] at hinner
    cases hinner

theorem Holds.of_some (h : g.Holds m) (hinner : g.inner = some inner) :
    ∃ pos, Laid inner m pos := by
  rcases h with ⟨hnone, -⟩ | ⟨inner', hinner', h⟩
  · rw [hnone] at hinner
    cases hinner
  · rw [hinner'] at hinner
    cases hinner
    exact h

theorem Holds.bitmap_eq (h : g.Holds m) : g.bitmap = m.present := by
  unfold bitmap
  cases hinner : g.inner with
  | none =>
      rw [h.of_none hinner, ChildMap.present_empty]
      rfl
  | some inner =>
      obtain ⟨pos, hlaid⟩ := h.of_some hinner
      exact hlaid.occupancy

theorem Holds.count_eq (h : g.Holds m) : g.count = m.count := by
  rw [count, h.bitmap_eq, ChildMap.countOnes_present]

theorem Holds.isEmpty_eq (h : g.Holds m) :
    g.isEmpty = decide (m.count = 0) := by
  rw [isEmpty, h.count_eq]

theorem get_spec (h : g.Holds m) (i : A.Index) : g.get i = .ok (m.get i) := by
  unfold get
  cases hinner : g.inner with
  | none => rw [h.of_none hinner, ChildMap.get_empty]
  | some inner =>
      obtain ⟨pos, hlaid⟩ := h.of_some hinner
      simp only [hlaid.test_eq]
      cases hv : m.get i with
      | none => rfl
      | some v =>
          obtain ⟨p, hp, hpos⟩ := hlaid.slotOf_eq
            (ChildMap.mem_present.mpr ⟨v, hv⟩)
            "present ⇒ rank < count == live popcount"
          have hslot := hlaid.placed.slot_of_get hv
          rw [← hpos] at hslot
          simp [hp, Block.get_of_slot hslot]

/-- A mutable reference to a present index points to its slot. -/
theorem getMut_spec (h : g.Holds m) (i : A.Index) :
    (g.getMut i = .ok none ∧ m.get i = none) ∨
      ∃ inner pos v, g.inner = some inner ∧ Laid inner m pos ∧
        m.get i = some v ∧ g.getMut i = .ok (some (pos i)) := by
  unfold getMut
  cases hinner : g.inner with
  | none => exact Or.inl ⟨rfl, by rw [h.of_none hinner, ChildMap.get_empty]⟩
  | some inner =>
      obtain ⟨pos, hlaid⟩ := h.of_some hinner
      simp only [hlaid.test_eq]
      cases hv : m.get i with
      | none => exact Or.inl ⟨rfl, rfl⟩
      | some v =>
          obtain ⟨p, hp, hpos⟩ := hlaid.slotOf_eq
            (ChildMap.mem_present.mpr ⟨v, hv⟩) "present ⇒ rank < count"
          have hslot := Block.get_of_slot (hlaid.placed.slot_of_get hv)
          exact Or.inr ⟨inner, pos, v, rfl, hlaid, rfl,
            by simp [hp, hpos, hslot]⟩

theorem writeThrough_spec {pos : A.Index → ℕ} (hinner : g.inner = some inner)
    (h : Laid inner m pos) (hv : m.get i = some v) (f : T → T) :
    ∃ inner', g.writeThrough (pos i) f = .ok (v, ⟨some inner'⟩) ∧
      Laid inner' (m.set i (f v)) pos ∧ inner'.capExp = inner.capExp ∧
      inner'.block = inner.block := by
  have hslot := h.placed.slot_of_get hv
  simp only [writeThrough, hinner, expect_some, ok_bind, pure_eq_ok,
    Block.get_of_slot hslot, Block.replace_of_slot hslot]
  exact ⟨_, rfl, h.overwrite hv _, rfl, rfl⟩

theorem assignMut_spec (h : g.Holds m) (i : A.Index) (f : T → T) :
    ∃ g', g.assignMut i f = .ok (m.get i, g') ∧ g'.Holds (m.modify i f) ∧
      KeepsBlock g g' := by
  rcases getMut_spec h i with ⟨hmut, hv⟩ | ⟨inner, pos, v, hinner, hlaid, hv, hmut⟩
  · refine ⟨g, by simp [assignMut, hmut, hv], ?_, .refl g⟩
    rwa [ChildMap.modify_of_none hv]
  · obtain ⟨inner', hwrite, hlaid', hcap, hblock⟩ :=
      writeThrough_spec hinner hlaid hv f
    refine ⟨⟨some inner'⟩, by simp [assignMut, hmut, hwrite, hv], ?_,
      keepsBlock_of_some hinner hcap hblock⟩
    rw [ChildMap.modify_of_some hv]
    exact Or.inr ⟨inner', rfl, pos, hlaid'⟩

/-- Removal takes the entry out and moves no other element. -/
theorem remove_of_laid {pos : A.Index → ℕ} (hinner : g.inner = some inner)
    (h : Laid inner m pos) (i : A.Index) :
    ∃ inner', g.remove i = .ok (m.get i, ⟨some inner'⟩) ∧
      Laid inner' (m.erase i) pos ∧ inner'.capExp = inner.capExp ∧
      inner'.block = inner.block := by
  unfold remove
  simp only [hinner, h.test_eq]
  cases hv : m.get i with
  | none =>
      refine ⟨inner, ?_, ?_, rfl, rfl⟩
      · cases g
        cases hinner
        rfl
      · rwa [ChildMap.erase_of_none hv]
  | some v =>
      obtain ⟨p, hp, hpos⟩ := h.slotOf_eq (ChildMap.mem_present.mpr ⟨v, hv⟩)
        "present ⇒ rank < count"
      have hslot := h.placed.slot_of_get hv
      rw [← hpos] at hslot
      simp only [Option.isSome_some, not_true_eq_false, if_false, hp,
        tryFromUsize_of_lt p.isLt, Fin.eta, expect_some,
        Block.read_of_slot hslot, ok_bind, pure_eq_ok]
      exact ⟨_, rfl, h.erase hv hpos, rfl, rfl⟩

theorem remove_spec (h : g.Holds m) (i : A.Index) :
    ∃ g', g.remove i = .ok (m.get i, g') ∧ g'.Holds (m.erase i) ∧
      KeepsBlock g g' := by
  cases hinner : g.inner with
  | none =>
      obtain rfl := h.of_none hinner
      refine ⟨g, by simp [remove, hinner], ?_, .refl g⟩
      rwa [ChildMap.erase_of_none (ChildMap.get_empty i)]
  | some inner =>
      obtain ⟨pos, hlaid⟩ := h.of_some hinner
      obtain ⟨inner', hremove, hlaid', hcap, hblock⟩ :=
        remove_of_laid hinner hlaid i
      exact ⟨_, hremove, Or.inr ⟨inner', rfl, pos, hlaid'⟩,
        keepsBlock_of_some hinner hcap hblock⟩

theorem takeOnlyChild_of_only_child (h : g.Holds m) (hone : m.count = 1)
    (hv : m.get i = some v) :
    g.takeOnlyChild = g.remove i >>= fun out =>
      .ok (out.1.map fun value => (i, value), out.2) := by
  unfold takeOnlyChild
  rw [h.bitmap_eq, ChildMap.countOnes_present]
  simp [hone, BitIter.next_of_only_child hone hv]

theorem takeOnlyChild_of_count_ne (h : g.Holds m) (hone : m.count ≠ 1) :
    g.takeOnlyChild = .ok (none, g) := by
  unfold takeOnlyChild
  rw [h.bitmap_eq, ChildMap.countOnes_present]
  simp [hone]

theorem takeOnlyChild_spec (h : g.Holds m) :
    ∃ g', g.takeOnlyChild = .ok (m.takeOnlyChild.1, g') ∧
      g'.Holds m.takeOnlyChild.2 ∧ KeepsBlock g g' := by
  by_cases hone : m.count = 1
  · obtain ⟨i, v, hv⟩ := ChildMap.exists_only_child hone
    obtain ⟨g', hremove, hg'⟩ := remove_spec h i
    rw [ChildMap.takeOnlyChild_of_only_child hone hv]
    exact ⟨g', by simp [takeOnlyChild_of_only_child h hone hv, hremove, hv],
      hg'⟩
  · rw [ChildMap.takeOnlyChild_of_count_ne hone]
    exact ⟨g, takeOnlyChild_of_count_ne h hone, h, .refl g⟩

end Spec

end ArityArrays.GappedArray
