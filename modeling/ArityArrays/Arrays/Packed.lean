import ArityArrays.Arrays.Placement

/-!
# The packed array

A `PackedArray` keeps exactly its present elements, in ascending order, in a
block with a bitmap header.  Every change of size copies the elements around
the changed rank into a block of the new size.
-/

namespace ArityArrays

open ArityTries Checked

namespace PackedArray

/-- The block of a packed array: the header bitmap and the elements. -/
structure Inner (T : Type) (A : Arity) where
  bitmap : Bitmap A.LEN
  data : Block T

end PackedArray

/-- A packed array: no block at all while it is empty. -/
structure PackedArray (T : Type) (A : Arity) where
  inner : Option (PackedArray.Inner T A)

namespace PackedArray

variable {T : Type} {A : Arity}

/-! ## Operations -/

def new : PackedArray T A := ⟨none⟩

def bitmap (a : PackedArray T A) : Bitmap A.LEN :=
  match a.inner with
  | none => Bitmap.ZERO
  | some inner => inner.bitmap

def count (a : PackedArray T A) : ℕ := Bitmap.countOnes a.bitmap

def isEmpty (a : PackedArray T A) : Bool := a.inner.isNone

def get (a : PackedArray T A) (index : A.Index) : Checked (Option T) :=
  match a.inner with
  | none => .ok none
  | some inner =>
      if Bitmap.test inner.bitmap index then do
        let rank := Bitmap.rank inner.bitmap index
        let v ← inner.data.get rank
        return some v
      else .ok none

/-- The slot of the element that a mutable reference to `index` points to. -/
def getMut (a : PackedArray T A) (index : A.Index) : Checked (Option ℕ) :=
  match a.inner with
  | none => .ok none
  | some inner =>
      if Bitmap.test inner.bitmap index then do
        let rank := Bitmap.rank inner.bitmap index
        let _ ← inner.data.get rank
        return some rank
      else .ok none

/-- Assign `f v` through a mutable reference to the value `v` in `slot`. -/
def writeThrough (a : PackedArray T A) (slot : ℕ) (f : T → T) :
    Checked (T × PackedArray T A) := do
  let inner ← expect a.inner "a reference into an allocated block"
  let v ← inner.data.get slot
  let out ← inner.data.replace slot (f v)
  return (out.1, ⟨some { inner with data := out.2 }⟩)

/-- Assign `f v` to the place of `index`, if `get_mut` finds a value `v`. -/
def assignMut (a : PackedArray T A) (index : A.Index) (f : T → T) :
    Checked (Option T × PackedArray T A) := do
  let slot ← a.getMut index
  match slot with
  | none => return (none, a)
  | some slot =>
      let out ← a.writeThrough slot f
      return (some out.1, out.2)

def insert (a : PackedArray T A) (index : A.Index) (value : T) :
    Checked (Option T × PackedArray T A) :=
  match a.inner with
  | none => do
      let bitmap := Bitmap.withBit Bitmap.ZERO index
      debugAssert (Bitmap.countOnes bitmap = 1) "assertion `left == right` failed"
      let data ← (Block.alloc 1).write 0 value
      return (none, ⟨some ⟨bitmap, data⟩⟩)
  | some inner => do
      let bm := inner.bitmap
      let rank := Bitmap.rank bm index
      if Bitmap.test bm index then
        let out ← inner.data.replace rank value
        return (some out.1, ⟨some { inner with data := out.2 }⟩)
      let oldCount := Bitmap.countOnes bm
      let newCount := oldCount + 1
      let newBm := Bitmap.withBit bm index
      debugAssert (Bitmap.countOnes newBm = newCount)
        "assertion `left == right` failed"
      let low ← inner.data.moveTo 0 (Block.alloc newCount) 0 rank
      let dst ← low.2.write rank value
      let above ← usizeSub oldCount rank
      let high ← low.1.moveTo rank dst (rank + 1) above
      high.1.dealloc oldCount
      return (none, ⟨some ⟨newBm, high.2⟩⟩)

def remove (a : PackedArray T A) (index : A.Index) :
    Checked (Option T × PackedArray T A) :=
  match a.inner with
  | none => .ok (none, a)
  | some inner => do
      let bm := inner.bitmap
      if ¬Bitmap.test bm index then
        return (none, a)
      let rank := Bitmap.rank bm index
      let oldCount := Bitmap.countOnes bm
      let newCount ← usizeSub oldCount 1
      if newCount = 0 then
        let out ← inner.data.read rank
        out.2.dealloc oldCount
        return (some out.1, ⟨none⟩)
      let newBm := Bitmap.withoutBit bm index
      debugAssert (Bitmap.countOnes newBm = newCount)
        "assertion `left == right` failed"
      let out ← inner.data.read rank
      let low ← out.2.moveTo 0 (Block.alloc newCount) 0 rank
      let above ← usizeSub oldCount rank
      let above ← usizeSub above 1
      let high ← low.1.moveTo (rank + 1) low.2 rank above
      high.1.dealloc oldCount
      return (some out.1, ⟨some ⟨newBm, high.2⟩⟩)

def takeOnlyChild (a : PackedArray T A) :
    Checked (Option (A.Index × T) × PackedArray T A) :=
  if Bitmap.countOnes a.bitmap ≠ 1 then .ok (none, a)
  else
    match (⟨a.bitmap⟩ : BitIter A.LEN).next.1 with
    | none => .ok (none, a)
    | some only => do
        let out ← a.remove only
        return (out.1.map fun value => (only, value), out.2)

/-- Insert the pairs in turn, dropping what they displace. -/
def extend (a : PackedArray T A) (entries : List (A.Index × T)) :
    Checked (PackedArray T A) :=
  entries.foldlM (fun a entry => do
    let out ← a.insert entry.1 entry.2
    return out.2) a

/-! ## Layout -/

/-- The entries of `m` stand in the first slots of `b`, in order. -/
structure Dense {n : ℕ} (m : ChildMap n T) (b : Block T) : Prop where
  cap : b.cap = m.count
  placed : Placed m b (Bitmap.rank m.present)

/-- The array stands for the map `m`: it has a block exactly when `m` has an
entry, and the block has one slot for every entry. -/
def Holds (a : PackedArray T A) (m : ChildMap A.LEN T) : Prop :=
  (a.inner = none ∧ m = ChildMap.empty) ∨
    ∃ inner, a.inner = some inner ∧ m.present ≠ ∅ ∧
      inner.bitmap = m.present ∧ Dense m inner.data

section Dense

variable {n : ℕ} {m : ChildMap n T} {b : Block T} {i : Fin n} {v : T}

/-- A block whose slot `r` holds the entry of rank `r`. -/
theorem Dense.of_slots (hcap : b.cap = m.count)
    (hvalue : ∀ j ∈ m.present, b.slot (Bitmap.rank m.present j) = m.get j)
    (hfree : ∀ p, m.count ≤ p → b.slot p = none) : Dense m b := by
  refine ⟨hcap, ?_, ?_, hvalue, ?_⟩
  · intro j hj k _ hjk
    exact Bitmap.rank_lt_rank hj hjk
  · intro j hj
    rw [hcap, ← ChildMap.countOnes_present]
    exact Bitmap.rank_lt_countOnes hj
  · intro p hp
    refine hfree p ?_
    by_contra hlt
    obtain ⟨j, hj⟩ := Bitmap.exists_select (b := m.present) (k := p)
      (by rw [ChildMap.countOnes_present]; omega)
    exact hp j (Bitmap.mem_of_select hj) (Bitmap.select_eq_some.mp hj).2

theorem Dense.isSome_slot (h : Dense m b) {p : ℕ} :
    (b.slot p).isSome ↔ p < m.count := by
  rw [h.placed.isSome_slot]
  constructor
  · rintro ⟨j, hj, rfl⟩
    rw [← ChildMap.countOnes_present]
    exact Bitmap.rank_lt_countOnes hj
  · intro hp
    obtain ⟨j, hj⟩ := Bitmap.exists_select (b := m.present) (k := p)
      (by rwa [ChildMap.countOnes_present])
    exact ⟨j, Bitmap.mem_of_select hj, (Bitmap.select_eq_some.mp hj).2⟩

theorem Dense.slot_eq_none (h : Dense m b) {p : ℕ} (hp : m.count ≤ p) :
    b.slot p = none := by
  rw [← Option.not_isSome_iff_eq_none, h.isSome_slot]
  omega

theorem Dense.slot_rank (h : Dense m b) (hv : m.get i = some v) :
    b.slot (Bitmap.rank m.present i) = some v :=
  h.placed.slot_of_get hv

theorem rank_insert (m : ChildMap n T) (i j : Fin n) (v : T)
    (hi : i ∉ m.present) :
    Bitmap.rank (m.set i v).present j =
      Bitmap.rank m.present j + if i < j then 1 else 0 := by
  unfold Bitmap.rank
  rw [ChildMap.present_set, Finset.filter_insert]
  split
  · rw [Finset.card_insert_of_notMem]
    exact fun h => hi (Finset.mem_filter.mp h).1
  · rfl

theorem rank_erase (m : ChildMap n T) (i j : Fin n) (hi : i ∈ m.present) :
    Bitmap.rank (m.erase i).present j + (if i < j then 1 else 0) =
      Bitmap.rank m.present j := by
  unfold Bitmap.rank
  rw [ChildMap.present_erase, Finset.filter_erase]
  split
  · next h => exact Finset.card_erase_add_one (Finset.mem_filter.mpr ⟨hi, h⟩)
  · next h =>
      rw [Finset.erase_eq_of_notMem]
      · rfl
      · exact fun hmem => h (Finset.mem_filter.mp hmem).2

/-- Opening slot `rank` of the new element shifts the higher ranks up. -/
theorem Dense.insert (h : Dense m b) (hi : i ∉ m.present) (v : T) {c : Block T}
    (hcap : c.cap = m.count + 1)
    (hlow : ∀ q < Bitmap.rank m.present i, c.slot q = b.slot q)
    (hself : c.slot (Bitmap.rank m.present i) = some v)
    (hhigh : ∀ q, Bitmap.rank m.present i ≤ q → c.slot (q + 1) = b.slot q) :
    Dense (m.set i v) c := by
  have hcount : (m.set i v).count = m.count + 1 :=
    ChildMap.count_set_of_none (ChildMap.notMem_present.mp hi) v
  refine Dense.of_slots (hcap.trans hcount.symm) ?_ ?_
  · intro j hj
    rw [rank_insert m i j v hi]
    rw [ChildMap.present_set, Finset.mem_insert] at hj
    rcases lt_trichotomy j i with hji | rfl | hij
    · have hmem := hj.resolve_left hji.ne
      rw [if_neg hji.asymm, Nat.add_zero,
        hlow _ (Bitmap.rank_lt_rank hmem hji), ChildMap.get_set_of_ne m hji.ne]
      exact h.placed.value j hmem
    · simp [hself]
    · have hmem := hj.resolve_left hij.ne'
      rw [if_pos hij, hhigh _ (Bitmap.rank_mono _ hij.le),
        ChildMap.get_set_of_ne m hij.ne']
      exact h.placed.value j hmem
  · intro p hp
    rw [hcount] at hp
    have hrank := Bitmap.rank_le_countOnes m.present i
    rw [ChildMap.countOnes_present] at hrank
    obtain ⟨q, rfl⟩ : ∃ q, p = q + 1 := ⟨p - 1, by omega⟩
    rw [hhigh q (by omega)]
    exact h.slot_eq_none (by omega)

/-- Closing slot `rank` of the removed element shifts the higher ranks down. -/
theorem Dense.erase (h : Dense m b) (hi : i ∈ m.present) {c : Block T}
    (hcap : c.cap + 1 = m.count)
    (hlow : ∀ q < Bitmap.rank m.present i, c.slot q = b.slot q)
    (hhigh : ∀ q, Bitmap.rank m.present i ≤ q → c.slot q = b.slot (q + 1)) :
    Dense (m.erase i) c := by
  obtain ⟨v, hv⟩ := ChildMap.mem_present.mp hi
  have hcount := ChildMap.count_erase hv
  refine Dense.of_slots (by omega) ?_ ?_
  · intro j hj
    have hrank := rank_erase m i j hi
    rw [ChildMap.present_erase, Finset.mem_erase] at hj
    rcases lt_or_gt_of_ne hj.1 with hji | hij
    · rw [if_neg hji.asymm, Nat.add_zero] at hrank
      rw [hrank, hlow _ (Bitmap.rank_lt_rank hj.2 hji),
        ChildMap.get_erase_of_ne m hj.1]
      exact h.placed.value j hj.2
    · rw [if_pos hij] at hrank
      have hle := Bitmap.rank_lt_rank hi hij
      rw [hhigh _ (by omega), hrank, ChildMap.get_erase_of_ne m hj.1]
      exact h.placed.value j hj.2
  · intro p hp
    have hlt := Bitmap.rank_lt_countOnes hi
    rw [ChildMap.countOnes_present] at hlt
    rw [hhigh p (by omega)]
    exact h.slot_eq_none (by omega)

section Copy

variable (h : Dense m b)
include h

/-- The copies around the slot of a new element. -/
theorem Dense.copy_insert (i : Fin n) (v : T) :
    ∃ b₁ c₁ c₂ b₂ c : Block T,
      b.moveTo 0 (Block.alloc (m.count + 1)) 0 (Bitmap.rank m.present i) =
        .ok (b₁, c₁) ∧
      c₁.write (Bitmap.rank m.present i) v = .ok c₂ ∧
      usizeSub m.count (Bitmap.rank m.present i) =
        .ok (m.count - Bitmap.rank m.present i) ∧
      b₁.moveTo (Bitmap.rank m.present i) c₂ (Bitmap.rank m.present i + 1)
        (m.count - Bitmap.rank m.present i) = .ok (b₂, c) ∧
      b₂.dealloc m.count = .ok () ∧ c.cap = m.count + 1 ∧
      (∀ q < Bitmap.rank m.present i, c.slot q = b.slot q) ∧
      c.slot (Bitmap.rank m.present i) = some v ∧
      ∀ q, Bitmap.rank m.present i ≤ q → c.slot (q + 1) = b.slot q := by
  set r := Bitmap.rank m.present i with hr
  have hrle : r ≤ m.count := by
    rw [hr, ← ChildMap.countOnes_present]
    exact Bitmap.rank_le_countOnes m.present i
  have hlow : b.moveTo 0 (Block.alloc (m.count + 1)) 0 r =
      .ok (b.without 0 r, (Block.alloc (m.count + 1)).receive b 0 0 r) :=
    Block.moveTo_of_slots (by simp; omega)
      (fun q _ hq => h.isSome_slot.mpr (by omega)) fun _ _ _ => rfl
  have hwrite := Block.write_of_free (p := r)
    (b := (Block.alloc (m.count + 1)).receive b 0 0 r)
    (by simp; omega) (by simp [Block.slot_receive]) v
  set dst : Block T := { (Block.alloc (m.count + 1)).receive b 0 0 r with
    slot := Function.update
      ((Block.alloc (m.count + 1)).receive b 0 0 r).slot r (some v) } with hdst
  have hhigh : (b.without 0 r).moveTo r dst (r + 1) (m.count - r) =
      .ok ((b.without 0 r).without r (m.count - r),
        dst.receive (b.without 0 r) r (r + 1) (m.count - r)) := by
    refine Block.moveTo_of_slots (by simp [hdst]; omega) ?_ ?_
    · intro q hq _
      rw [Block.slot_without, if_neg (by omega)]
      exact h.isSome_slot.mpr (by omega)
    · intro q hq _
      have hne : q ≠ r := by omega
      simp [hdst, Block.slot_receive, hne]
      omega
  have hfree : ((b.without 0 r).without r (m.count - r)).dealloc m.count =
      .ok () := by
    refine Block.dealloc_of_empty h.cap fun q => ?_
    rw [Block.slot_without, Block.slot_without]
    split
    · rfl
    · split
      · rfl
      · exact h.slot_eq_none (by omega)
  refine ⟨_, _, _, _, _, hlow, hwrite, usizeSub_of_le hrle, hhigh, hfree,
    by simp [hdst], ?_, ?_, ?_⟩
  · intro q hq
    have hne : q ≠ r := by omega
    rw [Block.slot_receive, if_neg (by omega)]
    simp [hdst, Block.slot_receive, hne, hq]
  · rw [Block.slot_receive, if_neg (by omega)]
    simp [hdst]
  · intro q hq
    rw [Block.slot_receive]
    split
    · have hback : r + (q + 1 - (r + 1)) = q := by omega
      rw [hback, Block.slot_without, if_neg (by omega)]
    · have hne : q + 1 ≠ r := by omega
      rw [h.slot_eq_none (by omega)]
      simp [hdst, Block.slot_receive, hne]
      omega

/-- The copies around the slot of a removed element. -/
theorem Dense.copy_remove (hv : m.get i = some v) :
    ∃ b₁ c₁ b₂ c : Block T,
      ({ b with slot := Function.update b.slot (Bitmap.rank m.present i) none }
        : Block T).moveTo 0 (Block.alloc (m.erase i).count) 0
          (Bitmap.rank m.present i) = .ok (b₁, c₁) ∧
      usizeSub m.count (Bitmap.rank m.present i) =
        .ok (m.count - Bitmap.rank m.present i) ∧
      usizeSub (m.count - Bitmap.rank m.present i) 1 =
        .ok (m.count - Bitmap.rank m.present i - 1) ∧
      b₁.moveTo (Bitmap.rank m.present i + 1) c₁ (Bitmap.rank m.present i)
        (m.count - Bitmap.rank m.present i - 1) = .ok (b₂, c) ∧
      b₂.dealloc m.count = .ok () ∧ c.cap + 1 = m.count ∧
      (∀ q < Bitmap.rank m.present i, c.slot q = b.slot q) ∧
      ∀ q, Bitmap.rank m.present i ≤ q → c.slot q = b.slot (q + 1) := by
  have hcount := ChildMap.count_erase hv
  set r := Bitmap.rank m.present i with hr
  have hrlt : r < m.count := by
    rw [hr, ← ChildMap.countOnes_present]
    exact Bitmap.rank_lt_countOnes (ChildMap.mem_present.mpr ⟨v, hv⟩)
  set b₀ : Block T := { b with slot := Function.update b.slot r none } with hb₀
  have hslot₀ : ∀ q, q ≠ r → b₀.slot q = b.slot q := by
    intro q hq
    simp [hb₀, hq]
  set c₀ : Block T := (Block.alloc (m.erase i).count).receive b₀ 0 0 r
  have hlow : b₀.moveTo 0 (Block.alloc (m.erase i).count) 0 r =
      .ok (b₀.without 0 r, c₀) := by
    refine Block.moveTo_of_slots (by simp; omega) ?_ fun _ _ _ => rfl
    intro q _ hq
    rw [hslot₀ q (by omega)]
    exact h.isSome_slot.mpr (by omega)
  have hhigh : (b₀.without 0 r).moveTo (r + 1) c₀ r (m.count - r - 1) =
      .ok ((b₀.without 0 r).without (r + 1) (m.count - r - 1),
        c₀.receive (b₀.without 0 r) (r + 1) r (m.count - r - 1)) := by
    refine Block.moveTo_of_slots (by simp [c₀]; omega) ?_ ?_
    · intro q hq _
      rw [Block.slot_without, if_neg (by omega), hslot₀ q (by omega)]
      exact h.isSome_slot.mpr (by omega)
    · intro q hq _
      rw [Block.slot_receive, if_neg (by omega)]
      rfl
  have hfree : ((b₀.without 0 r).without (r + 1)
      (m.count - r - 1)).dealloc m.count = .ok () := by
    refine Block.dealloc_of_empty h.cap fun q => ?_
    rw [Block.slot_without, Block.slot_without]
    by_cases hq : q = r
    · subst hq
      simp [hb₀]
    · split
      · rfl
      · split
        · rfl
        · rw [hslot₀ q hq]
          exact h.slot_eq_none (by omega)
  refine ⟨_, _, _, _, hlow, usizeSub_of_le hrlt.le, usizeSub_of_le (by omega),
    hhigh, hfree, by simpa [c₀] using hcount, ?_, ?_⟩
  · intro q hq
    rw [Block.slot_receive, if_neg (by omega), Block.slot_receive,
      if_pos (by omega), hslot₀ _ (by omega)]
    congr 1
    omega
  · intro q hq
    rw [Block.slot_receive]
    split
    · have hback : r + 1 + (q - r) = q + 1 := by omega
      rw [hback, Block.slot_without, if_neg (by omega), hslot₀ _ (by omega)]
    · rw [h.slot_eq_none (by omega), Block.slot_receive, if_neg (by omega)]
      rfl

end Copy

end Dense

/-! ## Specifications -/

section Spec

variable {a : PackedArray T A} {m : ChildMap A.LEN T} {i : A.Index} {v : T}
variable {inner : Inner T A}

theorem holds_new : (new : PackedArray T A).Holds ChildMap.empty :=
  Or.inl ⟨rfl, rfl⟩

theorem Holds.bitmap_eq (h : a.Holds m) : a.bitmap = m.present := by
  rcases h with ⟨hnone, rfl⟩ | ⟨inner, hinner, -, hbm, -⟩
  · simp [bitmap, hnone, Bitmap.ZERO]
  · simp [bitmap, hinner, hbm]

theorem Holds.count_eq (h : a.Holds m) : a.count = m.count := by
  rw [count, h.bitmap_eq, ChildMap.countOnes_present]

theorem Holds.isEmpty_eq (h : a.Holds m) : a.isEmpty = decide (m.count = 0) := by
  rcases h with ⟨hnone, rfl⟩ | ⟨inner, hinner, hne, -, -⟩
  · simp [isEmpty, hnone]
  · have hcount : m.count ≠ 0 := by
      rw [ChildMap.count_eq_card]
      simpa using hne
    simp [isEmpty, hinner, hcount]

/-- An allocated array has the layout of its map. -/
theorem Holds.of_some (h : a.Holds m) (hinner : a.inner = some inner) :
    m.present ≠ ∅ ∧ inner.bitmap = m.present ∧ Dense m inner.data := by
  rcases h with ⟨hnone, -⟩ | ⟨inner', hinner', h⟩
  · rw [hnone] at hinner
    cases hinner
  · rw [hinner'] at hinner
    cases hinner
    exact h

theorem Holds.of_none (h : a.Holds m) (hnone : a.inner = none) :
    m = ChildMap.empty := by
  rcases h with ⟨-, hm⟩ | ⟨inner, hinner, -⟩
  · exact hm
  · rw [hnone] at hinner
    cases hinner

theorem get_spec (h : a.Holds m) (i : A.Index) : a.get i = .ok (m.get i) := by
  unfold get
  cases hinner : a.inner with
  | none => rw [h.of_none hinner, ChildMap.get_empty]
  | some inner =>
      obtain ⟨-, hbm, hdense⟩ := h.of_some hinner
      simp only [hbm, ChildMap.test_present]
      cases hv : m.get i with
      | none => rfl
      | some v =>
          simp [Block.get_of_slot (hdense.slot_rank hv)]

theorem getMut_spec (h : a.Holds m) (i : A.Index) :
    a.getMut i = .ok ((m.get i).map fun _ => Bitmap.rank m.present i) := by
  unfold getMut
  cases hinner : a.inner with
  | none => rw [h.of_none hinner, ChildMap.get_empty, Option.map_none]
  | some inner =>
      obtain ⟨-, hbm, hdense⟩ := h.of_some hinner
      simp only [hbm, ChildMap.test_present]
      cases hv : m.get i with
      | none => rfl
      | some v =>
          simp [Block.get_of_slot (hdense.slot_rank hv)]

theorem Dense.overwrite {n : ℕ} {m : ChildMap n T} {b : Block T} {i : Fin n}
    (h : Dense m b) (hv : m.get i = some v) (w : T) :
    Dense (m.set i w) { b with
      slot := Function.update b.slot (Bitmap.rank m.present i) (some w) } := by
  have hpresent := ChildMap.present_set_of_some hv w
  refine ⟨?_, ?_⟩
  · rw [ChildMap.count_set_of_mem hv]
    exact h.cap
  · rw [hpresent]
    exact h.placed.overwrite (ChildMap.mem_present.mpr ⟨v, hv⟩) w

/-- Assigning through the reference of a present index. -/
theorem writeThrough_spec (h : a.Holds m) (hv : m.get i = some v)
    (f : T → T) :
    ∃ a', a.writeThrough (Bitmap.rank m.present i) f = .ok (v, a') ∧
      a'.Holds (m.set i (f v)) := by
  cases hinner : a.inner with
  | none =>
      rw [h.of_none hinner] at hv
      simp at hv
  | some inner =>
      obtain ⟨-, hbm, hdense⟩ := h.of_some hinner
      have hslot := hdense.slot_rank hv
      simp only [writeThrough, hinner, expect_some, ok_bind, pure_eq_ok,
        Block.get_of_slot hslot, Block.replace_of_slot hslot]
      refine ⟨_, rfl, Or.inr ⟨_, rfl, ChildMap.present_set_ne m i _, ?_,
        hdense.overwrite hv _⟩⟩
      rw [hbm, ChildMap.present_set_of_some hv]

theorem assignMut_spec (h : a.Holds m) (i : A.Index) (f : T → T) :
    ∃ a', a.assignMut i f = .ok (m.get i, a') ∧ a'.Holds (m.modify i f) := by
  cases hv : m.get i with
  | none =>
      refine ⟨a, by simp [assignMut, getMut_spec h, hv], ?_⟩
      rwa [ChildMap.modify_of_none hv]
  | some v =>
      obtain ⟨a', hwrite, ha'⟩ := writeThrough_spec h hv f
      refine ⟨a', by simp [assignMut, getMut_spec h, hv, hwrite], ?_⟩
      rwa [ChildMap.modify_of_some hv]

/-- The slots around an insertion: the lower ranks stay and the higher ranks
move up by one. -/
theorem insert_spec (h : a.Holds m) (i : A.Index) (v : T) :
    ∃ a', a.insert i v = .ok (m.get i, a') ∧ a'.Holds (m.set i v) ∧
      ∀ inner, a.inner = some inner → m.get i = none →
        ∃ inner', a'.inner = some inner' ∧
          (∀ q < Bitmap.rank m.present i,
            inner'.data.slot q = inner.data.slot q) ∧
          inner'.data.slot (Bitmap.rank m.present i) = some v ∧
          ∀ q, Bitmap.rank m.present i ≤ q →
            inner'.data.slot (q + 1) = inner.data.slot q := by
  cases hinner : a.inner with
  | none =>
      obtain rfl := h.of_none hinner
      have hwrite : (Block.alloc 1 : Block T).write 0 v =
          .ok ⟨1, Function.update (fun _ => none) 0 (some v)⟩ :=
        Block.write_of_free (b := Block.alloc 1) (by simp) rfl v
      have hcount : Bitmap.countOnes (Bitmap.withBit Bitmap.ZERO i) = 1 := by
        rw [Bitmap.countOnes_withBit Bitmap.notMem_ZERO, Bitmap.countOnes_ZERO]
      have hdense : Dense (ChildMap.empty : ChildMap A.LEN T) (Block.alloc 0) :=
        ⟨by simp, Placed.alloc 0 _⟩
      simp only [insert, hinner, debugAssert_of hcount, hwrite, ok_bind,
        pure_eq_ok]
      refine ⟨_, rfl, Or.inr ⟨_, rfl, ChildMap.present_set_ne _ i v, ?_, ?_⟩, by simp⟩
      · rw [ChildMap.present_set, ChildMap.present_empty]
        rfl
      · have hrank : Bitmap.rank (ChildMap.empty : ChildMap A.LEN T).present i
            = 0 := by
          simp [Bitmap.rank]
        refine hdense.insert (by simp) v (by simp) ?_ ?_ ?_
        · intro q hq
          omega
        · rw [hrank]
          simp
        · simp
  | some inner =>
      obtain ⟨hne, hbm, hdense⟩ := h.of_some hinner
      cases hv : m.get i with
      | some w =>
          have hslot := hdense.slot_rank hv
          simp only [insert, hinner, hbm, ChildMap.test_present, hv, Option.isSome_some,
            if_true, Block.replace_of_slot hslot, ok_bind, pure_eq_ok]
          refine ⟨_, rfl, Or.inr ⟨_, rfl, ChildMap.present_set_ne m i v, ?_,
            hdense.overwrite hv v⟩, by simp⟩
          rw [ChildMap.present_set_of_some hv]
      | none =>
          have hi := ChildMap.notMem_present.mpr hv
          have hcount : Bitmap.countOnes (Bitmap.withBit m.present i) =
              m.count + 1 := by
            rw [Bitmap.countOnes_withBit hi, ChildMap.countOnes_present]
          obtain ⟨b₁, c₁, c₂, b₂, c, hlow, hwrite, habove, hhigh, hfree, hcap,
            hslots⟩ := hdense.copy_insert i v
          simp only [insert, hinner, hbm, ChildMap.test_present, hv, Option.isSome_none,
            Bool.false_eq_true, if_false, ChildMap.countOnes_present,
            debugAssert_of hcount, hlow, hwrite, habove, hhigh, hfree, ok_bind,
            pure_eq_ok]
          refine ⟨_, rfl, Or.inr ⟨_, rfl, ChildMap.present_set_ne m i v, ?_,
            hdense.insert hi v hcap hslots.1 hslots.2.1 hslots.2.2⟩, ?_⟩
          · rw [ChildMap.present_set]
            rfl
          · rintro inner' hinner' -
            cases hinner'
            exact ⟨_, rfl, hslots⟩

/-- The slots around a removal: the lower ranks stay and the higher ranks move
down by one. -/
theorem remove_spec (h : a.Holds m) (i : A.Index) :
    ∃ a', a.remove i = .ok (m.get i, a') ∧ a'.Holds (m.erase i) ∧
      ∀ inner inner', a.inner = some inner → a'.inner = some inner' →
        m.get i ≠ none →
          (∀ q < Bitmap.rank m.present i,
            inner'.data.slot q = inner.data.slot q) ∧
          ∀ q, Bitmap.rank m.present i ≤ q →
            inner'.data.slot q = inner.data.slot (q + 1) := by
  cases hinner : a.inner with
  | none =>
      obtain rfl := h.of_none hinner
      have hempty := ChildMap.erase_of_none
        (ChildMap.get_empty (n := A.LEN) (E := T) i)
      refine ⟨a, by simp [remove, hinner], ?_, by simp⟩
      rwa [hempty]
  | some inner =>
      obtain ⟨hne, hbm, hdense⟩ := h.of_some hinner
      cases hv : m.get i with
      | none =>
          have herase := ChildMap.erase_of_none hv
          refine ⟨a, by simp [remove, hinner, hbm, ChildMap.test_present, hv], ?_,
            by simp⟩
          rwa [herase]
      | some v =>
          have hi := ChildMap.mem_present.mpr ⟨v, hv⟩
          have hcount := ChildMap.count_erase hv
          have hsub : usizeSub m.count 1 = .ok (m.erase i).count := by
            rw [usizeSub_of_le (by omega)]
            congr 1
            omega
          have hread := Block.read_of_slot (hdense.slot_rank hv)
          by_cases hlast : (m.erase i).count = 0
          · -- The last element leaves no block behind.
            have hempty := ChildMap.eq_empty_of_count hlast
            have hplaced := hdense.placed.erase hi
            rw [hempty] at hplaced
            have hfree := hplaced.dealloc hdense.cap
            simp only [remove, hinner, hbm, ChildMap.test_present, hv, Option.isSome_some,
              ChildMap.countOnes_present, hsub, hlast, hread, ok_bind, pure_eq_ok,
              not_true_eq_false, if_false, if_true, hfree]
            exact ⟨_, rfl, Or.inl ⟨rfl, hempty⟩, by simp⟩
          · have hbits : Bitmap.countOnes (Bitmap.withoutBit m.present i) =
                (m.erase i).count := by
              have := Bitmap.countOnes_withoutBit hi
              rw [ChildMap.countOnes_present] at this
              omega
            obtain ⟨b₁, c₁, b₂, c, hlow, habove, habove', hhigh, hfree, hcap,
              hslots⟩ := hdense.copy_remove hv
            simp only [remove, hinner, hbm, ChildMap.test_present, hv, Option.isSome_some,
              ChildMap.countOnes_present, hsub, hlast, hread, ok_bind, pure_eq_ok,
              not_true_eq_false, if_false, debugAssert_of hbits, hlow, habove,
              habove', hhigh, hfree]
            refine ⟨_, rfl, Or.inr ⟨_, rfl, ?_, ?_,
              hdense.erase hi hcap hslots.1 hslots.2⟩, ?_⟩
            · rwa [ChildMap.count_eq_card, Finset.card_eq_zero] at hlast
            · rw [ChildMap.present_erase]
              rfl
            · rintro inner₁ inner₂ hinner₁ hinner₂ -
              cases hinner₁
              cases hinner₂
              exact hslots

theorem takeOnlyChild_of_count_ne (h : a.Holds m) (hone : m.count ≠ 1) :
    a.takeOnlyChild = .ok (none, a) := by
  rw [takeOnlyChild, h.bitmap_eq, ChildMap.countOnes_present, if_pos hone]

theorem takeOnlyChild_spec (h : a.Holds m) :
    ∃ a', a.takeOnlyChild = .ok (m.takeOnlyChild.1, a') ∧
      a'.Holds m.takeOnlyChild.2 := by
  by_cases hone : m.count = 1
  · obtain ⟨i, v, hv⟩ := ChildMap.exists_only_child hone
    have hnext := BitIter.next_of_only_child hone hv
    obtain ⟨a', hremove, ha', -⟩ := remove_spec h i
    rw [ChildMap.takeOnlyChild_of_only_child hone hv]
    refine ⟨a', ?_, ha'⟩
    rw [takeOnlyChild, h.bitmap_eq, ChildMap.countOnes_present]
    simp [hone, hnext, hremove, hv]
  · rw [ChildMap.takeOnlyChild_of_count_ne hone]
    exact ⟨a, takeOnlyChild_of_count_ne h hone, h⟩

end Spec

end PackedArray

end ArityArrays
