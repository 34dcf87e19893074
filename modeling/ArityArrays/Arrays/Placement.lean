import ArityArrays.Arrays.Positions
import ArityArrays.Support.Block

/-!
# Maps laid out in a block

A finite map is laid out in a block when its entries stand in slots that ascend
with their indices and nothing else is initialised.  The block operations the
arrays use carry one such layout into another; everything later on about a
particular array is about which slots it chooses.
-/

namespace ArityTries.ChildMap

variable {n : ℕ} {T : Type}

/-- The entries of `m` at the indices `is`. -/
def only (m : ChildMap n T) (is : List (Fin n)) : ChildMap n T :=
  ⟨fun i => if i ∈ is then m.get i else none⟩

section Only

variable {m : ChildMap n T} {i : Fin n} {is : List (Fin n)} {v : T}

theorem get_only (m : ChildMap n T) (is : List (Fin n)) (i : Fin n) :
    (m.only is).get i = if i ∈ is then m.get i else none := rfl

theorem get_only_of_mem (h : i ∈ is) : (m.only is).get i = m.get i := by
  rw [get_only, if_pos h]

theorem only_nil (m : ChildMap n T) : m.only [] = empty :=
  ext_get fun i => by simp [get_only]

theorem only_bits (m : ChildMap n T) : m.only (Bitmap.bits m.present) = m := by
  refine ext_get fun i => ?_
  rw [get_only]
  split
  · rfl
  · next h =>
      rw [Bitmap.mem_bits, notMem_present] at h
      exact h.symm

theorem erase_only_cons (hi : i ∉ is) :
    (m.only (i :: is)).erase i = m.only is := by
  refine ext_get fun j => ?_
  rw [get_erase, get_only, get_only]
  by_cases hj : j = i
  · subst j
    simp [hi]
  · simp [hj]

theorem set_only (hv : m.get i = some v) :
    (m.only is).set i v = m.only (is ++ [i]) := by
  refine ext_get fun j => ?_
  rw [get_set, get_only, get_only]
  by_cases hj : j = i
  · subst j
    simp [hv]
  · simp [hj]

end Only

@[simp] theorem present_empty : (empty : ChildMap n T).present = ∅ := by
  ext i
  simp

theorem present_eq_empty {m : ChildMap n T} : m.present = ∅ ↔ m = empty := by
  constructor
  · intro h
    refine ext_get fun i => ?_
    rw [get_empty, ← notMem_present, h]
    exact Finset.notMem_empty i
  · rintro rfl
    exact present_empty

theorem countOnes_present (m : ChildMap n T) :
    Bitmap.countOnes m.present = m.count :=
  (count_eq_card m).symm

theorem test_present (m : ChildMap n T) (i : Fin n) :
    Bitmap.test m.present i = (m.get i).isSome := by
  cases hv : m.get i with
  | none => simp [Bitmap.test, hv]
  | some v => simp [Bitmap.test, hv]

theorem present_set_ne (m : ChildMap n T) (i : Fin n) (v : T) :
    (m.set i v).present ≠ ∅ := by
  rw [present_set]
  exact Finset.insert_ne_empty i m.present

theorem present_set_of_some {m : ChildMap n T} {i : Fin n} {v : T}
    (hv : m.get i = some v) (w : T) : (m.set i w).present = m.present := by
  rw [present_set, Finset.insert_eq_of_mem (mem_present.mpr ⟨v, hv⟩)]

/-- The map with `f v` for the value `v` at `i`, if there is one. -/
def modify (m : ChildMap n T) (i : Fin n) (f : T → T) : ChildMap n T :=
  match m.get i with
  | none => m
  | some v => m.set i (f v)

theorem modify_of_none {m : ChildMap n T} {i : Fin n} (hi : m.get i = none)
    (f : T → T) : m.modify i f = m := by
  simp [modify, hi]

theorem modify_of_some {m : ChildMap n T} {i : Fin n} {v : T}
    (hv : m.get i = some v) (f : T → T) : m.modify i f = m.set i (f v) := by
  simp [modify, hv]

theorem present_modify (m : ChildMap n T) (i : Fin n) (f : T → T) :
    (m.modify i f).present = m.present := by
  cases hv : m.get i with
  | none => rw [modify_of_none hv]
  | some v => rw [modify_of_some hv, present_set_of_some hv]

theorem erase_of_none {m : ChildMap n T} {i : Fin n} (hi : m.get i = none) :
    m.erase i = m := by
  refine ext_get fun j => ?_
  rw [get_erase]
  split
  · next hji => rw [hji, hi]
  · rfl

theorem takeOnlyChild_of_count_ne {m : ChildMap n T} (hone : m.count ≠ 1) :
    m.takeOnlyChild = (none, m) := by
  unfold takeOnlyChild
  split
  · next ie hie =>
      refine absurd ?_ hone
      rw [count, hie, List.length_singleton]
  · rfl

theorem iterPresent_eq_map (m : ChildMap n T) :
    m.iterPresent = (Bitmap.bits m.present).filterMap fun i =>
      (m.get i).map fun v => (i, v) := by
  rw [iterPresent, Bitmap.bits, List.filterMap_filter]
  refine List.filterMap_congr fun i _ => ?_
  by_cases hi : i ∈ m.present
  · simp [hi]
  · simp [hi, notMem_present.mp hi]

/-- The values of a map, ascending by index. -/
def values (m : ChildMap n T) : List T := m.iterPresent.map Prod.snd

theorem length_values (m : ChildMap n T) : m.values.length = m.count :=
  List.length_map _

@[simp] theorem values_empty : (empty : ChildMap n T).values = [] := by
  rw [← List.length_eq_zero_iff, length_values, count_empty]

theorem map_get_bits (m : ChildMap n T) :
    (Bitmap.bits m.present).map m.get = m.values.map some := by
  have hpresent : ∀ i ∈ Bitmap.bits m.present, ∃ v, m.get i = some v :=
    fun i hi => mem_present.mp (Bitmap.mem_bits.mp hi)
  rw [values, iterPresent_eq_map]
  generalize Bitmap.bits m.present = is at hpresent
  induction is with
  | nil => rfl
  | cons i is ih =>
      obtain ⟨v, hv⟩ := hpresent i (by simp)
      have hrest := ih fun j hj => hpresent j (List.mem_cons_of_mem i hj)
      simp [hv, hrest]

theorem values_rank {m : ChildMap n T} {i : Fin n} (hi : i ∈ m.present) :
    m.values[Bitmap.rank m.present i]? = m.get i := by
  obtain ⟨v, hv⟩ := mem_present.mp hi
  have hget := congrArg (·[Bitmap.rank m.present i]?) m.map_get_bits
  have hselect := Bitmap.select_rank hi
  rw [Bitmap.select] at hselect
  simpa [hselect, hv] using hget.symm

/-- A map is given by its indices and its values in order. -/
theorem ext_values {m m' : ChildMap n T} (hpresent : m.present = m'.present)
    (hvalues : m.values = m'.values) : m = m' := by
  refine ext_get fun i => ?_
  by_cases hi : i ∈ m.present
  · rw [← values_rank hi, hvalues, hpresent, values_rank (hpresent ▸ hi)]
  · rw [notMem_present.mp hi, notMem_present.mp (hpresent ▸ hi)]

/-- Any list of the right length is the list of the values of a map. -/
theorem exists_values (m : ChildMap n T) {ws : List T}
    (hlen : ws.length = m.count) :
    ∃ m' : ChildMap n T, m'.present = m.present ∧ m'.values = ws := by
  have hrank : ∀ i ∈ m.present, Bitmap.rank m.present i < ws.length := by
    intro i hi
    rw [hlen, ← countOnes_present]
    exact Bitmap.rank_lt_countOnes hi
  obtain ⟨m', hm'⟩ : ∃ m' : ChildMap n T, ∀ i, m'.get i =
      if i ∈ m.present then ws[Bitmap.rank m.present i]? else none :=
    ⟨⟨_⟩, fun _ => rfl⟩
  have hpresent : m'.present = m.present := by
    ext i
    rw [mem_present, hm']
    split
    · next hi => simp [hi, List.getElem?_eq_getElem (hrank i hi)]
    · next hi => simp [hi]
  refine ⟨m', hpresent, ?_⟩
  have hmap : m'.values.map some = ws.map some := by
    rw [← map_get_bits, hpresent]
    have hget : (Bitmap.bits m.present).map m'.get =
        ((Bitmap.bits m.present).map (Bitmap.rank m.present)).map (ws[·]?) := by
      rw [List.map_map]
      refine List.map_congr_left fun i hi => ?_
      rw [hm', if_pos (Bitmap.mem_bits.mp hi)]
      rfl
    rw [hget, Bitmap.map_rank_bits, countOnes_present, ← hlen]
    refine List.ext_getElem (by simp) fun r hr _ => ?_
    have hr' : r < ws.length := by simpa using hr
    simp [List.getElem?_eq_getElem hr']
  exact List.map_injective_iff.mpr (Option.some_injective T) hmap

/-- The map with the values `ws` in the place of its own. -/
def withValues (m : ChildMap n T) (ws : List T) : ChildMap n T :=
  ⟨fun i => if i ∈ m.present then ws[Bitmap.rank m.present i]? else none⟩

theorem eq_withValues {m m' : ChildMap n T} (h : m'.present = m.present) :
    m' = m.withValues m'.values := by
  refine ext_get fun i => ?_
  change m'.get i = if i ∈ m.present then _ else none
  split
  · next hi =>
      rw [← h] at hi ⊢
      exact (values_rank hi).symm
  · next hi =>
      rw [← h] at hi
      exact notMem_present.mp hi

theorem map_fst_iterPresent (m : ChildMap n T) :
    m.iterPresent.map Prod.fst = Bitmap.bits m.present := by
  rw [iterPresent, Bitmap.bits, List.map_filterMap, ← List.filterMap_eq_filter]
  refine List.filterMap_congr fun i _ => ?_
  cases hv : m.get i with
  | none => simp [Option.guard, hv]
  | some v => simp [Option.guard, hv]

/-- Every index with its optional value. -/
def entries (m : ChildMap n T) : List (Fin n × Option T) :=
  (List.finRange n).map fun i => (i, m.get i)

theorem map_fst_entries (m : ChildMap n T) :
    m.entries.map Prod.fst = List.finRange n := by
  simp [entries, Function.comp_def]

theorem filterMap_snd_entries (m : ChildMap n T) :
    m.entries.filterMap Prod.snd = m.values := by
  rw [entries, values, iterPresent, List.filterMap_map, List.map_filterMap]
  refine List.filterMap_congr fun i _ => ?_
  simp [Function.comp_def]

end ArityTries.ChildMap

namespace ArityArrays

open ArityTries Checked Function

theorem BitIter.next_of_only_child {n : ℕ} {T : Type} {m : ChildMap n T}
    {i : Fin n} {v : T} (hone : m.count = 1) (hv : m.get i = some v) :
    (⟨m.present⟩ : BitIter n).next.1 = some i := by
  have hi := ChildMap.mem_present.mpr ⟨v, hv⟩
  have hrank := Bitmap.rank_lt_countOnes hi
  rw [ChildMap.countOnes_present, hone, Nat.lt_one_iff] at hrank
  rw [BitIter.next_fst]
  exact Bitmap.select_eq_some.mpr ⟨hi, hrank⟩

/-- The entries of `m` stand in the slots `pos` of `b`, ascending with their
indices, and no other slot is initialised. -/
structure Placed {n : ℕ} {T : Type} (m : ChildMap n T) (b : Block T)
    (pos : Fin n → ℕ) : Prop where
  mono : ∀ i ∈ m.present, ∀ j ∈ m.present, i < j → pos i < pos j
  bound : ∀ i ∈ m.present, pos i < b.cap
  value : ∀ i ∈ m.present, b.slot (pos i) = m.get i
  free : ∀ p, (∀ i ∈ m.present, pos i ≠ p) → b.slot p = none

namespace Placed

variable {n : ℕ} {T : Type} {m : ChildMap n T} {b : Block T}
variable {pos : Fin n → ℕ} {i j : Fin n} {v : T} {p : ℕ}

theorem slot_of_get (h : Placed m b pos) (hv : m.get i = some v) :
    b.slot (pos i) = some v := by
  rw [h.value i (ChildMap.mem_present.mpr ⟨v, hv⟩), hv]

theorem exists_of_slot (h : Placed m b pos) (hv : b.slot p = some v) :
    ∃ i, m.get i = some v ∧ pos i = p := by
  by_contra hnone
  have hfree := h.free p ?_
  · rw [hfree] at hv
    cases hv
  · intro i hi hpos
    subst hpos
    rw [h.value i hi] at hv
    exact hnone ⟨i, hv, rfl⟩

theorem isSome_slot (h : Placed m b pos) :
    (b.slot p).isSome ↔ ∃ i ∈ m.present, pos i = p := by
  rw [Option.isSome_iff_exists]
  constructor
  · rintro ⟨v, hv⟩
    obtain ⟨i, hi, hpos⟩ := h.exists_of_slot hv
    exact ⟨i, ChildMap.mem_present.mpr ⟨v, hi⟩, hpos⟩
  · rintro ⟨i, hi, rfl⟩
    obtain ⟨v, hv⟩ := ChildMap.mem_present.mp hi
    exact ⟨v, h.slot_of_get hv⟩

theorem injective (h : Placed m b pos) (hi : i ∈ m.present)
    (hj : j ∈ m.present) (hpos : pos i = pos j) : i = j := by
  rcases lt_trichotomy i j with hij | hij | hij
  · exact absurd (h.mono i hi j hj hij) (by omega)
  · exact hij
  · exact absurd (h.mono j hj i hi hij) (by omega)

/-- Only the positions of present indices matter. -/
theorem congr {pos' : Fin n → ℕ} (h : Placed m b pos)
    (hpos : ∀ i ∈ m.present, pos' i = pos i) : Placed m b pos' where
  mono i hi j hj hij := by
    rw [hpos i hi, hpos j hj]
    exact h.mono i hi j hj hij
  bound i hi := by
    rw [hpos i hi]
    exact h.bound i hi
  value i hi := by
    rw [hpos i hi]
    exact h.value i hi
  free p hp := h.free p fun i hi => by
    rw [← hpos i hi]
    exact hp i hi

/-- A fresh block holds the empty map. -/
theorem alloc (cap : ℕ) (pos : Fin n → ℕ) :
    Placed (ChildMap.empty : ChildMap n T) (Block.alloc cap) pos where
  mono i hi := by simp at hi
  bound i hi := by simp at hi
  value i hi := by simp at hi
  free _ _ := rfl

theorem slot_eq_none (h : Placed (ChildMap.empty : ChildMap n T) b pos)
    (p : ℕ) : b.slot p = none :=
  h.free p fun i hi => by simp at hi

/-- A block whose values are all moved out can be freed. -/
theorem dealloc (h : Placed (ChildMap.empty : ChildMap n T) b pos) {cap : ℕ}
    (hcap : b.cap = cap) : b.dealloc cap = .ok () :=
  Block.dealloc_of_empty hcap h.slot_eq_none

/-- Taking an entry out leaves the others where they are. -/
theorem erase (h : Placed m b pos) (hi : i ∈ m.present) :
    Placed (m.erase i) { b with slot := update b.slot (pos i) none } pos := by
  have hmem : ∀ j, j ∈ (m.erase i).present ↔ j ≠ i ∧ j ∈ m.present := by
    intro j
    rw [ChildMap.present_erase, Finset.mem_erase]
  refine ⟨?_, ?_, ?_, ?_⟩
  · intro j hj k hk
    exact h.mono j ((hmem j).mp hj).2 k ((hmem k).mp hk).2
  · intro j hj
    exact h.bound j ((hmem j).mp hj).2
  · intro j hj
    obtain ⟨hji, hj⟩ := (hmem j).mp hj
    have hne : pos j ≠ pos i := fun hpos => hji (h.injective hj hi hpos)
    rw [ChildMap.get_erase_of_ne m hji, ← h.value j hj]
    exact update_of_ne hne _ _
  · intro p hp
    by_cases hpi : p = pos i
    · subst hpi
      exact update_self _ _ _
    · simp only [update_of_ne hpi]
      refine h.free p fun j hj hpos => ?_
      by_cases hji : j = i
      · subst hji
        exact hpi hpos.symm
      · exact hp j ((hmem j).mpr ⟨hji, hj⟩) hpos

/-- Swapping the value of an entry. -/
theorem overwrite (h : Placed m b pos) (hi : i ∈ m.present) (v : T) :
    Placed (m.set i v) { b with slot := update b.slot (pos i) (some v) } pos := by
  have hpresent : (m.set i v).present = m.present := by
    rw [ChildMap.present_set, Finset.insert_eq_of_mem hi]
  refine ⟨?_, ?_, ?_, ?_⟩
  · rw [hpresent]
    exact h.mono
  · rw [hpresent]
    exact h.bound
  · rw [hpresent]
    intro j hj
    by_cases hji : j = i
    · subst hji
      simp
    · have hne : pos j ≠ pos i := fun hpos => hji (h.injective hj hi hpos)
      rw [ChildMap.get_set_of_ne m hji, ← h.value j hj]
      exact update_of_ne hne _ _
  · rw [hpresent]
    intro p hp
    simp only [update_of_ne (hp i hi).symm]
    exact h.free p hp

/-- Writing an absent entry into a slot between those of its neighbours. -/
theorem insert (h : Placed m b pos) (hi : i ∉ m.present) {hole : ℕ}
    (hcap : hole < b.cap) (hlo : ∀ j ∈ m.present, j < i → pos j < hole)
    (hhi : ∀ j ∈ m.present, i < j → hole < pos j) (v : T) :
    Placed (m.set i v) { b with slot := update b.slot hole (some v) }
      (update pos i hole) := by
  have hmem : ∀ j, j ∈ (m.set i v).present ↔ j = i ∨ j ∈ m.present := by
    intro j
    rw [ChildMap.present_set, Finset.mem_insert]
  have hne : ∀ j ∈ m.present, j ≠ i := by
    rintro j hj rfl
    exact hi hj
  have hold : ∀ j ∈ m.present, update pos i hole j = pos j :=
    fun j hj => update_of_ne (hne j hj) _ _
  have hhole : ∀ j ∈ m.present, pos j ≠ hole := by
    intro j hj
    rcases lt_or_gt_of_ne (hne j hj) with hji | hij
    · exact (hlo j hj hji).ne
    · exact (hhi j hj hij).ne'
  refine ⟨?_, ?_, ?_, ?_⟩
  · intro j hj k hk hjk
    rcases (hmem j).mp hj with rfl | hj'
    · rcases (hmem k).mp hk with rfl | hk'
      · exact absurd hjk (lt_irrefl _)
      · rw [update_self, hold k hk']
        exact hhi k hk' hjk
    · rcases (hmem k).mp hk with rfl | hk'
      · rw [update_self, hold j hj']
        exact hlo j hj' hjk
      · rw [hold j hj', hold k hk']
        exact h.mono j hj' k hk' hjk
  · intro j hj
    rcases (hmem j).mp hj with rfl | hj
    · rw [update_self]
      exact hcap
    · rw [hold j hj]
      exact h.bound j hj
  · intro j hj
    rcases (hmem j).mp hj with rfl | hj
    · simp
    · rw [hold j hj, ChildMap.get_set_of_ne m (hne j hj), ← h.value j hj]
      exact update_of_ne (hhole j hj) _ _
  · intro p hp
    have hph : p ≠ hole := by
      have := hp i ((hmem i).mpr (Or.inl rfl))
      rw [update_self] at this
      exact this.symm
    simp only [update_of_ne hph]
    refine h.free p fun j hj => ?_
    have := hp j ((hmem j).mpr (Or.inr hj))
    rwa [hold j hj] at this

/-- The position after the slots from `src` to `src + k` move to `dst` on. -/
def moved (src dst k : ℕ) (pos : Fin n → ℕ) : Fin n → ℕ := fun i =>
  if src ≤ pos i ∧ pos i < src + k then dst + (pos i - src) else pos i

/-- Moving a run of initialised slots within the block. -/
theorem moveWithin (h : Placed m b pos) (src dst k : ℕ)
    (hcap : dst + k ≤ b.cap)
    (hlive : ∀ q, src ≤ q → q < src + k → (b.slot q).isSome)
    (hfree : ∀ q, dst ≤ q → q < dst + k → ¬(src ≤ q ∧ q < src + k) →
      b.slot q = none)
    (hmono : ∀ i ∈ m.present, ∀ j ∈ m.present, i < j →
      moved src dst k pos i < moved src dst k pos j) :
    b.moveWithin src dst k = .ok (b.slide src dst k) ∧
      Placed m (b.slide src dst k) (moved src dst k pos) := by
  have hsrc : ∀ q < k, (b.slot (src + q)).isSome :=
    fun q hq => hlive (src + q) (by omega) (by omega)
  have hdst : ∀ q < k, (src ≤ dst + q ∧ dst + q < src + k) ∨
      (b.slot (dst + q)).isNone := by
    intro q hq
    by_cases hin : src ≤ dst + q ∧ dst + q < src + k
    · exact Or.inl hin
    · simp [hfree (dst + q) (by omega) (by omega) hin]
  refine ⟨?_, hmono, ?_, ?_, ?_⟩
  · rw [Block.moveWithin, if_pos ⟨hcap, hsrc, hdst⟩]
  · intro i hi
    have := h.bound i hi
    unfold moved
    split
    · simp only [Block.slide]
      omega
    · exact this
  · intro i hi
    obtain ⟨v, hv⟩ := ChildMap.mem_present.mp hi
    have hslot := h.slot_of_get hv
    by_cases hin : src ≤ pos i ∧ pos i < src + k
    · have hback : src + (dst + (pos i - src) - dst) = pos i := by omega
      simp only [moved, if_pos hin, Block.slide]
      rw [if_pos (by omega), hback, hslot, hv]
    · have hout : ¬(dst ≤ pos i ∧ pos i < dst + k) := by
        rintro ⟨hlo, hhi⟩
        rw [hfree _ hlo hhi hin] at hslot
        cases hslot
      simp only [moved, Block.slide, if_neg hin, if_neg hout]
      rw [hslot, hv]
  · intro p hp
    by_cases hin : dst ≤ p ∧ p < dst + k
    · obtain ⟨i, hi, hpos⟩ := h.isSome_slot.mp
        (hlive (src + (p - dst)) (by omega) (by omega))
      refine absurd ?_ (hp i hi)
      simp only [moved, hpos]
      rw [if_pos (by omega)]
      omega
    · simp only [Block.slide, if_neg hin]
      by_cases hvac : src ≤ p ∧ p < src + k
      · exact if_pos hvac
      · rw [if_neg hvac]
        refine h.free p fun i hi hpos => hp i hi ?_
        simp only [moved, hpos, if_neg hvac]

/-- The initialised slots in ascending order are the positions of the present
indices in ascending order. -/
theorem bits_eq_map (h : Placed m b pos) {c : Bitmap n}
    (hc : ∀ p : ℕ, (∃ q ∈ c, q.val = p) ↔ (b.slot p).isSome) :
    (Bitmap.bits c).map Fin.val = (Bitmap.bits m.present).map pos :=
  Bitmap.map_bits_of_image h.mono fun p => by rw [hc, h.isSome_slot]

/-- A layout by the values in order. -/
theorem of_slots
    (hmono : ∀ i ∈ m.present, ∀ j ∈ m.present, i < j → pos i < pos j)
    (hbound : ∀ i ∈ m.present, pos i < b.cap)
    (hslots : ((Bitmap.bits m.present).map pos).map b.slot = m.values.map some)
    (hfree : ∀ p ∉ (Bitmap.bits m.present).map pos, b.slot p = none) :
    Placed m b pos := by
  refine ⟨hmono, hbound, fun i hi => ?_, fun p hp => hfree p ?_⟩
  · rw [List.map_map, ← ChildMap.map_get_bits] at hslots
    exact List.map_inj_left.mp hslots i (Bitmap.mem_bits.mpr hi)
  · simpa using hp

/-- The slots in order hold the values in order. -/
theorem map_slot (h : Placed m b pos) :
    ((Bitmap.bits m.present).map pos).map b.slot = m.values.map some := by
  rw [List.map_map, ← ChildMap.map_get_bits]
  refine List.map_congr_left fun i hi => ?_
  exact h.value i (Bitmap.mem_bits.mp hi)

end Placed

/-! ## Moving a whole layout -/

section Transfer

variable {n : ℕ} {T : Type} {m : ChildMap n T} {b c : Block T}
variable {pos pos' : Fin n → ℕ}

/-- Move one value for every pair of slots, in order. -/
def transfer (pairs : List (ℕ × ℕ)) (b c : Block T) :
    Checked (Block T × Block T) :=
  pairs.foldlM (fun blocks slots =>
    blocks.1.moveTo slots.1 blocks.2 slots.2 1) (b, c)

/-- Moving the entry of `i` from one layout to the other. -/
theorem Placed.moveTo_one {js is : List (Fin n)} {i : Fin n}
    (hb : Placed (m.only (i :: is)) b pos)
    (hc : Placed (m.only js) c pos') (hi : i ∈ m.present) (hiis : i ∉ is)
    (hijs : i ∉ js) (hcap : pos' i < c.cap)
    (hlt : ∀ j ∈ js, j < i ∧ pos' j < pos' i) :
    ∃ b' c', b.moveTo (pos i) c (pos' i) 1 = .ok (b', c') ∧
      b'.cap = b.cap ∧ c'.cap = c.cap ∧
      Placed (m.only is) b' pos ∧ Placed (m.only (js ++ [i])) c' pos' := by
  obtain ⟨v, hv⟩ := ChildMap.mem_present.mp hi
  have hget : (m.only (i :: is)).get i = some v := by
    rw [ChildMap.get_only_of_mem (by simp), hv]
  have hmemb : i ∈ (m.only (i :: is)).present :=
    ChildMap.mem_present.mpr ⟨v, hget⟩
  have hmemc : ∀ j ∈ (m.only js).present, j ∈ js := by
    intro j hj
    obtain ⟨w, hw⟩ := ChildMap.mem_present.mp hj
    by_contra hjs
    simp [ChildMap.get_only, hjs] at hw
  have hnotc : i ∉ (m.only js).present := fun hi' => hijs (hmemc i hi')
  have hfree : c.slot (pos' i) = none :=
    hc.free _ fun j hj hpos => by
      have := (hlt j (hmemc j hj)).2
      omega
  refine ⟨_, _, Block.moveTo_one (hb.slot_of_get hget) hcap hfree, rfl, rfl,
    ?_, ?_⟩
  · rw [← ChildMap.erase_only_cons (m := m) hiis]
    exact hb.erase hmemb
  · rw [← ChildMap.set_only hv]
    refine (hc.insert hnotc hcap ?_ ?_ v).congr ?_
    · intro j hj _
      exact (hlt j (hmemc j hj)).2
    · intro j hj hij
      exact absurd hij (hlt j (hmemc j hj)).1.asymm
    · intro j hj
      by_cases hji : j = i
      · subst hji
        simp
      · simp [hji]

private theorem transfer_from (js : List (Fin n)) {is : List (Fin n)}
    (hbits : Bitmap.bits m.present = js ++ is)
    (hb : Placed (m.only is) b pos) (hc : Placed (m.only js) c pos')
    (hmono : ∀ i ∈ m.present, ∀ j ∈ m.present, i < j → pos' i < pos' j)
    (hcap : ∀ i ∈ m.present, pos' i < c.cap) :
    ∃ b' c', transfer (is.map fun i => (pos i, pos' i)) b c = .ok (b', c') ∧
      b'.cap = b.cap ∧ c'.cap = c.cap ∧
      Placed (ChildMap.empty : ChildMap n T) b' pos ∧ Placed m c' pos' := by
  induction is generalizing js b c with
  | nil =>
      refine ⟨b, c, rfl, rfl, rfl, ?_, ?_⟩
      · rwa [ChildMap.only_nil] at hb
      · rw [List.append_nil] at hbits
        rwa [← hbits, ChildMap.only_bits] at hc
  | cons i is ih =>
      have hsorted := Bitmap.bits_pairwise m.present
      have hnodup := Bitmap.bits_nodup m.present
      rw [hbits, List.pairwise_append, List.pairwise_cons] at hsorted
      rw [hbits, List.nodup_append, List.nodup_cons] at hnodup
      have hmem : ∀ j, j ∈ js ++ i :: is → j ∈ m.present := by
        intro j hj
        rw [← hbits] at hj
        exact Bitmap.mem_bits.mp hj
      have hi := hmem i (by simp)
      have hlt : ∀ j ∈ js, j < i ∧ pos' j < pos' i := by
        intro j hj
        have hji := hsorted.2.2 j hj i (by simp)
        exact ⟨hji, hmono j (hmem j (by simp [hj])) i hi hji⟩
      obtain ⟨b₁, c₁, hmove, hb₁cap, hc₁cap, hb₁, hc₁⟩ :=
        hb.moveTo_one hc hi hnodup.2.1.1
          (fun hjs => (hlt i hjs).1.ne rfl) (hcap i hi) hlt
      obtain ⟨b', c', hrest, hb'cap, hc'cap, hb', hc'⟩ :=
        ih (js ++ [i]) (by simpa using hbits) hb₁ hc₁
          (by rwa [hc₁cap])
      refine ⟨b', c', ?_, hb'cap.trans hb₁cap, hc'cap.trans hc₁cap, hb', hc'⟩
      unfold transfer at hrest ⊢
      rw [List.map_cons, List.foldlM_cons, hmove]
      exact hrest

/-- Moving every entry to its slot in a fresh block. -/
theorem Placed.transfer (hb : Placed m b pos) {cap : ℕ}
    (hmono : ∀ i ∈ m.present, ∀ j ∈ m.present, i < j → pos' i < pos' j)
    (hcap : ∀ i ∈ m.present, pos' i < cap) :
    ∃ b' c', transfer ((Bitmap.bits m.present).map fun i => (pos i, pos' i)) b
        (Block.alloc cap) = .ok (b', c') ∧
      b'.cap = b.cap ∧ c'.cap = cap ∧
      Placed (ChildMap.empty : ChildMap n T) b' pos ∧ Placed m c' pos' := by
  refine transfer_from [] rfl ?_ ?_ hmono hcap
  · rwa [ChildMap.only_bits]
  · rw [ChildMap.only_nil]
    exact Placed.alloc cap pos'

end Transfer

end ArityArrays
