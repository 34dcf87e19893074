import Mathlib.Data.Finset.Sort
import ArityArrays.Arrays.Arity
import ArityArrays.Support.DoubleEnded
import ArityArrays.Tries.Children

/-!
# Ranks and positions of set bits

The bitmap operations the arrays are built on: ranks, selection by rank, the
search for clear bits and the double-ended iterator over the set bits.  Rank
and selection are inverse to each other, and a strictly increasing image of a
bitmap lists its positions in the same order.
-/

namespace ArityTries.Bitmap

open Checked ArityArrays

variable {n : ℕ}

/-- The number of set positions. -/
def countOnes (b : Bitmap n) : ℕ := b.card

def isZero (b : Bitmap n) : Bool := decide (b = ∅)

/-- The number of set positions below `i`. -/
def rank (b : Bitmap n) (i : Fin n) : ℕ := (b.filter (· < i)).card

/-- The greatest clear position which is at most `start`. -/
def nearestClearAtOrBelow (b : Bitmap n) (start : ℕ) :
    Checked (Option (Fin n)) := do
  debugAssert (start < n) "assertion failed: from < $width"
  return ((List.finRange n).filter fun p =>
    decide (p.val ≤ start ∧ p ∉ b)).getLast?

/-- The least clear position in `[start, limit)`. -/
def nearestClearIn (b : Bitmap n) (start limit : ℕ) :
    Checked (Option (Fin n)) := do
  debugAssert (start ≤ limit ∧ limit ≤ n)
    "assertion failed: from <= limit && limit <= $width"
  return (List.finRange n).find? fun p =>
    decide (start ≤ p.val ∧ p.val < limit ∧ p ∉ b)

/-! ### Sorted positions -/

section Sorted

variable {b : Bitmap n} {i j : Fin n}

theorem bits_nodup (b : Bitmap n) : (bits b).Nodup :=
  (List.nodup_finRange n).filter _

theorem toFinset_bits (b : Bitmap n) : (bits b).toFinset = b := by
  ext i
  simp

theorem length_bits (b : Bitmap n) : (bits b).length = countOnes b := by
  rw [countOnes, ← List.toFinset_card_of_nodup (bits_nodup b), toFinset_bits]

@[simp] theorem bits_ZERO : bits (ZERO : Bitmap n) = [] := by
  simp [bits, ZERO]

theorem bits_eq_nil : bits b = [] ↔ b = ZERO := by
  constructor
  · intro h
    ext i
    simp [← mem_bits (b := b), h, ZERO]
  · rintro rfl
    exact bits_ZERO

theorem bits_withoutBit (b : Bitmap n) (i : Fin n) :
    bits (withoutBit b i) = (bits b).filter fun j => decide (j ≠ i) := by
  simp only [bits, withoutBit, List.filter_filter, Finset.mem_erase,
    Bool.decide_and]

theorem bits_eq_cons {is : List (Fin n)} (h : bits b = i :: is) :
    bits (withoutBit b i) = is := by
  have hnodup := bits_nodup b
  rw [h, List.nodup_cons] at hnodup
  rw [bits_withoutBit, h, List.filter_cons_of_neg (by simp),
    List.filter_eq_self.mpr]
  intro j hj
  simp only [ne_eq, decide_not, Bool.not_eq_eq_eq_not, Bool.not_true,
    decide_eq_false_iff_not]
  rintro rfl
  exact hnodup.1 hj

theorem bits_eq_concat {is : List (Fin n)} (h : bits b = is ++ [i]) :
    bits (withoutBit b i) = is := by
  have hnodup := bits_nodup b
  rw [h, ← List.concat_eq_append, List.nodup_concat] at hnodup
  rw [bits_withoutBit, h, List.filter_append, List.filter_eq_self.mpr]
  · simp
  · intro j hj
    simp only [ne_eq, decide_not, Bool.not_eq_eq_eq_not, Bool.not_true,
      decide_eq_false_iff_not]
    rintro rfl
    exact hnodup.1 hj

/-- Two strictly ascending lists with the same members are equal. -/
theorem eq_of_pairwise_lt {xs ys : List ℕ} (hxs : xs.Pairwise (· < ·))
    (hys : ys.Pairwise (· < ·)) (h : ∀ k, k ∈ xs ↔ k ∈ ys) : xs = ys := by
  have hperm : xs.Perm ys :=
    (List.perm_ext_iff_of_nodup (hxs.imp ne_of_lt) (hys.imp ne_of_lt)).mpr h
  exact hperm.eq_of_pairwise (fun a b _ _ hab hba => absurd hab hba.asymm)
    hxs hys

theorem isLeast_of_head? (h : (bits b).head? = some i) :
    IsLeast (b : Set (Fin n)) i := by
  rw [List.head?_eq_getElem?] at h
  obtain ⟨hi, hmin⟩ := select_zero_eq_some.mp h
  exact ⟨hi, fun j hj => hmin j hj⟩

theorem isGreatest_of_getLast? (h : (bits b).getLast? = some i) :
    IsGreatest (b : Set (Fin n)) i := by
  obtain ⟨is, his⟩ := List.getLast?_eq_some_iff.mp h
  have hsorted := bits_pairwise b
  have hmem : ∀ j, j ∈ bits b ↔ j ∈ b := fun j => mem_bits
  rw [his] at hsorted hmem
  constructor
  · exact (hmem i).mp (by simp)
  · intro j hj
    rcases List.mem_append.mp ((hmem j).mpr hj) with hj' | hj'
    · exact ((List.pairwise_append.mp hsorted).2.2 j hj' i (by simp)).le
    · exact (List.mem_singleton.mp hj').le

theorem bits_toFinset {is : List (Fin n)} (h : is.Pairwise (· < ·)) :
    bits is.toFinset = is := by
  have hmem : ∀ i, i ∈ bits is.toFinset ↔ i ∈ is := fun i => by simp
  exact ((List.perm_ext_iff_of_nodup (bits_nodup _) (h.imp ne_of_lt)).mpr
    hmem).eq_of_pairwise (fun a b _ _ hab hba => absurd hab hba.asymm)
    (bits_pairwise _) h

/-- A strictly increasing image of the set positions lists them in order. -/
theorem map_bits_of_image {m : ℕ} {c : Bitmap m} {pos : Fin n → ℕ}
    (hmono : ∀ i ∈ b, ∀ j ∈ b, i < j → pos i < pos j)
    (himage : ∀ p : ℕ, (∃ q ∈ c, q.val = p) ↔ ∃ i ∈ b, pos i = p) :
    (bits c).map Fin.val = (bits b).map pos := by
  refine eq_of_pairwise_lt ?_ ?_ ?_
  · exact List.pairwise_map.mpr (bits_pairwise c)
  · refine List.pairwise_map.mpr ((bits_pairwise b).imp_of_mem ?_)
    intro i j hi hj
    exact hmono i (mem_bits.mp hi) j (mem_bits.mp hj)
  · intro p
    simpa using himage p

end Sorted

/-! ### Rank and selection -/

section Rank

variable {b : Bitmap n} {i j : Fin n}

theorem rank_mono (b : Bitmap n) (hij : i ≤ j) : rank b i ≤ rank b j := by
  refine Finset.card_le_card fun k hk => ?_
  rw [Finset.mem_filter] at hk ⊢
  exact ⟨hk.1, hk.2.trans_le hij⟩

theorem rank_lt_rank (hi : i ∈ b) (hij : i < j) : rank b i < rank b j := by
  refine Finset.card_lt_card (Finset.ssubset_iff_of_subset ?_ |>.mpr ?_)
  · intro k hk
    rw [Finset.mem_filter] at hk ⊢
    exact ⟨hk.1, hk.2.trans hij⟩
  · exact ⟨i, by simp [hi, hij], by simp⟩

theorem rank_le_countOnes (b : Bitmap n) (i : Fin n) :
    rank b i ≤ countOnes b :=
  Finset.card_le_card (Finset.filter_subset _ b)

theorem rank_lt_countOnes (hi : i ∈ b) : rank b i < countOnes b := by
  refine Finset.card_lt_card (Finset.ssubset_iff_of_subset
    (Finset.filter_subset _ b) |>.mpr ⟨i, hi, by simp⟩)

theorem lt_of_rank_lt (h : rank b i < rank b j) : i < j := by
  by_contra hij
  exact absurd (rank_mono b (not_lt.mp hij)) (by omega)

/-- In an ascending list an element is preceded by the smaller ones. -/
private theorem getElem?_length_filter_lt {xs : List (Fin n)}
    (hxs : xs.Pairwise (· < ·)) (hi : i ∈ xs) :
    xs[(xs.filter fun j => decide (j < i)).length]? = some i := by
  induction xs with
  | nil => simp at hi
  | cons x xs ih =>
      obtain ⟨hx, hxs⟩ := List.pairwise_cons.mp hxs
      rcases List.mem_cons.mp hi with rfl | hi
      · have hnone : xs.filter (fun j => decide (j < i)) = [] := by
          refine List.filter_eq_nil_iff.mpr fun j hj => ?_
          simpa using (hx j hj).le
        simp [hnone]
      · rw [List.filter_cons_of_pos (by simpa using hx i hi),
          List.length_cons, List.getElem?_cons_succ]
        exact ih hxs hi

theorem rank_eq_length_filter (b : Bitmap n) (i : Fin n) :
    rank b i = ((bits b).filter fun j => decide (j < i)).length := by
  rw [rank, ← List.toFinset_card_of_nodup ((bits_nodup b).filter _),
    List.toFinset_filter, toFinset_bits]
  congr 1
  ext j
  simp

theorem select_rank (hi : i ∈ b) : select b (rank b i) = some i := by
  rw [rank_eq_length_filter]
  exact getElem?_length_filter_lt (bits_pairwise b) (mem_bits.mpr hi)

theorem mem_of_select {k : ℕ} (h : select b k = some i) : i ∈ b :=
  mem_bits.mp (List.mem_of_getElem? h)

theorem exists_select {k : ℕ} (hk : k < countOnes b) :
    ∃ i, select b k = some i := by
  rw [← length_bits] at hk
  exact ⟨(bits b)[k], List.getElem?_eq_getElem hk⟩

theorem select_of_le {k : ℕ} (hk : countOnes b ≤ k) : select b k = none := by
  rw [← length_bits] at hk
  exact List.getElem?_eq_none hk

/-- Selecting by rank and taking the rank are inverse to each other. -/
theorem select_eq_some {k : ℕ} :
    select b k = some i ↔ i ∈ b ∧ rank b i = k := by
  constructor
  · intro h
    have hi := mem_of_select h
    refine ⟨hi, ?_⟩
    have hrank := select_rank hi
    unfold select at h hrank
    exact (List.getElem?_inj (length_bits b ▸ rank_lt_countOnes hi)
      (bits_nodup b)).mp (hrank.trans h.symm)
  · rintro ⟨hi, rfl⟩
    exact select_rank hi

/-- The set positions in order have the ranks in order. -/
theorem map_rank_bits (b : Bitmap n) :
    (bits b).map (rank b) = List.range (countOnes b) := by
  refine eq_of_pairwise_lt ?_ List.pairwise_lt_range fun k => ?_
  · exact List.pairwise_map.mpr ((bits_pairwise b).imp_of_mem
      fun hi _ hij => rank_lt_rank (mem_bits.mp hi) hij)
  · rw [List.mem_map, List.mem_range]
    constructor
    · rintro ⟨i, hi, rfl⟩
      exact rank_lt_countOnes (mem_bits.mp hi)
    · intro hk
      obtain ⟨i, hi⟩ := exists_select hk
      exact ⟨i, mem_bits.mpr (mem_of_select hi), (select_eq_some.mp hi).2⟩

theorem countOnes_withBit (hi : i ∉ b) :
    countOnes (withBit b i) = countOnes b + 1 :=
  Finset.card_insert_of_notMem hi

theorem countOnes_withoutBit (hi : i ∈ b) :
    countOnes (withoutBit b i) + 1 = countOnes b :=
  Finset.card_erase_add_one hi

theorem countOnes_le (b : Bitmap n) : countOnes b ≤ n := by
  unfold countOnes
  simpa using Finset.card_le_univ b

@[simp] theorem countOnes_ZERO : countOnes (ZERO : Bitmap n) = 0 := rfl

@[simp] theorem mem_withBit : j ∈ withBit b i ↔ j = i ∨ j ∈ b :=
  Finset.mem_insert

@[simp] theorem mem_withoutBit : j ∈ withoutBit b i ↔ j ≠ i ∧ j ∈ b :=
  Finset.mem_erase

@[simp] theorem notMem_ZERO : i ∉ (ZERO : Bitmap n) :=
  Finset.notMem_empty i

end Rank

/-! ### Clear bits -/

section Clear

variable (b : Bitmap n) (start limit : ℕ)

theorem nearestClearIn_spec (hstart : start ≤ limit) (hlimit : limit ≤ n) :
    (∃ p, nearestClearIn b start limit = .ok (some p) ∧ start ≤ p.val ∧
        p.val < limit ∧ p ∉ b ∧
        ∀ q : Fin n, start ≤ q.val → q.val < p.val → q ∈ b) ∨
      nearestClearIn b start limit = .ok none ∧
        ∀ q : Fin n, start ≤ q.val → q.val < limit → q ∈ b := by
  have hassert := debugAssert_of (And.intro hstart hlimit)
    "assertion failed: from <= limit && limit <= $width"
  cases hfind : (List.finRange n).find? fun p =>
      decide (start ≤ p.val ∧ p.val < limit ∧ p ∉ b) with
  | none =>
      refine Or.inr ⟨by
        simp only [nearestClearIn, hassert, hfind, ok_bind, pure_eq_ok], ?_⟩
      intro q hq hqlimit
      have := List.find?_eq_none.mp hfind q (List.mem_finRange q)
      simpa [hq, hqlimit] using this
  | some p =>
      obtain ⟨hp, xs, ys, hsplit, hbefore⟩ :=
        List.find?_eq_some_iff_append.mp hfind
      obtain ⟨hp, hplimit, hpb⟩ := of_decide_eq_true hp
      refine Or.inl ⟨p, by
        simp only [nearestClearIn, hassert, hfind, ok_bind, pure_eq_ok],
        hp, hplimit, hpb, ?_⟩
      intro q hq hqp
      have hsorted := List.pairwise_lt_finRange n
      rw [hsplit, List.pairwise_append, List.pairwise_cons] at hsorted
      have hmem := List.mem_finRange q
      rw [hsplit, List.mem_append, List.mem_cons] at hmem
      rcases hmem with hmem | rfl | hmem
      · have := hbefore q hmem
        simp only [Bool.not_eq_eq_eq_not, Bool.not_true,
          decide_eq_false_iff_not, not_and, not_not] at this
        exact this hq (hqp.trans hplimit)
      · exact absurd hqp (lt_irrefl _)
      · exact absurd hqp (hsorted.2.1.1 q hmem).asymm

theorem nearestClearAtOrBelow_spec (hstart : start < n) :
    (∃ p, nearestClearAtOrBelow b start = .ok (some p) ∧ p.val ≤ start ∧
        p ∉ b ∧ ∀ q : Fin n, p.val < q.val → q.val ≤ start → q ∈ b) ∨
      nearestClearAtOrBelow b start = .ok none ∧
        ∀ q : Fin n, q.val ≤ start → q ∈ b := by
  have hassert := debugAssert_of hstart "assertion failed: from < $width"
  cases hlast : ((List.finRange n).filter fun p =>
      decide (p.val ≤ start ∧ p ∉ b)).getLast? with
  | none =>
      refine Or.inr ⟨by
        simp only [nearestClearAtOrBelow, hassert, hlast, ok_bind, pure_eq_ok], ?_⟩
      intro q hq
      have := List.filter_eq_nil_iff.mp (List.getLast?_eq_none_iff.mp hlast) q
        (List.mem_finRange q)
      simpa [hq] using this
  | some p =>
      obtain ⟨xs, hxs⟩ := List.getLast?_eq_some_iff.mp hlast
      have hmem : ∀ q, q ∈ xs ++ [p] ↔ q.val ≤ start ∧ q ∉ b := by
        intro q
        rw [← hxs]
        simp
      obtain ⟨hp, hpb⟩ := (hmem p).mp (by simp)
      refine Or.inl ⟨p, by
        simp only [nearestClearAtOrBelow, hassert, hlast, ok_bind, pure_eq_ok],
        hp, hpb, ?_⟩
      intro q hpq hq
      by_contra hqb
      have hsorted := (List.pairwise_lt_finRange n).filter fun p =>
        decide (p.val ≤ start ∧ p ∉ b)
      rw [hxs, List.pairwise_append] at hsorted
      rcases List.mem_append.mp ((hmem q).mpr ⟨hq, hqb⟩) with hqxs | hqp
      · exact absurd hpq (hsorted.2.2 q hqxs p (by simp)).asymm
      · obtain rfl := List.mem_singleton.mp hqp
        exact absurd hpq (lt_irrefl _)

end Clear

end ArityTries.Bitmap

namespace ArityArrays

open ArityTries Checked

/-! ## The set-bit iterator -/

/-- The positions not yet yielded. -/
structure BitIter (n : ℕ) where
  remaining : Bitmap n

namespace BitIter

variable {n : ℕ}

def next (it : BitIter n) : Option (Fin n) × BitIter n :=
  match (Bitmap.bits it.remaining).head? with
  | none => (none, it)
  | some i => (some i, ⟨Bitmap.withoutBit it.remaining i⟩)

def nextBack (it : BitIter n) : Option (Fin n) × BitIter n :=
  match (Bitmap.bits it.remaining).getLast? with
  | none => (none, it)
  | some i => (some i, ⟨Bitmap.withoutBit it.remaining i⟩)

def len (it : BitIter n) : Checked ℕ :=
  .ok (Bitmap.countOnes it.remaining)

theorem next_fst (it : BitIter n) :
    it.next.1 = Bitmap.select it.remaining 0 := by
  rw [Bitmap.select, ← List.head?_eq_getElem?]
  unfold next
  split
  · next h => exact h.symm
  · next h => exact h.symm

private theorem size_of_some {b : Bitmap n} {i : Fin n} (hi : i ∈ Bitmap.bits b) :
    Bitmap.countOnes (Bitmap.withoutBit b i) + 1 ≤ Bitmap.countOnes b :=
  (Bitmap.countOnes_withoutBit (Bitmap.mem_bits.mp hi)).le

/-- The iterator over the set positions. -/
def iterator : DoubleEnded (BitIter n) (Fin n) where
  pull
    | .front, it => .ok it.next
    | .back, it => .ok it.nextBack
  size it := Bitmap.countOnes it.remaining
  size_pull := by
    intro e it o it' h
    cases e with
    | front =>
        cases hhead : (Bitmap.bits it.remaining).head? with
        | none =>
            simp only [next, hhead] at h
            cases h
            exact le_rfl
        | some i =>
            simp only [next, hhead] at h
            cases h
            exact size_of_some (List.mem_of_mem_head? hhead)
    | back =>
        cases hlast : (Bitmap.bits it.remaining).getLast? with
        | none =>
            simp only [nextBack, hlast] at h
            cases h
            exact le_rfl
        | some i =>
            simp only [nextBack, hlast] at h
            cases h
            exact size_of_some (List.mem_of_mem_getLast? hlast)

/-- The positions an iterator has left. -/
def Left (it : BitIter n) (is : List (Fin n)) : Prop :=
  Bitmap.bits it.remaining = is

theorem refines : (iterator (n := n)).Refines Left where
  nil := by
    intro e it h
    unfold Left at h
    refine ⟨it, ?_, h⟩
    cases e <;> simp [iterator, next, nextBack, h]
  front := by
    intro it i is h
    unfold Left at h
    exact ⟨⟨Bitmap.withoutBit it.remaining i⟩, by simp [iterator, next, h],
      Bitmap.bits_eq_cons h⟩
  back := by
    intro it is i h
    unfold Left at h
    exact ⟨⟨Bitmap.withoutBit it.remaining i⟩, by simp [iterator, nextBack, h],
      Bitmap.bits_eq_concat h⟩

theorem len_of_left {it : BitIter n} {is : List (Fin n)} (h : it.Left is) :
    it.len = .ok is.length := by
  unfold Left at h
  rw [len, ← h, Bitmap.length_bits]

end BitIter

end ArityArrays
