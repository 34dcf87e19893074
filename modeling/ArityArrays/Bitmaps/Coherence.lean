import ArityArrays.Bitmaps.U256

/-!
# Ranks, selection and scans agree

Every backing computes ranks, selects, scans and finds clear bits as the set
of its positions would, which is how the arrays use it.
-/

namespace ArityBitmaps

open Checked ArityArrays ArityTries Words

namespace Raw

variable {w : ℕ}

/-- Ranks, selection and scans of a bitmap agree with the set it denotes. -/
structure Coherent (R : Raw w) : Prop where
  test : ∀ x i, R.test x i = .ok (decide (i ∈ R.view x))
  countOnes : ∀ x, R.countOnes x = (R.view x).card
  rank : ∀ x i, R.rank x i = .ok ((R.view x).filter (· < i)).card
  select : ∀ x k, k < R.countOnes x → ∃ i ∈ R.view x,
    R.select x k = .ok (some i) ∧ ((R.view x).filter (· < i)).card = k
  select_none : ∀ x k, R.countOnes x ≤ k → R.select x k = .ok none
  select_rank : ∀ x, ∀ i ∈ R.view x,
    ∃ k, R.rank x i = .ok k ∧ R.select x k = .ok (some i)
  rank_select : ∀ x k i, R.select x k = .ok (some i) → R.rank x i = .ok k
  iter : ∀ x, ∃ is : List (Fin w), is.Pairwise (· < ·) ∧
    (∀ i, i ∈ is ↔ i ∈ R.view x) ∧
    (BitIter.iterator R).ActsAs BitIter.len
      (fun _ e f init it => BitIter.foldFrom e f init it) ⟨x⟩ is

/-- The searches for clear bits find the nearest position outside the set. -/
structure FindsClear (R : Raw w) : Prop where
  atOrBelow : ∀ x start, start < w →
    (∃ p, R.nearestClearAtOrBelow x start = .ok (some p) ∧
      IsGreatest {q : Fin w | q.val ≤ start ∧ q ∉ R.view x} p) ∨
    R.nearestClearAtOrBelow x start = .ok none ∧
      ∀ q : Fin w, q.val ≤ start → q ∈ R.view x
  within : ∀ x start limit, start ≤ limit → limit ≤ w →
    (∃ p, R.nearestClearIn x start limit = .ok (some p) ∧
      IsLeast {q : Fin w | start ≤ q.val ∧ q.val < limit ∧ q ∉ R.view x}
        p) ∨
    R.nearestClearIn x start limit = .ok none ∧
      ∀ q : Fin w, start ≤ q.val → q.val < limit → q ∈ R.view x

theorem coherent (R : Raw w) : R.Coherent where
  test := R.contract.test
  countOnes := R.contract.countOnes
  rank := R.contract.rank
  select := by
    intro x k hk
    rw [R.contract.countOnes] at hk
    obtain ⟨i, hi⟩ := Bitmap.exists_select hk
    obtain ⟨hmem, hrank⟩ := Bitmap.select_eq_some.mp hi
    refine ⟨i, hmem, ?_, hrank⟩
    rw [R.select_eq, hi]
  select_none := by
    intro x k hk
    rw [R.contract.countOnes] at hk
    rw [R.select_eq, Bitmap.select_of_le hk]
  select_rank := by
    intro x i hi
    refine ⟨_, R.contract.rank x i, ?_⟩
    rw [R.select_eq, Bitmap.select_rank hi]
  rank_select := by
    intro x k i hi
    rw [R.select_eq] at hi
    obtain ⟨-, hrank⟩ := Bitmap.select_eq_some.mp (Except.ok.inj hi)
    rw [R.contract.rank, hrank]
  iter := by
    intro x
    exact ⟨Bitmap.bits (R.view x), Bitmap.bits_pairwise _,
      fun i => Bitmap.mem_bits, BitIter.actsAs x⟩

theorem findsClear (R : Raw w) : R.FindsClear where
  atOrBelow x _ hstart := R.nearestClearAtOrBelow_spec x hstart
  within x _ _ hstart hlimit := R.nearestClearIn_spec x hstart hlimit

end Raw

/-- Over native words of every power-of-two width and over 256-bit integers,
ranks, selection and scans agree with the set of the positions of set bits. -/
theorem rank_select_scan_coherent :
    (∀ W : Width,
      (∀ (x : BitVec W.width) (i : Fin W.width),
        i ∈ (native W).view x ↔ x.getLsbD i = true) ∧
      (native W).Coherent) ∧
    ∀ E : Ethnum,
      (∀ (x : E.U256) (i : Fin 256),
        i ∈ (u256 E).view x ↔ (E.bits x).getLsbD i = true) ∧
      (u256 E).Coherent := by
  constructor
  · intro W
    exact ⟨fun x i => mem_members, (native W).coherent⟩
  · intro E
    exact ⟨fun x i => Ethnum.mem_positions, (u256 E).coherent⟩

/-- Over the same bitmaps, the searches for clear bits find the nearest clear
position in range, and nothing exactly if the range is fully set. -/
theorem nearest_clear_exact :
    (∀ W : Width,
      (∀ (x : BitVec W.width) (i : Fin W.width),
        i ∈ (native W).view x ↔ x.getLsbD i = true) ∧
      (native W).FindsClear) ∧
    ∀ E : Ethnum,
      (∀ (x : E.U256) (i : Fin 256),
        i ∈ (u256 E).view x ↔ (E.bits x).getLsbD i = true) ∧
      (u256 E).FindsClear := by
  constructor
  · intro W
    exact ⟨fun x i => mem_members, (native W).findsClear⟩
  · intro E
    exact ⟨fun x i => Ethnum.mem_positions, (u256 E).findsClear⟩

/-! ## The bitmaps of arrays -/

/-- The bitmap of an arity. -/
def ofArity (E : Ethnum) : (A : Arity) → Raw A.LEN
  | .arity8 => u8
  | .arity16 => u16
  | .arity32 => u32
  | .arity64 => u64
  | .arity128 => u128
  | .arity256 => u256 E

namespace Raw

variable {w : ℕ} (R : Raw w) (x : R.Word)

/-- In range, the searches are those of the set the word denotes. -/
theorem nearestClearAtOrBelow_eq {start : ℕ} (hstart : start < w) :
    R.nearestClearAtOrBelow x start =
      Bitmap.nearestClearAtOrBelow (R.view x) start := by
  rcases R.nearestClearAtOrBelow_spec x hstart with
    ⟨p, hp, ⟨hle, hclear⟩, hgreatest⟩ | ⟨hnone, hall⟩
  · rcases Bitmap.nearestClearAtOrBelow_spec (R.view x) start hstart with
      ⟨q, hq, hqle, hqclear, hqall⟩ | ⟨-, hqall⟩
    · have hqp := hgreatest ⟨hqle, hqclear⟩
      rcases hqp.lt_or_eq with hlt | rfl
      · exact absurd (hqall p hlt hle) hclear
      · rw [hp, hq]
    · exact absurd (hqall p hle) hclear
  · rcases Bitmap.nearestClearAtOrBelow_spec (R.view x) start hstart with
      ⟨q, -, hqle, hqclear, -⟩ | ⟨hq, -⟩
    · exact absurd (hall q hqle) hqclear
    · rw [hnone, hq]

theorem nearestClearIn_eq {start limit : ℕ} (hstart : start ≤ limit)
    (hlimit : limit ≤ w) :
    R.nearestClearIn x start limit =
      Bitmap.nearestClearIn (R.view x) start limit := by
  rcases R.nearestClearIn_spec x hstart hlimit with
    ⟨p, hp, ⟨hge, hlt, hclear⟩, hleast⟩ | ⟨hnone, hall⟩
  · rcases Bitmap.nearestClearIn_spec (R.view x) start limit hstart hlimit
      with ⟨q, hq, hqge, hqlt, hqclear, hqall⟩ | ⟨-, hqall⟩
    · have hpq := hleast ⟨hqge, hqlt, hqclear⟩
      rcases hpq.lt_or_eq with hlt' | rfl
      · exact absurd (hqall p hge hlt') hclear
      · rw [hp, hq]
    · exact absurd (hqall p hge hlt) hclear
  · rcases Bitmap.nearestClearIn_spec (R.view x) start limit hstart hlimit
      with ⟨q, -, hqge, hqlt, hqclear, -⟩ | ⟨hq, -⟩
    · exact absurd (hall q hqge hqlt) hqclear
    · rw [hnone, hq]

end Raw

/-- The words behind the bitmaps of an arity compute what the sets of indices
do that stand for them in the arrays. -/
theorem ofArity_refines (E : Ethnum) (A : Arity) (x : (ofArity E A).Word) :
    let b := (ofArity E A).view x
    (∀ i, (ofArity E A).test x i = .ok (Bitmap.test b i)) ∧
    (∀ i, (ofArity E A).rank x i = .ok (Bitmap.rank b i)) ∧
    (∀ k, (ofArity E A).select x k = .ok (Bitmap.select b k)) ∧
    (∀ start, start < A.LEN →
      (ofArity E A).nearestClearAtOrBelow x start =
        Bitmap.nearestClearAtOrBelow b start) ∧
    (∀ start limit, start ≤ limit → limit ≤ A.LEN →
      (ofArity E A).nearestClearIn x start limit =
        Bitmap.nearestClearIn b start limit) ∧
    ∀ (e : End) (it : Raw.BitIter (ofArity E A)), ∃ o it',
      it.pull e = .ok (o, it') ∧
        ArityArrays.BitIter.iterator.pull e it.view = .ok (o, it'.view) := by
  intro b
  refine ⟨(ofArity E A).contract.test x, (ofArity E A).contract.rank x,
    (ofArity E A).select_eq x, ?_, ?_, Raw.BitIter.pull_view⟩
  · intro start hstart
    exact (ofArity E A).nearestClearAtOrBelow_eq x hstart
  · intro start limit hstart hlimit
    exact (ofArity E A).nearestClearIn_eq x hstart hlimit

end ArityBitmaps
