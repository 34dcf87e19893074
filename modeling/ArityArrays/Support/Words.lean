import Mathlib.Algebra.Ring.Nat
import Mathlib.Data.Fintype.Sets
import Mathlib.Data.Nat.Count
import Mathlib.Order.Bounds.Basic

/-!
# Machine words as sets of positions

A word denotes the set of the positions of its set bits.  The bitwise
operations are the operations of sets, the counts of leading and of trailing
zeros find the greatest and the least member, and the population count of a
masked word counts the members below a bound.

Nothing here refers to a particular program.
-/

namespace Words

variable {w : ℕ} {x y : BitVec w}

/-- The positions of the set bits. -/
def members (x : BitVec w) : Finset (Fin w) :=
  Finset.univ.filter fun i => x.getLsbD i = true

@[simp] theorem mem_members {i : Fin w} :
    i ∈ members x ↔ x.getLsbD i = true := by
  simp [members]

theorem members_injective : Function.Injective (members (w := w)) := by
  intro x y h
  apply BitVec.eq_of_getLsbD_eq
  intro i hi
  have hmem := Finset.ext_iff.mp h ⟨i, hi⟩
  rw [mem_members, mem_members] at hmem
  exact Bool.eq_iff_iff.mpr hmem

@[simp] theorem members_zero : members (0#w) = ∅ := by
  ext i
  simp

theorem members_eq_empty : members x = ∅ ↔ x = 0#w := by
  rw [← members_zero]
  exact members_injective.eq_iff

@[simp] theorem members_and (x y : BitVec w) :
    members (x &&& y) = members x ∩ members y := by
  ext i
  simp

@[simp] theorem members_or (x y : BitVec w) :
    members (x ||| y) = members x ∪ members y := by
  ext i
  simp

@[simp] theorem members_not (x : BitVec w) :
    members (~~~x) = (members x)ᶜ := by
  ext i
  simp

@[simp] theorem members_single (i : Fin w) :
    members (1#w <<< i.val) = {i} := by
  ext j
  have hi := i.isLt
  have hj := j.isLt
  rw [mem_members, Finset.mem_singleton, BitVec.getLsbD_shiftLeft,
    BitVec.getLsbD_one, Fin.ext_iff]
  simp only [hj, decide_true, Bool.true_and, Bool.and_eq_true,
    Bool.not_eq_true', decide_eq_false_iff_not, decide_eq_true_eq]
  omega

/-! ## The words below a bound -/

theorem toNat_one_shiftLeft {k : ℕ} (hk : k < w) :
    (1#w <<< k).toNat = 2 ^ k := by
  have hlt : 2 ^ k < 2 ^ w := Nat.pow_lt_pow_right (by omega) hk
  have hone : 1 < 2 ^ w := Nat.one_lt_two_pow (by omega)
  rw [BitVec.toNat_shiftLeft, BitVec.toNat_ofNat, Nat.mod_eq_of_lt hone,
    Nat.one_shiftLeft, Nat.mod_eq_of_lt hlt]

theorem one_le_one_shiftLeft {k : ℕ} (hk : k < w) :
    1#w ≤ 1#w <<< k := by
  have hone : 1 < 2 ^ w := Nat.one_lt_two_pow (by omega)
  rw [BitVec.le_def, toNat_one_shiftLeft hk, BitVec.toNat_ofNat,
    Nat.mod_eq_of_lt hone]
  exact Nat.one_le_two_pow

/-- One less than a power of two has the bits below its exponent. -/
theorem getLsbD_lowMask {k : ℕ} (hk : k < w) (i : ℕ) :
    (1#w <<< k - 1#w).getLsbD i = decide (i < k) := by
  have hone : 1 < 2 ^ w := Nat.one_lt_two_pow (by omega)
  have htoNat : (1#w <<< k - 1#w).toNat = 2 ^ k - 1 := by
    rw [BitVec.toNat_sub_of_le (one_le_one_shiftLeft hk),
      toNat_one_shiftLeft hk, BitVec.toNat_ofNat, Nat.mod_eq_of_lt hone]
  rw [BitVec.getLsbD, htoNat, Nat.testBit_two_pow_sub_one]

theorem mem_lowMask {k : ℕ} (hk : k < w) (i : Fin w) :
    i ∈ members (1#w <<< k - 1#w) ↔ i.val < k := by
  rw [mem_members, getLsbD_lowMask hk, decide_eq_true_eq]

/-! ## Counting -/

/-- The number of set bits below `k`. -/
def countBelow (x : BitVec w) (k : ℕ) : ℕ :=
  Nat.count (fun i => x.getLsbD i = true) k

@[simp] theorem countBelow_zero (x : BitVec w) : countBelow x 0 = 0 := rfl

theorem countBelow_eq_card (x : BitVec w) {k : ℕ} (hk : k ≤ w) :
    countBelow x k = ((members x).filter fun i => i.val < k).card := by
  rw [countBelow, Nat.count_eq_card_filter_range]
  refine (Finset.card_bij (fun i _ => i.val) ?_ ?_ ?_).symm
  · intro i hi
    rw [Finset.mem_filter, mem_members] at hi
    rw [Finset.mem_filter, Finset.mem_range]
    exact ⟨hi.2, hi.1⟩
  · intro i _ j _ hij
    exact Fin.ext hij
  · intro i hi
    rw [Finset.mem_filter, Finset.mem_range] at hi
    refine ⟨⟨i, by omega⟩, ?_, rfl⟩
    rw [Finset.mem_filter, mem_members]
    exact ⟨hi.2, hi.1⟩

theorem countBelow_width (x : BitVec w) :
    countBelow x w = (members x).card := by
  rw [countBelow_eq_card x le_rfl, Finset.filter_true_of_mem]
  intro i _
  exact i.isLt

theorem cpopNatRec_eq (x : BitVec w) (k : ℕ) :
    x.cpopNatRec k 0 = countBelow x k := by
  induction k with
  | zero => rfl
  | succ k ih =>
      rw [BitVec.cpopNatRec_succ, BitVec.cpopNatRec_add, ih, countBelow,
        countBelow, Nat.count_succ]
      rcases x.getLsbD k <;> rfl

/-- The population count is the number of members. -/
theorem toNat_cpop (x : BitVec w) : x.cpop.toNat = (members x).card := by
  rw [BitVec.toNat_cpop, cpopNatRec_eq, countBelow_width]

/-- Masking the low bits of a shifted word counts the members of a range. -/
theorem countBelow_range (x : BitVec w) (p : ℕ) {k : ℕ} (hk : k < w) :
    countBelow x p + (((x >>> p) &&& (1#w <<< k - 1#w)).cpop).toNat =
      countBelow x (p + k) := by
  have hmasked : ∀ i, ((x >>> p) &&& (1#w <<< k - 1#w)).getLsbD i = true ↔
      x.getLsbD (p + i) = true ∧ i < k := by
    intro i
    rw [BitVec.getLsbD_and, getLsbD_lowMask hk, BitVec.getLsbD_ushiftRight]
    simp
  have hcount : countBelow ((x >>> p) &&& (1#w <<< k - 1#w)) w =
      Nat.count (fun i => x.getLsbD (p + i) = true) k := by
    rw [countBelow, Nat.count_eq_card_filter_range,
      Nat.count_eq_card_filter_range]
    congr 1
    ext i
    rw [Finset.mem_filter, Finset.mem_filter, Finset.mem_range,
      Finset.mem_range, hmasked]
    constructor
    · rintro ⟨-, hi, hik⟩
      exact ⟨hik, hi⟩
    · rintro ⟨hik, hi⟩
      exact ⟨by omega, hi, hik⟩
  rw [BitVec.toNat_cpop, cpopNatRec_eq, hcount, countBelow, countBelow,
    Nat.count_add]

/-- A bound at which the count steps up is a member. -/
theorem getLsbD_of_countBelow_lt {p : ℕ}
    (h : countBelow x p < countBelow x (p + 1)) : x.getLsbD p = true := by
  rw [countBelow, countBelow, Nat.count_succ] at h
  by_contra hp
  rw [if_neg hp] at h
  omega

/-! ## Extremes -/

/-- The trailing zeros count up to the least member. -/
theorem ctz_isLeast (hx : x ≠ 0#w) :
    ∃ p : Fin w, x.ctz.toNat = p.val ∧ IsLeast (members x : Set (Fin w)) p := by
  have hset := BitVec.getLsbD_true_ctz_of_ne_zero hx
  refine ⟨⟨x.ctz.toNat, BitVec.lt_of_getLsbD hset⟩, rfl, ?_, ?_⟩
  · rw [Finset.mem_coe, mem_members]
    exact hset
  · intro q hq
    rw [Finset.mem_coe, mem_members] at hq
    rw [Fin.le_def]
    by_contra hlt
    rw [BitVec.getLsbD_false_of_lt_ctz (not_le.mp hlt)] at hq
    cases hq

theorem isGreatest_of_toNat_lt {p : Fin w} (hp : x.getLsbD p = true)
    (hlt : x.toNat < 2 ^ (p.val + 1)) :
    IsGreatest (members x : Set (Fin w)) p := by
  constructor
  · rw [Finset.mem_coe, mem_members]
    exact hp
  · intro q hq
    rw [Finset.mem_coe, mem_members] at hq
    have hge : 2 ^ q.val ≤ x.toNat := Nat.ge_two_pow_of_testBit hq
    have hpow := (Nat.pow_lt_pow_iff_right (by omega)).mp (hge.trans_lt hlt)
    rw [Fin.le_def]
    omega

/-- The leading zeros end at the greatest member. -/
theorem clz_isGreatest (hx : x ≠ 0#w) :
    ∃ p : Fin w, x.clz.toNat + p.val = w - 1 ∧
      IsGreatest (members x : Set (Fin w)) p := by
  have hw : 0 < w := by
    rcases w with _ | w
    · exact absurd BitVec.of_length_zero hx
    · omega
  have hset := BitVec.getLsbD_true_clz_of_ne_zero hw hx
  have hlt := BitVec.toNat_lt_two_pow_sub_clz (x := x)
  have hclz : x.clz.toNat < w := by
    have h := BitVec.clz_lt_iff_ne_zero.mpr hx
    rw [BitVec.lt_def] at h
    simpa using h
  refine ⟨⟨w - 1 - x.clz.toNat, by omega⟩, ?_, ?_⟩
  · dsimp only
    omega
  · apply isGreatest_of_toNat_lt hset
    have hexp : w - 1 - x.clz.toNat + 1 = w - x.clz.toNat := by omega
    rw [hexp]
    exact hlt

/-- The binary logarithm is the greatest member. -/
theorem log2_isGreatest (hx : x ≠ 0#w) :
    ∃ p : Fin w, x.toNat.log2 = p.val ∧
      IsGreatest (members x : Set (Fin w)) p := by
  have hne : x.toNat ≠ 0 := by
    intro hzero
    exact hx (BitVec.eq_of_toNat_eq (by simpa using hzero))
  have hset : x.getLsbD x.toNat.log2 = true := Nat.testBit_log2 hne
  refine ⟨⟨x.toNat.log2, BitVec.lt_of_getLsbD hset⟩, rfl, ?_⟩
  exact isGreatest_of_toNat_lt hset Nat.lt_log2_self

theorem ne_zero_of_mem {p : Fin w} (hp : p ∈ members x) : x ≠ 0#w := by
  rintro rfl
  simp at hp

theorem one_le_of_mem {p : Fin w} (hp : p ∈ members x) : 1#w ≤ x := by
  rw [mem_members] at hp
  have hge : 2 ^ p.val ≤ x.toNat := Nat.ge_two_pow_of_testBit hp
  rw [BitVec.le_def, BitVec.toNat_ofNat]
  exact (Nat.mod_le 1 _).trans (Nat.one_le_two_pow.trans hge)

theorem shiftRight_and_one {i : Fin w} :
    (x >>> i.val) &&& 1#w = 0#w ↔ ¬x.getLsbD i = true := by
  have hone : members (1#w) = {(⟨0, by have := i.isLt; omega⟩ : Fin w)} := by
    have hsingle := members_single (⟨0, by have := i.isLt; omega⟩ : Fin w)
    rwa [BitVec.shiftLeft_zero] at hsingle
  rw [← members_eq_empty, members_and, hone, Finset.inter_singleton]
  have hbit : (⟨0, by have := i.isLt; omega⟩ : Fin w) ∈ members (x >>> i.val) ↔
      x.getLsbD i = true := by
    rw [mem_members, BitVec.getLsbD_ushiftRight, Nat.add_zero]
  by_cases hi : x.getLsbD i = true
  · rw [if_pos (hbit.mpr hi)]
    simp [hi]
  · rw [if_neg (mt hbit.mp hi)]
    exact iff_of_true rfl hi

theorem ctz_eq {p : Fin w} (hp : IsLeast (members x : Set (Fin w)) p) :
    x.ctz.toNat = p.val := by
  obtain ⟨q, hctz, hq⟩ := ctz_isLeast (ne_zero_of_mem hp.1)
  rw [hctz, hq.unique hp]

theorem clz_add_eq {p : Fin w}
    (hp : IsGreatest (members x : Set (Fin w)) p) :
    x.clz.toNat + p.val = w - 1 := by
  obtain ⟨q, hclz, hq⟩ := clz_isGreatest (ne_zero_of_mem hp.1)
  rw [← hclz, hq.unique hp]

theorem log2_eq {p : Fin w}
    (hp : IsGreatest (members x : Set (Fin w)) p) :
    x.toNat.log2 = p.val := by
  obtain ⟨q, hlog, hq⟩ := log2_isGreatest (ne_zero_of_mem hp.1)
  rw [hlog, hq.unique hp]

/-- Subtracting one from an odd multiple of a power of two keeps the bits
above that power. -/
theorem testBit_sub_one {k a : ℕ} (ha : a % 2 = 1) {i : ℕ} (hki : k ≤ i) :
    (2 ^ k * a - 1).testBit i = ((2 ^ k * a).testBit i && decide (k ≠ i)) := by
  have hpow : 0 < 2 ^ k := Nat.two_pow_pos k
  obtain ⟨q, rfl⟩ : ∃ q, a = 2 * q + 1 := ⟨a / 2, by omega⟩
  have hsub : 2 ^ k * (2 * q + 1) - 1 = 2 ^ k * (2 * q) + (2 ^ k - 1) := by
    rw [Nat.mul_add, Nat.mul_one]
    omega
  have hsplit : 2 ^ k * (2 * q + 1) = 2 ^ k * (2 * q + 1) + 0 := rfl
  rw [hsub, hsplit, Nat.testBit_two_pow_mul_add _ (by omega),
    Nat.testBit_two_pow_mul_add _ hpow, if_neg (by omega), if_neg (by omega)]
  by_cases hi : k = i
  · subst hi
    simp
  · obtain ⟨m, hm⟩ : ∃ m, i - k = m + 1 := ⟨i - k - 1, by omega⟩
    have hhalf : (2 * q + 1) / 2 = 2 * q / 2 := by omega
    rw [hm, Nat.testBit_succ, Nat.testBit_succ, hhalf]
    simp [hi]

/-- Subtracting one and masking clears the least member. -/
theorem members_and_sub_one {p : Fin w}
    (hp : IsLeast (members x : Set (Fin w)) p) :
    members (x &&& (x - 1#w)) = (members x).erase p := by
  obtain ⟨hmem, hleast⟩ := hp
  rw [Finset.mem_coe, mem_members] at hmem
  have hbelow : ∀ i : Fin w, x.getLsbD i = true → p.val ≤ i.val := by
    intro i hi
    exact hleast (Finset.mem_coe.mpr (mem_members.mpr hi))
  have hmod : x.toNat % 2 ^ p.val = 0 := by
    apply Nat.eq_of_testBit_eq
    intro i
    rw [Nat.testBit_mod_two_pow, Nat.zero_testBit]
    by_contra hi
    rw [Bool.not_eq_false, Bool.and_eq_true, decide_eq_true_eq] at hi
    have hle := hbelow ⟨i, by have := p.isLt; omega⟩ hi.2
    exact absurd hi.1 (not_lt.mpr hle)
  have hfactor : 2 ^ p.val * (x.toNat / 2 ^ p.val) = x.toNat :=
    Nat.mul_div_cancel' (Nat.dvd_of_mod_eq_zero hmod)
  have hodd : x.toNat / 2 ^ p.val % 2 = 1 := by
    have hbit : (x.toNat / 2 ^ p.val).testBit 0 = true := by
      rw [Nat.testBit_div_two_pow, Nat.zero_add]
      exact hmem
    rwa [Nat.testBit_zero, decide_eq_true_eq] at hbit
  have hone : 1#w ≤ x := one_le_of_mem (mem_members.mpr hmem)
  have hsub : (x - 1#w).toNat = x.toNat - 1 := by
    have hw : 1 < 2 ^ w := Nat.one_lt_two_pow (by have := p.isLt; omega)
    rw [BitVec.toNat_sub_of_le hone, BitVec.toNat_ofNat, Nat.mod_eq_of_lt hw]
  ext i
  rw [mem_members, BitVec.getLsbD_and, Finset.mem_erase, mem_members,
    Bool.and_eq_true, Fin.ne_iff_vne]
  by_cases hi : p.val ≤ i.val
  · have hbit : (x - 1#w).getLsbD i =
        (x.getLsbD i && decide (p.val ≠ i.val)) := by
      rw [BitVec.getLsbD, BitVec.getLsbD, hsub, ← hfactor,
        testBit_sub_one hodd hi]
    rw [hbit, Bool.and_eq_true, decide_eq_true_eq]
    constructor
    · rintro ⟨-, hxi, hne⟩
      exact ⟨hne.symm, hxi⟩
    · rintro ⟨hne, hxi⟩
      exact ⟨hxi, hxi, hne.symm⟩
  · constructor
    · rintro ⟨hxi, -⟩
      exact absurd (hbelow i hxi) hi
    · rintro ⟨-, hxi⟩
      exact absurd (hbelow i hxi) hi

end Words
