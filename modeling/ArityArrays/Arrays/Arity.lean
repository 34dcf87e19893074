import Mathlib.Algebra.Ring.Nat
import Mathlib.Data.Nat.Basic
import Mathlib.Order.Basic
import ArityArrays.Support.Checked

/-!
# Arities and machine words

An arity fixes the number of logical slots of an array and the index type that
addresses them.  Word arithmetic is on natural numbers below `2 ^ 64`, and
leaving that range is a failure.
-/

namespace ArityArrays

open Checked

/-! ## Machine words -/

/-- The largest `usize`. -/
def usizeMax : ℕ := 2 ^ 64 - 1

/-- `a - b`. -/
def usizeSub (a b : ℕ) : Checked ℕ :=
  if b ≤ a then .ok (a - b) else .error ⟨"attempt to subtract with overflow"⟩

/-- `a * b`. -/
def usizeMul (a b : ℕ) : Checked ℕ :=
  if a * b ≤ usizeMax then .ok (a * b)
  else .error ⟨"attempt to multiply with overflow"⟩

def saturatingAdd (a b : ℕ) : ℕ := min (a + b) usizeMax

/-- The least power of two which is at least `n`. -/
def nextPowerOfTwo (n : ℕ) : Checked ℕ :=
  let p := if n ≤ 1 then 1 else 2 ^ (Nat.log2 (n - 1) + 1)
  if p ≤ usizeMax then .ok p else .error ⟨"attempt to add with overflow"⟩

def u32TryFrom (k : ℕ) : Option ℕ := if k < 2 ^ 32 then some k else none

def debugAssert (p : Prop) [Decidable p] (message : String) : Checked Unit :=
  if p then .ok () else .error ⟨message⟩

theorem usizeSub_of_le {a b : ℕ} (h : b ≤ a) : usizeSub a b = .ok (a - b) := by
  simp [usizeSub, h]

theorem usizeMul_of_le {a b : ℕ} (h : a * b ≤ usizeMax) :
    usizeMul a b = .ok (a * b) := by
  simp [usizeMul, h]

theorem u32TryFrom_of_lt {k : ℕ} (h : k < 2 ^ 32) :
    u32TryFrom k = some k :=
  if_pos h

theorem debugAssert_of {p : Prop} [Decidable p] (h : p) (message : String) :
    debugAssert p message = .ok () := by
  simp [debugAssert, h]

theorem le_two_pow_log2_succ (n : ℕ) : n ≤ 2 ^ (Nat.log2 (n - 1) + 1) := by
  have := Nat.lt_log2_self (n := n - 1)
  omega

/-! ## Arities -/

/-- The supported arities. -/
inductive Arity where
  | arity8
  | arity16
  | arity32
  | arity64
  | arity128
  | arity256
  deriving DecidableEq, Repr

namespace Arity

/-- The number of slots. -/
def LEN : Arity → ℕ
  | arity8 => 8
  | arity16 => 16
  | arity32 => 32
  | arity64 => 64
  | arity128 => 128
  | arity256 => 256

/-- The indices of an array, and the physical slots of a block. -/
abbrev Index (A : Arity) := Fin A.LEN

theorem LEN_eq_two_pow (A : Arity) : ∃ k, 3 ≤ k ∧ k ≤ 8 ∧ A.LEN = 2 ^ k := by
  cases A with
  | arity8 => exact ⟨3, by decide⟩
  | arity16 => exact ⟨4, by decide⟩
  | arity32 => exact ⟨5, by decide⟩
  | arity64 => exact ⟨6, by decide⟩
  | arity128 => exact ⟨7, by decide⟩
  | arity256 => exact ⟨8, by decide⟩

theorem LEN_pos (A : Arity) : 0 < A.LEN := by
  cases A <;> decide

theorem LEN_le (A : Arity) : A.LEN ≤ 256 := by
  cases A <;> decide

theorem eight_dvd_LEN (A : Arity) : 8 ∣ A.LEN := by
  cases A <;> decide

instance (A : Arity) : NeZero A.LEN := ⟨A.LEN_pos.ne'⟩

end Arity

/-- The index with position `p`, if there is one. -/
def tryFromUsize {n : ℕ} (p : ℕ) : Option (Fin n) :=
  if h : p < n then some ⟨p, h⟩ else none

theorem tryFromUsize_of_lt {n p : ℕ} (h : p < n) :
    (tryFromUsize p : Option (Fin n)) = some ⟨p, h⟩ := by
  simp [tryFromUsize, h]

/-! ## Capacities -/

/-- The smallest power-of-two capacity that holds `n` elements, capped at the
arity; `0` for `n = 0`. -/
def pow2CapFor (A : Arity) (n : ℕ) : Checked ℕ :=
  if n = 0 then .ok 0
  else if A.LEN ≤ n then .ok A.LEN
  else nextPowerOfTwo n

/-- The exponent of a power-of-two capacity; its number of trailing zeros is
its logarithm. -/
def capExpOf (cap : ℕ) : Checked ℕ := do
  debugAssert (cap = 2 ^ cap.log2) "assertion failed: cap.is_power_of_two()"
  return cap.log2

/-- The slot of the rank-`r` element when `count` elements are spread over
`cap` slots. -/
def spreadPos (r count cap : ℕ) : Checked ℕ := do
  debugAssert (0 < count ∧ count ≤ cap ∧ r < count)
    "assertion failed: 0 < count && count <= cap && r < count"
  let p ← usizeMul r cap
  return p / count

theorem capExpOf_two_pow (k : ℕ) : capExpOf (2 ^ k) = .ok k := by
  simp [capExpOf, debugAssert, Nat.log2_two_pow]

section Spread

variable {A : Arity} {r count cap : ℕ}

theorem spreadPos_eq (hcount : count ≤ cap) (hcap : cap ≤ A.LEN)
    (hr : r < count) : spreadPos r count cap = .ok (r * cap / count) := by
  have hmul : r * cap ≤ usizeMax := by
    have hlen := A.LEN_le
    have : r * cap ≤ 256 * 256 := Nat.mul_le_mul (by omega) (by omega)
    unfold usizeMax
    omega
  have hassert : 0 < count ∧ count ≤ cap ∧ r < count := ⟨by omega, hcount, hr⟩
  simp [spreadPos, debugAssert_of hassert, usizeMul_of_le hmul]

theorem spread_lt (hr : r < count) (hcap : 0 < cap) :
    r * cap / count < cap := by
  rw [Nat.div_lt_iff_lt_mul (by omega), Nat.mul_comm cap]
  exact Nat.mul_lt_mul_of_pos_right hr hcap

theorem spread_lt_spread {s : ℕ} (hcount : count ≤ cap) (hrs : r < s)
    (hs : s < count) : r * cap / count < s * cap / count := by
  have hpos : 0 < count := by omega
  have hstep : r * cap + count ≤ s * cap := by
    have hmul : (r + 1) * cap ≤ s * cap := Nat.mul_le_mul_right cap hrs
    rw [Nat.succ_mul] at hmul
    omega
  calc r * cap / count < r * cap / count + 1 := Nat.lt_succ_self _
    _ = (r * cap + count) / count := (Nat.add_div_right _ hpos).symm
    _ ≤ s * cap / count := Nat.div_le_div_right hstep

end Spread

/-- A legal capacity: a power of two up to the arity. -/
def Arity.IsCapacity (A : Arity) (cap : ℕ) : Prop :=
  ∃ k, cap = 2 ^ k ∧ cap ≤ A.LEN

theorem Arity.IsCapacity.pos {A : Arity} {cap : ℕ} (h : A.IsCapacity cap) :
    0 < cap := by
  obtain ⟨k, rfl, -⟩ := h
  exact Nat.two_pow_pos k

theorem Arity.isCapacity_LEN (A : Arity) : A.IsCapacity A.LEN := by
  obtain ⟨k, -, -, hk⟩ := A.LEN_eq_two_pow
  exact ⟨k, hk, le_rfl⟩

/-- The rounding rule: the least legal capacity, or all there is. -/
theorem pow2CapFor_spec (A : Arity) {n : ℕ} (hn : n ≠ 0) :
    ∃ cap, pow2CapFor A n = .ok cap ∧ A.IsCapacity cap ∧ min n A.LEN ≤ cap ∧
      ∀ cap', A.IsCapacity cap' → min n A.LEN ≤ cap' → cap ≤ cap' := by
  obtain ⟨k, -, hk8, hk⟩ := A.LEN_eq_two_pow
  by_cases hlen : A.LEN ≤ n
  · refine ⟨A.LEN, by simp [pow2CapFor, hn, hlen], A.isCapacity_LEN,
      Nat.min_le_right n A.LEN, ?_⟩
    rintro cap' - hcap'
    omega
  · set p := if n ≤ 1 then 1 else 2 ^ (Nat.log2 (n - 1) + 1) with hp
    have hmin : ∀ j, n ≤ 2 ^ j → p ≤ 2 ^ j := by
      intro j hj
      by_cases hone : n ≤ 1
      · simp only [hp, hone, if_true]
        exact Nat.one_le_two_pow
      · simp only [hp, hone, if_false]
        refine Nat.pow_le_pow_right (by omega) ?_
        have : Nat.log2 (n - 1) < j := by
          rw [Nat.log2_lt (by omega)]
          omega
        omega
    have hpLEN : p ≤ A.LEN := by
      rw [hk]
      exact hmin k (by omega)
    have hle : n ≤ p := by
      by_cases hone : n ≤ 1
      · simp [hp, hone]
      · simp only [hp, hone, if_false]
        exact le_two_pow_log2_succ n
    refine ⟨p, ?_, ?_, by omega, ?_⟩
    · have husize : p ≤ usizeMax := by
        have := A.LEN_le
        unfold usizeMax
        omega
      simp only [pow2CapFor, hn, hlen, if_false, nextPowerOfTwo, ← hp, husize,
        if_true]
    · by_cases hone : n ≤ 1
      · exact ⟨0, by simp [hp, hone], hpLEN⟩
      · exact ⟨Nat.log2 (n - 1) + 1, by simp [hp, hone], hpLEN⟩
    · rintro cap' ⟨j, rfl, -⟩ hcap'
      exact hmin j (by omega)

end ArityArrays
