import Mathlib.Algebra.Ring.Nat
import Mathlib.Data.List.Basic
import Mathlib.Data.Nat.Basic
import Mathlib.Order.Basic

/-!
# Words in little-endian bytes

A word is written byte by byte, the one with its lowest bits first.  Bit `j` of
byte `k` is bit `8 * k + j` of the word, whichever way one goes.

Nothing here refers to a particular program.
-/

namespace LittleEndian

variable {w : ℕ}

/-- The bytes of a word. -/
def toLeBytes (x : BitVec w) : List (BitVec 8) :=
  (List.range (w / 8)).map fun k => x.extractLsb' (8 * k) 8

/-- The word with some bytes, as far as they fit. -/
def fromLeBytes (w : ℕ) (bytes : List (BitVec 8)) : BitVec w :=
  bytes.foldr (fun byte x => x <<< 8 ||| byte.setWidth w) 0#w

@[simp] theorem length_toLeBytes (x : BitVec w) :
    (toLeBytes x).length = w / 8 := by
  simp [toLeBytes]

theorem getElem_toLeBytes (x : BitVec w) {k : ℕ}
    (hk : k < (toLeBytes x).length) :
    (toLeBytes x)[k] = x.extractLsb' (8 * k) 8 := by
  simp [toLeBytes]

theorem getLsbD_extract (x : BitVec w) (k : ℕ) {j : ℕ} (hj : j < 8) :
    (x.extractLsb' (8 * k) 8).getLsbD j = x.getLsbD (8 * k + j) := by
  simp [hj]

theorem getLsbD_fromLeBytes (bytes : List (BitVec 8)) {i : ℕ} (hi : i < w) :
    (fromLeBytes w bytes).getLsbD i =
      (bytes[i / 8]?).any fun byte => byte.getLsbD (i % 8) := by
  induction bytes generalizing i with
  | nil => simp [fromLeBytes]
  | cons byte bytes ih =>
      have hcons : fromLeBytes w (byte :: bytes) =
          fromLeBytes w bytes <<< 8 ||| byte.setWidth w := rfl
      rw [hcons, BitVec.getLsbD_or, BitVec.getLsbD_shiftLeft,
        BitVec.getLsbD_setWidth]
      by_cases hlow : i < 8
      · have hdiv : i / 8 = 0 := Nat.div_eq_of_lt hlow
        have hmod : i % 8 = i := Nat.mod_eq_of_lt hlow
        simp [hlow, hi, hdiv, hmod]
      · -- Above the first byte the word is the one of the other bytes.
        have hdiv : i / 8 = (i - 8) / 8 + 1 := by omega
        have hmod : (i - 8) % 8 = i % 8 := by omega
        have hhigh : byte.getLsbD i = false :=
          BitVec.getLsbD_of_ge byte i (by omega)
        rw [ih (show i - 8 < w by omega), hmod, hdiv, List.getElem?_cons_succ,
          hhigh]
        simp [hlow, hi]

end LittleEndian
