import Mathlib.Data.List.Flatten
import Mathlib.Data.List.Lex
import Mathlib.Data.Prod.Lex

/-!
# Symbols written as two digits

A key is written digit by digit, two digits to a symbol.  When no two symbols
are written alike the writing keeps and reflects prefixes, and when the
symbols are ordered by their digits it keeps and reflects lexicographic order.
-/

namespace Digits

variable {α β : Type}

/-- Write every symbol of a key as two digits. -/
def expand (split : α → β × β) (key : List α) : List β :=
  key.flatMap fun a => [(split a).1, (split a).2]

/-- The consecutive pairs of a list, and what is left over. -/
def asChunks : List β → List (β × β) × List β
  | x :: y :: rest => ((x, y) :: (asChunks rest).1, (asChunks rest).2)
  | rest => ([], rest)

section Expand

variable {split : α → β × β}

@[simp] theorem expand_nil : expand split [] = [] := rfl

@[simp] theorem expand_cons (a : α) (key : List α) :
    expand split (a :: key) =
      (split a).1 :: (split a).2 :: expand split key := rfl

theorem length_expand (key : List α) :
    (expand split key).length = 2 * key.length := by
  induction key with
  | nil => rfl
  | cons a key ih =>
      rw [expand_cons, List.length_cons, List.length_cons, ih,
        List.length_cons]
      omega

theorem asChunks_expand (key : List α) :
    asChunks (expand split key) = (key.map split, []) := by
  induction key with
  | nil => rfl
  | cons a key ih =>
      rw [expand_cons, asChunks, ih]
      rfl

theorem expand_isPrefix_iff (hsplit : Function.Injective split)
    (a b : List α) : expand split a <+: expand split b ↔ a <+: b := by
  induction a generalizing b with
  | nil => simp
  | cons x a ih =>
      rcases b with _ | ⟨y, b⟩
      · simp
      · rw [expand_cons, expand_cons, List.cons_prefix_cons,
          List.cons_prefix_cons, List.cons_prefix_cons, ih]
        constructor
        · rintro ⟨hfst, hsnd, hrest⟩
          exact ⟨hsplit (Prod.ext hfst hsnd), hrest⟩
        · rintro ⟨rfl, hrest⟩
          exact ⟨rfl, rfl, hrest⟩

theorem expand_injective (hsplit : Function.Injective split) :
    Function.Injective (expand split) := by
  intro a b hab
  have hprefix := (expand_isPrefix_iff hsplit a b).mp (hab ▸ List.prefix_rfl)
  have hlength := congrArg List.length hab
  rw [length_expand, length_expand] at hlength
  exact hprefix.eq_of_length (by omega)

theorem expand_lt_iff [LT α] [LinearOrder β]
    (hsplit : Function.Injective split)
    (hlt : ∀ x y, x < y ↔ (split x).1 < (split y).1 ∨
      (split x).1 = (split y).1 ∧ (split x).2 < (split y).2)
    (a b : List α) : expand split a < expand split b ↔ a < b := by
  induction a generalizing b with
  | nil =>
      rcases b with _ | ⟨y, b⟩
      · simp
      · simp
  | cons x a ih =>
      rcases b with _ | ⟨y, b⟩
      · simp
      · have heq : x = y ↔ (split x).1 = (split y).1 ∧
            (split x).2 = (split y).2 := by
          rw [← hsplit.eq_iff, Prod.ext_iff]
        rw [expand_cons, expand_cons, List.cons_lt_cons_iff,
          List.cons_lt_cons_iff, List.cons_lt_cons_iff, ih, hlt, heq]
        tauto

end Expand

/-- A list is its pairs written out, and what is left over. -/
theorem expand_asChunks (digits : List β) :
    expand id (asChunks digits).1 ++ (asChunks digits).2 = digits := by
  induction digits using asChunks.induct with
  | case1 x y rest ih =>
      rw [asChunks, expand_cons, List.cons_append, List.cons_append, ih]
      rfl
  | case2 rest hrest =>
      rw [asChunks]
      · rfl
      · exact hrest

theorem asChunks_rest_eq_nil {digits : List β}
    (heven : digits.length % 2 = 0) : (asChunks digits).2 = [] := by
  induction digits using asChunks.induct with
  | case1 x y rest ih =>
      rw [asChunks]
      apply ih
      rw [List.length_cons, List.length_cons] at heven
      omega
  | case2 rest hrest =>
      rcases rest with _ | ⟨x, _ | ⟨y, rest⟩⟩
      · rfl
      · rw [List.length_singleton] at heven
        exact absurd heven (by decide)
      · exact absurd rfl (hrest x y rest)

end Digits
