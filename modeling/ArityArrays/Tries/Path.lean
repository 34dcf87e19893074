import ArityArrays.Support.Checked
import Mathlib.Data.List.Infix

/-!
# Paths and the prefix arithmetic the algorithms share

A path is a run of indices below the arity `n`.  `commonPrefix` splits a key
and a partial path around their longest common prefix, slicing both; `descent`
names the four ways the split can turn out, which is the case analysis of
every walk down a trie.
-/

namespace ArityTries

open Checked

/-- A run of indices: a node's partial path, or a full key. -/
abbrev Path (n : ℕ) := List (Fin n)

/-- The concatenation `head ++ [index] ++ tail`. -/
def join (head : List α) (index : α) (tail : List α) : List α :=
  head ++ [index] ++ tail

@[simp] theorem join_eq (head : List α) (index : α) (tail : List α) :
    join head index tail = head ++ index :: tail := by
  simp [join]

/-- The three-way split of two slices around their longest common prefix. -/
structure PrefixOverlap (α : Type) where
  shared : List α
  uniqueA : List α
  uniqueB : List α

/-- The length of the longest common prefix. -/
def sharedLen [DecidableEq α] (a b : List α) : ℕ :=
  ((a.zip b).takeWhile fun xy => decide (xy.1 = xy.2)).length

/-- Split `a` and `b` around their longest common prefix. -/
def commonPrefix [DecidableEq α] (a b : List α) :
    Checked (PrefixOverlap α) := do
  let k := sharedLen a b
  let shared ← sliceTo a k
  let uniqueA ← sliceFrom a k
  let uniqueB ← sliceFrom b k
  return { shared, uniqueA, uniqueB }

/-! ## The four ways a key meets a partial path -/

/-- How a key continues relative to a partial path. -/
inductive Descent (α : Type) where
  /-- The key is the partial path. -/
  | hit
  /-- The key `shared` ends inside the path `shared ++ ni :: nodeRest`. -/
  | above (shared : List α) (ni : α) (nodeRest : List α)
  /-- The key is the path followed by `ki :: keyRest`. -/
  | below (ki : α) (keyRest : List α)
  /-- Key and path diverge after `shared`. -/
  | fork (shared : List α) (ki : α) (keyRest : List α)
      (ni : α) (nodeRest : List α)

/-- Move the divergence point of a descent one index further down. -/
def Descent.push (x : α) : Descent α → Descent α
  | .above shared ni nodeRest => .above (x :: shared) ni nodeRest
  | .fork shared ki keyRest ni nodeRest =>
      .fork (x :: shared) ki keyRest ni nodeRest
  | d => d

/-- Compare a key with a partial path. -/
def descent [DecidableEq α] : List α → List α → Descent α
  | [], [] => .hit
  | [], ni :: nodeRest => .above [] ni nodeRest
  | ki :: keyRest, [] => .below ki keyRest
  | ki :: keyRest, ni :: nodeRest =>
      if ki = ni then (descent keyRest nodeRest).push ki
      else .fork [] ki keyRest ni nodeRest

section Split

variable [DecidableEq α]

@[simp] theorem descent_self (p : List α) : descent p p = .hit := by
  induction p with
  | nil => rfl
  | cons x p ih => simp [descent, ih, Descent.push]

@[simp] theorem descent_above (key : List α) (ni : α) (nodeRest : List α) :
    descent key (key ++ ni :: nodeRest) = .above key ni nodeRest := by
  induction key with
  | nil => rfl
  | cons x key ih => simp [descent, ih, Descent.push]

@[simp] theorem descent_below (p : List α) (ki : α) (keyRest : List α) :
    descent (p ++ ki :: keyRest) p = .below ki keyRest := by
  induction p with
  | nil => rfl
  | cons x p ih => simp [descent, ih, Descent.push]

theorem descent_fork (shared : List α) {ki ni : α} (hne : ki ≠ ni)
    (keyRest nodeRest : List α) :
    descent (shared ++ ki :: keyRest) (shared ++ ni :: nodeRest) =
      .fork shared ki keyRest ni nodeRest := by
  induction shared with
  | nil => simp [descent, hne]
  | cons x shared ih => simp [descent, ih, Descent.push]

/-- Every key meets every partial path in one of the four ways. -/
theorem descent_cases (key p : List α) :
    key = p ∨
      (∃ ni nodeRest, p = key ++ ni :: nodeRest) ∨
      (∃ ki keyRest, key = p ++ ki :: keyRest) ∨
      ∃ shared ki keyRest ni nodeRest, ki ≠ ni ∧
        key = shared ++ ki :: keyRest ∧ p = shared ++ ni :: nodeRest := by
  induction key generalizing p with
  | nil =>
      cases p with
      | nil => exact Or.inl rfl
      | cons ni nodeRest => exact Or.inr (Or.inl ⟨ni, nodeRest, rfl⟩)
  | cons ki keyRest ih =>
      cases p with
      | nil => exact Or.inr (Or.inr (Or.inl ⟨ki, keyRest, rfl⟩))
      | cons ni nodeRest =>
          by_cases hki : ki = ni
          · subst ki
            rcases ih nodeRest with
              rfl | ⟨mi, mr, rfl⟩ | ⟨mi, mr, rfl⟩ |
                ⟨sh, k, kr, m, mr, hne, rfl, rfl⟩
            · exact Or.inl rfl
            · exact Or.inr (Or.inl ⟨mi, mr, rfl⟩)
            · exact Or.inr (Or.inr (Or.inl ⟨mi, mr, rfl⟩))
            · exact Or.inr (Or.inr (Or.inr
                ⟨ni :: sh, k, kr, m, mr, hne, rfl, rfl⟩))
          · exact Or.inr (Or.inr (Or.inr
              ⟨[], ki, keyRest, ni, nodeRest, hki, rfl, rfl⟩))

theorem sharedLen_append (shared a b : List α)
    (hab : ∀ x ∈ a.head?, ∀ y ∈ b.head?, x ≠ y) :
    sharedLen (shared ++ a) (shared ++ b) = shared.length := by
  induction shared with
  | nil =>
      cases a with
      | nil => simp [sharedLen]
      | cons x a =>
          cases b with
          | nil => simp [sharedLen]
          | cons y b =>
              have hxy : x ≠ y := hab x (by simp) y (by simp)
              simp [sharedLen, hxy]
  | cons z shared ih =>
      simpa [sharedLen] using ih

/-- The split around a shared run whose continuations differ at once. -/
theorem commonPrefix_append (shared a b : List α)
    (hab : ∀ x ∈ a.head?, ∀ y ∈ b.head?, x ≠ y) :
    commonPrefix (shared ++ a) (shared ++ b) =
      .ok { shared := shared, uniqueA := a, uniqueB := b } := by
  simp [commonPrefix, sharedLen_append shared a b hab]

@[simp] theorem commonPrefix_hit (p : List α) :
    commonPrefix p p = .ok { shared := p, uniqueA := [], uniqueB := [] } := by
  simpa using commonPrefix_append p [] [] (by simp)

@[simp] theorem commonPrefix_above (key : List α) (ni : α)
    (nodeRest : List α) :
    commonPrefix key (key ++ ni :: nodeRest) =
      .ok { shared := key, uniqueA := [], uniqueB := ni :: nodeRest } := by
  simpa using commonPrefix_append key [] (ni :: nodeRest) (by simp)

@[simp] theorem commonPrefix_below (p : List α) (ki : α)
    (keyRest : List α) :
    commonPrefix (p ++ ki :: keyRest) p =
      .ok { shared := p, uniqueA := ki :: keyRest, uniqueB := [] } := by
  simpa using commonPrefix_append p (ki :: keyRest) [] (by simp)

theorem commonPrefix_fork (shared : List α) {ki ni : α} (hne : ki ≠ ni)
    (keyRest nodeRest : List α) :
    commonPrefix (shared ++ ki :: keyRest) (shared ++ ni :: nodeRest) =
      .ok { shared := shared, uniqueA := ki :: keyRest,
            uniqueB := ni :: nodeRest } :=
  commonPrefix_append shared _ _ (by simpa using hne)

end Split

end ArityTries
