import Mathlib.Data.List.Forall2
import ArityArrays.Support.DoubleEnded

/-!
# Comparing two iterators

Two iterators are compared by drawing an item from either until they disagree
or end.  The outcome is that of comparing the items they have left.

Nothing here refers to a particular program.
-/

/-! ## Related lists -/

section Related

variable {α β : Type} {r : β → β → Prop}

/-- Related lists with the same keys are related entry by entry. -/
theorem forall₂_of_map_eq {f : β → α} {xs ys : List β}
    (h : List.Forall₂ r xs ys) (hf : xs.map f = ys.map f) :
    List.Forall₂ (fun x y => f x = f y ∧ r x y) xs ys := by
  induction h with
  | nil => exact .nil
  | cons hxy _ ih =>
      obtain ⟨hhead, htail⟩ := List.cons.inj hf
      exact .cons ⟨hhead, hxy⟩ (ih htail)

theorem exists_related {xs ys : List β} (h : List.Forall₂ r xs ys) {x : β}
    (hx : x ∈ xs) : ∃ y ∈ ys, r x y := by
  induction h with
  | nil => simp at hx
  | @cons a b _ _ hab _ ih =>
      rcases List.mem_cons.mp hx with rfl | hx
      · exact ⟨b, List.mem_cons_self, hab⟩
      · obtain ⟨y, hy, hxy⟩ := ih hx
        exact ⟨y, List.mem_cons_of_mem b hy, hxy⟩

theorem optionRel_equivalence (h : Equivalence r) :
    Equivalence (Option.Rel r) := by
  constructor
  · rintro (_ | x)
    · exact .none
    · exact .some (h.refl x)
  · rintro _ _ (hxy | _)
    · exact .some (h.symm hxy)
    · exact .none
  · rintro _ _ _ (hxy | _) hyz
    · obtain ⟨hyz⟩ := hyz
      exact .some (h.trans hxy hyz)
    · exact hyz

end Related

/-! ## Comparison -/

namespace DoubleEnded

open Checked Loop

variable {σ τ α β : Type}

/-- One pass of a comparison: an item from either side. -/
def compare (a : DoubleEnded σ α) (b : DoubleEnded τ β) (same : α → β → Bool)
    (st : σ × τ) : Checked (Pass (σ × τ) Bool) := do
  let x ← a.next st.1
  let y ← b.next st.2
  match x.1, y.1 with
  | none, none => return .leave true
  | none, some _ => return .leave false
  | some _, none => return .leave false
  | some u, some v =>
      if same u v then return .again (x.2, y.2) else return .leave false

theorem compare_decreases (a : DoubleEnded σ α) (b : DoubleEnded τ β)
    (same : α → β → Bool) :
    Decreases (a.compare b same) fun st => a.size st.1 := by
  rintro ⟨s, t⟩ st' h
  obtain ⟨⟨x, s₁⟩, hx, h⟩ := bind_eq_ok.mp h
  obtain ⟨⟨y, t₁⟩, -, h⟩ := bind_eq_ok.mp h
  have hsize := a.size_pull hx
  rcases x with _ | u <;> rcases y with _ | v
  · cases h
  · cases h
  · cases h
  · dsimp only at h
    split at h
    · cases h
      exact hsize
    · cases h

/-- Whether two iterators have the same items left, by `same`. -/
def eqBy (a : DoubleEnded σ α) (b : DoubleEnded τ β) (same : α → β → Bool)
    (s : σ) (t : τ) : Checked Bool :=
  run (a.compare b same) _ (a.compare_decreases b same) (s, t)

theorem Refines.eqBy {a : DoubleEnded σ α} {b : DoubleEnded τ β}
    {R : σ → List α → Prop} {S : τ → List β → Prop} (ha : a.Refines R)
    (hb : b.Refines S) {s : σ} {t : τ} {xs : List α} {ys : List β}
    (hs : R s xs) (ht : S t ys) (same : α → β → Bool) :
    ∃ r, a.eqBy b same s t = .ok r ∧
      (r = true ↔ List.Forall₂ (fun x y => same x y = true) xs ys) := by
  refine run_of_invariant
    (I := fun st => ∃ xs' ys', R st.1 xs' ∧ S st.2 ys' ∧
      (List.Forall₂ (fun x y => same x y = true) xs' ys' ↔
        List.Forall₂ (fun x y => same x y = true) xs ys))
    ?_ (s, t) ⟨xs, ys, hs, ht, Iff.rfl⟩
  rintro ⟨s₁, t₁⟩ ⟨xs', ys', hs₁, ht₁, hiff⟩
  obtain ⟨s₂, hx, hs₂⟩ := ha.pull hs₁ .front
  obtain ⟨t₂, hy, ht₂⟩ := hb.pull ht₁ .front
  simp only [compare, next, hx, hy, ok_bind]
  rw [← hiff]
  rcases xs' with _ | ⟨u, xs'⟩ <;> rcases ys' with _ | ⟨v, ys'⟩
  · exact Or.inr ⟨true, rfl, by simp⟩
  · exact Or.inr ⟨false, rfl, by simp⟩
  · exact Or.inr ⟨false, rfl, by simp⟩
  · by_cases huv : same u v = true
    · refine Or.inl ⟨(s₂, t₂), by simp [huv], xs', ys', hs₂, ht₂, ?_⟩
      rw [List.forall₂_cons]
      exact ⟨fun h => ⟨huv, h⟩, fun h => h.2⟩
    · refine Or.inr ⟨false, by simp [huv], ?_⟩
      rw [List.forall₂_cons]
      exact ⟨fun h => absurd h (by decide), fun h => absurd h.1 huv⟩

end DoubleEnded
