import ArityArrays.Tries.Walking.Iteration

/-!
# What validation reports

`validate` reports the first node in pre-order that breaks the structural
invariant, unless a read fails before it gets there.
-/

namespace ArityTries

open Checked Loop Node Walk

variable {n : ℕ} {V H σ ε : Type}

/-- How a listed node breaks the structural invariant, if it does. -/
def violationAt (sm : Path n × TrieNode n V H) : Option (Violation n) :=
  if sm.2.value.isSome then none
  else match sm.2.children.count with
    | 0 => some { path := fullPath sm, kind := .valuelessLeaf }
    | 1 => some { path := fullPath sm, kind := .valuelessSingleChild }
    | _ => none

/-- The first violation among listed nodes. -/
def firstViolation (pending : List (Path n × TrieNode n V H)) :
    Option (Violation n) :=
  pending.findSome? violationAt

/-- The result of a validation that finds `v`. -/
def reported : Option (Violation n) → Except (ValidateError n ε) Unit
  | none => .ok ()
  | some v => .error (.invalid v)

/-- A pass over a node agrees with `violationAt`. -/
theorem validateBody_node {store : EdgeStore n V H σ ε}
    {w w' : Walk n V H} {sm : Path n × TrieNode n V H} {s s' : σ}
    (h : w.advance store s = .ok (.ok (some (fullPath sm, sm.2)), w', s')) :
    validateBody store (w, s) = .ok
      (match violationAt sm with
        | none => .again (w', s')
        | some v => .leave (reported (some v), s')) := by
  simp only [validateBody, h, ok_bind, violationAt]
  by_cases hv : sm.2.value.isSome
  · rw [if_pos hv, if_pos hv]
    rfl
  · rw [if_neg hv, if_neg hv]
    rcases sm.2.children.count with _ | _ | k
    · rfl
    · rfl
    · rfl

/-- How a validation that should find `v` ends. -/
inductive Validated (store : EdgeStore n V H σ ε) (v : Option (Violation n)) :
    Except (ValidateError n ε) Unit × σ → Prop
  | failed {x : ε} {s : σ} (hfail : ¬ store.NeverFails) :
      Validated store v (.error (.store x), s)
  | done (s : σ) : Validated store v (reported v, s)

/-- Validation reports the first violation in pre-order, unless a read
fails. -/
theorem validate_validated (store : EdgeStore n V H σ ε) (t : Trie n V H)
    (s : σ) :
    ∃ out, validate store t s = .ok out ∧
      Validated store (firstViolation t.nodes) out := by
  have hfresh := Pending.fresh t (none : Option (Path n))
  rw [nodesFrom_none] at hfresh
  refine run_of_invariant
    (I := fun ws => ∃ p, Pending ws.1 p ∧
      firstViolation p = firstViolation t.nodes)
    ?_ (Walk.new t none, s) ⟨_, hfresh, rfl⟩
  rintro ⟨w₁, s₁⟩ ⟨p, hw₁, hp⟩
  rw [← hp]
  obtain ⟨out, hadvance, hout⟩ := hw₁.advance store s₁
  cases hout with
  | @failed x w₂ s₂ hfail _ =>
      refine Or.inr ⟨(.error (.store x), s₂), ?_, .failed hfail⟩
      simp only [validateBody, hadvance, ok_bind, pure_eq_ok]
  | @ended w₂ s₂ hpending _ =>
      subst hpending
      refine Or.inr ⟨(.ok (), s₂), ?_, .done s₂⟩
      simp only [validateBody, hadvance, ok_bind, pure_eq_ok]
  | @node sm w₂ s₂ rest hpending hw₂ =>
      subst hpending
      have hbody := validateBody_node hadvance
      rw [firstViolation, List.findSome?_cons]
      cases hv : violationAt sm with
      | none =>
          rw [hv] at hbody
          exact Or.inl ⟨(w₂, s₂), hbody, rest, hw₂, rfl⟩
      | some v =>
          rw [hv] at hbody
          exact Or.inr ⟨_, hbody, .done s₂⟩

/-! ## Which violation -/

/-- A node that breaks the structural invariant. -/
def Violating (m : TrieNode n V H) : Prop :=
  m.value = none ∧ m.children.count < 2

/-- How a violating node breaks it. -/
def kindOf (m : TrieNode n V H) : ViolationKind :=
  if m.children.count = 0 then .valuelessLeaf else .valuelessSingleChild

theorem violationAt_eq_none {sm : Path n × TrieNode n V H} :
    violationAt sm = none ↔ ¬Violating sm.2 := by
  unfold violationAt Violating
  by_cases hv : sm.2.value.isSome
  · obtain ⟨v, hv'⟩ := Option.isSome_iff_exists.mp hv
    simp [hv']
  · rw [if_neg hv, Option.not_isSome_iff_eq_none.mp hv]
    rcases sm.2.children.count with _ | _ | k
    · simp
    · simp
    · simp

theorem violationAt_eq_some {sm : Path n × TrieNode n V H}
    {v : Violation n} (h : violationAt sm = some v) :
    Violating sm.2 ∧ v = { path := fullPath sm, kind := kindOf sm.2 } := by
  have hviolating : Violating sm.2 := by
    by_contra hnot
    rw [violationAt_eq_none.mpr hnot] at h
    cases h
  refine ⟨hviolating, ?_⟩
  unfold violationAt at h
  rw [hviolating.1] at h
  simp only [Option.isSome_none, Bool.false_eq_true, if_false] at h
  unfold kindOf
  rcases hcount : sm.2.children.count with _ | _ | k
  · rw [hcount] at h
    cases h
    rfl
  · rw [hcount] at h
    cases h
    rfl
  · have hlt := hviolating.2
    omega

/-- The first violation in pre-order is at the least full path. -/
theorem firstViolation_eq_some {t : Trie n V H} {v : Violation n}
    (h : firstViolation t.nodes = some v) :
    ∃ sm ∈ t.nodes, Violating sm.2 ∧
      (∀ sm' ∈ t.nodes, Violating sm'.2 → sm' ≠ sm →
        fullPath sm < fullPath sm') ∧
      v = { path := fullPath sm, kind := kindOf sm.2 } := by
  obtain ⟨before, sm, after, hnodes, hsm, hbefore⟩ :=
    List.findSome?_eq_some_iff.mp h
  obtain ⟨hviolating, hv⟩ := violationAt_eq_some hsm
  have hascending : t.nodes.Pairwise fun a b => fullPath a < fullPath b := by
    rcases t with _ | nd
    · exact List.Pairwise.nil
    · exact nodes_ascending [] nd
  rw [hnodes, List.pairwise_append, List.pairwise_cons] at hascending
  refine ⟨sm, by simp [hnodes], hviolating, ?_, hv⟩
  intro sm' hmem hviolating' hne
  rw [hnodes, List.mem_append, List.mem_cons] at hmem
  rcases hmem with hmem | rfl | hmem
  · exact absurd hviolating' (violationAt_eq_none.mp (hbefore sm' hmem))
  · exact absurd rfl hne
  · exact hascending.2.1.1 sm' hmem

theorem firstViolation_eq_none {t : Trie n V H} :
    firstViolation t.nodes = none ↔
      ∀ sm ∈ t.nodes, sm.2.value = none → 2 ≤ sm.2.children.count := by
  rw [firstViolation, List.findSome?_eq_none_iff]
  refine forall₂_congr fun sm _ => ?_
  rw [violationAt_eq_none, Violating, not_and, not_lt]

/-- Over a store that never fails validation is exact: it accepts a trie whose
valueless nodes have at least two children each, and otherwise reports the
violating node with the least full path. -/
theorem validate_exact {store : EdgeStore n V H σ ε} (hstore : store.NeverFails)
    (t : Trie n V H) (s : σ) :
    ∃ r s', validate store t s = .ok (r, s') ∧
      (r = .ok () ↔
        ∀ sm ∈ t.nodes, sm.2.value = none → 2 ≤ sm.2.children.count) ∧
      (r ≠ .ok () → ∃ sm ∈ t.nodes, Violating sm.2 ∧
        (∀ sm' ∈ t.nodes, Violating sm'.2 → sm' ≠ sm →
          fullPath sm < fullPath sm') ∧
        r = .error (.invalid { path := fullPath sm, kind := kindOf sm.2 })) := by
  obtain ⟨out, hrun, hout⟩ := validate_validated store t s
  rcases hout with hfail | s'
  · exact absurd hstore hfail
  · refine ⟨_, s', hrun, ?_, ?_⟩
    · rw [← firstViolation_eq_none]
      rcases firstViolation t.nodes with _ | v
      · simp [reported]
      · simp [reported]
    · intro hinvalid
      rcases hfirst : firstViolation t.nodes with _ | v
      · rw [hfirst] at hinvalid
        exact absurd rfl hinvalid
      · obtain ⟨sm, hmem, hviolating, hleast, rfl⟩ :=
          firstViolation_eq_some hfirst
        exact ⟨sm, hmem, hviolating, hleast, rfl⟩

/-- A single child beneath a leaf without a value, which comes second. -/
theorem validate_exact_nested :
    let t : Trie 2 ℕ ℕ := some {
      partialPath := [1]
      value := none
      children := ChildMap.empty.set 0 (.mk {
        partialPath := []
        value := none
        children := ChildMap.empty } (some 3)) }
    ∃ r s', validate (EdgeStore.inMemory 2 ℕ ℕ) t () = .ok (r, s') ∧
      r ≠ .ok () := by
  intro t
  obtain ⟨r, s', hrun, hok, -⟩ :=
    validate_exact (EdgeStore.inMemory_neverFails 2 ℕ ℕ) t ()
  refine ⟨r, s', hrun, ?_⟩
  rw [ne_eq, hok]
  intro hall
  have hroot := hall _ (self_mem_nodes [] _) rfl
  revert hroot
  decide

end ArityTries
