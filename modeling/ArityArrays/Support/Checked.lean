import Mathlib.Data.List.Basic

/-!
# Checked computations and loops with a variant

A computation that may reach a failing `expect` or slice out of range is a
value of `Checked`.  A `loop` is one pass of its body repeated until the body
leaves, and comes with a variant that decreases on every pass that goes round
again, so running it is a total function.

Nothing here refers to a particular program.
-/

/-- A failing assertion, with its message. -/
structure Panic where
  message : String
  deriving DecidableEq, Repr

/-- A computation which returns a value or panics. -/
abbrev Checked (α : Type*) := Except Panic α

namespace Checked

/-- The computation reaches no failing assertion. -/
def Safe (c : Checked α) : Prop := ∃ a, c = .ok a

/-- The value of an option that is asserted to be present. -/
def expect (o : Option α) (message : String) : Checked α :=
  match o with
  | some a => .ok a
  | none => .error ⟨message⟩

@[simp] theorem expect_some (a : α) (message : String) :
    expect (some a) message = .ok a := rfl

/-- The slice `xs[..k]`. -/
def sliceTo (xs : List α) (k : ℕ) : Checked (List α) :=
  if k ≤ xs.length then .ok (xs.take k)
  else .error ⟨"range end index out of range"⟩

/-- The slice `xs[k..]`. -/
def sliceFrom (xs : List α) (k : ℕ) : Checked (List α) :=
  if k ≤ xs.length then .ok (xs.drop k)
  else .error ⟨"range start index out of range"⟩

@[simp] theorem sliceTo_append (xs ys : List α) :
    sliceTo (xs ++ ys) xs.length = .ok xs := by
  simp [sliceTo]

@[simp] theorem sliceFrom_append (xs ys : List α) :
    sliceFrom (xs ++ ys) xs.length = .ok ys := by
  simp [sliceFrom]

@[simp] theorem sliceTo_length (xs : List α) :
    sliceTo xs xs.length = .ok xs := by
  simp [sliceTo]

@[simp] theorem sliceFrom_length (xs : List α) :
    sliceFrom xs xs.length = .ok [] := by
  simp [sliceFrom]

@[simp] theorem sliceTo_zero (xs : List α) : sliceTo xs 0 = .ok [] := by
  simp [sliceTo]

@[simp] theorem sliceFrom_zero (xs : List α) : sliceFrom xs 0 = .ok xs := by
  simp [sliceFrom]

@[simp] theorem ok_bind (a : α) (f : α → Checked β) :
    ((.ok a : Checked α) >>= f) = f a := rfl

@[simp] theorem pure_eq_ok (a : α) : (pure a : Checked α) = .ok a := rfl

theorem bind_eq_ok {x : Checked α} {f : α → Checked β} {b : β} :
    (x >>= f) = .ok b ↔ ∃ a, x = .ok a ∧ f a = .ok b := by
  cases x with
  | error p => simp [bind, Except.bind]
  | ok a => simp [bind, Except.bind]

theorem bind_eq_error {x : Checked α} {f : α → Checked β} {p : Panic} :
    (x >>= f) = .error p ↔
      x = .error p ∨ ∃ a, x = .ok a ∧ f a = .error p := by
  cases x with
  | error q => simp [bind, Except.bind]
  | ok a => simp [bind, Except.bind]

@[simp] theorem map_ok (f : α → β) (a : α) :
    (f <$> (.ok a : Checked α)) = .ok (f a) := rfl

theorem map_eq_ok {x : Checked α} {f : α → β} {b : β} :
    (f <$> x) = .ok b ↔ ∃ a, x = .ok a ∧ f a = b := by
  cases x with
  | error p => simp [Functor.map, Except.map]
  | ok a => simp [Functor.map, Except.map]

theorem expect_eq_ok {o : Option α} {message : String} {a : α} :
    expect o message = .ok a ↔ o = some a := by
  cases o <;> simp [expect]

theorem sliceFrom_eq_ok {xs ys : List α} {k : ℕ} :
    sliceFrom xs k = .ok ys ↔ k ≤ xs.length ∧ xs.drop k = ys := by
  by_cases hk : k ≤ xs.length
  · simp [sliceFrom, hk]
  · simp [sliceFrom, hk]

end Checked

/-! ## Loops -/

namespace Loop

/-- The outcome of one pass through a loop body. -/
inductive Pass (σ ρ : Type*) where
  | again (s : σ)
  | leave (r : ρ)

universe u v

variable {σ ρ : Type u}

/-- Every pass that goes round again decreases the variant. -/
def Decreases (body : σ → Checked (Pass σ ρ)) (variant : σ → ℕ) : Prop :=
  ∀ s s', body s = .ok (.again s') → variant s' < variant s

/-- Repeat `body` from `s` until it leaves or panics. -/
def run (body : σ → Checked (Pass σ ρ)) (variant : σ → ℕ)
    (hdec : Decreases body variant) (s : σ) : Checked ρ :=
  match _hs : body s with
  | .error p => .error p
  | .ok (.leave r) => .ok r
  | .ok (.again s') => run body variant hdec s'
termination_by variant s
decreasing_by exact hdec s s' _hs

/-- One pass, and whatever follows it. -/
theorem run_eq (body : σ → Checked (Pass σ ρ)) (variant : σ → ℕ)
    (hdec : Decreases body variant) (s : σ) :
    run body variant hdec s = body s >>= fun pass =>
      match pass with
      | .again s' => run body variant hdec s'
      | .leave r => .ok r := by
  rw [run]
  split <;> simp_all [bind, Except.bind]

theorem run_of_again
    {body : σ → Checked (Pass σ ρ)} {variant : σ → ℕ}
    {hdec : Decreases body variant} {s s' : σ}
    (hs : body s = .ok (.again s')) :
    run body variant hdec s = run body variant hdec s' := by
  rw [run_eq, hs]
  rfl

theorem run_of_leave
    {body : σ → Checked (Pass σ ρ)} {variant : σ → ℕ}
    {hdec : Decreases body variant} {s : σ} {r : ρ}
    (hs : body s = .ok (.leave r)) :
    run body variant hdec s = .ok r := by
  rw [run_eq, hs]
  rfl

/-- The invariant rule: a property kept by every pass that goes round again
rules out panics, and what holds on leaving holds of the result. -/
theorem run_of_invariant
    {body : σ → Checked (Pass σ ρ)} {variant : σ → ℕ}
    {hdec : Decreases body variant} {I : σ → Prop} {Q : ρ → Prop}
    (hpass : ∀ s, I s →
      (∃ s', body s = .ok (.again s') ∧ I s') ∨
        ∃ r, body s = .ok (.leave r) ∧ Q r)
    (s : σ) (hs : I s) :
    ∃ r, run body variant hdec s = .ok r ∧ Q r := by
  induction hv : variant s using Nat.strongRecOn generalizing s with
  | ind v ih =>
      subst hv
      rcases hpass s hs with ⟨s', hbody, hs'⟩ | ⟨r, hbody, hr⟩
      · rw [run_of_again hbody]
        exact ih (variant s') (hdec s s' hbody) s' hs' rfl
      · exact ⟨r, run_of_leave hbody, hr⟩

/-- The same rule for a run that is known to return. -/
theorem run_eq_ok_of_invariant
    {body : σ → Checked (Pass σ ρ)} {variant : σ → ℕ}
    {hdec : Decreases body variant} {I : σ → Prop} {Q : ρ → Prop}
    (hagain : ∀ s s', I s → body s = .ok (.again s') → I s')
    (hleave : ∀ s r, I s → body s = .ok (.leave r) → Q r)
    {s : σ} (hs : I s) {r : ρ} (hrun : run body variant hdec s = .ok r) :
    Q r := by
  induction hv : variant s using Nat.strongRecOn generalizing s with
  | ind v ih =>
      subst hv
      rw [run_eq] at hrun
      obtain ⟨pass, hbody, hrest⟩ := Checked.bind_eq_ok.mp hrun
      cases pass with
      | again s' =>
          exact ih _ (hdec s s' hbody) (hagain s s' hs hbody) hrest rfl
      | leave r' =>
          cases hrest
          exact hleave s r hs hbody

/-- Induction on a loop that returns `r`, from its last pass back. -/
theorem run_induction
    {body : σ → Checked (Pass σ ρ)} {variant : σ → ℕ}
    {hdec : Decreases body variant} {r : ρ} {P : σ → Prop}
    (hagain : ∀ s s', body s = .ok (.again s') → P s' → P s)
    (hleave : ∀ s, body s = .ok (.leave r) → P s)
    {s : σ} (hrun : run body variant hdec s = .ok r) : P s := by
  induction hv : variant s using Nat.strongRecOn generalizing s with
  | ind v ih =>
      subst hv
      rw [run_eq] at hrun
      obtain ⟨pass, hbody, hrest⟩ := Checked.bind_eq_ok.mp hrun
      cases pass with
      | again s' => exact hagain s s' hbody (ih _ (hdec s s' hbody) hrest rfl)
      | leave r' =>
          cases hrest
          exact hleave s hbody

/-- Two passes that both go round again, or both leave. -/
inductive Pass.Related {σ' ρ' : Type v} (R : σ → σ' → Prop)
    (Q : ρ → ρ' → Prop) : Pass σ ρ → Pass σ' ρ' → Prop
  | again {s : σ} {s' : σ'} (h : R s s') : Related R Q (.again s) (.again s')
  | leave {r : ρ} {r' : ρ'} (h : Q r r') : Related R Q (.leave r) (.leave r')

/-- The simulation rule: a loop that answers every pass of another with a
related one returns whenever the other does, with a related result. -/
theorem run_of_related {σ' ρ' : Type v}
    {body : σ → Checked (Pass σ ρ)} {variant : σ → ℕ}
    {hdec : Decreases body variant}
    {body' : σ' → Checked (Pass σ' ρ')} {variant' : σ' → ℕ}
    {hdec' : Decreases body' variant'}
    {R : σ → σ' → Prop} {Q : ρ → ρ' → Prop}
    (hpass : ∀ s s' pass, R s s' → body s = .ok pass →
      ∃ pass', body' s' = .ok pass' ∧ Pass.Related R Q pass pass')
    {s : σ} {s' : σ'} (hs : R s s') {r : ρ}
    (hrun : run body variant hdec s = .ok r) :
    ∃ r', run body' variant' hdec' s' = .ok r' ∧ Q r r' := by
  induction hv : variant s using Nat.strongRecOn generalizing s s' with
  | ind v ih =>
      subst hv
      rw [run_eq] at hrun
      obtain ⟨pass, hbody, hrest⟩ := Checked.bind_eq_ok.mp hrun
      obtain ⟨pass', hbody', hrelated⟩ := hpass s s' pass hs hbody
      cases hrelated with
      | again h =>
          rw [run_of_again hbody']
          exact ih _ (hdec _ _ hbody) h hrest rfl
      | leave h =>
          cases hrest
          exact ⟨_, run_of_leave hbody', h⟩

/-! ### Loops that need not end -/

/-- The first `k` passes of a loop without a variant. -/
def passes (body : σ → Checked (Pass σ ρ)) :
    ℕ → σ → Checked (Pass σ ρ)
  | 0, s => .ok (.again s)
  | k + 1, s =>
      match body s with
      | .error p => .error p
      | .ok (.leave r) => .ok (.leave r)
      | .ok (.again s') => passes body k s'

section Passes

variable {body : σ → Checked (Pass σ ρ)} {s s' : σ}

theorem passes_of_again (hs : body s = .ok (.again s')) (k : ℕ) :
    passes body (k + 1) s = passes body k s' := by
  rw [passes, hs]

theorem passes_of_leave {r : ρ} (hs : body s = .ok (.leave r)) (k : ℕ) :
    passes body (k + 1) s = .ok (.leave r) := by
  rw [passes, hs]

/-- Passes in a row. -/
theorem passes_add {j : ℕ} (hj : passes body j s = .ok (.again s'))
    (k : ℕ) : passes body (j + k) s = passes body k s' := by
  induction j generalizing s with
  | zero =>
      cases hj
      rw [Nat.zero_add]
  | succ j ih =>
      rw [Nat.succ_add, passes]
      rw [passes] at hj
      rcases hbody : body s with p | s₁ | r
      · rw [hbody] at hj
        cases hj
      · rw [hbody] at hj
        exact ih hj
      · rw [hbody] at hj
        cases hj

/-- The invariant rule for the passes of a loop that need not end. -/
theorem passes_of_invariant {I : σ → Prop} {Q : ρ → Prop}
    (hpass : ∀ s, I s →
      (∃ s', body s = .ok (.again s') ∧ I s') ∨
        ∃ r, body s = .ok (.leave r) ∧ Q r)
    (k : ℕ) (s : σ) (hs : I s) :
    (∃ s', passes body k s = .ok (.again s') ∧ I s') ∨
      ∃ r, passes body k s = .ok (.leave r) ∧ Q r := by
  induction k generalizing s with
  | zero => exact Or.inl ⟨s, rfl, hs⟩
  | succ k ih =>
      rcases hpass s hs with ⟨s', hbody, hs'⟩ | ⟨r, hbody, hr⟩
      · rw [passes_of_again hbody]
        exact ih s' hs'
      · exact Or.inr ⟨r, passes_of_leave hbody k, hr⟩

theorem passes_one {pass : Pass σ ρ} (hs : body s = .ok pass) :
    passes body 1 s = .ok pass := by
  cases pass with
  | again s' => rw [passes_of_again hs, passes]
  | leave r => rw [passes_of_leave hs]

/-- A loop that another one goes through: the passes of the one are passes of
the other, which takes over with `exit`. -/
theorem passes_of_nested {τ ρ' : Type v} (outer : τ → Checked (Pass τ ρ'))
    (embed : σ → τ) (exit : ρ → Pass τ ρ')
    (hagain : ∀ s s', body s = .ok (.again s') →
      outer (embed s) = .ok (.again (embed s')))
    (hleave : ∀ s r, body s = .ok (.leave r) →
      outer (embed s) = .ok (exit r))
    {k : ℕ} {r : ρ} (h : passes body k s = .ok (.leave r)) :
    ∃ j, passes outer j (embed s) = .ok (exit r) := by
  induction k generalizing s with
  | zero => cases h
  | succ k ih =>
      rw [passes] at h
      rcases hbody : body s with p | s₁ | r₁
      · rw [hbody] at h
        cases h
      · rw [hbody] at h
        obtain ⟨j, hj⟩ := ih h
        exact ⟨j + 1, (passes_of_again (hagain s s₁ hbody) j).trans hj⟩
      · rw [hbody] at h
        cases h
        exact ⟨1, passes_one (hleave s r hbody)⟩

end Passes

end Loop
