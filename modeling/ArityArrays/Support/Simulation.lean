import ArityArrays.Support.Checked

/-!
# Components and their models

A component answers calls.  A call may change the state, reach a failing
assertion, or end the process.  A model answers the same calls as a plain
function.  When every single call is answered as the model answers it and
leaves related states, so is every run of calls.

Nothing here refers to a particular program.
-/

/-- What a call answers and the state it leaves; nothing if it ends the
process. -/
abbrev Component (ι ω σ : Type) := ι → σ → Checked (Option (ω × σ))

/-- What a component is meant to compute. -/
abbrev Model (ι ω τ : Type) := ι → τ → ω × τ

open Checked

variable {ι ω σ τ : Type}

/-- The answers to some calls, made in turn. -/
def Model.run (model : Model ι ω τ) : List ι → τ → List ω × τ
  | [], t => ([], t)
  | i :: is, t =>
      let out := model i t
      let rest := Model.run model is out.2
      (out.1 :: rest.1, rest.2)

namespace Component

def run (c : Component ι ω σ) : List ι → σ → Checked (Option (List ω × σ))
  | [], s => .ok (some ([], s))
  | i :: is, s => do
      let out ← c i s
      match out with
      | none => return none
      | some (o, s') =>
          let rest ← run c is s'
          return rest.map fun r => (o :: r.1, r.2)

/-- Related states are answered as by the model, and stay related. -/
def Simulates (c : Component ι ω σ) (model : Model ι ω τ) (R : σ → τ → Prop) :
    Prop :=
  ∀ i s t, R s t → ∃ out, c i s = .ok out ∧
    ∀ o s', out = some (o, s') → o = (model i t).1 ∧ R s' (model i t).2

/-- No call ends the process from a related state. -/
def Lasting (c : Component ι ω σ) (R : σ → τ → Prop) : Prop :=
  ∀ i s t, R s t → c i s ≠ .ok none

section Runs

variable {c : Component ι ω σ} {model : Model ι ω τ} {R : σ → τ → Prop}
variable {s : σ} {t : τ}

/-- A call that goes on, with its answer and the state it leaves. -/
theorem answers {call : Checked (Option (ω × σ))} {o : ω}
    (hcall : call = .ok (some (o, s))) (hs : R s t) :
    ∃ out, call = .ok out ∧
      ∀ o' s', out = some (o', s') → o' = o ∧ R s' t := by
  refine ⟨_, hcall, ?_⟩
  rintro o' s' ⟨⟩
  exact ⟨rfl, hs⟩

/-- No assertion fails in a run, and what it returns is what the model
returns. -/
theorem Simulates.run (h : c.Simulates model R) (hs : R s t) (is : List ι) :
    ∃ out, c.run is s = .ok out ∧
      ∀ os s', out = some (os, s') →
        os = (Model.run model is t).1 ∧ R s' (Model.run model is t).2 := by
  induction is generalizing s t with
  | nil =>
      refine ⟨_, rfl, ?_⟩
      rintro os s' ⟨⟩
      exact ⟨rfl, hs⟩
  | cons i is ih =>
      obtain ⟨out, hcall, hout⟩ := h i s t hs
      cases out with
      | none => exact ⟨none, by simp [Component.run, hcall], by simp⟩
      | some out =>
          obtain ⟨ho, hs'⟩ := hout out.1 out.2 rfl
          obtain ⟨rest, hrest, hall⟩ := ih hs'
          refine ⟨rest.map fun r => (out.1 :: r.1, r.2),
            by simp [Component.run, hcall, hrest], ?_⟩
          rintro os s'' hos
          obtain ⟨r, hr, hros⟩ := Option.map_eq_some_iff.mp hos
          cases hros
          obtain ⟨hos', hlast⟩ := hall r.1 r.2 hr
          simp only [Model.run, ho, hos']
          exact ⟨trivial, hlast⟩

/-- A run in which no call can end the process goes on to the end. -/
theorem Simulates.run_of_lasting (h : c.Simulates model R)
    (hlasting : c.Lasting R) (hs : R s t) (is : List ι) :
    ∃ s', c.run is s = .ok (some ((Model.run model is t).1, s')) ∧
      R s' (Model.run model is t).2 := by
  induction is generalizing s t with
  | nil => exact ⟨s, rfl, hs⟩
  | cons i is ih =>
      obtain ⟨out, hcall, hout⟩ := h i s t hs
      cases out with
      | none => exact absurd hcall (hlasting i s t hs)
      | some out =>
          obtain ⟨ho, hs'⟩ := hout out.1 out.2 rfl
          obtain ⟨s'', hrest, hlast⟩ := ih hs'
          refine ⟨s'', ?_, hlast⟩
          simp [Component.run, hcall, hrest, Model.run, ho]

end Runs

end Component
