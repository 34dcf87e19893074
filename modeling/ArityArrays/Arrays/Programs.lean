import ArityArrays.Arrays.Programs.Makers

/-!
# Programs over sparse arrays

A program holds a packed and a gapped array and calls any of their public
operations, in any order and with any arguments.  Each of the two is at all
times the layout of a finite map, on which the same calls have a plain meaning.
-/

namespace ArityArrays

open ArityTries Checked

/-- The arrays of a program. -/
structure Vars (T : Type) (A : Arity) where
  packed : PackedArray T A
  gapped : GappedArray T A

/-- The public operations, on either array. -/
inductive Call (T : Type) (A : Arity) where
  | packed (edit : Edit T A)
  | gapped (edit : Edit T A)
  | makePacked (src : Source T A)
  | makeGapped (src : Source T A)
  | withCapacity (n : ℕ)
  | reserve (n : ℕ)
  | shrinkToFit
  | clear

namespace Vars

variable {T : Type} {A : Arity}

def new : Vars T A := ⟨PackedArray.new, GappedArray.new⟩

/-- Make a call.  The process ends when a destructor panics while unwinding. -/
def perform (d : Destructor T) : Component (Call T A) (Answer T A) (Vars T A)
  | .packed e, s => do
      let out ← PackedArray.edit e s.packed
      return some (out.1, { s with packed := out.2 })
  | .gapped e, s => do
      let out ← GappedArray.edit e s.gapped
      return some (out.1, { s with gapped := out.2 })
  | .makePacked src, s => do
      let out ← (packedMaker T A).make d src (s.packed, s.gapped)
      return out.map fun r => (r.1, ⟨r.2.1, r.2.2⟩)
  | .makeGapped src, s => do
      let out ← (gappedMaker T A).make d src (s.gapped, s.packed)
      return out.map fun r => (r.1, ⟨r.2.2, r.2.1⟩)
  | .withCapacity n, s => do
      let g ← GappedArray.withCapacity T A n
      return some (.done, { s with gapped := g })
  | .reserve n, s => do
      let g ← s.gapped.reserve n
      return some (.done, { s with gapped := g })
  | .shrinkToFit, s => do
      let g ← s.gapped.shrinkToFit
      return some (.done, { s with gapped := g })
  | .clear, s => do
      let out ← s.gapped.clear d
      match out.exit with
      | .returns => return some (.done, { s with gapped := out.state })
      | .unwinds => return some (.panicked, { s with gapped := out.state })
      | .aborts => return none

end Vars

/-- The calls on the maps the two arrays stand for. -/
def Call.model {T : Type} {A : Arity} (d : Destructor T) :
    Model (Call T A) (Answer T A) (ChildMap A.LEN T × ChildMap A.LEN T)
  | .packed e, m => ((e.model m.1).1, (e.model m.1).2, m.2)
  | .gapped e, m => ((e.model m.2).1, m.1, (e.model m.2).2)
  | .makePacked src, m => src.model "PackedArray" m
  | .makeGapped src, m =>
      let out := src.model "GappedArray" m.swap
      (out.1, out.2.swap)
  | .withCapacity _, m => (.done, m.1, ChildMap.empty)
  | .reserve _, m => (.done, m)
  | .shrinkToFit, m => (.done, m)
  | .clear, m =>
      (if m.2.values.any d.fails then .panicked else .done, m.1,
        ChildMap.empty)

namespace Vars

variable {T : Type} {A : Arity}

/-- Both arrays stand for their maps. -/
def Hold (s : Vars T A) (m : ChildMap A.LEN T × ChildMap A.LEN T) : Prop :=
  s.packed.Holds m.1 ∧ s.gapped.Holds m.2

/-- A caller reads the values of the maps from both arrays. -/
structure Reads (s : Vars T A) (m : ChildMap A.LEN T × ChildMap A.LEN T) :
    Prop where
  packed : ∀ i, s.packed.get i = .ok (m.1.get i)
  gapped : ∀ i, s.gapped.get i = .ok (m.2.get i)

theorem Hold.reads {s : Vars T A} {m : ChildMap A.LEN T × ChildMap A.LEN T}
    (h : s.Hold m) : s.Reads m :=
  ⟨PackedArray.get_spec h.1, GappedArray.get_spec h.2⟩

theorem Reads.unique {s : Vars T A} {m m' : ChildMap A.LEN T × ChildMap A.LEN T}
    (h : s.Reads m) (h' : s.Reads m') : m = m' := by
  refine Prod.ext (ChildMap.ext_get fun i => ?_) (ChildMap.ext_get fun i => ?_)
  · exact Except.ok.inj ((h.packed i).symm.trans (h'.packed i))
  · exact Except.ok.inj ((h.gapped i).symm.trans (h'.gapped i))

theorem hold_new :
    (new : Vars T A).Hold (ChildMap.empty, ChildMap.empty) :=
  ⟨PackedArray.holds_new, GappedArray.holds_new⟩

theorem simulates (d : Destructor T) :
    (perform d : Component (Call T A) _ _).Simulates (Call.model d) Hold := by
  rintro call ⟨a, g⟩ ⟨ma, mg⟩ ⟨ha, hg⟩
  simp only at ha hg
  cases call with
  | packed e =>
      obtain ⟨a', hedit, ha'⟩ := PackedArray.edit_spec ha e
      exact Component.answers (s := ⟨a', g⟩) (by rw [perform, hedit]; rfl)
        ⟨ha', hg⟩
  | gapped e =>
      obtain ⟨g', hedit, hg', -⟩ := GappedArray.edit_spec hg e
      exact Component.answers (s := ⟨a, g'⟩) (by rw [perform, hedit]; rfl)
        ⟨ha, hg'⟩
  | makePacked src =>
      obtain ⟨out, hmake, hout⟩ := (packedMaker_models T A).simulates d src
        (a, g) (ma, mg) ⟨ha, hg⟩
      refine ⟨_, by rw [perform, hmake]; rfl, fun o s' hs' => ?_⟩
      obtain ⟨⟨_, made⟩, rfl, heq⟩ := Option.map_eq_some_iff.mp hs'
      obtain ⟨rfl, rfl⟩ := Prod.ext_iff.mp heq
      exact hout _ _ rfl
  | makeGapped src =>
      obtain ⟨out, hmake, hout⟩ := (gappedMaker_models T A).simulates d src
        (g, a) (mg, ma) ⟨hg, ha⟩
      refine ⟨_, by rw [perform, hmake]; rfl, fun o s' hs' => ?_⟩
      obtain ⟨⟨_, made⟩, rfl, heq⟩ := Option.map_eq_some_iff.mp hs'
      obtain ⟨rfl, rfl⟩ := Prod.ext_iff.mp heq
      obtain ⟨ho, hmade⟩ := hout _ _ rfl
      exact ⟨ho, hmade.2, hmade.1⟩
  | withCapacity n =>
      obtain ⟨g', hcall, hg', -⟩ := GappedArray.withCapacity_spec T A n
      exact Component.answers (s := ⟨a, g'⟩) (by rw [perform, hcall]; rfl)
        ⟨ha, hg'⟩
  | reserve n =>
      obtain ⟨g', hcall, hg', -⟩ := GappedArray.reserve_spec hg n
      exact Component.answers (s := ⟨a, g'⟩) (by rw [perform, hcall]; rfl)
        ⟨ha, hg'⟩
  | shrinkToFit =>
      obtain ⟨g', hcall, hg', -⟩ := GappedArray.shrinkToFit_spec hg
      exact Component.answers (s := ⟨a, g'⟩) (by rw [perform, hcall]; rfl)
        ⟨ha, hg'⟩
  | clear =>
      obtain ⟨out, hcall, hexit, hall, -⟩ := GappedArray.clear_total hg d
      simp only [perform, hcall, ok_bind, Call.model]
      cases hx : out.exit with
      | returns =>
          refine Component.answers (s := ⟨a, out.state⟩) ?_
            ⟨ha, (hall (by simp [hx])).1⟩
          rw [hexit.mp hx]
          rfl
      | unwinds =>
          have hany : mg.values.any d.fails = true := by
            rw [← Bool.not_eq_false, ← hexit, hx]
            exact Exit.noConfusion
          refine Component.answers (s := ⟨a, out.state⟩) ?_
            ⟨ha, (hall (by simp [hx])).1⟩
          rw [hany]
          rfl
      | aborts => exact ⟨none, rfl, by simp⟩

/-- With destructors that do not panic the process never ends. -/
theorem lasting {d : Destructor T} (hquiet : ∀ v, d.fails v = false) :
    (perform d : Component (Call T A) _ _).Lasting Hold := by
  rintro call ⟨a, g⟩ ⟨ma, mg⟩ ⟨ha, hg⟩
  simp only at ha hg
  cases call with
  | packed e =>
      obtain ⟨a', hedit, -⟩ := PackedArray.edit_spec ha e
      simp [perform, hedit]
  | gapped e =>
      obtain ⟨g', hedit, -⟩ := GappedArray.edit_spec hg e
      simp [perform, hedit]
  | makePacked src =>
      have hmade := (packedMaker_models T A).lasting hquiet src (a, g) (ma, mg)
        ⟨ha, hg⟩
      obtain ⟨out, hmake, -⟩ := (packedMaker_models T A).simulates d src
        (a, g) (ma, mg) ⟨ha, hg⟩
      rw [hmake] at hmade
      simp_all [perform]
  | makeGapped src =>
      have hmade := (gappedMaker_models T A).lasting hquiet src (g, a) (mg, ma)
        ⟨hg, ha⟩
      obtain ⟨out, hmake, -⟩ := (gappedMaker_models T A).simulates d src
        (g, a) (mg, ma) ⟨hg, ha⟩
      rw [hmake] at hmade
      simp_all [perform]
  | withCapacity n =>
      obtain ⟨g', hcall, -⟩ := GappedArray.withCapacity_spec T A n
      simp [perform, hcall]
  | reserve n =>
      obtain ⟨g', hcall, -⟩ := GappedArray.reserve_spec hg n
      simp [perform, hcall]
  | shrinkToFit =>
      obtain ⟨g', hcall, -⟩ := GappedArray.shrinkToFit_spec hg
      simp [perform, hcall]
  | clear =>
      obtain ⟨out, hcall, hexit, -⟩ := GappedArray.clear_total hg d
      have hx : out.exit = .returns := hexit.mpr (by simp [hquiet])
      simp [perform, hcall, hx]

/-! ## Runs -/

/-- The state is left by some calls, starting from two empty arrays. -/
def Reached (s : Vars T A) : Prop :=
  ∃ (d : Destructor T) (calls : List (Call T A)) (answers : List (Answer T A)),
    (perform d).run calls new = .ok (some (answers, s))

/-- No assertion fails in a run, and it answers as a run on two maps, which the
two arrays stand for at its end.  Only a destructor that panics can end the
process. -/
theorem run_spec (d : Destructor T) (calls : List (Call T A)) :
    ∃ out, (perform d).run calls new = .ok out ∧
      ((∀ v, d.fails v = false) → out ≠ none) ∧
      ∀ answers s, out = some (answers, s) →
        answers = (Model.run (Call.model d) calls
          (ChildMap.empty, ChildMap.empty)).1 ∧
        s.Hold (Model.run (Call.model d) calls
          (ChildMap.empty, ChildMap.empty)).2 := by
  obtain ⟨out, hrun, hall⟩ := (simulates d).run hold_new calls
  refine ⟨out, hrun, fun hquiet hnone => ?_, hall⟩
  obtain ⟨s, hs, -⟩ :=
    (simulates d).run_of_lasting (lasting hquiet) hold_new calls
  rw [hrun, hnone] at hs
  cases hs

theorem Reached.hold {s : Vars T A} (h : s.Reached) :
    ∃ m, s.Hold m := by
  obtain ⟨d, calls, answers, hrun⟩ := h
  obtain ⟨out, hout, -, hall⟩ := run_spec d calls
  rw [hrun] at hout
  cases hout
  exact ⟨_, (hall answers s rfl).2⟩

/-- Calls that end the process under no circumstances reach a state. -/
theorem reached_of_calls (calls : List (Call T A)) :
    ∃ s : Vars T A, s.Reached ∧ s.Hold (Model.run (Call.model ⟨false, fun _ => false⟩)
      calls (ChildMap.empty, ChildMap.empty)).2 := by
  obtain ⟨s, hrun, hs⟩ := (simulates ⟨false, fun _ => false⟩).run_of_lasting
    (lasting fun _ => rfl) hold_new calls
  exact ⟨s, ⟨_, calls, _, hrun⟩, hs⟩

end Vars

end ArityArrays
