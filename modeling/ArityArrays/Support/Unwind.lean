import Mathlib.Data.List.Basic
import Mathlib.Data.List.Nodup
import Mathlib.Data.Nat.Basic
import ArityArrays.Support.Block

/-!
# Destructors and unwinding

A routine releases what a block holds.  It records the destructors that run and
the blocks that are freed, and how it is left: it returns, a destructor panics
and it unwinds, or a second panic during unwinding aborts the process.  A guard
is cleanup that runs while unwinding, and a deferred routine runs on either exit.

Nothing here refers to a particular program.
-/

/-- What releasing a block does, in order. -/
inductive Event (T : Type) where
  | dropped (v : T)
  | freed (cap : ℕ)
  deriving DecidableEq, Repr

/-- How a routine is left. -/
inductive Exit where
  | returns
  | unwinds
  | aborts
  deriving DecidableEq, Repr

/-- The destructor of a type: whether it has one at all, and the values whose
destructor panics. -/
structure Destructor (T : Type) where
  needsDrop : Bool
  panics : T → Bool

namespace Destructor

variable {T : Type}

def fails (d : Destructor T) (v : T) : Bool := d.needsDrop && d.panics v

/-- The events of dropping the values `vs`. -/
def drops (d : Destructor T) (vs : List T) : List (Event T) :=
  if d.needsDrop then vs.map .dropped else []

/-- How dropping the values `vs` is left when at most one destructor panics. -/
def exit (d : Destructor T) (vs : List T) : Exit :=
  if vs.any d.fails then .unwinds else .returns

/-- At most one of the values has a panicking destructor. -/
def AtMostOne (d : Destructor T) (vs : List T) : Prop :=
  vs.Pairwise fun v w => ¬(d.fails v ∧ d.fails w)

/-- A drop that does not abort returns if and only if nothing panics. -/
theorem exit_eq {d : Destructor T} {vs : List T} {x : Exit}
    (h : x = .returns ↔ vs.any d.fails = false) (hx : x ≠ .aborts) :
    x = d.exit vs := by
  rw [exit]
  split
  · next hfails =>
      cases x with
      | returns => simp [hfails] at h
      | unwinds => rfl
      | aborts => exact absurd rfl hx
  · next hquiet => exact h.mpr (by simpa using hquiet)

@[simp] theorem drops_nil (d : Destructor T) : d.drops [] = [] := by
  simp [drops]

theorem drops_append (d : Destructor T) (vs ws : List T) :
    d.drops (vs ++ ws) = d.drops vs ++ d.drops ws := by
  cases h : d.needsDrop <;> simp [drops, h]

theorem drops_cons (d : Destructor T) (v : T) (vs : List T) :
    d.drops (v :: vs) = d.drops [v] ++ d.drops vs :=
  d.drops_append [v] vs

theorem AtMostOne.quiet {d : Destructor T} {v : T} {vs : List T}
    (h : d.AtMostOne (v :: vs)) (hv : d.fails v = true) :
    vs.any d.fails = false := by
  rw [List.any_eq_false]
  intro w hw hfails
  exact (List.pairwise_cons.mp h).1 w hw ⟨hv, hfails⟩

end Destructor

/-- The state a routine leaves behind, what it did and how it was left. -/
structure Outcome (σ T : Type) where
  state : σ
  events : List (Event T)
  exit : Exit

/-- A routine on a state. -/
abbrev Routine (σ T : Type) := σ → Checked (Outcome σ T)

namespace Routine

open Checked

variable {σ T : Type}

def done : Routine σ T := fun s => .ok ⟨s, [], .returns⟩

/-- `a`, and `b` after it if it returns. -/
def andThen (a b : Routine σ T) : Routine σ T := fun s => do
  let out ← a s
  match out.exit with
  | .returns =>
      let next ← b out.state
      return ⟨next.state, out.events ++ next.events, next.exit⟩
  | .unwinds => return out
  | .aborts => return out

/-- `a` with a guard that runs `cleanup` while unwinding and is forgotten when
`a` returns. -/
def guarded (a cleanup : Routine σ T) : Routine σ T := fun s => do
  let out ← a s
  match out.exit with
  | .unwinds =>
      let next ← cleanup out.state
      return ⟨next.state, out.events ++ next.events,
        if next.exit = .returns then .unwinds else .aborts⟩
  | .returns => return out
  | .aborts => return out

/-- `a` with a guard that runs `cleanup` at the end of the scope, however it is
left. -/
def deferred (a cleanup : Routine σ T) : Routine σ T := fun s => do
  let out ← a s
  match out.exit with
  | .returns =>
      let next ← cleanup out.state
      return ⟨next.state, out.events ++ next.events, next.exit⟩
  | .unwinds =>
      let next ← cleanup out.state
      return ⟨next.state, out.events ++ next.events,
        if next.exit = .returns then .unwinds else .aborts⟩
  | .aborts => return out

/-- Cleanup that ends in `s'` and returns does the same after either exit. -/
theorem deferred_of_returns {a cleanup : Routine σ T} {s s₁ s' : σ}
    {es fs : List (Event T)} {x : Exit} (ha : a s = .ok ⟨s₁, es, x⟩)
    (hx : x ≠ .aborts) (hcleanup : cleanup s₁ = .ok ⟨s', fs, .returns⟩) :
    deferred a cleanup s = .ok ⟨s', es ++ fs, x⟩ := by
  cases x with
  | returns => simp [deferred, ha, hcleanup]
  | unwinds => simp [deferred, ha, hcleanup]
  | aborts => exact absurd rfl hx

end Routine

/-! ## Dropping the values of a block -/

namespace Block

open Checked Routine

variable {T : Type}

/-- The block with the slots `ps` uninitialised: what is left when the values
there are dropped or forgotten. -/
def vacate (b : Block T) (ps : List ℕ) : Block T :=
  { b with slot := fun p => if p ∈ ps then none else b.slot p }

@[simp] theorem vacate_cap (b : Block T) (ps : List ℕ) :
    (b.vacate ps).cap = b.cap := rfl

@[simp] theorem vacate_nil (b : Block T) : b.vacate [] = b := by
  simp [vacate]

theorem vacate_cons (b : Block T) (p : ℕ) (ps : List ℕ) :
    b.vacate (p :: ps) =
      ({ b with slot := Function.update b.slot p none } : Block T).vacate ps := by
  simp only [vacate, mk.injEq, true_and]
  funext q
  by_cases hq : q = p
  · subst q
    simp
  · simp [hq]

theorem slot_vacate (b : Block T) (ps : List ℕ) (p : ℕ) :
    (b.vacate ps).slot p = if p ∈ ps then none else b.slot p := rfl

/-- Run the destructor of the value in slot `p`. -/
def dropInPlace (d : Destructor T) (p : ℕ) : Routine (Block T) T := fun b => do
  let out ← b.read p
  return ⟨out.2, d.drops [out.1],
    if d.fails out.1 then .unwinds else .returns⟩

/-- Drop the values in the slots `ps`, in order.  When a destructor panics, a
guard over the slots after it still drops those. -/
def dropEach (d : Destructor T) : List ℕ → Routine (Block T) T
  | [] => done
  | p :: ps =>
      (guarded (dropInPlace d p) (dropEach d ps)).andThen (dropEach d ps)

/-- Drop the values in the slots `ps`, in order, without a guard. -/
def dropRun (d : Destructor T) : List ℕ → Routine (Block T) T
  | [] => done
  | p :: ps => (dropInPlace d p).andThen (dropRun d ps)

/-- The drop glue of the slice of `len` slots at `start`. -/
def dropSlice (d : Destructor T) (start len : ℕ) : Routine (Block T) T :=
  dropEach d (List.range' start len)

def free (cap : ℕ) : Routine (Block T) T := fun b => do
  b.dealloc cap
  return ⟨b, [.freed cap], .returns⟩

theorem free_of_empty {b : Block T} {cap : ℕ} (hcap : b.cap = cap)
    (h : ∀ p, b.slot p = none) :
    (free cap : Routine (Block T) T) b = .ok ⟨b, [.freed cap], .returns⟩ := by
  simp [free, dealloc_of_empty hcap h]

section Drop

variable {d : Destructor T} {b : Block T} {p : ℕ} {v : T}
variable {ps : List ℕ} {vs : List T}

theorem dropInPlace_of_slot (h : b.slot p = some v) :
    dropInPlace d p b = .ok ⟨b.vacate [p], d.drops [v],
      if d.fails v then .unwinds else .returns⟩ := by
  rw [vacate_cons, vacate_nil]
  simp [dropInPlace, read_of_slot h]

private theorem map_slot_of_cons (hnodup : (p :: ps).Nodup)
    (h : (p :: ps).map b.slot = (v :: vs).map some) :
    b.slot p = some v ∧ ps.map (b.vacate [p]).slot = vs.map some := by
  rw [List.map_cons, List.map_cons, List.cons.injEq] at h
  refine ⟨h.1, ?_⟩
  rw [← h.2]
  refine List.map_congr_left fun q hq => ?_
  have hne : q ≠ p := by
    rintro rfl
    exact (List.nodup_cons.mp hnodup).1 hq
  simp [slot_vacate, hne]

private theorem vacate_vacate (b : Block T) (p : ℕ) (ps : List ℕ) :
    (b.vacate [p]).vacate ps = b.vacate (p :: ps) := by
  rw [vacate_cons b p ps, vacate_cons b p [], vacate_nil]

/-- Whatever panics: unless the process aborts, every value is dropped once,
and only a second panic aborts it. -/
theorem dropEach_total (d : Destructor T) (hnodup : ps.Nodup)
    (h : ps.map b.slot = vs.map some) :
    ∃ out, dropEach d ps b = .ok out ∧ out.state.cap = b.cap ∧
      (out.exit = .returns ↔ vs.any d.fails = false) ∧
      (out.exit ≠ .aborts →
        out.state = b.vacate ps ∧ out.events = d.drops vs) ∧
      (d.AtMostOne vs → out.exit ≠ .aborts) := by
  induction ps generalizing b vs with
  | nil =>
      obtain rfl : vs = [] := by simpa using h.symm
      exact ⟨_, rfl, rfl, by simp, by simp, by simp⟩
  | cons p ps ih =>
      cases vs with
      | nil => simp at h
      | cons v vs =>
          obtain ⟨hv, hvs⟩ := map_slot_of_cons hnodup h
          obtain ⟨out, hrest, hcap, hexit, hall, hsafe⟩ :=
            ih (List.nodup_cons.mp hnodup).2 hvs
          have hhead := dropInPlace_of_slot (d := d) hv
          rw [vacate_vacate] at hall
          rw [d.drops_cons v vs]
          cases hfails : d.fails v with
          | true =>
              refine ⟨⟨out.state, d.drops [v] ++ out.events,
                if out.exit = .returns then .unwinds else .aborts⟩, ?_, hcap,
                ?_, ?_, ?_⟩
              · cases hx : out.exit <;>
                  simp [dropEach, andThen, guarded, hhead, hfails, hrest, hx]
              · simp only [List.any_cons, hfails, Bool.true_or, reduceCtorEq,
                  iff_false]
                split <;> simp
              · intro hx
                have hreturns : out.exit = .returns := by
                  by_contra hne
                  simp [hne] at hx
                obtain ⟨hstate, hevents⟩ := hall (by simp [hreturns])
                exact ⟨hstate, by simp only [hevents]⟩
              · -- The guard drops the rest, and none of it can panic again.
                intro hone
                simp [hexit.mpr (hone.quiet hfails)]
          | false =>
              refine ⟨⟨out.state, d.drops [v] ++ out.events, out.exit⟩, ?_,
                hcap, ?_, ?_, ?_⟩
              · simp [dropEach, andThen, guarded, hhead, hfails, hrest]
              · simpa [hfails] using hexit
              · intro hx
                obtain ⟨hstate, hevents⟩ := hall hx
                exact ⟨hstate, by simp only [hevents]⟩
              · exact fun hone => hsafe (List.pairwise_cons.mp hone).2

/-- Every value is dropped once, in slot order, also when one of the
destructors panics. -/
theorem dropEach_eq (hnodup : ps.Nodup) (h : ps.map b.slot = vs.map some)
    (hone : d.AtMostOne vs) :
    dropEach d ps b = .ok ⟨b.vacate ps, d.drops vs, d.exit vs⟩ := by
  obtain ⟨out, hdrop, -, hexit, hall, hsafe⟩ := dropEach_total d hnodup h
  obtain ⟨hstate, hevents⟩ := hall (hsafe hone)
  rw [hdrop, ← hstate, ← hevents, ← Destructor.exit_eq hexit (hsafe hone)]

/-- Without a guard every value is dropped once as long as no destructor
panics. -/
theorem dropRun_total (d : Destructor T) (hnodup : ps.Nodup)
    (h : ps.map b.slot = vs.map some) :
    ∃ out, dropRun d ps b = .ok out ∧ out.state.cap = b.cap ∧
      (out.exit = .returns ↔ vs.any d.fails = false) ∧
      (out.exit = .returns →
        out.state = b.vacate ps ∧ out.events = d.drops vs) := by
  induction ps generalizing b vs with
  | nil =>
      obtain rfl : vs = [] := by simpa using h.symm
      exact ⟨_, rfl, rfl, by simp, by simp⟩
  | cons p ps ih =>
      cases vs with
      | nil => simp at h
      | cons v vs =>
          obtain ⟨hv, hvs⟩ := map_slot_of_cons hnodup h
          obtain ⟨out, hrest, hcap, hexit, hall⟩ :=
            ih (List.nodup_cons.mp hnodup).2 hvs
          have hhead := dropInPlace_of_slot (d := d) hv
          rw [vacate_vacate] at hall
          rw [d.drops_cons v vs]
          cases hfails : d.fails v with
          | true =>
              exact ⟨⟨b.vacate [p], d.drops [v], .unwinds⟩,
                by simp [dropRun, andThen, hhead, hfails], rfl,
                by simp [hfails], by simp⟩
          | false =>
              refine ⟨⟨out.state, d.drops [v] ++ out.events, out.exit⟩,
                by simp [dropRun, andThen, hhead, hfails, hrest], hcap,
                by simpa [hfails] using hexit, fun hx => ?_⟩
              obtain ⟨hstate, hevents⟩ := hall hx
              exact ⟨hstate, by simp only [hevents]⟩

end Drop

end Block

/-! ## Dropping a block -/

section Release

open Checked

variable {T : Type} {d : Destructor T} {b : Block T} {ps : List ℕ}
variable {vs : List T} {drop : Routine (Block T) T}

/-- A routine that drops the values `vs` in the slots `ps`, each once and in
order, unless two destructors panic. -/
structure Drops (d : Destructor T) (drop : Routine (Block T) T) (b : Block T)
    (ps : List ℕ) (vs : List T) : Prop where
  total : ∃ out, drop b = .ok out ∧ (out.exit ≠ .aborts →
    out.state = b.vacate ps ∧ out.events = d.drops vs)
  exit : d.AtMostOne vs → drop b = .ok ⟨b.vacate ps, d.drops vs, d.exit vs⟩

theorem dropEach_drops (d : Destructor T) (hnodup : ps.Nodup)
    (h : ps.map b.slot = vs.map some) :
    Drops d (Block.dropEach d ps) b ps vs where
  total := by
    obtain ⟨out, hdrop, -, -, hall, -⟩ := Block.dropEach_total d hnodup h
    exact ⟨out, hdrop, hall⟩
  exit := Block.dropEach_eq hnodup h

/-- Release the block behind a pointer, if there is one: drop values and free
it, however the drop is left. -/
def releaseWith (ptr : Option (Block T)) (drop : Routine (Block T) T) (cap : ℕ) :
    Checked (List (Event T) × Exit) :=
  match ptr with
  | none => .ok ([], .returns)
  | some b => do
      let out ← Routine.deferred drop (Block.free cap) b
      return (out.events, out.exit)

/-- The values `vs` are dropped once each, in order, and after that the block is
freed once, if there is one. -/
structure Released (d : Destructor T) (vs : List T) (blockCap : Option ℕ)
    (out : List (Event T) × Exit) : Prop where
  events : out.2 ≠ .aborts →
    out.1 = d.drops vs ++ (blockCap.map Event.freed).toList
  exit : d.AtMostOne vs → out.2 = d.exit vs

theorem releaseWith_none (d : Destructor T) (drop : Routine (Block T) T)
    (cap : ℕ) :
    ∃ out, releaseWith none drop cap = .ok out ∧ Released d [] none out :=
  ⟨_, rfl, fun _ => by simp, fun _ => by simp [Destructor.exit]⟩

theorem releaseWith_some {cap : ℕ} (h : Drops d drop b ps vs)
    (hcap : b.cap = cap) (hempty : ∀ p, p ∉ ps → b.slot p = none) :
    ∃ out, releaseWith (some b) drop cap = .ok out ∧
      Released d vs (some cap) out := by
  have hfree : (Block.free cap : Routine (Block T) T) (b.vacate ps) =
      .ok ⟨b.vacate ps, [.freed cap], .returns⟩ := by
    refine Block.free_of_empty hcap fun p => ?_
    rw [Block.slot_vacate]
    split
    · rfl
    · next hp => exact hempty p hp
  obtain ⟨out, hdrop, hall⟩ := h.total
  have hexit : d.AtMostOne vs → out.exit = d.exit vs := by
    intro hone
    have heq := h.exit hone
    rw [hdrop, Except.ok.injEq] at heq
    rw [heq]
  by_cases hx : out.exit = .aborts
  · refine ⟨(out.events, .aborts), ?_, fun hne => absurd rfl hne, fun hone => ?_⟩
    · simp [releaseWith, Routine.deferred, hdrop, hx]
    · rw [← hexit hone, hx]
  · obtain ⟨hstate, hevents⟩ := hall hx
    have hdone : Routine.deferred drop (Block.free cap) b =
        .ok ⟨b.vacate ps, d.drops vs ++ [.freed cap], out.exit⟩ := by
      refine Routine.deferred_of_returns ?_ hx hfree
      rw [hdrop, ← hstate, ← hevents]
    refine ⟨(d.drops vs ++ [.freed cap], out.exit), ?_, fun _ => rfl, hexit⟩
    rw [releaseWith, hdone]
    rfl

end Release

/-! ## Cloning into a block -/

section Clone

open Checked

variable {T γ : Type}

/-- What the `k`-th call of a clone function makes of a value; nothing if the
call panics. -/
abbrev Cloner (T : Type) := ℕ → T → Option T

namespace Cloner

/-- The clone function that never panics. -/
def total (f : T → T) : Cloner T := fun _ v => some (f v)

/-- The clones of the values `vs` made from call `k` on, and whether they are
all made. -/
def clones (cloner : Cloner T) : ℕ → List T → List T × Bool
  | _, [] => ([], true)
  | k, v :: vs =>
      match cloner k v with
      | none => ([], false)
      | some w =>
          let rest := cloner.clones (k + 1) vs
          (w :: rest.1, rest.2)

/-- How a loop is left that clones the values `vs`. -/
def exit (cloner : Cloner T) (vs : List T) : Exit :=
  if (cloner.clones 0 vs).2 then .returns else .unwinds

theorem length_clones_le (cloner : Cloner T) (k : ℕ) (vs : List T) :
    (cloner.clones k vs).1.length ≤ vs.length := by
  induction vs generalizing k with
  | nil => exact Nat.le_refl 0
  | cons v vs ih =>
      unfold clones
      cases cloner k v with
      | none => exact Nat.zero_le _
      | some w => exact Nat.succ_le_succ (ih (k + 1))

theorem length_clones {cloner : Cloner T} {k : ℕ} {vs : List T}
    (h : (cloner.clones k vs).2 = true) :
    (cloner.clones k vs).1.length = vs.length := by
  induction vs generalizing k with
  | nil => rfl
  | cons v vs ih =>
      unfold clones at h ⊢
      cases hw : cloner k v with
      | none => simp [hw] at h
      | some w =>
          simp only [hw] at h
          exact congrArg Nat.succ (ih h)

@[simp] theorem clones_total (f : T → T) (k : ℕ) (vs : List T) :
    (total f).clones k vs = (vs.map f, true) := by
  induction vs generalizing k with
  | nil => rfl
  | cons v vs ih =>
      have hv : total f k v = some (f v) := rfl
      simp only [clones, hv, ih, List.map_cons]

end Cloner

/-- One pass of a loop that clones values into a block: where the clone goes,
the value to clone, and the guard's record of what is initialised after it. -/
abbrev CloneStep (T γ : Type) := γ → Checked (ℕ × T × γ)

/-- Clone into the block until a call panics. -/
def cloneFill (cloner : Cloner T) :
    ℕ → List (CloneStep T γ) → Block T × γ → Checked ((Block T × γ) × Exit)
  | _, [], s => .ok (s, .returns)
  | k, step :: steps, s => do
      let next ← step s.2
      match cloner k next.2.1 with
      | none => return (s, .unwinds)
      | some w =>
          let dst ← s.1.write next.1 w
          cloneFill cloner (k + 1) steps (dst, next.2.2)

/-- The loop writes the clones that are made to their slots. -/
theorem cloneFill_eq (cloner : Cloner T) (slot : ℕ → ℕ) (record : ℕ → γ)
    {steps : List (CloneStep T γ)} {vs : List T} {k : ℕ}
    (hlen : steps.length = vs.length)
    (hsteps : ∀ (j : ℕ) (step : CloneStep T γ) (v : T),
      steps[j]? = some step → vs[j]? = some v →
        step (record (k + j)) = .ok (slot (k + j), v, record (k + j + 1)))
    (dst : Block T) :
    cloneFill cloner k steps (dst, record k) =
      Block.writeAll (((cloner.clones k vs).1.zipIdx k).map fun w =>
        (slot w.2, w.1)) dst >>= fun dst' =>
          .ok ((dst', record (k + (cloner.clones k vs).1.length)),
            if (cloner.clones k vs).2 then .returns else .unwinds) := by
  induction vs generalizing k steps dst with
  | nil =>
      obtain rfl := List.length_eq_zero_iff.mp hlen
      rfl
  | cons v vs ih =>
      cases steps with
      | nil => simp at hlen
      | cons step steps =>
          have hstep := hsteps 0 step v rfl rfl
          rw [Nat.add_zero] at hstep
          cases hw : cloner k v with
          | none => simp [cloneFill, hstep, hw, Cloner.clones]
          | some w =>
              have hrest : ∀ dst, cloneFill cloner (k + 1) steps
                  (dst, record (k + 1)) = _ :=
                ih (by simpa using hlen) fun j step u hj hu => by
                  have := hsteps (j + 1) step u hj hu
                  rwa [Nat.add_right_comm k 1 j]
              cases hwrite : dst.write (slot k) w with
              | error p =>
                  simp [cloneFill, hstep, hw, Cloner.clones, hwrite,
                    Block.writeAll_cons, bind, Except.bind]
              | ok dst' =>
                  simp [cloneFill, hstep, hw, Cloner.clones, hwrite,
                    Block.writeAll_cons, hrest, Nat.add_assoc,
                    Nat.add_comm 1]

/-- A fill under a guard: the guard is forgotten when the loop returns, and
dropped with its record when a clone call panics. -/
def guardedFill (fill : Checked ((Block T × γ) × Exit))
    (guardDrop : γ → Routine (Block T) T) :
    Checked (Outcome (Option (Block T)) T) := do
  let out ← fill
  match out.2 with
  | .returns => return ⟨some out.1.1, [], .returns⟩
  | .unwinds =>
      let dropped ← guardDrop out.1.2 out.1.1
      return ⟨none, dropped.events,
        if dropped.exit = .returns then .unwinds else .aborts⟩
  | .aborts => return ⟨none, [], .aborts⟩

/-- A guard drop releases the values `ws` of its block and frees the block,
unless a destructor panics. -/
def Releases (d : Destructor T) (cap : ℕ) (ws : List T)
    (out : Outcome (Block T) T) : Prop :=
  (out.exit = .returns ↔ ws.any d.fails = false) ∧
    (out.exit = .returns → out.events = d.drops ws ++ [.freed cap])

section GuardDrop

variable {d : Destructor T} {b : Block T} {cap : ℕ} {slot : ℕ → ℕ}
variable {ws : List T}

theorem free_of_vacated (h : Block.Filled b cap slot ws) :
    (Block.free cap : Routine (Block T) T)
        (b.vacate ((List.range ws.length).map slot)) =
      .ok ⟨b.vacate ((List.range ws.length).map slot), [.freed cap],
        .returns⟩ := by
  refine Block.free_of_empty h.cap fun p => ?_
  rw [Block.slot_vacate]
  split
  · rfl
  · next hp => exact h.free p hp

/-- Freeing the block after a drop of the filled slots that vacates them when it
returns. -/
theorem releases_of_drop {drop : Routine (Block T) T}
    {out : Outcome (Block T) T} (h : Block.Filled b cap slot ws)
    (hdrop : drop b = .ok out)
    (hexit : out.exit = .returns ↔ ws.any d.fails = false)
    (hall : out.exit = .returns →
      out.state = b.vacate ((List.range ws.length).map slot) ∧
        out.events = d.drops ws) :
    ∃ out, (drop.andThen (Block.free cap)) b = .ok out ∧
      Releases d cap ws out := by
  cases hx : out.exit with
  | returns =>
      obtain ⟨hstate, hevents⟩ := hall hx
      refine ⟨⟨b.vacate ((List.range ws.length).map slot),
        d.drops ws ++ [.freed cap], .returns⟩, ?_, by simp [hexit.mp hx],
        fun _ => rfl⟩
      simp [Routine.andThen, hdrop, hx, hstate, hevents, free_of_vacated h]
  | unwinds =>
      exact ⟨out, by simp [Routine.andThen, hdrop, hx], hexit, by simp [hx]⟩
  | aborts =>
      exact ⟨out, by simp [Routine.andThen, hdrop, hx], hexit, by simp [hx]⟩

/-- Dropping the filled slots as a slice and freeing the block. -/
theorem releases_dropEach (d : Destructor T) (h : Block.Filled b cap slot ws)
    (hnodup : ((List.range ws.length).map slot).Nodup) :
    ∃ out, ((Block.dropEach d ((List.range ws.length).map slot)).andThen
        (Block.free cap)) b = .ok out ∧ Releases d cap ws out := by
  obtain ⟨out, hdrop, -, hexit, hall, -⟩ :=
    Block.dropEach_total d hnodup h.slots
  exact releases_of_drop h hdrop hexit fun hx => hall (by simp [hx])

/-- Dropping the filled slots one by one and freeing the block. -/
theorem releases_dropRun (d : Destructor T) (h : Block.Filled b cap slot ws)
    (hnodup : ((List.range ws.length).map slot).Nodup) :
    ∃ out, ((Block.dropRun d ((List.range ws.length).map slot)).andThen
        (Block.free cap)) b = .ok out ∧ Releases d cap ws out := by
  obtain ⟨out, hdrop, -, hexit, hall⟩ := Block.dropRun_total d hnodup h.slots
  exact releases_of_drop h hdrop hexit hall

end GuardDrop

/-- A clone call has panicked: the clones `ws` made so far are dropped, once
each, and their block is freed.  If one of their destructors panics as well,
the process aborts. -/
def Abandons {σ : Type} (d : Destructor T) (cap : ℕ) (ws : List T)
    (out : Outcome (Option σ) T) : Prop :=
  out.state = none ∧
    if ws.any d.fails then out.exit = .aborts
    else out.events = d.drops ws ++ [.freed cap] ∧ out.exit = .unwinds

/-- A guarded fill either has all the clones in the block, or gives up those
that were made. -/
theorem guardedFill_spec (d : Destructor T) (cloner : Cloner T) {slot : ℕ → ℕ}
    (record : ℕ → γ) {steps : List (CloneStep T γ)} {vs : List T} {cap : ℕ}
    {guardDrop : γ → Routine (Block T) T} (hfits : Block.Fits cap slot vs.length)
    (hlen : steps.length = vs.length)
    (hsteps : ∀ (j : ℕ) (step : CloneStep T γ) (v : T),
      steps[j]? = some step → vs[j]? = some v →
        step (record j) = .ok (slot j, v, record (j + 1)))
    (hdrop : ∀ ws : List T, ws.length ≤ vs.length →
      ∀ b, Block.Filled b cap slot ws →
        ∃ out, guardDrop (record ws.length) b = .ok out ∧
          Releases d cap ws out) :
    ∃ out, guardedFill (cloneFill cloner 0 steps (Block.alloc cap, record 0))
        guardDrop = .ok out ∧
      ((cloner.clones 0 vs).2 = true → ∃ b, out = ⟨some b, [], .returns⟩ ∧
        Block.Filled b cap slot (cloner.clones 0 vs).1) ∧
      ((cloner.clones 0 vs).2 = false →
        Abandons d cap (cloner.clones 0 vs).1 out) := by
  have hle := cloner.length_clones_le 0 vs
  obtain ⟨b, hb, hfilled⟩ := Block.fill_spec (cloner.clones 0 vs).1
    (hfits.of_le hle)
  have hfill := cloneFill_eq cloner slot record (k := 0) hlen
    (fun j step v hj hv => by
      rw [Nat.zero_add]
      exact hsteps j step v hj hv) (Block.alloc cap)
  rw [hb, ok_bind, Nat.zero_add] at hfill
  cases hdone : (cloner.clones 0 vs).2 with
  | true =>
      refine ⟨⟨some b, [], .returns⟩, ?_, fun _ => ⟨b, rfl, hfilled⟩, by simp⟩
      simp [guardedFill, hfill, hdone]
  | false =>
      obtain ⟨out, hout, hexit, hevents⟩ := hdrop _ hle b hfilled
      refine ⟨_, by simp [guardedFill, hfill, hdone, hout]; rfl, by simp,
        fun _ => ⟨rfl, ?_⟩⟩
      cases hany : (cloner.clones 0 vs).1.any d.fails with
      | true =>
          have hne : out.exit ≠ .returns := fun h => by
            rw [hexit.mp h] at hany
            cases hany
          simp [hne]
      | false =>
          have hreturns := hexit.mpr hany
          simp [hreturns, hevents hreturns]

end Clone
