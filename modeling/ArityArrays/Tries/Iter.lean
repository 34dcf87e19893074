import ArityArrays.Tries.Walk

/-!
# Iteration and validation

The iterator and the visitor hand on the valued nodes of a walk; validation
checks every node of one.
-/

namespace ArityTries

open Checked Loop

variable {n : ℕ} {V H σ ε τ : Type}

/-! ## Iteration -/

/-- The iterator over every valued node at or after `start`. -/
def iter (root : Trie n V H) (start : Option (Path n)) : Walk n V H :=
  Walk.new root start

/-- One pass of `Iter::next`: skip a node without a value. -/
def nextBody (store : EdgeStore n V H σ ε) :
    Walk n V H × σ → Checked (Pass (Walk n V H × σ)
      (Option (Except ε (Path n × V)) × Walk n V H × σ))
  | (w, s) => do
      match ← w.advance store s with
      | (.ok (some (path, node)), w, s) =>
          match node.value with
          | some value => return .leave (some (.ok (path, value)), w, s)
          | none => return .again (w, s)
      | (.ok none, w, s) => return .leave (none, w, s)
      | (.error x, w, s) => return .leave (some (.error x), w, s)

theorem nextBody_decreases (store : EdgeStore n V H σ ε) :
    Decreases (nextBody store) fun st => st.1.left := by
  rintro ⟨w, s⟩ st' h
  obtain ⟨⟨r, w', s'⟩, hadvance, h⟩ := bind_eq_ok.mp h
  rcases r with x | (_ | ⟨path, node⟩)
  · cases h
  · cases h
  · dsimp only at h
    split at h
    · cases h
    · cases h
      exact Walk.advance_left hadvance

/-- The next key with its value. -/
def next (store : EdgeStore n V H σ ε) (w : Walk n V H) (s : σ) :
    Checked (Option (Except ε (Path n × V)) × Walk n V H × σ) :=
  run (nextBody store) _ (nextBody_decreases store) (w, s)

/-- Whether a callback wants to go on. -/
inductive ControlFlow where
  | Continue
  | Break
  deriving DecidableEq

/-- One pass of `visit`; `t` is the state of the callback `f`. -/
def visitBody (store : EdgeStore n V H σ ε)
    (f : τ → Path n → TrieNode n V H → ControlFlow × τ) :
    Walk n V H × τ × σ → Checked (Pass (Walk n V H × τ × σ)
      (Except ε ControlFlow × τ × σ))
  | (w, t, s) => do
      match ← w.advance store s with
      | (.ok (some (path, node)), w, s) =>
          if node.value.isSome then
            match f t path node with
            | (.Break, t) => return .leave (.ok .Break, t, s)
            | (.Continue, t) => return .again (w, t, s)
          else return .again (w, t, s)
      | (.ok none, _, s) => return .leave (.ok .Continue, t, s)
      | (.error x, _, s) => return .leave (.error x, t, s)

theorem visitBody_decreases (store : EdgeStore n V H σ ε)
    (f : τ → Path n → TrieNode n V H → ControlFlow × τ) :
    Decreases (visitBody store f) fun st => st.1.left := by
  rintro ⟨w, t, s⟩ st' h
  obtain ⟨⟨r, w', s'⟩, hadvance, h⟩ := bind_eq_ok.mp h
  rcases r with x | (_ | ⟨path, node⟩)
  · cases h
  · cases h
  · have hlt := Walk.advance_left hadvance
    dsimp only at h
    split at h
    · split at h
      · cases h
      · cases h
        exact hlt
    · cases h
      exact hlt

/-- Call `f` with the full path and node of every valued node at or after
`start`, ascending, until it breaks. -/
def visit (store : EdgeStore n V H σ ε) (root : Trie n V H)
    (start : Option (Path n))
    (f : τ → Path n → TrieNode n V H → ControlFlow × τ) (t : τ) (s : σ) :
    Checked (Except ε ControlFlow × τ × σ) :=
  run (visitBody store f) _ (visitBody_decreases store f)
    (Walk.new root start, t, s)

/-! ## Validation -/

/-- The two ways a node can break the structural invariant. -/
inductive ViolationKind where
  | valuelessSingleChild
  | valuelessLeaf
  deriving DecidableEq

/-- A node that breaks the structural invariant, by full path. -/
structure Violation (n : ℕ) where
  path : Path n
  kind : ViolationKind

/-- Why `validate` failed. -/
inductive ValidateError (n : ℕ) (ε : Type) where
  | store (x : ε)
  | invalid (v : Violation n)

/-- One pass of `validate`: check the next node. -/
def validateBody (store : EdgeStore n V H σ ε) :
    Walk n V H × σ → Checked (Pass (Walk n V H × σ)
      (Except (ValidateError n ε) Unit × σ))
  | (w, s) => do
      match ← w.advance store s with
      | (.ok (some (path, node)), w, s) =>
          if node.value.isSome then return .again (w, s)
          match node.children.count with
          | 0 =>
              let v : Violation n := { path, kind := .valuelessLeaf }
              return .leave (.error (.invalid v), s)
          | 1 =>
              let v : Violation n := { path, kind := .valuelessSingleChild }
              return .leave (.error (.invalid v), s)
          | _ => return .again (w, s)
      | (.ok none, _, s) => return .leave (.ok (), s)
      | (.error x, _, s) => return .leave (.error (.store x), s)

theorem validateBody_decreases (store : EdgeStore n V H σ ε) :
    Decreases (validateBody store) fun st => st.1.left := by
  rintro ⟨w, s⟩ st' h
  obtain ⟨⟨r, w', s'⟩, hadvance, h⟩ := bind_eq_ok.mp h
  rcases r with x | (_ | ⟨path, node⟩)
  · cases h
  · cases h
  · have hlt := Walk.advance_left hadvance
    dsimp only at h
    split at h
    · cases h
      exact hlt
    · split at h
      · cases h
      · cases h
      · cases h
        exact hlt

/-- Check the structural invariant; the first violation in pre-order. -/
def validate (store : EdgeStore n V H σ ε) (root : Trie n V H) (s : σ) :
    Checked (Except (ValidateError n ε) Unit × σ) :=
  run (validateBody store) _ (validateBody_decreases store)
    (Walk.new root none, s)

end ArityTries
