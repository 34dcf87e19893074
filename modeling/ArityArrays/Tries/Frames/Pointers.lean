import ArityArrays.Support.Borrows
import ArityArrays.Tries.Frames

/-!
# The frame stack on raw pointers

The code's frames hold raw pointers into one tree, the trie the walk borrows.
Each is made from the one beneath it, and an access through a pointer ends
every borrow made since.  A client only has the operations of the stack.
-/

namespace ArityTries

open Checked Borrows

variable {n : ℕ} {V H X R : Type}

instance : Slots (TrieNode n V H) (Fin n) where
  get nd i := (nd.children.get i).map Edge.node
  set nd i m := nd.writeChild i m
  get_set := by
    intro nd m i m' h
    obtain ⟨e, he, -⟩ := Option.map_eq_some_iff.mp h
    simp [Node.writeChild_of_get he]
  set_get := by
    intro nd m i h
    obtain ⟨⟨_, _⟩, he, rfl⟩ := Option.map_eq_some_iff.mp h
    rw [Node.writeChild_of_get he]
    exact Node.setChild_get he
  set_set := by
    intro nd i m m'
    cases he : nd.children.get i with
    | none => simp [Node.writeChild, he]
    | some e => simp [Node.writeChild_of_get he]

/-- What a closure derives from the top node: the node of one of its edges,
and the top node as the closure leaves it. -/
structure Derived (n : ℕ) (V H X : Type) where
  parent : TrieNode n V H
  slot : Fin n
  child : TrieNode n V H
  extra : X
  occupied : (parent.children.get slot).isSome

namespace Frames

/-- Push what `derive` returns; on an error nothing is pushed. -/
def pushDerived {A : Type} (fs : Frames n V H X)
    (derive : TrieNode n V H →
      Checked (A × (TrieNode n V H ⊕ Derived n V H X))) :
    Checked (A × Frames n V H X) :=
  match fs with
  | [] => .error ⟨"a stack is never empty"⟩
  | f :: rest => do
      let (a, d) ← derive f.node
      match d with
      | .inl nd => return (a, { f with node := nd } :: rest)
      | .inr c => return (a,
          { slot := some c.slot, node := c.child, extra := c.extra } ::
            { f with node := c.parent } :: rest)

end Frames

/-! ## The operations on pointers -/

namespace Raw

/-- A path of node pointers from the root down, top first, plus data for each
frame, and the tree they point into. -/
structure Frames (n : ℕ) (V H X : Type) where
  frames : List (Pointer (Fin n) × X)
  memory : Memory (TrieNode n V H)

namespace Frames

/-- A stack whose only frame is `root`. -/
def new (root : TrieNode n V H) (extra : X) : Frames n V H X :=
  let (p, memory) := Memory.new root
  { frames := [(p, extra)], memory }

/-- The top frame's node and data. -/
def top (fs : Frames n V H X) :
    Checked (TrieNode n V H × X × Frames n V H X) := do
  let (p, extra) ← expect fs.frames.head? "a stack is never empty"
  let (nd, memory) ← fs.memory.access p
  return (nd, extra, { fs with memory })

/-- Write through the reference `top` hands out. -/
def setTop (fs : Frames n V H X) (nd : TrieNode n V H) :
    Checked (Frames n V H X) := do
  let (p, _) ← expect fs.frames.head? "a stack is never empty"
  let memory ← fs.memory.write p nd
  return { fs with memory }

/-- Write through the reference `top_extra` hands out. -/
def setTopExtra (fs : Frames n V H X) (extra : X) :
    Checked (Frames n V H X) :=
  match fs.frames with
  | [] => .error ⟨"a stack is never empty"⟩
  | (p, _) :: rest => .ok { fs with frames := (p, extra) :: rest }

/-- Push a child of the top node; on an error nothing is pushed. -/
def tryPushChild {A : Type} (fs : Frames n V H X)
    (derive : TrieNode n V H →
      Checked (A × (TrieNode n V H ⊕ Derived n V H X))) :
    Checked (A × Frames n V H X) := do
  let (p, _) ← expect fs.frames.head? "a stack is never empty"
  let (nd, memory) ← fs.memory.access p
  let (a, d) ← derive nd
  match d with
  | .inl nd =>
      let memory ← memory.write p nd
      return (a, { fs with memory })
  | .inr c =>
      let memory ← memory.write p (c.parent.writeChild c.slot c.child)
      let (q, memory) ← memory.reborrow p c.slot
      return (a, { frames := (q, c.extra) :: fs.frames, memory })

/-- Give the top node one last time, then discard its frame, the root frame
included. -/
def popWith {A : Type} (fs : Frames n V H X)
    (f : TrieNode n V H → X → Checked (A × TrieNode n V H)) :
    Checked (A × Frames n V H X) :=
  match fs.frames with
  | [] => .error ⟨"a stack is never empty"⟩
  | (p, extra) :: rest => do
      let (nd, memory) ← fs.memory.access p
      let (a, nd) ← f nd extra
      let memory ← memory.write p nd
      return (a, { frames := rest, memory })

/-- Discard the top frame and return its data; `none` if only the root frame
remains. -/
def pop (fs : Frames n V H X) : Option (X × Frames n V H X) :=
  match fs.frames with
  | [] => none
  | [_] => none
  | (_, extra) :: g :: rest =>
      some (extra, { fs with frames := g :: rest })

end Frames

end Raw

/-! ## Clients -/

/-- A computation that works on a stack with its operations alone. -/
inductive Client (n : ℕ) (V H X R : Type) : Type 1 where
  | done (r : R)
  | panic (p : Panic)
  | top (next : TrieNode n V H → X → Client n V H X R)
  | setTop (nd : TrieNode n V H) (next : Client n V H X R)
  | setTopExtra (extra : X) (next : Client n V H X R)
  | tryPushChild {A : Type} (derive : TrieNode n V H →
      Checked (A × (TrieNode n V H ⊕ Derived n V H X)))
      (next : A → Client n V H X R)
  | popWith {A : Type} (f : TrieNode n V H → X →
      Checked (A × TrieNode n V H)) (next : A → Client n V H X R)
  | pop (next : Option X → Client n V H X R)

namespace Client

/-- Run a client on a stack of nodes.  The last argument is the root once its
frame is discarded. -/
def onNodes : Client n V H X R → Frames n V H X → Trie n V H →
    Checked (R × Frames n V H X × Trie n V H)
  | done r, fs, t => .ok (r, fs, t)
  | panic p, _, _ => .error p
  | top next, fs, t => do
      let (nd, extra) ← fs.top
      (next nd extra).onNodes fs t
  | setTop nd next, fs, t => do
      let _ ← fs.top
      next.onNodes (fs.setTop nd) t
  | setTopExtra extra next, fs, t => do
      let fs ← fs.setTopExtra extra
      next.onNodes fs t
  | tryPushChild derive next, fs, t => do
      let (a, fs) ← fs.pushDerived derive
      (next a).onNodes fs t
  | popWith f next, fs, t => do
      let (a, nd, fs) ← fs.popWith f
      (next a).onNodes fs (if fs.isEmpty then some nd else t)
  | pop next, fs, t =>
      match fs.pop with
      | none => (next none).onNodes fs t
      | some (extra, fs) => (next (some extra)).onNodes fs t

/-- Run a client on a stack of pointers. -/
def onPointers : Client n V H X R → Raw.Frames n V H X →
    Checked (R × Raw.Frames n V H X)
  | done r, fs => .ok (r, fs)
  | panic p, _ => .error p
  | top next, fs => do
      let (nd, extra, fs) ← fs.top
      (next nd extra).onPointers fs
  | setTop nd next, fs => do
      let fs ← fs.setTop nd
      next.onPointers fs
  | setTopExtra extra next, fs => do
      let fs ← fs.setTopExtra extra
      next.onPointers fs
  | tryPushChild derive next, fs => do
      let (a, fs) ← fs.tryPushChild derive
      (next a).onPointers fs
  | popWith f next, fs => do
      let (a, fs) ← fs.popWith f
      (next a).onPointers fs
  | pop next, fs =>
      match fs.pop with
      | none => (next none).onPointers fs
      | some (extra, fs) => (next (some extra)).onPointers fs

end Client

end ArityTries
