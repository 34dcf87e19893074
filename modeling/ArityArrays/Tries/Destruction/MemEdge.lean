import Mathlib.Data.List.Forall2
import ArityArrays.Tries.Destruction.Subtree
import ArityArrays.Tries.Node

/-!
# Dropping owning edges

`MemEdge` owns its node, and its `Drop` runs the worklist of `drop_subtree`
with a callback that takes the node out of each edge.  The callback's edge
then drops in turn, with only the placeholder node left in it.
-/

namespace ArityTries

open ArityArrays Checked Loop

/-! ## Owning edges -/

/-- An owning edge: a node, in either of the three representations, and its
hash once it is sealed. -/
inductive MemEdge (A : Arity) (V H : Type) : Representation → Type where
  | packed (partialPath : Path A.LEN) (value : Option V)
      (children : PackedArray (MemEdge A V H .packed) A) (hash : Option H) :
      MemEdge A V H .packed
  | gapped (partialPath : Path A.LEN) (value : Option V)
      (children : GappedArray (MemEdge A V H .gapped) A) (hash : Option H) :
      MemEdge A V H .gapped
  | fixed (partialPath : Path A.LEN) (value : Option V)
      (children : FixedArray (Option (MemEdge A V H .fixed)) A)
      (hash : Option H) : MemEdge A V H .fixed

namespace MemEdge

variable {A : Arity} {V H : Type} {r : Representation}

def node (edge : MemEdge A V H r) : StoredNode A V (MemEdge A V H r) r :=
  match r, edge with
  | _, packed partialPath value children _ =>
      { partialPath, value, children }
  | _, gapped partialPath value children _ =>
      { partialPath, value, children }
  | _, fixed partialPath value children _ =>
      { partialPath, value, children }

def hash (edge : MemEdge A V H r) : Option H :=
  match r, edge with
  | _, packed _ _ _ hash => hash
  | _, gapped _ _ _ hash => hash
  | _, fixed _ _ _ hash => hash

/-- The edge of a node. -/
def ofNode (node : StoredNode A V (MemEdge A V H r) r) (hash : Option H) :
    MemEdge A V H r :=
  match r, node with
  | .packed, node => packed node.partialPath node.value node.children hash
  | .gapped, node => gapped node.partialPath node.value node.children hash
  | .fixed, node => fixed node.partialPath node.value node.children hash

@[simp] theorem node_ofNode (node : StoredNode A V (MemEdge A V H r) r)
    (hash : Option H) : (ofNode node hash).node = node := by
  rcases r <;> rfl

/-- `mem::take` on the node of an edge. -/
def take (edge : MemEdge A V H r) :
    StoredNode A V (MemEdge A V H r) r × MemEdge A V H r :=
  (edge.node, ofNode .default edge.hash)

end MemEdge

/-! ## `Drop` -/

/-- What happens while an edge is dropped. -/
inductive DropEvent (A : Arity) (V H : Type) (r : Representation) where
  /-- `drop` is called on an edge. -/
  | drop (edge : MemEdge A V H r)
  /-- `drop_subtree` is called. -/
  | subtree
  /-- The node of an edge is taken out of it. -/
  | take (edge : MemEdge A V H r)
  /-- A value is dropped. -/
  | value (v : V)

namespace MemEdge

variable {A : Arity} {V H : Type} {r : Representation}

/-- The model ran out of fuel. -/
def outOfFuel : Panic := ⟨"out of fuel"⟩

/-- Drop an edge: `Drop::drop`, then the fields of what is left in it.  The
fuel bounds the depth of nested calls and the passes of the worklist loop. -/
def drop : ℕ → MemEdge A V H r → List (DropEvent A V H r) →
    Checked (List (DropEvent A V H r))
  | 0, _, _ => .error outOfFuel
  | k + 1, edge, log => do
      let log := log ++ [.drop edge]
      let (edge, log) ←
        if edge.node.isLeaf then .ok (edge, log)
        else do
          let (node, emptied) := edge.take
          let log := log ++ [.take edge, .subtree]
          let pass ← dropSubtreePasses (fun v log => log ++ [.value v])
            (fun edge log => do
              let (node, emptied) := edge.take
              -- The callback's edge goes out of scope.
              let log ← drop k emptied (log ++ [.take edge])
              return (some node, log)) k node log
          match pass with
          | .again _ => .error outOfFuel
          | .leave log => .ok (emptied, log)
      let log := match edge.node.value with
        | none => log
        | some v => log ++ [.value v]
      edge.node.kids.foldlM (fun log edge => drop k edge log) log

end MemEdge

namespace DropEvent

variable {A : Arity} {V H : Type} {r : Representation}

/-- The edges whose nodes were taken out, in order. -/
def takes (log : List (DropEvent A V H r)) : List (MemEdge A V H r) :=
  log.filterMap fun event => match event with
    | take edge => some edge
    | _ => none

/-- The edges that were dropped, as they then were. -/
def drops (log : List (DropEvent A V H r)) : List (MemEdge A V H r) :=
  log.filterMap fun event => match event with
    | drop edge => some edge
    | _ => none

/-- The values that were dropped. -/
def values (log : List (DropEvent A V H r)) : List V :=
  log.filterMap fun event => match event with
    | value v => some v
    | _ => none

/-- The number of calls of `drop_subtree`. -/
def subtrees (log : List (DropEvent A V H r)) : ℕ :=
  log.countP fun event => match event with
    | subtree => true
    | _ => false

end DropEvent

/-! ## The tree behind an edge -/

namespace Edge

variable {n : ℕ} {V H : Type}

/-- The edges to the children of the node, ascending. -/
def kids (t : Edge n V H) : List (Edge n V H) :=
  t.node.children.iterPresent.map Prod.snd

/-- The edge and every edge beneath it. -/
def all (t : Edge n V H) : List (Edge n V H) :=
  t :: (Node.edges [] t.node).map Prod.snd

theorem all_eq (t : Edge n V H) : t.all = t :: t.kids.flatMap all := by
  have hslot : ∀ (L : Path n) (o : Option (Edge n V H)),
      (Node.slotEdges L o).map Prod.snd = o.elim [] all := by
    intro L o
    rcases o with _ | e
    · rfl
    · have hshift := Node.edges_append L [] e.node
      rw [List.append_nil] at hshift
      rw [Node.slotEdges_some, List.map_cons, hshift, List.map_map]
      rfl
  have hkids : ∀ is : List (Fin n),
      (is.flatMap fun i => (t.node.children.get i).elim [] all) =
        ((is.filterMap fun i => (t.node.children.get i).map fun e =>
          (i, e)).map Prod.snd).flatMap all := by
    intro is
    induction is with
    | nil => rfl
    | cons i is ih =>
        rw [List.flatMap_cons, ih]
        rcases h : t.node.children.get i with _ | e
        · rw [List.filterMap_cons_none (by rw [h]; rfl)]
          rfl
        · rw [List.filterMap_cons_some (b := (i, e)) (by rw [h]; rfl)]
          rfl
  rw [all, Node.edges_eq, List.map_flatMap]
  simp only [hslot]
  rw [hkids]
  rfl

end Edge

/-- The edge owns the tree, in valid containers. -/
inductive Represents {A : Arity} {V H : Type} {r : Representation} :
    MemEdge A V H r → Edge A.LEN V H → Prop
  | mk {e : MemEdge A V H r} {t : Edge A.LEN V H}
      {c : ChildMap A.LEN (MemEdge A V H r)}
      (path : e.node.partialPath = t.node.partialPath)
      (value : e.node.value = t.node.value) (hash : e.hash = t.hash)
      (holds : r.Holds e.node.children c)
      (child : ∀ i, Option.Rel Represents (c.get i)
        (t.node.children.get i)) : Represents e t

namespace Represents

variable {A : Arity} {V H : Type} {r : Representation}
  {e : MemEdge A V H r} {t : Edge A.LEN V H}

theorem valid (h : Represents e t) : e.node.Valid := by
  obtain ⟨-, -, -, hholds, -⟩ := h
  unfold StoredNode.Valid
  rw [r.contents_eq hholds]
  exact hholds

theorem value_eq (h : Represents e t) : e.node.value = t.node.value := by
  obtain ⟨-, hvalue, -, -, -⟩ := h
  exact hvalue

theorem kids (h : Represents e t) :
    List.Forall₂ Represents e.node.kids t.kids := by
  obtain ⟨-, -, -, hholds, hchild⟩ := h
  rw [StoredNode.kids, Edge.kids, r.contents_eq hholds,
    List.forall₂_map_left_iff, List.forall₂_map_right_iff]
  refine List.rel_filterMap (R := Eq) ?_ (List.forall₂_refl _)
  rintro i _ rfl
  dsimp only
  have hi := hchild i
  generalize ChildMap.get _ i = o at hi
  generalize t.node.children.get i = o' at hi
  rcases hi with hvv | _
  · exact .some hvv
  · exact .none

theorem isLeaf_eq (h : Represents e t) :
    e.node.isLeaf = decide (t.kids = []) := by
  rw [h.valid.isLeaf_eq]
  have hlength := h.kids.length_eq
  refine decide_eq_decide.mpr ?_
  rw [← List.length_eq_zero_iff, ← List.length_eq_zero_iff, hlength]

end Represents

end ArityTries
