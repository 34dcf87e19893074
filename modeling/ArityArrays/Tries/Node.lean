import Mathlib.Algebra.Order.BigOperators.Group.Finset
import ArityArrays.Tries.Children

/-!
# Nodes, edges and the trees they form

A node is a partial path, an optional value and a map of edges.  An edge is
known by what a store lets the algorithms observe of it: the node it resolves
to and its cached hash, which is present exactly when the edge is sealed.  A
trie is an optional node, and every node of it has a leading path, the full
path from the root to its slot in its parent.
-/

namespace ArityTries

/-- A trie node over edges of type `E`. -/
@[ext] structure Node (n : ℕ) (V E : Type) where
  partialPath : Path n
  value : Option V
  children : ChildMap n E

namespace Node

variable {n : ℕ} {V E : Type}

/-- A node with a value and no children. -/
def leaf (partialPath : Path n) (value : V) : Node n V E :=
  { partialPath, value := some value, children := ChildMap.empty }

/-- Replace the partial path, returning the old one. -/
def setPartialPath (nd : Node n V E) (p : Path n) : Path n × Node n V E :=
  (nd.partialPath, { nd with partialPath := p })

/-- Replace the value, returning the old one. -/
def setValue (nd : Node n V E) (v : Option V) : Option V × Node n V E :=
  (nd.value, { nd with value := v })

/-- Write the edge at `i` through `children_mut`. -/
def setChild (nd : Node n V E) (i : Fin n) (e : E) : Node n V E :=
  { nd with children := nd.children.set i e }

/-- Drop the edge at `i` through `children_mut`. -/
def eraseChild (nd : Node n V E) (i : Fin n) : Node n V E :=
  { nd with children := nd.children.erase i }

@[simp] theorem setPartialPath_snd (nd : Node n V E) (p : Path n) :
    (nd.setPartialPath p).2 = { nd with partialPath := p } := rfl

@[simp] theorem setValue_fst (nd : Node n V E) (v : Option V) :
    (nd.setValue v).1 = nd.value := rfl

@[simp] theorem setValue_snd (nd : Node n V E) (v : Option V) :
    (nd.setValue v).2 = { nd with value := v } := rfl

@[simp] theorem setChild_partialPath (nd : Node n V E) (i : Fin n) (e : E) :
    (nd.setChild i e).partialPath = nd.partialPath := rfl

@[simp] theorem setChild_value (nd : Node n V E) (i : Fin n) (e : E) :
    (nd.setChild i e).value = nd.value := rfl

@[simp] theorem setChild_children (nd : Node n V E) (i : Fin n) (e : E) :
    (nd.setChild i e).children = nd.children.set i e := rfl

@[simp] theorem eraseChild_partialPath (nd : Node n V E) (i : Fin n) :
    (nd.eraseChild i).partialPath = nd.partialPath := rfl

@[simp] theorem eraseChild_value (nd : Node n V E) (i : Fin n) :
    (nd.eraseChild i).value = nd.value := rfl

@[simp] theorem eraseChild_children (nd : Node n V E) (i : Fin n) :
    (nd.eraseChild i).children = nd.children.erase i := rfl

@[simp] theorem setChild_setChild (nd : Node n V E) (i : Fin n) (e e' : E) :
    (nd.setChild i e).setChild i e' = nd.setChild i e' := by
  simp [setChild]

@[simp] theorem eraseChild_setChild (nd : Node n V E) (i : Fin n) (e : E) :
    (nd.setChild i e).eraseChild i = nd.eraseChild i := by
  simp [setChild, eraseChild]

theorem setChild_get {nd : Node n V E} {i : Fin n} {e : E}
    (he : nd.children.get i = some e) : nd.setChild i e = nd := by
  simp [setChild, ChildMap.set_get he]

/-- The leading path of the child at `i` of a node at leading path `L`. -/
def slotPath (L : Path n) (nd : Node n V E) (i : Fin n) : Path n :=
  L ++ nd.partialPath ++ [i]

theorem prefix_slotPath (L : Path n) (nd : Node n V E) (i : Fin n) :
    L <+: slotPath L nd i := by
  rw [slotPath, List.append_assoc]
  exact List.prefix_append _ _

end Node

/-- An edge: the node it resolves to, and its hash once it is sealed. -/
inductive Edge (n : ℕ) (V H : Type) where
  | mk (node : Node n V (Edge n V H)) (hash : Option H)

/-- A node of a trie. -/
abbrev TrieNode (n : ℕ) (V H : Type) := Node n V (Edge n V H)

/-- A trie; `none` is the empty one. -/
abbrev Trie (n : ℕ) (V H : Type) := Option (TrieNode n V H)

namespace Edge

variable {n : ℕ} {V H : Type}

def node : Edge n V H → TrieNode n V H
  | mk nd _ => nd

/-- The cached hash of a sealed edge, `none` for an inline one. -/
def hash : Edge n V H → Option H
  | mk _ h => h

/-- The node behind an inline edge, `none` for a sealed one. -/
def asInline (e : Edge n V H) : Option (TrieNode n V H) :=
  if e.hash.isNone then some e.node else none

@[simp] theorem node_mk (nd : TrieNode n V H) (h : Option H) :
    (mk nd h).node = nd := rfl

@[simp] theorem hash_mk (nd : TrieNode n V H) (h : Option H) :
    (mk nd h).hash = h := rfl

@[simp] theorem asInline_mk_none (nd : TrieNode n V H) :
    (mk nd none).asInline = some nd := rfl

@[simp] theorem mk_node_hash (e : Edge n V H) : mk e.node e.hash = e := by
  cases e
  rfl

end Edge

/-! ## Recursion over a trie -/

mutual

/-- The number of nodes of a trie. -/
def Node.size {n : ℕ} {V H : Type} : Node n V (Edge n V H) → ℕ
  | ⟨_, _, ⟨slot⟩⟩ => 1 + ∑ i, slotSize (slot i)
termination_by structural nd => nd

/-- The number of nodes behind an edge. -/
def Edge.size {n : ℕ} {V H : Type} : Edge n V H → ℕ
  | ⟨nd, _⟩ => Node.size nd
termination_by structural e => e

/-- The number of nodes behind a slot. -/
def slotSize {n : ℕ} {V H : Type} : Option (Edge n V H) → ℕ
  | none => 0
  | some e => Edge.size e
termination_by structural o => o

end

section Recursion

variable {n : ℕ} {V H : Type}

@[simp] theorem slotSize_none : slotSize (none : Option (Edge n V H)) = 0 :=
  rfl

@[simp] theorem slotSize_some (e : Edge n V H) :
    slotSize (some e) = e.node.size := by
  cases e
  rfl

namespace Node

theorem size_eq (nd : TrieNode n V H) :
    nd.size = 1 + ∑ i, slotSize (nd.children.get i) := by
  obtain ⟨_, _, ⟨_⟩⟩ := nd
  rfl

theorem size_lt_of_get {nd : TrieNode n V H} {i : Fin n} {e : Edge n V H}
    (he : nd.children.get i = some e) : e.node.size < nd.size := by
  have hle : slotSize (nd.children.get i) ≤
      ∑ j, slotSize (nd.children.get j) :=
    Finset.single_le_sum_of_canonicallyOrdered
      (f := fun j => slotSize (nd.children.get j)) (Finset.mem_univ i)
  rw [he, slotSize_some] at hle
  have hsize := size_eq nd
  omega

/-- Induction over a trie: a property of a node follows from the property of
the nodes behind its edges. -/
@[elab_as_elim]
theorem induct {P : TrieNode n V H → Prop}
    (step : ∀ nd : TrieNode n V H,
      (∀ i e, nd.children.get i = some e → P e.node) → P nd)
    (nd : TrieNode n V H) : P nd := by
  induction hs : nd.size using Nat.strongRecOn generalizing nd with
  | ind s ih =>
      subst hs
      exact step nd fun i e he => ih _ (size_lt_of_get he) e.node rfl

/-- Every edge beneath a node at leading path `L`, in pre-order, with the
leading path of its slot. -/
def edges (L : Path n) (nd : TrieNode n V H) :
    List (Path n × Edge n V H) :=
  (List.finRange n).flatMap fun i =>
    match _he : nd.children.get i with
    | none => []
    | some e =>
        (slotPath L nd i, e) :: edges (slotPath L nd i) e.node
termination_by nd.size
decreasing_by exact size_lt_of_get _he

/-- Every node of a trie in pre-order, with its leading path. -/
def nodes (L : Path n) (nd : TrieNode n V H) :
    List (Path n × TrieNode n V H) :=
  (L, nd) :: (edges L nd).map fun se => (se.1, se.2.node)

/-- The edges at and beneath one slot. -/
def slotEdges (L : Path n) (o : Option (Edge n V H)) :
    List (Path n × Edge n V H) :=
  match o with
  | none => []
  | some e => (L, e) :: edges L e.node

@[simp] theorem slotEdges_none (L : Path n) :
    slotEdges L (none : Option (Edge n V H)) = [] := rfl

@[simp] theorem slotEdges_some (L : Path n) (e : Edge n V H) :
    slotEdges L (some e) = (L, e) :: edges L e.node := rfl

theorem edges_eq (L : Path n) (nd : TrieNode n V H) :
    edges L nd = (List.finRange n).flatMap fun i =>
      slotEdges (slotPath L nd i) (nd.children.get i) := by
  rw [edges]
  congr 1
  funext i
  split <;> simp_all

/-- The nodes at and beneath one slot. -/
def slotNodes (L : Path n) (o : Option (Edge n V H)) :
    List (Path n × TrieNode n V H) :=
  match o with
  | none => []
  | some e => nodes L e.node

@[simp] theorem slotNodes_none (L : Path n) :
    slotNodes L (none : Option (Edge n V H)) = [] := rfl

@[simp] theorem slotNodes_some (L : Path n) (e : Edge n V H) :
    slotNodes L (some e) = nodes L e.node := rfl

theorem nodes_eq (L : Path n) (nd : TrieNode n V H) :
    nodes L nd = (L, nd) :: (List.finRange n).flatMap fun i =>
      slotNodes (slotPath L nd i) (nd.children.get i) := by
  rw [nodes, edges_eq, List.map_flatMap]
  congr 2
  funext i
  cases nd.children.get i <;> simp [nodes]

theorem mem_edges {L s : Path n} {nd : TrieNode n V H} {e : Edge n V H} :
    (s, e) ∈ edges L nd ↔
      ∃ i f, nd.children.get i = some f ∧
        ((s, e) = (slotPath L nd i, f) ∨
          (s, e) ∈ edges (slotPath L nd i) f.node) := by
  rw [edges_eq, List.mem_flatMap]
  constructor
  · rintro ⟨i, -, hi⟩
    cases hf : nd.children.get i with
    | none => simp [hf] at hi
    | some f =>
        rw [hf, slotEdges_some, List.mem_cons] at hi
        exact ⟨i, f, hf, hi⟩
  · rintro ⟨i, f, hf, hi⟩
    refine ⟨i, List.mem_finRange i, ?_⟩
    rw [hf, slotEdges_some, List.mem_cons]
    exact hi

/-- What holds of every edge holds of the children and beneath them. -/
theorem forall_edges {L : Path n} {nd : TrieNode n V H}
    (p : Edge n V H → Prop) :
    (∀ se ∈ edges L nd, p se.2) ↔
      ∀ i e, nd.children.get i = some e →
        p e ∧ ∀ se ∈ edges (slotPath L nd i) e.node, p se.2 := by
  constructor
  · intro h i e he
    refine ⟨h (_, e) (mem_edges.mpr ⟨i, e, he, Or.inl rfl⟩), ?_⟩
    exact fun se hse => h se (mem_edges.mpr ⟨i, e, he, Or.inr hse⟩)
  · rintro h ⟨s, e⟩ hmem
    obtain ⟨i, f, hf, heq | hbelow⟩ := mem_edges.mp hmem
    · obtain ⟨-, rfl⟩ := Prod.mk.inj heq
      exact (h i e hf).1
    · exact (h i f hf).2 _ hbelow

theorem mem_nodes {L s : Path n} {nd m : TrieNode n V H} :
    (s, m) ∈ nodes L nd ↔
      (s, m) = (L, nd) ∨
        ∃ i f, nd.children.get i = some f ∧
          (s, m) ∈ nodes (slotPath L nd i) f.node := by
  rw [nodes_eq, List.mem_cons, List.mem_flatMap]
  refine or_congr Iff.rfl ⟨?_, ?_⟩
  · rintro ⟨i, -, hi⟩
    cases hf : nd.children.get i with
    | none => simp [hf] at hi
    | some f => exact ⟨i, f, hf, by simpa [hf] using hi⟩
  · rintro ⟨i, f, hf, hi⟩
    exact ⟨i, List.mem_finRange i, by simpa [hf] using hi⟩

theorem self_mem_nodes (L : Path n) (nd : TrieNode n V H) :
    (L, nd) ∈ nodes L nd := by
  simp [nodes]

/-- Leading paths are relative: moving the root moves every slot. -/
theorem edges_append (L M : Path n) (nd : TrieNode n V H) :
    edges (L ++ M) nd = (edges M nd).map fun se => (L ++ se.1, se.2) := by
  induction nd using induct generalizing M with
  | step nd ih =>
      rw [edges_eq, edges_eq, List.map_flatMap]
      congr 1
      funext i
      have hslot : slotPath (L ++ M) nd i = L ++ slotPath M nd i := by
        simp [slotPath]
      cases hf : nd.children.get i with
      | none => rfl
      | some f => simp [hslot, ih i f hf (slotPath M nd i)]

theorem nodes_append (L M : Path n) (nd : TrieNode n V H) :
    nodes (L ++ M) nd = (nodes M nd).map fun sm => (L ++ sm.1, sm.2) := by
  simp [nodes, edges_append]

theorem mem_nodes_append {L M s : Path n} {nd m : TrieNode n V H} :
    (s, m) ∈ nodes (L ++ M) nd ↔
      ∃ s', s = L ++ s' ∧ (s', m) ∈ nodes M nd := by
  rw [nodes_append, List.mem_map]
  constructor
  · rintro ⟨⟨s', m'⟩, hm, heq⟩
    obtain ⟨rfl, rfl⟩ := Prod.mk.inj heq
    exact ⟨s', rfl, hm⟩
  · rintro ⟨s', rfl, hm⟩
    exact ⟨(s', m), hm, rfl⟩

end Node

end Recursion

end ArityTries
