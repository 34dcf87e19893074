import ArityArrays.Tries.Destruction.MemEdge

/-!
# Dropping a tree takes every node out once

Every pass of the worklist takes the node out of one edge and drops the edge
with the placeholder in it.  The invariant is on the trees still pending: what
the log lacks is exactly what they hold.
-/

namespace ArityTries

open ArityArrays Checked Loop

namespace DropEvent

variable {A : Arity} {V H : Type} {r : Representation}

@[simp] theorem takes_append (log log' : List (DropEvent A V H r)) :
    takes (log ++ log') = takes log ++ takes log' :=
  List.filterMap_append

@[simp] theorem drops_append (log log' : List (DropEvent A V H r)) :
    drops (log ++ log') = drops log ++ drops log' :=
  List.filterMap_append

@[simp] theorem values_append (log log' : List (DropEvent A V H r)) :
    values (log ++ log') = values log ++ values log' :=
  List.filterMap_append

@[simp] theorem subtrees_append (log log' : List (DropEvent A V H r)) :
    subtrees (log ++ log') = subtrees log + subtrees log' :=
  List.countP_append

/-- The events of dropping a node's value. -/
def ofValue (o : Option V) : List (DropEvent A V H r) :=
  o.elim [] fun v => [value v]

@[simp] theorem takes_ofValue (o : Option V) :
    takes (ofValue o : List (DropEvent A V H r)) = [] := by
  rcases o <;> rfl

@[simp] theorem drops_ofValue (o : Option V) :
    drops (ofValue o : List (DropEvent A V H r)) = [] := by
  rcases o <;> rfl

@[simp] theorem values_ofValue (o : Option V) :
    values (ofValue o : List (DropEvent A V H r)) = o.toList := by
  rcases o <;> rfl

@[simp] theorem subtrees_ofValue (o : Option V) :
    subtrees (ofValue o : List (DropEvent A V H r)) = 0 := by
  rcases o <;> rfl

end DropEvent

/-! ## The edges that die inside the loop -/

namespace MemEdge

variable {A : Arity} {V H : Type} {r : Representation}

/-- What `mem::take` leaves of an edge. -/
def emptied (edge : MemEdge A V H r) : MemEdge A V H r :=
  edge.take.2

@[simp] theorem emptied_node (edge : MemEdge A V H r) :
    edge.emptied.node = .default :=
  node_ofNode _ _

/-- Dropping an edge whose node was taken out starts nothing. -/
theorem drop_emptied (k : ℕ) (edge : MemEdge A V H r)
    (log : List (DropEvent A V H r)) :
    drop (k + 1) edge.emptied log = .ok (log ++ [.drop edge.emptied]) := by
  have hkids : (StoredNode.default :
      StoredNode A V (MemEdge A V H r) r).kids = [] :=
    StoredNode.kids_default
  have hleaf : edge.emptied.node.isLeaf = true := by
    rw [emptied_node, StoredNode.default_valid.isLeaf_eq, hkids]
    rfl
  rw [drop, hleaf, if_pos rfl, ok_bind]
  simp only [emptied_node, hkids]
  rfl

/-- The callback of `drop` on an edge and its log. -/
def intoNode (k : ℕ) (edge : MemEdge A V H r)
    (log : List (DropEvent A V H r)) :
    Checked (Option (StoredNode A V (MemEdge A V H r) r) ×
      List (DropEvent A V H r)) := do
  let (node, emptied) := edge.take
  let log ← drop k emptied (log ++ [.take edge])
  return (some node, log)

theorem intoNode_eq (k : ℕ) (edge : MemEdge A V H r)
    (log : List (DropEvent A V H r)) :
    intoNode (k + 1) edge log =
      .ok (some edge.node, log ++ [.take edge, .drop edge.emptied]) := by
  have hdrop := drop_emptied k edge (log ++ [DropEvent.take edge])
  rw [List.append_assoc] at hdrop
  change drop (k + 1) edge.emptied (log ++ [DropEvent.take edge]) >>= _ = _
  rw [hdrop]
  rfl

/-- The worklist loop of `drop`. -/
def dropBody (k : ℕ) : List (MemEdge A V H r) × List (DropEvent A V H r) →
    Checked (Pass (List (MemEdge A V H r) × List (DropEvent A V H r))
      (List (DropEvent A V H r))) :=
  dropSubtreeBody (fun v log => log ++ [.value v]) (intoNode k)

theorem elim_value (o : Option V) (log : List (DropEvent A V H r)) :
    (o.elim log fun v => log ++ [.value v]) =
      log ++ DropEvent.ofValue o := by
  rcases o with _ | v
  · exact (List.append_nil log).symm
  · rfl

theorem dropBody_concat (k : ℕ) {edge : MemEdge A V H r}
    (hedge : edge.node.Valid) (worklist : List (MemEdge A V H r))
    (log : List (DropEvent A V H r)) :
    dropBody (k + 1) (worklist ++ [edge], log) =
      .ok (.again (worklist ++ edge.node.kids,
        log ++ [.take edge, .drop edge.emptied] ++
          DropEvent.ofValue edge.node.value)) := by
  rw [dropBody, dropSubtreeBody_some (intoNode_eq k edge log) hedge,
    elim_value]

end MemEdge

/-! ## The worklist loop -/

/-- The partner of a last element. -/
theorem forall₂_concat {α β : Type} {R : α → β → Prop} {es : List α}
    {ts : List β} {t : β} (h : List.Forall₂ R es (ts ++ [t])) :
    ∃ es' e, List.Forall₂ R es' ts ∧ R e t ∧ es = es' ++ [e] := by
  induction ts generalizing es with
  | nil =>
      obtain ⟨e, es', hrel, hnil, rfl⟩ := List.forall₂_cons_right_iff.mp h
      obtain rfl := List.forall₂_nil_right_iff.mp hnil
      exact ⟨[], e, .nil, hrel, rfl⟩
  | cons t' ts ih =>
      obtain ⟨e', es', hrel, hrest, rfl⟩ := List.forall₂_cons_right_iff.mp h
      obtain ⟨es', e, hes, he, rfl⟩ := ih hrest
      exact ⟨e' :: es', e, .cons hrel hes, he, rfl⟩

/-- The log of a loop that emptied the pending trees. -/
structure Emptied {A : Arity} {V H : Type} {r : Representation}
    (ts : List (Edge A.LEN V H)) (log : List (DropEvent A V H r)) :
    Prop where
  takes : ∃ as, List.Forall₂ Represents (DropEvent.takes log) as ∧
    as.Perm (ts.flatMap Edge.all)
  values : (DropEvent.values log).Perm
    ((ts.flatMap Edge.all).filterMap fun a => a.node.value)
  drops : DropEvent.drops log = (DropEvent.takes log).map MemEdge.emptied
  subtrees : DropEvent.subtrees log = 0

namespace Emptied

variable {A : Arity} {V H : Type} {r : Representation}
  {e : MemEdge A V H r} {t : Edge A.LEN V H} {ts : List (Edge A.LEN V H)}
  {log : List (DropEvent A V H r)}

theorem nil : Emptied (A := A) (V := V) (H := H) (r := r) [] [] :=
  ⟨⟨[], .nil, .nil⟩, .nil, rfl, rfl⟩

theorem all_concat_perm (t : Edge A.LEN V H) (ts : List (Edge A.LEN V H)) :
    ((ts ++ [t]).flatMap Edge.all).Perm
      (t :: (ts ++ t.kids).flatMap Edge.all) := by
  rw [List.flatMap_append, List.flatMap_singleton, Edge.all_eq t,
    List.flatMap_append]
  exact List.perm_middle

/-- One more pass in front. -/
theorem pass (h : Represents e t) (hlog : Emptied (ts ++ t.kids) log) :
    Emptied (ts ++ [t]) ([.take e, .drop e.emptied] ++
      DropEvent.ofValue e.node.value ++ log) := by
  obtain ⟨⟨as, has, hperm⟩, hvalues, hdrops, hsubtrees⟩ := hlog
  have hall := all_concat_perm t ts
  constructor
  · refine ⟨t :: as, ?_, (hperm.cons t).trans hall.symm⟩
    simp only [DropEvent.takes_append, DropEvent.takes_ofValue,
      List.append_nil]
    exact .cons h has
  · have hvalue : e.node.value = t.node.value := h.value_eq
    refine List.Perm.trans ?_ (hall.filterMap _).symm
    simp only [DropEvent.values_append, DropEvent.values_ofValue]
    rw [hvalue, List.filterMap_cons]
    rcases t.node.value with _ | v
    · exact hvalues
    · exact hvalues.cons v
  · simp only [DropEvent.drops_append, DropEvent.drops_ofValue,
      DropEvent.takes_append, DropEvent.takes_ofValue, List.append_nil,
      List.map_append, hdrops]
    rfl
  · simp only [DropEvent.subtrees_append, DropEvent.subtrees_ofValue,
      hsubtrees]
    rfl

/-- The loop runs until the pending trees are empty. -/
theorem passes (n : ℕ) {es : List (MemEdge A V H r)}
    (hes : List.Forall₂ Represents es ts)
    (hn : (ts.flatMap Edge.all).length = n) :
    ∃ log', Emptied ts log' ∧ ∀ k (log : List (DropEvent A V H r)),
      Loop.passes (MemEdge.dropBody (k + 1)) n (es, log) =
        .ok (.again ([], log ++ log')) := by
  induction n generalizing es ts with
  | zero =>
      rcases List.eq_nil_or_concat ts with rfl | ⟨ts, t, rfl⟩
      · obtain rfl := List.forall₂_nil_right_iff.mp hes
        refine ⟨[], nil, ?_⟩
        intro k log
        rw [List.append_nil]
        rfl
      · rw [List.concat_eq_append, (all_concat_perm t ts).length_eq] at hn
        exact absurd hn (Nat.succ_ne_zero _)
  | succ n ih =>
      rcases List.eq_nil_or_concat ts with rfl | ⟨ts, t, rfl⟩
      · exact absurd hn (Nat.succ_ne_zero n).symm
      · rw [List.concat_eq_append] at hes hn ⊢
        obtain ⟨es, e, hinit, he, rfl⟩ := forall₂_concat hes
        rw [(all_concat_perm t ts).length_eq, List.length_cons] at hn
        have hpending : List.Forall₂ Represents (es ++ e.node.kids)
            (ts ++ t.kids) := List.rel_append hinit he.kids
        obtain ⟨log', hlog', hrun⟩ := ih hpending (Nat.succ.inj hn)
        refine ⟨_, pass he hlog', ?_⟩
        intro k log
        rw [passes_of_again (MemEdge.dropBody_concat k he.valid es log),
          hrun]
        simp only [List.append_assoc]

end Emptied

/-! ## Dropping the root -/

namespace MemEdge

variable {A : Arity} {V H : Type} {r : Representation}
  {e : MemEdge A V H r} {t : Edge A.LEN V H}

theorem foldlM_kids_default (k : ℕ) (log : List (DropEvent A V H r)) :
    (StoredNode.default : StoredNode A V (MemEdge A V H r) r).kids.foldlM
      (fun log edge => drop k edge log) log = .ok log := by
  rw [StoredNode.kids_default]
  rfl

/-- A leaf is dropped in place. -/
theorem drop_of_leaf (h : Represents e t) (hleaf : t.kids = []) (k : ℕ)
    (log : List (DropEvent A V H r)) :
    drop (k + 1) e log =
      .ok (log ++ [.drop e] ++ DropEvent.ofValue t.node.value) := by
  have hisLeaf : e.node.isLeaf = true := by
    rw [h.isLeaf_eq, hleaf]
    rfl
  have hkids : e.node.kids = [] := by
    have hrel := h.kids
    rw [hleaf] at hrel
    exact List.forall₂_nil_right_iff.mp hrel
  rw [drop, hisLeaf, if_pos rfl, ok_bind]
  simp only [hkids, List.foldlM_nil, pure_eq_ok]
  rw [h.value_eq]
  rcases t.node.value with _ | v
  · rw [DropEvent.ofValue, Option.elim_none, List.append_nil]
  · rfl

/-- Any other node is taken out and its subtree consumed, whatever the
fuel. -/
theorem drop_of_inner (h : Represents e t) (hinner : t.kids ≠ [])
    (log : List (DropEvent A V H r)) :
    ∃ log', Emptied t.kids log' ∧ ∀ k, (t.kids.flatMap Edge.all).length < k →
      drop (k + 1) e log = .ok (log ++ [.drop e, .take e, .subtree] ++
        DropEvent.ofValue t.node.value ++ log') := by
  have hisLeaf : e.node.isLeaf = false := by
    rw [h.isLeaf_eq]
    exact decide_eq_false hinner
  obtain ⟨log', hlog', hrun⟩ := Emptied.passes _ h.kids rfl
  refine ⟨log', hlog', ?_⟩
  intro k hk
  obtain ⟨j, rfl⟩ := Nat.exists_eq_add_of_lt hk
  -- The nodes take as many passes as they are; one more leaves the loop.
  have hpasses : dropSubtreePasses (fun v log => log ++ [.value v])
      (intoNode ((t.kids.flatMap Edge.all).length + j + 1))
      ((t.kids.flatMap Edge.all).length + j + 1) e.node
      (log ++ [.drop e] ++ [.take e, .subtree]) =
        .ok (.leave (log ++ [.drop e] ++ [.take e, .subtree] ++
          DropEvent.ofValue t.node.value ++ log')) := by
    rw [dropSubtreePasses, takeApart_eq h.valid, ok_bind, elim_value,
      h.value_eq, Nat.add_assoc]
    have hleave := passes_add (hrun ((t.kids.flatMap Edge.all).length + j)
      (log ++ [.drop e] ++ [.take e, .subtree] ++
        DropEvent.ofValue t.node.value)) (j + 1)
    exact hleave.trans (passes_of_leave (dropSubtreeBody_nil _) j)
  rw [drop, hisLeaf, if_neg Bool.false_ne_true]
  change dropSubtreePasses _ (intoNode _) _ e.node
    (log ++ [DropEvent.drop e] ++ [DropEvent.take e, .subtree]) >>= _ = _
  rw [hpasses, ok_bind]
  dsimp only
  rw [ok_bind]
  dsimp only
  rw [node_ofNode, foldlM_kids_default]
  simp only [StoredNode.default, List.append_assoc, List.cons_append,
    List.nil_append]

end MemEdge

/-! ## The main theorem -/

section Root

variable {A : Arity} {V H : Type} {r : Representation}
  {e : MemEdge A V H r} {t : Edge A.LEN V H}

/-- The log of a dropped tree: every value was dropped once, and so were the
root's edge, as it was, and every edge whose node was taken out, with the
placeholder in it.  A leaf stays in its edge; any other tree had each node taken
out once, the root's first, by one `drop_subtree`. -/
structure Dropped (e : MemEdge A V H r) (t : Edge A.LEN V H)
    (log : List (DropEvent A V H r)) : Prop where
  values : (DropEvent.values log).Perm (t.all.filterMap fun a => a.node.value)
  drops : DropEvent.drops log =
    e :: (DropEvent.takes log).tail.map MemEdge.emptied
  placeholder : ∀ d ∈ (DropEvent.drops log).tail, d.node = .default
  leaf : t.kids = [] →
    DropEvent.takes log = [] ∧ DropEvent.subtrees log = 0
  inner : t.kids ≠ [] → DropEvent.subtrees log = 1 ∧
    (DropEvent.takes log).head? = some e ∧
    ∃ as, List.Forall₂ Represents (DropEvent.takes log) as ∧ as.Perm t.all

theorem values_all (t : Edge A.LEN V H) :
    t.all.filterMap (fun a => a.node.value) = t.node.value.toList ++
      (t.kids.flatMap Edge.all).filterMap fun a => a.node.value := by
  rw [Edge.all_eq, List.filterMap_cons]
  rcases t.node.value <;> rfl

theorem placeholder_of_drops {log : List (DropEvent A V H r)}
    {l : List (MemEdge A V H r)}
    (hdrops : DropEvent.drops log = e :: l.map MemEdge.emptied) :
    ∀ d ∈ (DropEvent.drops log).tail, d.node = .default := by
  rw [hdrops, List.tail_cons]
  intro d hd
  obtain ⟨a, -, rfl⟩ := List.mem_map.mp hd
  exact a.emptied_node

theorem dropped_of_leaf (hleaf : t.kids = []) :
    Dropped e t ([.drop e] ++ DropEvent.ofValue t.node.value) := by
  have htakes : DropEvent.takes ([.drop e] ++
      DropEvent.ofValue t.node.value) = [] := by
    rw [DropEvent.takes_append, DropEvent.takes_ofValue]
    rfl
  have hdrops : DropEvent.drops ([.drop e] ++
      DropEvent.ofValue t.node.value) = [e] := by
    rw [DropEvent.drops_append, DropEvent.drops_ofValue]
    rfl
  constructor
  · rw [values_all, hleaf, DropEvent.values_append, DropEvent.values_ofValue,
      List.flatMap_nil, List.filterMap_nil, List.append_nil]
    exact .refl _
  · rw [hdrops, htakes]
    rfl
  · exact placeholder_of_drops (l := []) hdrops
  · intro _
    rw [DropEvent.subtrees_append, DropEvent.subtrees_ofValue]
    exact ⟨htakes, rfl⟩
  · intro hinner
    exact absurd hleaf hinner

theorem dropped_of_inner (h : Represents e t) (hinner : t.kids ≠ [])
    {log : List (DropEvent A V H r)} (hlog : Emptied t.kids log) :
    Dropped e t ([.drop e, .take e, .subtree] ++
      DropEvent.ofValue t.node.value ++ log) := by
  obtain ⟨⟨as, has, hperm⟩, hvalues, hdrops, hsubtrees⟩ := hlog
  have htakes : DropEvent.takes ([.drop e, .take e, .subtree] ++
      DropEvent.ofValue t.node.value ++ log) = e :: DropEvent.takes log := by
    rw [DropEvent.takes_append, DropEvent.takes_append,
      DropEvent.takes_ofValue]
    rfl
  have hall : DropEvent.drops ([.drop e, .take e, .subtree] ++
      DropEvent.ofValue t.node.value ++ log) =
        e :: (DropEvent.takes log).map MemEdge.emptied := by
    rw [DropEvent.drops_append, DropEvent.drops_append,
      DropEvent.drops_ofValue, hdrops]
    rfl
  constructor
  · rw [values_all, DropEvent.values_append, DropEvent.values_append,
      DropEvent.values_ofValue]
    exact hvalues.append_left _
  · rw [hall, htakes, List.tail_cons]
  · exact placeholder_of_drops hall
  · intro hleaf
    exact absurd hleaf hinner
  · intro _
    refine ⟨?_, ?_, ?_⟩
    · rw [DropEvent.subtrees_append, DropEvent.subtrees_append,
        DropEvent.subtrees_ofValue, hsubtrees]
      rfl
    · rw [htakes, List.head?_cons]
    · rw [htakes, Edge.all_eq]
      exact ⟨t :: as, .cons h has, hperm.cons t⟩

theorem drop_dropped (h : Represents e t) :
    ∃ k₀ log, (∀ k, k₀ ≤ k → e.drop k [] = .ok log) ∧ Dropped e t log := by
  by_cases hleaf : t.kids = []
  · refine ⟨1, _, ?_, dropped_of_leaf hleaf⟩
    intro k hk
    obtain ⟨j, rfl⟩ := Nat.exists_eq_add_of_le' hk
    exact MemEdge.drop_of_leaf h hleaf j []
  · obtain ⟨log, hlog, hdrop⟩ := MemEdge.drop_of_inner h hleaf []
    refine ⟨(t.kids.flatMap Edge.all).length + 2, _, ?_,
      dropped_of_inner h hleaf hlog⟩
    intro k hk
    obtain ⟨j, rfl⟩ := Nat.exists_eq_add_of_le' hk
    exact hdrop (j + (t.kids.flatMap Edge.all).length + 1) (by omega)

end Root

/-- Dropping any tree of owning edges ends, with the log that `Dropped`
describes.  With any other callback `drop_subtree` hands over reachable edges
only, none twice, and all of them when it ends; it ends when no chain of edges
is infinite. -/
theorem worklist_destruction {A : Arity} {V : Type} {r : Representation} :
    (∀ (H : Type) (e : MemEdge A V H r) (t : Edge A.LEN V H),
      Represents e t → ∃ k₀ log,
        (∀ k, k₀ ≤ k → e.drop k [] = .ok log) ∧ Dropped e t log) ∧
    ∀ (E τ : Type) (dropValue : V → τ → τ)
      (intoNode : E → τ → Option (StoredNode A V E r) × τ)
      (node : StoredNode A V E r),
      (∀ edge s node, (intoNode edge s).1 = some node → node.Valid) →
      node.Valid → ∀ s,
      (∀ k, (∃ pending s' calls,
          recordedPasses dropValue intoNode k node s =
            .ok (.again (pending, s', calls)) ∧
          Accounted node pending calls) ∨
        ∃ s' calls, recordedPasses dropValue intoNode k node s =
            .ok (.leave (s', calls)) ∧
          (calls.map Prod.fst).Perm (exposed node calls) ∧
          ∀ edge, edge ∈ calls.map Prod.fst ↔ Reachable node calls edge) ∧
      ((∀ edge ∈ node.kids, Grounded intoNode edge) →
        ∃ k s' calls, recordedPasses dropValue intoNode k node s =
          .ok (.leave (s', calls))) := by
  constructor
  · intro H e t h
    exact drop_dropped h
  · intro E τ dropValue intoNode node hinto hnode s
    constructor
    · intro k
      rcases recordedPasses_accounted hinto hnode k s with hagain |
        ⟨s', calls, hrun, hcalls⟩
      · exact Or.inl hagain
      · have hperm := hcalls.perm
        rw [List.append_nil] at hperm
        exact Or.inr ⟨s', calls, hrun, hperm, hcalls.mem_calls_iff⟩
    · intro hkids
      exact recordedPasses_leave hinto hnode hkids s

/-! ## Concrete edges -/

namespace MemEdge

/-- A leaf with a value. -/
def leafEdge : MemEdge .arity8 Bool Unit .fixed :=
  fixed [] (some true) FixedArray.new none

def leafTree : Edge Arity.arity8.LEN Bool Unit :=
  .mk (Node.leaf [] true) none

/-- An edge with the leaf beneath it. -/
def parentEdge : MemEdge .arity8 Bool Unit .fixed :=
  fixed [] none (FixedArray.fromFn fun i =>
    if i.val = 3 then some leafEdge else none) (some ())

def parentTree : Edge Arity.arity8.LEN Bool Unit :=
  .mk ⟨[], none, ⟨fun i => if i.val = 3 then some leafTree else none⟩⟩
    (some ())

theorem leafEdge_represents : Represents leafEdge leafTree :=
  ⟨rfl, rfl, rfl, rfl, fun _ => .none⟩

theorem parentEdge_represents : Represents parentEdge parentTree := by
  refine ⟨rfl, rfl, rfl, rfl, ?_⟩
  intro i
  change Option.Rel Represents (if i.val = 3 then some leafEdge else none)
    (if i.val = 3 then some leafTree else none)
  by_cases hi : i.val = 3
  · rw [if_pos hi, if_pos hi]
    exact .some leafEdge_represents
  · rw [if_neg hi, if_neg hi]
    exact .none

end MemEdge

/-- Two edges, and a callback that returns a node with both of them. -/
def endlessNode : StoredNode .arity8 Bool Bool .fixed where
  partialPath := []
  value := none
  children := FixedArray.fromFn fun i =>
    if i.val = 0 then some false else if i.val = 1 then some true else none

theorem endlessNode_kids : endlessNode.kids = [false, true] := by
  decide

theorem endlessNode_valid : endlessNode.Valid := rfl

/-- The callback's second edge is always on top, so the first one waits
forever. -/
theorem endless_passes (k : ℕ) : ∃ pending s' calls,
    recordedPasses (fun (_ : Bool) (s : Unit) => s)
      (fun (_ : Bool) s => (some endlessNode, s)) k endlessNode () =
        .ok (.again (pending, s', calls)) ∧ false ∉ calls.map Prod.fst := by
  let body := dropSubtreeBody
    (fun (_ : Bool) (s : Unit × List (Bool × Option _)) => s)
    (recording fun (_ : Bool) s => (some endlessNode, s))
  have hrun : (∃ st, passes body k ([false, true], (), []) =
        .ok (.again st) ∧
        (∃ pending, st.1 = pending ++ [true]) ∧
        false ∉ st.2.2.map Prod.fst) ∨
      ∃ out, passes body k ([false, true], (), []) = .ok (.leave out) ∧
        False := by
    apply passes_of_invariant
      (I := fun st : List Bool × Unit × List (Bool × Option _) =>
        (∃ pending, st.1 = pending ++ [true]) ∧ false ∉ st.2.2.map Prod.fst)
      (Q := fun _ => False)
    · rintro ⟨_, s, calls⟩ ⟨⟨pending, rfl⟩, hcalls⟩
      refine Or.inl ⟨_, dropSubtreeBody_some rfl endlessNode_valid pending,
        ⟨pending ++ [false], ?_⟩, ?_⟩
      · rw [endlessNode_kids, List.append_assoc]
        rfl
      · change false ∉ (calls ++ [(true, some endlessNode)]).map Prod.fst
        simpa using hcalls
    · exact ⟨⟨[false], rfl⟩, List.not_mem_nil⟩
  rw [recordedPasses, dropSubtreePasses, takeApart_eq endlessNode_valid,
    ok_bind, endlessNode_kids]
  rcases hrun with ⟨⟨pending, s', calls⟩, hpasses, -, hcalls⟩ | ⟨-, -, hfalse⟩
  · exact ⟨pending, s', calls, hpasses, hcalls⟩
  · exact hfalse.elim

theorem worklist_destruction_parent :
    (∃ k₀ log, (∀ k, k₀ ≤ k → MemEdge.parentEdge.drop k [] = .ok log) ∧
      Dropped MemEdge.parentEdge MemEdge.parentTree log) ∧
    ∃ k s' calls, recordedPasses (fun (_ : Bool) (s : Unit) => s)
      (fun (_ : Bool) s => (none, s)) k endlessNode () =
        .ok (.leave (s', calls)) := by
  obtain ⟨hdrop, hsubtree⟩ :=
    worklist_destruction (A := .arity8) (V := Bool) (r := .fixed)
  constructor
  · exact hdrop Unit MemEdge.parentEdge MemEdge.parentTree
      MemEdge.parentEdge_represents
  · have hground : ∀ edge ∈ endlessNode.kids, Grounded
        (fun (_ : Bool) (s : Unit) =>
          ((none : Option (StoredNode .arity8 Bool Bool .fixed)), s))
        edge := by
      intro edge _
      exact ⟨by simp⟩
    exact (hsubtree Bool Unit (fun _ s => s) (fun _ s => (none, s)) endlessNode
      (by simp) endlessNode_valid ()).2 hground

/-- The node of a root without children is never taken out, and a callback
that never stops returning nodes leaves an edge of the root waiting. -/
theorem leaf_root_stays :
    (Represents MemEdge.leafEdge MemEdge.leafTree ∧
      ∀ k log, MemEdge.leafEdge.drop k [] = .ok log →
        ¬ ∃ as, List.Forall₂ Represents (DropEvent.takes log) as ∧
          as.Perm MemEdge.leafTree.all) ∧
    false ∈ endlessNode.kids ∧ ∀ k, ∃ pending s' calls,
      recordedPasses (fun (_ : Bool) (s : Unit) => s)
        (fun (_ : Bool) s => (some endlessNode, s)) k endlessNode () =
          .ok (.again (pending, s', calls)) ∧
      false ∉ calls.map Prod.fst := by
  refine ⟨⟨MemEdge.leafEdge_represents, ?_⟩, ?_, endless_passes⟩
  · rintro k log hdrop ⟨as, has, hperm⟩
    rcases k with _ | k
    · exact absurd hdrop (by simp [MemEdge.drop])
    · have hlog := MemEdge.drop_of_leaf MemEdge.leafEdge_represents rfl k []
      rw [hdrop] at hlog
      obtain rfl := Except.ok.inj hlog
      obtain rfl := List.forall₂_nil_left_iff.mp has
      exact absurd hperm.length_eq (by decide)
  · rw [endlessNode_kids]
    decide

end ArityTries
