import Mathlib.Data.List.Perm.Basic
import ArityArrays.Tries.ChildStore

/-!
# The worklist that consumes a subtree

`drop_subtree` takes a node apart, pushes its edges on a worklist and asks a
callback for the node behind each edge it pops.  The callback may be anything,
so the loop need not end; at every moment each edge of a node that was taken
apart is either still pending or was handed to the callback once.
-/

namespace ArityTries

open ArityArrays Checked Loop

/-! ## Nodes over a representation -/

/-- The three markers that select the container of the children. -/
inductive Representation where
  | packed
  | gapped
  | fixed
  deriving DecidableEq, Repr

namespace Representation

variable {A : Arity} {E : Type}

/-- The container that a marker selects. -/
def store (r : Representation) (A : Arity) (E : Type) : ChildStore A E :=
  match r with
  | packed => ChildStore.packed A E
  | gapped => ChildStore.gapped A E
  | fixed => ChildStore.fixed A E

/-- The map that a valid container holds. -/
def Holds (r : Representation) :
    (r.store A E).Map → ChildMap A.LEN E → Prop :=
  match r with
  | packed => PackedArray.Holds
  | gapped => GappedArray.Holds
  | fixed => fun m c => FixedArray.contents m = c

theorem models (r : Representation) :
    (r.store A E).Models r.Holds := by
  rcases r
  · exact ChildStore.packed_models A E
  · exact ChildStore.gapped_models A E
  · exact ChildStore.fixed_models A E

end Representation

/-- What a container holds, read index by index. -/
def ChildStore.contents {A : Arity} {E : Type} (S : ChildStore A E)
    (m : S.Map) : ChildMap A.LEN E :=
  ⟨fun i => match S.get m i with
    | .ok e => e
    | .error _ => none⟩

theorem Representation.contents_eq {A : Arity} {E : Type}
    (r : Representation) {m : (r.store A E).Map} {c : ChildMap A.LEN E}
    (hm : r.Holds m c) : (r.store A E).contents m = c := by
  apply ChildMap.ext_get
  intro i
  simp only [ChildStore.contents, ChildMap.get, r.models.get hm]

/-- A node whose children are in a container. -/
structure StoredNode (A : Arity) (V E : Type) (r : Representation) where
  partialPath : Path A.LEN
  value : Option V
  children : (r.store A E).Map

namespace StoredNode

variable {A : Arity} {V E : Type} {r : Representation}

/-- The placeholder node that `mem::take` leaves behind. -/
def default : StoredNode A V E r where
  partialPath := []
  value := none
  children := (r.store A E).default

def isLeaf (node : StoredNode A V E r) : Bool :=
  (r.store A E).isEmpty node.children

/-- The children's container is valid. -/
def Valid (node : StoredNode A V E r) : Prop :=
  r.Holds node.children ((r.store A E).contents node.children)

/-- The edges to the children, ascending. -/
def kids (node : StoredNode A V E r) : List E :=
  ((r.store A E).contents node.children).iterPresent.map Prod.snd

theorem default_valid : (default : StoredNode A V E r).Valid := by
  have hdefault := (r.models (A := A) (E := E)).default
  unfold Valid
  rw [show (default : StoredNode A V E r).children =
    (r.store A E).default from rfl, r.contents_eq hdefault]
  exact hdefault

theorem kids_default : (default : StoredNode A V E r).kids = [] := by
  have hdefault := (r.models (A := A) (E := E)).default
  unfold kids
  rw [show (default : StoredNode A V E r).children =
    (r.store A E).default from rfl, r.contents_eq hdefault]
  simp [ChildMap.iterPresent]

theorem Valid.isLeaf_eq {node : StoredNode A V E r} (h : node.Valid) :
    node.isLeaf = decide (node.kids = []) := by
  rw [isLeaf, r.models.isEmpty h, ChildMap.count, kids]
  exact decide_eq_decide.mpr (by
    rw [List.map_eq_nil_iff, List.length_eq_zero_iff])

end StoredNode

/-! ## `drop_subtree` -/

section Model

variable {A : Arity} {V E τ : Type} {r : Representation}

/-- Drop the path and the value of a node and take its edges. -/
def takeApart (dropValue : V → τ → τ) (node : StoredNode A V E r) (s : τ) :
    Checked (List E × τ) := do
  let s := match node.value with
    | none => s
    | some v => dropValue v s
  let edges ← (r.store A E).edges.collect
    ((r.store A E).intoEdges node.children)
  return (edges.map Prod.snd, s)

/-- One pass of the worklist loop. -/
def dropSubtreeBody (dropValue : V → τ → τ)
    (intoNode : E → τ → Checked (Option (StoredNode A V E r) × τ)) :
    List E × τ → Checked (Pass (List E × τ) τ)
  | (worklist, s) =>
      match worklist.getLast? with
      | none => .ok (.leave s)
      | some edge => do
          let (node, s) ← intoNode edge s
          match node with
          | none => return .again (worklist.dropLast, s)
          | some node => do
              let (edges, s) ← takeApart dropValue node s
              return .again (worklist.dropLast ++ edges, s)

/-- The first `k` passes of `drop_subtree`. -/
def dropSubtreePasses (dropValue : V → τ → τ)
    (intoNode : E → τ → Checked (Option (StoredNode A V E r) × τ)) (k : ℕ)
    (node : StoredNode A V E r) (s : τ) :
    Checked (Pass (List E × τ) τ) := do
  let (edges, s) ← takeApart dropValue node s
  passes (dropSubtreeBody dropValue intoNode) k (edges, s)

end Model

section Passes

variable {A : Arity} {V E τ : Type} {r : Representation}
  {dropValue : V → τ → τ}
  {intoNode : E → τ → Checked (Option (StoredNode A V E r) × τ)}

theorem takeApart_eq {node : StoredNode A V E r} (h : node.Valid) (s : τ) :
    takeApart dropValue node s =
      .ok (node.kids, node.value.elim s fun v => dropValue v s) := by
  rw [takeApart, r.models.intoEdges h, ok_bind, pure_eq_ok]
  rcases node.value <;> rfl

theorem dropSubtreeBody_nil (s : τ) :
    dropSubtreeBody dropValue intoNode ([], s) = .ok (.leave s) := rfl

theorem dropSubtreeBody_none {edge : E} {s s' : τ}
    (hinto : intoNode edge s = .ok (none, s')) (worklist : List E) :
    dropSubtreeBody dropValue intoNode (worklist ++ [edge], s) =
      .ok (.again (worklist, s')) := by
  simp only [dropSubtreeBody, List.getLast?_concat, hinto, ok_bind,
    List.dropLast_concat, pure_eq_ok]

theorem dropSubtreeBody_some {edge : E} {node : StoredNode A V E r}
    {s s' : τ} (hinto : intoNode edge s = .ok (some node, s'))
    (hnode : node.Valid) (worklist : List E) :
    dropSubtreeBody dropValue intoNode (worklist ++ [edge], s) =
      .ok (.again (worklist ++ node.kids,
        node.value.elim s' fun v => dropValue v s')) := by
  simp only [dropSubtreeBody, List.getLast?_concat, hinto, ok_bind,
    List.dropLast_concat, pure_eq_ok, takeApart_eq hnode]

end Passes

/-! ## Any callback -/

section General

variable {A : Arity} {V E τ : Type} {r : Representation}

/-- A callback that also records its calls and their answers. -/
def recording (intoNode : E → τ → Option (StoredNode A V E r) × τ) (edge : E)
    (s : τ × List (E × Option (StoredNode A V E r))) :
    Checked (Option (StoredNode A V E r) ×
      τ × List (E × Option (StoredNode A V E r))) :=
  let (node, s') := intoNode edge s.1
  .ok (node, s', s.2 ++ [(edge, node)])

/-- The first `k` passes of `drop_subtree` with the calls of the callback. -/
def recordedPasses (dropValue : V → τ → τ)
    (intoNode : E → τ → Option (StoredNode A V E r) × τ) (k : ℕ)
    (node : StoredNode A V E r) (s : τ) :
    Checked (Pass (List E × τ × List (E × Option (StoredNode A V E r)))
      (τ × List (E × Option (StoredNode A V E r)))) :=
  dropSubtreePasses (fun v s => (dropValue v s.1, s.2)) (recording intoNode)
    k node (s, [])

/-- The edges of the nodes that were taken apart: of the root and of every
node that a call returned. -/
def exposed (node : StoredNode A V E r)
    (calls : List (E × Option (StoredNode A V E r))) : List E :=
  node.kids ++ calls.flatMap fun call => call.2.elim [] StoredNode.kids

theorem exposed_concat (node : StoredNode A V E r)
    (calls : List (E × Option (StoredNode A V E r))) (edge : E)
    (answer : Option (StoredNode A V E r)) :
    exposed node (calls ++ [(edge, answer)]) =
      exposed node calls ++ answer.elim [] StoredNode.kids := by
  simp [exposed]

/-- The edge hangs off the root, or off a node returned for such an edge. -/
inductive Reachable (node : StoredNode A V E r)
    (calls : List (E × Option (StoredNode A V E r))) : E → Prop
  | root {edge : E} (h : edge ∈ node.kids) : Reachable node calls edge
  | through {edge edge' : E} {node' : StoredNode A V E r}
      (h : Reachable node calls edge) (hcall : (edge, some node') ∈ calls)
      (hmem : edge' ∈ node'.kids) : Reachable node calls edge'

theorem Reachable.mono {node : StoredNode A V E r}
    {calls calls' : List (E × Option (StoredNode A V E r))}
    (hsub : calls ⊆ calls') {edge : E} (h : Reachable node calls edge) :
    Reachable node calls' edge := by
  induction h with
  | root h => exact .root h
  | through _ hcall hmem ih => exact .through ih (hsub hcall) hmem

theorem Reachable.mem_exposed {node : StoredNode A V E r}
    {calls : List (E × Option (StoredNode A V E r))} {edge : E}
    (h : Reachable node calls edge) : edge ∈ exposed node calls := by
  rcases h with h | ⟨-, hcall, hmem⟩
  · exact List.mem_append_left _ h
  · exact List.mem_append_right _ (List.mem_flatMap.mpr ⟨_, hcall, hmem⟩)

/-- The calls so far and the edges still pending are the exposed edges, and
these are reachable. -/
structure Accounted (node : StoredNode A V E r) (pending : List E)
    (calls : List (E × Option (StoredNode A V E r))) : Prop where
  perm : (calls.map Prod.fst ++ pending).Perm (exposed node calls)
  reachable : ∀ edge ∈ exposed node calls, Reachable node calls edge

namespace Accounted

variable {node : StoredNode A V E r} {pending : List E} {edge : E}
  {calls : List (E × Option (StoredNode A V E r))}

theorem start (node : StoredNode A V E r) : Accounted node node.kids [] := by
  constructor
  · simp [exposed]
  · intro edge hedge
    rw [exposed, List.flatMap_nil, List.append_nil] at hedge
    exact .root hedge

theorem call (h : Accounted node (pending ++ [edge]) calls)
    (answer : Option (StoredNode A V E r)) :
    Accounted node (pending ++ answer.elim [] StoredNode.kids)
      (calls ++ [(edge, answer)]) := by
  constructor
  · have hmove : ((calls ++ [(edge, answer)]).map Prod.fst ++ pending).Perm
        (calls.map Prod.fst ++ (pending ++ [edge])) := by
      rw [List.map_append, List.append_assoc]
      exact List.perm_append_comm.append_left _
    rw [exposed_concat, ← List.append_assoc]
    exact (hmove.trans h.perm).append_right _
  · intro edge' hedge'
    rw [exposed_concat, List.mem_append] at hedge'
    rcases hedge' with hold | hnew
    · exact (h.reachable edge' hold).mono (List.subset_append_left _ _)
    · rcases answer with _ | node'
      · exact absurd hnew List.not_mem_nil
      · have hedge : edge ∈ exposed node calls :=
          h.perm.subset (by simp)
        exact .through
          ((h.reachable edge hedge).mono (List.subset_append_left _ _))
          (by simp) hnew

/-- With nothing pending, the calls are on the reachable edges. -/
theorem mem_calls_iff (h : Accounted node [] calls) (edge : E) :
    edge ∈ calls.map Prod.fst ↔ Reachable node calls edge := by
  have hperm := h.perm
  rw [List.append_nil] at hperm
  rw [hperm.mem_iff]
  constructor
  · exact h.reachable edge
  · exact Reachable.mem_exposed

end Accounted

variable {intoNode : E → τ → Option (StoredNode A V E r) × τ}
  {dropValue : V → τ → τ}

/-- Whatever the callback does, each exposed edge is pending or was handed to
it, once. -/
theorem recordedPasses_accounted
    (hinto : ∀ edge s node, (intoNode edge s).1 = some node → node.Valid)
    {node : StoredNode A V E r} (hnode : node.Valid) (k : ℕ) (s : τ) :
    (∃ pending s' calls, recordedPasses dropValue intoNode k node s =
        .ok (.again (pending, s', calls)) ∧ Accounted node pending calls) ∨
      ∃ s' calls, recordedPasses dropValue intoNode k node s =
        .ok (.leave (s', calls)) ∧ Accounted node [] calls := by
  let body := dropSubtreeBody (fun v (s : τ × List _) =>
    (dropValue v s.1, s.2)) (recording intoNode)
  let start : List E × τ × List (E × Option (StoredNode A V E r)) :=
    (node.kids, node.value.elim (s, []) fun v => (dropValue v s, []))
  have hrun : (∃ st, passes body k start = .ok (.again st) ∧
        Accounted node st.1 st.2.2) ∨
      ∃ out, passes body k start = .ok (.leave out) ∧
        Accounted node [] out.2 := by
    apply passes_of_invariant
      (I := fun st : List E × τ × List _ => Accounted node st.1 st.2.2)
      (Q := fun out : τ × List _ => Accounted node [] out.2)
    · rintro ⟨pending, s₁, calls⟩ hst
      rcases List.eq_nil_or_concat pending with rfl | ⟨pending, edge, rfl⟩
      · exact Or.inr ⟨_, dropSubtreeBody_nil _, hst⟩
      · left
        rw [List.concat_eq_append] at hst ⊢
        have hcall := hst.call (intoNode edge s₁).1
        rcases hanswer : intoNode edge s₁ with ⟨answer, s₂⟩
        rw [hanswer] at hcall
        have hrecord : recording intoNode edge (s₁, calls) =
            .ok (answer, s₂, calls ++ [(edge, answer)]) := by
          rw [recording, hanswer]
        rcases answer with _ | node'
        · refine ⟨_, dropSubtreeBody_none hrecord pending, ?_⟩
          rwa [Option.elim_none, List.append_nil] at hcall
        · have hvalid := hinto edge s₁ node' (congrArg Prod.fst hanswer)
          refine ⟨_, dropSubtreeBody_some hrecord hvalid pending, ?_⟩
          rcases node'.value <;> exact hcall
    · have hcalls : start.2.2 = [] := by
        unfold start
        rcases node.value with _ | v <;> rfl
      show Accounted node node.kids start.2.2
      rw [hcalls]
      exact Accounted.start node
  rw [recordedPasses, dropSubtreePasses, takeApart_eq hnode, ok_bind]
  rcases hrun with ⟨⟨pending, s', calls⟩, hpasses, hst⟩ |
    ⟨⟨s', calls⟩, hpasses, hst⟩
  · exact Or.inl ⟨pending, s', calls, hpasses, hst⟩
  · exact Or.inr ⟨s', calls, hpasses, hst⟩

/-- No infinite chain of edges hangs off the edge, whenever the callback is
asked. -/
inductive Grounded (intoNode : E → τ → Option (StoredNode A V E r) × τ) :
    E → Prop
  | mk {edge : E} (h : ∀ s node, (intoNode edge s).1 = some node →
      ∀ edge' ∈ node.kids, Grounded intoNode edge') :
      Grounded intoNode edge

/-- A worklist whose edges are consumed one after another is consumed. -/
theorem passes_consume {σ : Type}
    {body : List E × σ → Checked (Pass (List E × σ) σ)} {edges : List E}
    (hedges : ∀ edge ∈ edges, ∀ worklist s, ∃ k s',
      passes body k (worklist ++ [edge], s) = .ok (.again (worklist, s')))
    (worklist : List E) (s : σ) :
    ∃ k s', passes body k (worklist ++ edges, s) =
      .ok (.again (worklist, s')) := by
  induction edges using List.reverseRecOn generalizing s with
  | nil =>
      refine ⟨0, s, ?_⟩
      rw [List.append_nil]
      rfl
  | append_singleton edges edge ih =>
      obtain ⟨k, s₁, hk⟩ := hedges edge (by simp) (worklist ++ edges) s
      have hrest : ∀ edge' ∈ edges, ∀ worklist s, ∃ k s',
          passes body k (worklist ++ [edge'], s) =
            .ok (.again (worklist, s')) := by
        intro edge' hmem
        exact hedges edge' (List.mem_append_left _ hmem)
      obtain ⟨j, s₂, hj⟩ := ih hrest s₁
      refine ⟨k + j, s₂, ?_⟩
      rw [← List.append_assoc, passes_add hk, hj]

theorem Grounded.consumed
    (hinto : ∀ edge s node, (intoNode edge s).1 = some node → node.Valid)
    {edge : E} (h : Grounded intoNode edge) (worklist : List E)
    (s : τ × List (E × Option (StoredNode A V E r))) :
    ∃ k s', passes (dropSubtreeBody (fun v s => (dropValue v s.1, s.2))
      (recording intoNode)) k (worklist ++ [edge], s) =
        .ok (.again (worklist, s')) := by
  induction h generalizing worklist s with
  | @mk edge _ ih =>
      rcases hanswer : intoNode edge s.1 with ⟨answer, s₁⟩
      have hrecord : recording intoNode edge s =
          .ok (answer, s₁, s.2 ++ [(edge, answer)]) := by
        rw [recording, hanswer]
      rcases answer with _ | node
      · refine ⟨1, (s₁, s.2 ++ [(edge, none)]), ?_⟩
        rw [passes_of_again (dropSubtreeBody_none hrecord worklist)]
        rfl
      · have hfirst := congrArg Prod.fst hanswer
        have hvalid := hinto edge s.1 node hfirst
        obtain ⟨k, s', hk⟩ := passes_consume
          (ih s.1 node hfirst) worklist _
        refine ⟨k + 1, s', ?_⟩
        rw [passes_of_again (dropSubtreeBody_some hrecord hvalid worklist)]
        exact hk

/-- Without infinite chains of edges the loop ends. -/
theorem recordedPasses_leave
    (hinto : ∀ edge s node, (intoNode edge s).1 = some node → node.Valid)
    {node : StoredNode A V E r} (hnode : node.Valid)
    (hkids : ∀ edge ∈ node.kids, Grounded intoNode edge) (s : τ) :
    ∃ k s' calls, recordedPasses dropValue intoNode k node s =
      .ok (.leave (s', calls)) := by
  obtain ⟨k, s', hk⟩ := passes_consume
    (fun edge hedge => (hkids edge hedge).consumed hinto) []
    (node.value.elim (s, []) fun v => (dropValue v s, []))
  refine ⟨k + 1, s'.1, s'.2, ?_⟩
  rw [List.nil_append] at hk
  have hleave := passes_add hk 1
  rw [passes_of_leave (dropSubtreeBody_nil s')] at hleave
  rw [recordedPasses, dropSubtreePasses, takeApart_eq hnode, ok_bind]
  exact hleave

end General

end ArityTries
