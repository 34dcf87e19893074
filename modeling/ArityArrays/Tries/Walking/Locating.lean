import ArityArrays.Tries.Walking.Lookups
import ArityArrays.Tries.Walking.Pointers

/-!
# A lookup on handles keeps what it found in place

The lookup on pointers pushes a handle for every edge it descends and finds
what the lookup on nodes does.  The chain goes with the node it found, which
can be read until the two are dropped, or is dropped on the way out.
-/

namespace ArityTries

namespace Raw

open Checked Loop Node Handles

variable {n : ℕ} {V H σ ε : Type}

/-- The nodes behind listed edges. -/
def nodesOf (ses : List (Path n × Edge n V H)) : List (TrieNode n V H) :=
  ses.map fun se => se.2.node

/-- A lookup on pointers, positioned like the one on nodes: of the edges `all`
it has read the first ones and holds their handles, and the others are those
the rest of the key leads to. -/
structure Positioned (all : List (Path n × Edge n V H))
    (pst : ChainStack n V H × Pointer × Path n × σ)
    (st : List (TrieNode n V H) × TrieNode n V H × Path n × σ) : Prop where
  stacked : pst.1.Stacked
  last : pst.2.1 = Chain.lastOf pst.1.handles
  node : pst.1.deref pst.2.1 = .ok st.2.1
  rest : pst.2.2 = st.2.2
  reads : ∃ L read, all = read ++
      (readsOn (some st.2.1) st.2.2.1).map (shiftSlot L) ∧
    pst.1.Holding (nodesOf read) ∧ st.1 = (nodesOf read).reverse

/-- What the loop on pointers leaves with, when the one on nodes leaves with
the second argument. -/
inductive Left (all : List (Path n × Edge n V H)) :
    Except ε (Option Pointer) × ChainStack n V H × σ →
      Except ε (Option (ArityTries.NodeRef n V H)) × σ → Prop
  | found {c : ChainStack n V H} {p : Pointer} {s : σ}
      {ref : ArityTries.NodeRef n V H} (hc : c.Stacked)
      (hp : c.deref p = .ok ref.node) (hheld : c.Holding (nodesOf all))
      (hchain : ref.chain = (nodesOf all).reverse) :
      Left all (.ok (some p), c, s) (.ok (some ref), s)
  | absent {c : ChainStack n V H} {s : σ} (hc : c.Stacked)
      (hheld : c.Holding (nodesOf all)) :
      Left all (.ok none, c, s) (.ok none, s)
  | failed {x : ε} {c : ChainStack n V H} {s : σ}
      {read : List (Path n × Edge n V H)} {se : Path n × Edge n V H}
      (hc : c.Stacked) (hread : read ++ [se] <+: all)
      (hheld : c.Holding (nodesOf read)) :
      Left all (.error x, c, s) (.error x, s)

section Pass

variable {all : List (Path n × Edge n V H)} {c : ChainStack n V H} {cur : Pointer} {chain : List (TrieNode n V H)}
  {nd : TrieNode n V H} {s : σ}

/-- At the end of its way down the lookup holds a handle for every edge it had
to read. -/
theorem Positioned.stops {key : Path n} (store : EdgeStore n V H σ ε)
    (h : Positioned all (c, cur, key, s) (chain, nd, key, s))
    (hstop : Stops nd key) :
    ∃ out pout, ArityTries.getNodeBody store (chain, nd, key, s) =
        .ok (.leave out) ∧
      getNodeBody store (c, cur, key, s) = .ok (.leave pout) ∧
      Left all pout out := by
  have hc := h.stacked
  have hnode : c.deref cur = .ok nd := h.node
  obtain ⟨L, read, hall, hheld, hchain⟩ := h.reads
  dsimp only at hc hall hheld hchain
  rw [readsOn_of_stop hstop, List.map_nil, List.append_nil] at hall
  subst hall
  rcases descent_cases key nd.partialPath with
    rfl | ⟨ni, nr, hp⟩ | ⟨i, kr, rfl⟩ | ⟨sh, ki, kr, ni, nr, hne, rfl, hp⟩
  · refine ⟨(.ok (some { chain, node := nd }), s), (.ok (some cur), c, s), ?_,
      ?_, .found hc hnode hheld hchain⟩
    · simp [ArityTries.getNodeBody]
    · simp [getNodeBody, hnode]
  · refine ⟨(.ok none, s), (.ok none, c, s), ?_, ?_, .absent hc hheld⟩
    · simp [ArityTries.getNodeBody, hp]
    · simp [getNodeBody, hnode, hp]
  · refine ⟨(.ok none, s), (.ok none, c, s), ?_, ?_, .absent hc hheld⟩
    · simp [ArityTries.getNodeBody, hstop i kr rfl]
    · simp [getNodeBody, hnode, hstop i kr rfl]
  · refine ⟨(.ok none, s), (.ok none, c, s), ?_, ?_, .absent hc hheld⟩
    · simp [ArityTries.getNodeBody, hp, commonPrefix_fork sh hne]
    · simp [getNodeBody, hnode, hp, commonPrefix_fork sh hne]

/-- On its way down it reads the next edge, and pushes the handle unless the
read fails. -/
theorem Positioned.descends {i : Fin n} {keyRest : Path n} {e : Edge n V H}
    (store : EdgeStore n V H σ ε)
    (h : Positioned all (c, cur, nd.partialPath ++ i :: keyRest, s)
      (chain, nd, nd.partialPath ++ i :: keyRest, s))
    (he : nd.children.get i = some e) :
    ∃ pass pass', ArityTries.getNodeBody store
        (chain, nd, nd.partialPath ++ i :: keyRest, s) = .ok pass ∧
      getNodeBody store (c, cur, nd.partialPath ++ i :: keyRest, s) =
        .ok pass' ∧
      Pass.Related (fun st pst => Positioned all pst st)
        (fun out pout => Left all pout out) pass pass' := by
  have hc := h.stacked
  have hlast := h.last
  have hnode : c.deref cur = .ok nd := h.node
  obtain ⟨L, read, hall, hheld, hchain⟩ := h.reads
  dsimp only at hc hlast hall hheld hchain
  rw [readsOn_of_get he, List.map_cons, ← map_shiftSlot_append] at hall
  rcases store.read_cases s e with ⟨x, s', hr⟩ | ⟨s', hr⟩
  · have hread : read ++ [shiftSlot L (nd.partialPath ++ [i], e)] <+: all := by
      rw [hall]
      exact ⟨_, (List.append_cons ..).symm⟩
    refine ⟨.leave (.error x, s'), .leave (.error x, c, s'), ?_, ?_,
      .leave (.failed hc hread hheld)⟩
    · simp [ArityTries.getNodeBody, he, hr]
    · simp [getNodeBody, hnode, he, hr]
  · have htop := hnode
    rw [hlast] at htop
    obtain ⟨k, c₁, c', hacquire, hpush, hc', hhandles, hderef, hheld'⟩ :=
      hheld.push hc htop e.node
    rw [← hlast] at hacquire
    refine ⟨.again (e.node :: chain, e.node, keyRest, s'),
      .again (c', .handle k, keyRest, s'), ?_, ?_, .again ⟨hc', ?_, hderef,
        rfl, L ++ (nd.partialPath ++ [i]),
        read ++ [shiftSlot L (nd.partialPath ++ [i], e)], ?_, ?_, ?_⟩⟩
    · simp [ArityTries.getNodeBody, he, hr]
    · simp [getNodeBody, hnode, he, hr, hacquire, hpush]
    · dsimp only
      rw [hhandles]
      rfl
    · rw [hall, List.append_assoc, List.singleton_append]
    · rw [nodesOf, List.map_append]
      exact hheld'
    · dsimp only
      rw [hchain, nodesOf, nodesOf, List.map_append, List.reverse_append]
      rfl

/-- A pass of the lookup on pointers. -/
theorem Positioned.pass {store : EdgeStore n V H σ ε}
    {st : List (TrieNode n V H) × TrieNode n V H × Path n × σ}
    {pst : ChainStack n V H × Pointer × Path n × σ}
    {pass : Pass (List (TrieNode n V H) × TrieNode n V H × Path n × σ)
      (Except ε (Option (ArityTries.NodeRef n V H)) × σ)}
    (h : Positioned all pst st)
    (hbody : ArityTries.getNodeBody store st = .ok pass) :
    ∃ pass', getNodeBody store pst = .ok pass' ∧
      Pass.Related (fun st pst => Positioned all pst st)
        (fun out pout => Left all pout out) pass pass' := by
  obtain ⟨chain, nd, key, s⟩ := st
  obtain ⟨c, cur, pkey, ps⟩ := pst
  obtain ⟨rfl, rfl⟩ := Prod.mk.inj h.rest
  by_cases hstop : Stops nd pkey
  · obtain ⟨out, pout, hout, hpout, hleft⟩ := h.stops store hstop
    cases hout.symm.trans hbody
    exact ⟨.leave pout, hpout, .leave hleft⟩
  · unfold Stops at hstop
    push Not at hstop
    obtain ⟨i, keyRest, rfl, hi⟩ := hstop
    obtain ⟨e, he⟩ := Option.ne_none_iff_exists'.mp hi
    obtain ⟨pass', ppass, hpass, hppass, hrelated⟩ :=
      h.descends store he
    cases hpass.symm.trans hbody
    exact ⟨ppass, hppass, hrelated⟩

end Pass

/-- What a lookup on pointers returns that held a handle for each of the nodes
`ts`, when the one on nodes returns the last argument: the node found and these
handles, which keep it in place, or what dropping them on the way out came
to. -/
inductive Located (d : Destructor ℕ) (cap : Option ℕ)
    (ts : List (TrieNode n V H)) :
    Except ε (Option (NodeRef n V H)) ×
      Option (Outcome (ChainStack n V H) ℕ) →
    Except ε (Option (ArityTries.NodeRef n V H)) → Prop
  | found {r : NodeRef n V H} {ref : ArityTries.NodeRef n V H}
      (hderef : r.deref = .ok ref.node) (hheld : r.chain.Holding ts)
      (hchain : ref.chain = ts.reverse)
      (hdrop : ∃ out, r.chain.drop d cap = .ok out ∧
        Chain.Dropped d cap r.chain out) :
      Located d cap ts (.ok (some r), none) (.ok (some ref))
  | empty (hread : ts = []) : Located d cap ts (.ok none, none) (.ok none)
  | absent {c : ChainStack n V H} {out : Outcome (ChainStack n V H) ℕ}
      (hheld : c.Holding ts) (hdrop : c.drop d cap = .ok out)
      (hdropped : Chain.Dropped d cap c out) :
      Located d cap ts (.ok none, some out) (.ok none)
  | failed {x : ε} {c : ChainStack n V H}
      {out : Outcome (ChainStack n V H) ℕ}
      (hheld : c.Holding ts) (hdrop : c.drop d cap = .ok out)
      (hdropped : Chain.Dropped d cap c out) :
      Located d cap ts (.error x, some out) (.error x)

/-- A lookup in any trie over any store reads no node whose handle is released
and finds what the lookup on nodes does.  It holds one handle for each edge on
the key, up to the read that fails, if one does.  The node found can be read as
long as these are held; they are released deepest first when it is dropped, or
when the lookup finds nothing or fails. -/
theorem lookup_on_handles (d : Destructor ℕ) (cap : Option ℕ)
    (store : EdgeStore n V H σ ε) (t : Trie n V H) (key : Path n) (s : σ) :
    ∃ r s' pr dropped read,
      ArityTries.getNode store t key s = .ok (r, s') ∧
      getNode d cap store t key s = .ok (pr, dropped, s') ∧
      Located d cap (nodesOf read) (pr, dropped) r ∧
      (∀ o, r = .ok o → read = readsOn t key) ∧
      ∀ x, r = .error x → ∃ se, read ++ [se] <+: readsOn t key := by
  cases t with
  | none =>
      refine ⟨_, s, _, _, [], rfl, rfl, .empty rfl, fun _ _ => rfl, ?_⟩
      intro x hx
      cases hx
  | some nd =>
      obtain ⟨r, s', hrun⟩ : ∃ r s',
          ArityTries.getNode store (some nd) key s = .ok (r, s') := by
        rcases getNode_cases store (some nd) key s with
          ⟨x, s', -, h⟩ | ⟨o, s', -, h⟩
        · exact ⟨_, s', h⟩
        · exact ⟨_, s', h⟩
      have hstart : Positioned (readsOn (some nd) key)
          (Chain.new (some nd), .root, key, s) ([], nd, key, s) :=
        ⟨Chain.Stacked.new _, rfl, rfl, rfl, [], [],
          (List.map_id _).symm, Chain.Holding.new _, rfl⟩
      obtain ⟨⟨pr, c, s''⟩, hpr, hleft⟩ : ∃ pout, run (getNodeBody store) _
          (getNodeBody_decreases store)
            (Chain.new (some nd), .root, key, s) = .ok pout ∧
          Left (readsOn (some nd) key) pout (r, s') := by
        have hloop : run (ArityTries.getNodeBody store) _
            (ArityTries.getNodeBody_decreases store) ([], nd, key, s) =
              .ok (r, s') := hrun
        refine run_of_related
          (R := fun st pst => Positioned (readsOn (some nd) key) pst st)
          (Q := fun out pout => Left (readsOn (some nd) key) pout out)
          ?_ hstart hloop
        intro st pst pass hst hbody
        exact hst.pass hbody
      cases hleft with
      | @found c p s' ref hc hp hheld hchain =>
          refine ⟨_, _, .ok (some { chain := c, node := p }), _, _, hrun, ?_,
            .found hp hheld hchain (hc.drop d cap), fun _ _ => rfl, ?_⟩
          · simp only [getNode, hpr, ok_bind]
            rfl
          · intro x hx
            cases hx
      | absent hc hheld =>
          obtain ⟨out, hdrop, hdropped⟩ := hc.drop d cap
          refine ⟨_, _, _, _, _, hrun, ?_, .absent hheld hdrop hdropped,
            fun _ _ => rfl, ?_⟩
          · simp only [getNode, hpr, ok_bind, hdrop]
            rfl
          · intro x hx
            cases hx
      | failed hc hread hheld =>
          obtain ⟨out, hdrop, hdropped⟩ := hc.drop d cap
          refine ⟨_, _, _, _, _, hrun, ?_, .failed hheld hdrop hdropped, ?_,
            fun _ _ => ⟨_, hread⟩⟩
          · simp only [getNode, hpr, ok_bind, hdrop]
            rfl
          · intro o ho
            cases ho

end Raw

end ArityTries
