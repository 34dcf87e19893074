import ArityArrays.Tries.Hashing.Validity

/-!
# Hashing from the cache and hashing afresh

Where every cached hash is vouched for, the Merkle hash of a trie and the trie
it leaves do not depend on which edges were sealed before: they are those of
the same trie with every edge inline.
-/

namespace ArityTries

open Node

variable {n : ℕ} {V H : Type}

namespace Node

variable {hasher : TrieHasher n V H} {L : Path n} {nd nd' : TrieNode n V H}

/-! ## Hashing afresh -/

theorem inlined_present (nd : TrieNode n V H) :
    nd.inlined.children.present = nd.children.present := by
  ext i
  simp [inlined_get]

theorem inlined_count (nd : TrieNode n V H) :
    nd.inlined.children.count = nd.children.count := by
  rw [ChildMap.count_eq_card, ChildMap.count_eq_card, inlined_present]

theorem loneSealed_inlined (nd : TrieNode n V H) :
    nd.inlined.loneSealed = none := by
  cases hie : nd.inlined.loneSealed with
  | none => rfl
  | some ie =>
      obtain ⟨i, e⟩ := ie
      obtain ⟨he, hs, -⟩ := loneSealed_eq_some hie
      rw [inlined_get] at he
      obtain ⟨f, -, rfl⟩ := Option.map_eq_some_iff.mp he
      exact (hs rfl).elim

/-- With every edge inline there is nothing to prepare. -/
theorem reseal_inlined (hasher : TrieHasher n V H) (L : Path n)
    (nd : TrieNode n V H) : nd.inlined.reseal hasher L = nd.inlined := by
  rw [reseal, loneSealed_inlined]

theorem walked_inlined_get (hasher : TrieHasher n V H) (L : Path n)
    (nd : TrieNode n V H) (i : Fin n) :
    (walked hasher L nd.inlined ∅).children.get i =
      (nd.children.get i).map fun e => .mk
        (merkle hasher (slotPath L nd i) nd.children.count e.node.inlined).2
        (some (merkle hasher (slotPath L nd i) nd.children.count
          e.node.inlined).1) := by
  rw [walked_get, if_neg (Finset.notMem_empty i), reseal_inlined,
    inlined_get, inlined_count, slotPath, inlined_partialPath, ← slotPath]
  cases nd.children.get i with
  | none => rfl
  | some e => rfl

/-- Two nodes that agree in the middle of their turns hash alike. -/
theorem merkle_congr (hasher : TrieHasher n V H) (L : Path n)
    (siblings : ℕ) (hp : nd.partialPath = nd'.partialPath)
    (hv : nd.value = nd'.value)
    (hc : ∀ i, (walked hasher L nd ∅).children.get i =
      (walked hasher L nd' ∅).children.get i) :
    merkle hasher L siblings nd = merkle hasher L siblings nd' := by
  have hwalked : walked hasher L nd ∅ = walked hasher L nd' ∅ :=
    Node.ext hp hv (ChildMap.ext_get hc)
  rw [merkle_eq, merkle_eq, hwalked]

/-- A node at rest is what hashing it afresh makes of it. -/
theorem Resting.merkle_inlined (h : Resting hasher L nd)
    (hvalid : nd.HashValid hasher L) (siblings : ℕ) :
    merkle hasher L siblings nd.inlined =
      (nd.selfHash hasher L siblings, nd) := by
  induction nd using induct generalizing L siblings with
  | step nd ih =>
      have hwalked : walked hasher L nd.inlined ∅ = nd := by
        apply Node.ext
        · simp
        · simp
        · apply ChildMap.ext_get
          intro i
          rw [walked_inlined_get]
          cases he : nd.children.get i with
          | none => rfl
          | some e =>
              obtain ⟨m, c⟩ := e
              have hc := h.current i _ he
              simp only [Edge.hash_mk, Edge.node_mk] at hc
              subst c
              have hrest := (hvalid.vouched i m _ he).1
              have hchild := ih i _ he hrest (hvalid.child he)
                nd.children.count
              rw [Edge.node_mk] at hchild
              rw [Option.map_some, Edge.node_mk, hchild]
      rw [merkle_eq, hwalked, h.rewritten]

/-- Cached hashes that are vouched for change nothing. -/
theorem HashValid.merkle_inlined (hd : hasher.Documented)
    (h : nd.HashValid hasher L) (siblings : ℕ) :
    Node.merkle hasher L siblings nd.inlined =
      Node.merkle hasher L siblings nd := by
  induction nd using induct generalizing L siblings with
  | step nd ih =>
      refine merkle_congr hasher L siblings (inlined_partialPath nd)
        (inlined_value nd) ?_
      intro i
      rw [walked_inlined_get, walked_get, if_neg (Finset.notMem_empty i)]
      rcases nd.reseal_get hasher L i with ⟨he, he'⟩ | ⟨e, c, he, he'⟩
      · rw [he, he']
        rfl
      · rw [he, he', Option.map_some, Option.map_some]
        cases c with
        | none => rw [ih i e he (h.child he)]; rfl
        | some c =>
            obtain ⟨hrest, rfl⟩ := h.vouched.reseal hd he'
            rw [hrest.merkle_inlined (h.child he)]
            rfl

/-! ## Hashing keeps settled tries settled -/

theorem Settled.walked_of (hasher : TrieHasher n V H) (L : Path n)
    (h : nd.Settled)
    (hmerkle : ∀ i e, nd.children.get i = some e →
      (merkle hasher (slotPath L nd i) nd.children.count
        e.node).2.Settled) (pending : Bitmap n) :
    (walked hasher L nd pending).Settled := by
  refine settled_iff.mpr ⟨?_, ?_⟩
  · rw [walked_count]
    exact h.root
  · intro i f hf
    obtain ⟨e, he, hnode | hnode⟩ := walked_get_node hf
    · rw [hnode]
      exact h.child he
    · rw [hnode]
      exact hmerkle i e he

theorem Settled.merkle (hasher : TrieHasher n V H) (L : Path n)
    (siblings : ℕ) {nd : TrieNode n V H} (h : nd.Settled) :
    (Node.merkle hasher L siblings nd).2.Settled := by
  induction nd using induct generalizing L siblings with
  | step nd ih =>
      have hwalked := h.walked_of hasher L
        (fun i e he => ih i e he _ _ (h.child he)) ∅
      rw [merkle_eq]
      refine hwalked.of_root rfl ?_
      intro hv
      exact hwalked.root (Option.map_eq_none_iff.mp hv)

theorem Settled.halted (hm : Halted hasher L nd nd') (h : nd.Settled) :
    nd'.Settled := by
  induction hm with
  | prepare L nd => exact h
  | @slot L nd m m₁ pending i hi _ ih =>
      have hwalked := h.walked_of hasher L
        (fun i e he => (h.child he).merkle hasher _ _) pending
      refine hwalked.setChild (ih ?_)
      obtain ⟨e, c, he, heq⟩ := get_of_reseal hi
      cases heq
      exact h.child he

/-- Settledness ignores the state of edges. -/
theorem settled_inlined : nd.inlined.Settled ↔ nd.Settled := by
  induction nd using induct with
  | step nd ih =>
      rw [settled_iff, settled_iff, inlined_count, inlined_value]
      refine and_congr Iff.rfl (forall_congr' fun i => ?_)
      rw [inlined_get]
      cases he : nd.children.get i with
      | none => simp
      | some e => simp [ih i e he]

theorem Settled.opened (ho : Opened nd nd') (h : nd.Settled) :
    nd'.Settled := by
  rw [← settled_inlined, ho.inlined_eq, settled_inlined]
  exact h

end Node

end ArityTries
