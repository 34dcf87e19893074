import ArityArrays.Tries.MerkleRoot

/-!
# Hashing under another hasher

Materializing a trie clears every cached hash, whoever computed it.  A hash
that follows needs nothing from the store and is that of a copy whose edges
were inline from the start.
-/

namespace ArityTries

open Checked Node

variable {n : ℕ} {V H σ ε : Type}

namespace Node

/-! ## Tries without cached hashes -/

/-- The same trie up to the state of its edges. -/
inductive SameButSeals : TrieNode n V H → TrieNode n V H → Prop
  | mk {nd nd' : TrieNode n V H}
      (path : nd'.partialPath = nd.partialPath)
      (value : nd'.value = nd.value)
      (present : nd'.children.present = nd.children.present)
      (child : ∀ i e e', nd.children.get i = some e →
        nd'.children.get i = some e' → SameButSeals e.node e'.node) :
      SameButSeals nd nd'

/-- Every edge beneath the node is inline. -/
def Unsealed (nd : TrieNode n V H) : Prop :=
  ∀ se ∈ edges [] nd, se.2.hash = none

theorem sameButSeals_inlined (nd : TrieNode n V H) :
    SameButSeals nd nd.inlined := by
  induction nd using induct with
  | step nd ih =>
      refine .mk (inlined_partialPath nd) (inlined_value nd)
        (inlined_present nd) ?_
      intro i e e' he he'
      rw [inlined_get, he] at he'
      cases he'
      exact ih i e he

theorem SameButSeals.inlined_eq {nd nd' : TrieNode n V H}
    (h : SameButSeals nd nd') : nd'.inlined = nd.inlined := by
  induction h with
  | @mk nd nd' hpath hvalue hpresent _ ih =>
      refine inlined_congr hpath hvalue ?_
      intro i
      unfold childTrie
      by_cases hi : i ∈ nd.children.present
      · obtain ⟨e, he⟩ := ChildMap.mem_present.mp hi
        obtain ⟨e', he'⟩ := ChildMap.mem_present.mp (hpresent ▸ hi)
        rw [he, he', Option.map_some, Option.map_some, Option.map_some,
          Option.map_some, ih i e e' he he']
      · rw [ChildMap.notMem_present.mp hi,
          ChildMap.notMem_present.mp (hpresent ▸ hi)]

theorem inlined_edges (L : Path n) (nd : TrieNode n V H) :
    ∀ se ∈ edges L nd.inlined, se.2.hash = none := by
  induction nd using induct generalizing L with
  | step nd ih =>
      refine (forall_edges fun e => e.hash = none).mpr fun i f hf => ?_
      rw [inlined_get] at hf
      obtain ⟨g, hg, rfl⟩ := Option.map_eq_some_iff.mp hf
      exact ⟨rfl, ih i g hg _⟩

/-- A trie without cached hashes is one with every edge inline. -/
theorem inlined_eq_self {L : Path n} {nd : TrieNode n V H}
    (h : ∀ se ∈ edges L nd, se.2.hash = none) : nd.inlined = nd := by
  induction nd using induct generalizing L with
  | step nd ih =>
      apply Node.ext
      · exact inlined_partialPath nd
      · exact inlined_value nd
      · apply ChildMap.ext_get
        intro i
        rw [inlined_get]
        rcases he : nd.children.get i with _ | e
        · rfl
        · obtain ⟨hnone, hbelow⟩ := (forall_edges fun e => e.hash = none).mp h i e he
          have hnode : e.node.inlined = e.node := ih i e he hbelow
          obtain ⟨m, c⟩ := e
          obtain rfl : c = none := hnone
          rw [Option.map_some, hnode, Edge.node_mk]

/-- A trie has one copy without cached hashes. -/
theorem SameButSeals.eq_inlined {nd copy : TrieNode n V H}
    (h : SameButSeals nd copy) (hcopy : copy.Unsealed) :
    copy = nd.inlined := by
  rw [← h.inlined_eq, inlined_eq_self hcopy]

/-! ## Hashing without cached hashes -/

/-- Nothing beneath an inline edge is read or materialized. -/
theorem blame_sealed (hasher : TrieHasher n V H)
    (store : EdgeStore n V H σ ε) :
    Blame hasher store fun nd => nd.inlined ≠ nd := by
  constructor
  · intro L nd index siblings s
    by_cases hnd : nd.inlined = nd
    · right
      have hreseal : nd.reseal hasher L = nd := by
        rw [← hnd, reseal_inlined]
      have hlone : nd.loneSealed = none := by
        rw [← hnd, loneSealed_inlined]
      refine ⟨s, ?_⟩
      rw [hreseal, prepare_same hasher store (Or.inl hlone)]
    · rcases prepare_cases hasher store L nd index siblings s with
        ⟨x, buf, s', -, hp⟩ | h
      · exact Or.inl ⟨x, buf, s', hnd, hp⟩
      · exact Or.inr h
  · intro nd i e he hchild hnd
    have hget := inlined_get nd i
    rw [hnd, he, Option.map_some] at hget
    apply hchild
    exact (congrArg Edge.node (Option.some.inj hget)).symm

/-- A trie without cached hashes is hashed over any store. -/
theorem hash_inlined (hasher : TrieHasher n V H)
    (store : EdgeStore n V H σ ε) (nd : TrieNode n V H) (s : σ) :
    ∃ s', hash hasher store nd.inlined s =
      .ok (.ok (merkle hasher [] 0 nd.inlined).1,
        some (merkle hasher [] 0 nd.inlined).2, s') := by
  rcases (blame_sealed hasher store).hash_cases nd.inlined s with
    ⟨x, m, s', hsealed, -, -⟩ | h
  · exact absurd (inlined_inlined nd) hsealed
  · exact h

/-- Hashing without cached hashes seals every edge. -/
theorem merkle_inlined_edges (hasher : TrieHasher n V H) (L L' : Path n)
    (siblings : ℕ) (nd : TrieNode n V H) :
    ∀ se ∈ edges L' (merkle hasher L siblings nd.inlined).2,
      se.2.hash ≠ none := by
  induction nd using induct generalizing L L' siblings with
  | step nd ih =>
      rw [merkle_eq]
      refine (forall_edges fun e => e.hash ≠ none).mpr fun i f hf => ?_
      have hf' := (walked_inlined_get hasher L nd i).symm.trans hf
      obtain ⟨g, hg, rfl⟩ := Option.map_eq_some_iff.mp hf'
      exact ⟨Option.some_ne_none _, ih i g hg _ _ _⟩

end Node

/-- However its edges were sealed, a trie that was materialized has every edge
inline and is otherwise unchanged.  Hashing it under any scheme then succeeds
over any store, and returns and leaves what hashing a copy does whose edges
were inline from the start. -/
theorem rehash_after_materialize (store : EdgeStore n V H σ ε)
    (root : TrieNode n V H) (s : σ) :
    ∃ r root' s', materializeSubtree store root s = .ok (r, root', s') ∧
      (store.NeverFails → r = .ok ()) ∧
      (r = .ok () →
        root'.Unsealed ∧ SameButSeals root root' ∧
        ∀ hasher : TrieHasher n V H, ∃ h t,
          (∀ se ∈ edges [] t, se.2.hash ≠ none) ∧
          ∀ (σ' ε' : Type) (store' : EdgeStore n V H σ' ε') (s₁ : σ'),
            ∃ s₂, hash hasher store' root' s₁ = .ok (.ok h, some t, s₂) ∧
              ∀ copy, SameButSeals root copy → copy.Unsealed →
                hash hasher store' copy s₁ =
                  .ok (.ok h, some t, s₂)) := by
  rcases materializeSubtree_cases store [] root s with
    ⟨x, root', s', hfail, -, hrun⟩ | ⟨s', -, hrun⟩
  · refine ⟨.error x, root', s', hrun, ?_, ?_⟩
    · intro hstore
      exact absurd hstore hfail
    · intro hok
      cases hok
  · refine ⟨.ok (), root.inlined, s', hrun, fun _ => rfl, ?_⟩
    intro _
    refine ⟨inlined_edges [] root, sameButSeals_inlined root, ?_⟩
    intro hasher
    refine ⟨(merkle hasher [] 0 root.inlined).1, _,
      merkle_inlined_edges hasher [] [] 0 root, ?_⟩
    intro σ' ε' store' s₁
    obtain ⟨s₂, hhash⟩ := hash_inlined hasher store' root s₁
    refine ⟨s₂, hhash, ?_⟩
    intro copy hcopy hunsealed
    rw [hcopy.eq_inlined hunsealed]
    exact hhash

end ArityTries
