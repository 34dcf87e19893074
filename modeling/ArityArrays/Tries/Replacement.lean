import ArityArrays.Tries.Runs

/-!
# Every sealed edge is kept or replaced

A mutation passes each sealed edge it touches to `materialize` and leaves
every other one as it was, so the sealed edges before a call are those still
there afterwards and those the store was told it replaced.
-/

namespace ArityTries

open Node

variable {n : ℕ} {V H σ ε : Type}

namespace Node

/-- A slot beneath a node is at or beneath one of the node's own. -/
theorem prefix_of_mem_edges {L s : Path n} {nd : TrieNode n V H}
    {e : Edge n V H} (h : (s, e) ∈ edges L nd) :
    ∃ i, slotPath L nd i <+: s := by
  induction nd using induct generalizing L with
  | step nd ih =>
      obtain ⟨i, f, hf, heq | hmem⟩ := mem_edges.mp h
      · obtain ⟨rfl, -⟩ := Prod.mk.inj heq
        exact ⟨i, List.prefix_refl _⟩
      · obtain ⟨j, hj⟩ := ih i f hf hmem
        exact ⟨i, (prefix_slotPath _ _ _).trans hj⟩

/-- The path of a slot that some edge at or beneath it extends. -/
theorem prefix_of_mem_slotEdges {L s : Path n} {o : Option (Edge n V H)}
    (h : s ∈ (slotEdges L o).map Prod.fst) : L <+: s := by
  obtain ⟨⟨s, e⟩, hmem, rfl⟩ := List.mem_map.mp h
  cases o with
  | none => cases hmem
  | some f =>
      rcases List.mem_cons.mp hmem with heq | hbelow
      · obtain ⟨rfl, -⟩ := Prod.mk.inj heq
        exact List.prefix_refl _
      · obtain ⟨i, hi⟩ := prefix_of_mem_edges hbelow
        exact (prefix_slotPath _ _ _).trans hi

/-- No two edges of a trie share a slot. -/
theorem edges_nodup (L : Path n) (nd : TrieNode n V H) :
    ((edges L nd).map Prod.fst).Nodup := by
  induction nd using induct generalizing L with
  | step nd ih =>
      rw [edges_eq, List.map_flatMap, List.nodup_flatMap]
      constructor
      · intro i _
        cases he : nd.children.get i with
        | none => exact List.nodup_nil
        | some e =>
            rw [slotEdges_some, List.map_cons, List.nodup_cons]
            refine ⟨?_, ih i e he _⟩
            intro hmem
            obtain ⟨⟨s, f⟩, hf, hs⟩ := List.mem_map.mp hmem
            obtain ⟨j, hj⟩ := prefix_of_mem_edges hf
            have hlen := hj.length_le
            simp only at hs
            rw [hs] at hlen
            simp only [slotPath, List.length_append,
              List.length_singleton] at hlen
            omega
      · refine (List.nodup_finRange n).pairwise_of_forall_ne ?_
        intro i _ j _ hij s hi hj
        have hpi := prefix_of_mem_slotEdges hi
        have hpj := prefix_of_mem_slotEdges hj
        have heq : slotPath L nd i = slotPath L nd j := by
          refine List.IsPrefix.eq_of_length
            (List.prefix_of_prefix_length_le hpi hpj ?_) ?_
          · simp [slotPath]
          · simp [slotPath]
        simp only [slotPath, List.append_cancel_left_eq] at heq
        exact hij (List.cons.inj heq).1

end Node

theorem Trie.sealedEdges_nodup (t : Trie n V H) :
    (t.sealedEdges.map Prod.fst).Nodup := by
  cases t with
  | none => exact Multiset.nodup_zero
  | some nd =>
      refine (Node.edges_nodup [] nd).sublist ?_
      exact List.filter_sublist.map Prod.fst

/-- The sealed edges of a trie are, slot by slot, those a mutation passed to a
successful `materialize` and those it leaves as they were, whether or not it
succeeds. -/
theorem sealed_edges_kept_or_replaced (hasher : TrieHasher n V H)
    (store : EdgeStore n V H σ ε) {op : Op n V} (hop : op.mutates = true)
    (t : Trie n V H) (s : σ) :
    ∃ r t' s', ∃ replaced : List (Path n × Edge n V H),
      op.perform hasher store.logged t (s, []) =
        .ok (r, t', s', replaced.map Prod.snd) ∧
      t.sealedEdges = (replaced : Multiset _) + t'.sealedEdges ∧
      (t.sealedEdges.map Prod.fst).Nodup := by
  have houtcome := op.perform_outcome hasher store.logged t (s, [])
  generalize op.perform hasher store.logged t (s, []) = c at houtcome
  have hlogged : ∀ {t' : Trie n V H} {s' : σ × List (Edge n V H)},
      Accounts store.logged (s, []) s' t.sealedEdges t'.sealedEdges →
      ∃ replaced : List (Path n × Edge n V H),
        s' = (s'.1, replaced.map Prod.snd) ∧
          t.sealedEdges = (replaced : Multiset _) + t'.sealedEdges := by
    rintro t' s' ⟨replaced, hcalls, heq⟩
    have hlog := hcalls.logged
    rw [List.nil_append] at hlog
    exact ⟨replaced, by rw [← hlog], heq⟩
  cases houtcome with
  | failed _ _ hacc =>
      obtain ⟨replaced, hs, heq⟩ := hlogged (hacc hop)
      rw [hs]
      exact ⟨_, _, _, replaced, rfl, heq, t.sealedEdges_nodup⟩
  | done _ hacc =>
      obtain ⟨replaced, hs, heq⟩ := hlogged (hacc hop)
      rw [hs]
      exact ⟨_, _, _, replaced, rfl, heq, t.sealedEdges_nodup⟩

/-- Removing the last key behind one of two sealed edges. -/
theorem sealed_edges_kept_or_replaced_remove :
    ∃ (nd : TrieNode 2 ℕ ℕ) (r : Except Empty (Answer ℕ ℕ))
        (t' : Trie 2 ℕ ℕ) (replaced : List (Path 2 × Edge 2 ℕ ℕ)),
      nd.children.count = 2 ∧
      (Op.remove [0]).perform (TrieHasher.summing 2)
        (EdgeStore.inMemory 2 ℕ ℕ).logged (some nd) ((), []) =
          .ok (r, t', (), replaced.map Prod.snd) ∧
      Trie.sealedEdges (some nd) =
        (replaced : Multiset _) + t'.sealedEdges := by
  let nd : TrieNode 2 ℕ ℕ := {
    partialPath := []
    value := none
    children := (ChildMap.empty.set 0 (.mk (leaf [] 5) (some 9))).set 1
      (.mk (leaf [] 7) (some 8)) }
  have hop : (Op.remove [0] : Op 2 ℕ).mutates = true := rfl
  obtain ⟨r, t', ⟨⟩, replaced, hrun, heq, -⟩ :=
    sealed_edges_kept_or_replaced (TrieHasher.summing 2)
      (EdgeStore.inMemory 2 ℕ ℕ) hop (some nd) ()
  exact ⟨nd, r, t', replaced, by decide +kernel, hrun, heq⟩

end ArityTries
