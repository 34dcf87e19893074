import ArityArrays.Tries.Mutation.Edit
import ArityArrays.Tries.Ops

/-!
# Lookup finds the node at a full path

The lookup loop reads its way down a key.  It finds what `nodeAt` finds,
whatever handles it has gathered on the way, unless a read fails.
-/

namespace ArityTries

open Checked Loop Node

variable {n : ℕ} {V H σ ε : Type}

theorem EdgeStore.not_neverFails_of_read {store : EdgeStore n V H σ ε}
    {s s' : σ} {e : Edge n V H} {x : ε}
    (hr : store.read s e = (.error x, s')) : ¬ store.NeverFails := by
  intro hstore
  exact hstore.read s e x (by rw [hr])

/-- The lookup from an arbitrary chain of handles. -/
theorem getNodeBody_run (store : EdgeStore n V H σ ε)
    (nd : TrieNode n V H) (key : Path n) (chain : List (TrieNode n V H))
    (s : σ) :
    (∃ x s', ¬ store.NeverFails ∧
      run (getNodeBody store) _ (getNodeBody_decreases store)
        (chain, nd, key, s) = .ok (.error x, s')) ∨
    ∃ o s', o.map NodeRef.node = nd.nodeAt key ∧
      run (getNodeBody store) _ (getNodeBody_decreases store)
        (chain, nd, key, s) = .ok (.ok o, s') := by
  induction nd, key using walkInduct generalizing chain s with
  | stop nd key hstop =>
      rcases descent_cases key nd.partialPath with
        rfl | ⟨ni, nr, hp⟩ | ⟨i, kr, rfl⟩ |
          ⟨sh, ki, kr, ni, nr, hne, rfl, hp⟩
      · refine Or.inr ⟨some { chain, node := nd }, s, (nodeAt_hit nd).symm, ?_⟩
        apply run_of_leave
        simp [getNodeBody]
      · refine Or.inr ⟨none, s, (nodeAt_above hp).symm, ?_⟩
        apply run_of_leave
        simp [getNodeBody, hp]
      · have hi := hstop i kr rfl
        have habsent : nd.nodeAt (nd.partialPath ++ i :: kr) = none := by
          rw [nodeAt_below, childTrie_of_none hi]
          rfl
        refine Or.inr ⟨none, s, habsent.symm, ?_⟩
        apply run_of_leave
        simp [getNodeBody, hi]
      · refine Or.inr ⟨none, s, (nodeAt_fork hne hp).symm, ?_⟩
        apply run_of_leave
        simp [getNodeBody, hp, commonPrefix_fork sh hne]
  | descend nd i keyRest e he ih =>
      have hbelow : nd.nodeAt (nd.partialPath ++ i :: keyRest) =
          e.node.nodeAt keyRest := by
        rw [nodeAt_below, childTrie_of_get he]
        rfl
      rcases store.read_cases s e with ⟨x, s', hr⟩ | ⟨s', hr⟩
      · refine Or.inl ⟨x, s', EdgeStore.not_neverFails_of_read hr, ?_⟩
        apply run_of_leave
        simp [getNodeBody, he, hr]
      · have hstep : run (getNodeBody store) _ (getNodeBody_decreases store)
            (chain, nd, nd.partialPath ++ i :: keyRest, s) =
          run (getNodeBody store) _ (getNodeBody_decreases store)
            (e.node :: chain, e.node, keyRest, s') := by
          apply run_of_again
          simp [getNodeBody, he, hr]
        rw [hstep, hbelow]
        exact ih (e.node :: chain) s'

theorem getNode_cases (store : EdgeStore n V H σ ε) (t : Trie n V H)
    (key : Path n) (s : σ) :
    (∃ x s', ¬ store.NeverFails ∧
      getNode store t key s = .ok (.error x, s')) ∨
    ∃ o s', o.map NodeRef.node = t.bind (·.nodeAt key) ∧
      getNode store t key s = .ok (.ok o, s') := by
  cases t with
  | none => exact Or.inr ⟨none, s, rfl, rfl⟩
  | some nd => exact getNodeBody_run store nd key [] s

theorem get_cases (store : EdgeStore n V H σ ε) (t : Trie n V H)
    (key : Path n) (s : σ) :
    (∃ x s', ¬ store.NeverFails ∧
      get store t key s = .ok (.error x, s')) ∨
    ∃ s', get store t key s = .ok (.ok (contents t key), s') := by
  rcases getNode_cases store t key s with
    ⟨x, s', hfail, hget⟩ | ⟨o, s', ho, hget⟩
  · refine Or.inl ⟨x, s', hfail, ?_⟩
    simp [get, hget, Except.map]
  · have hvalue : (o.bind fun node => node.node.value) = contents t key := by
      have hbind : (o.bind fun node => node.node.value) =
          (o.map NodeRef.node).bind Node.value := by
        cases o <;> rfl
      rw [hbind, ho]
      cases t with
      | none => rfl
      | some nd => exact (contents_some nd key).symm
    refine Or.inr ⟨s', ?_⟩
    simp [get, hget, Except.map, hvalue]

end ArityTries
