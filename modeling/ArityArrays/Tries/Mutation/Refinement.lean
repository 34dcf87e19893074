import ArityArrays.Tries.Mutation.Mutations
import ArityArrays.Tries.Mutation.Unwind

/-!
# The mutations compute their edits

Each operation over a store ends in one of two ways: the store failed, and the
trie was opened without changing what the operation computes; or the operation
succeeded with the result and the trie of its edit.  Either way every sealed
edge that is gone was replaced by a call of the store.
-/

namespace ArityTries

open Checked Loop Node

variable {n : ℕ} {V H σ ε ρ : Type}

/-- The sealed edges of a trie, with the full paths of their slots. -/
def Trie.sealedEdges : Trie n V H → Multiset (Path n × Edge n V H)
  | none => 0
  | some nd => Node.sealedEdges [] nd

/-- The two ways a mutation of a trie that computes `ideal` can end. -/
inductive MutationOutcome (store : EdgeStore n V H σ ε)
    (ideal : Trie n V H → ρ × Trie n V H) (t : Trie n V H) (s : σ) :
    Checked (Except ε ρ × Trie n V H × σ) → Prop
  | failed {x : ε} {nd nd₁ : TrieNode n V H} {s' : σ} (ht : t = some nd)
      (hfail : ¬ store.NeverFails) (hopen : Opening store [] nd nd₁ s s')
      (hsame : ideal (some nd₁) = ideal t) :
      MutationOutcome store ideal t s (.ok (.error x, some nd₁, s'))
  | done {s' : σ}
      (hacc : Accounts store s s' t.sealedEdges (ideal t).2.sealedEdges) :
      MutationOutcome store ideal t s
        (.ok (.ok (ideal t).1, (ideal t).2, s'))

theorem MutationOutcome.of_eq {store : EdgeStore n V H σ ε}
    {ideal : Trie n V H → ρ × Trie n V H} {t t' : Trie n V H} {r : ρ}
    {s s' : σ} (hideal : ideal t = (r, t'))
    (hacc : Accounts store s s' t.sealedEdges t'.sealedEdges) :
    MutationOutcome store ideal t s (.ok (.ok r, t', s')) := by
  have hacc' : Accounts store s s' t.sealedEdges
      (ideal t).2.sealedEdges := by
    rwa [hideal]
  have hdone := MutationOutcome.done hacc'
  rwa [hideal] at hdone

theorem EditOutcome.mutation {F : Finish n V H σ ε ρ}
    {store : EdgeStore n V H σ ε}
    {stop : TrieNode n V H → Path n → Fate n V H ρ}
    {ideal : Trie n V H → ρ × Trie n V H} {key : Path n}
    (hideal : ∀ m, ideal (some m) = (edit stop m key).close)
    {nd : TrieNode n V H} {s : σ}
    {c : Checked (Except ε ρ × Trie n V H × σ)}
    (hc : EditOutcome F store stop none [] [] nd key s c) :
    MutationOutcome store ideal (some nd) s c := by
  cases hc with
  | failed hfail hopen hsame =>
      rw [Frames.close_nil]
      refine .failed rfl hfail hopen ?_
      rw [hideal, hideal, hsame]
  | @stays nd' r d s' hfate hacc =>
      refine .of_eq ?_ hacc
      rw [hideal, hfate]
      rfl
  | @leaves nd₁ r d s' hfate hopen hsame hempty hgone =>
      rw [Finish.run, unwindRemove_singleton, ok_bind,
        F.collect_root _ r _ hgone]
      have hacc := hopen.accounts
      rw [hempty] at hacc
      refine .of_eq ?_ hacc
      rw [hideal, hfate]
      rfl

/-! ## Splits and descents, computed -/

@[simp] theorem sliceFrom_succ {α : Type} (xs : List α) (x : α)
    (ys : List α) :
    sliceFrom (xs ++ x :: ys) (xs.length + 1) = .ok ys := by
  simp [sliceFrom]

section Split

variable {nd : TrieNode n V H}

theorem Split.of_hit :
    Split.of nd.partialPath nd = .ok
      { sharedLen := nd.partialPath.length
        keyNext := none
        above := none } := by
  simp [Split.of]

theorem Split.of_above {key : Path n} {ni : Fin n} {nodeRest : Path n}
    (hp : nd.partialPath = key ++ ni :: nodeRest) :
    Split.of key nd = .ok
      { sharedLen := key.length
        keyNext := none
        above := some (ni, nodeRest) } := by
  simp [Split.of, hp]

theorem Split.of_below (i : Fin n) (keyRest : Path n) :
    Split.of (nd.partialPath ++ i :: keyRest) nd = .ok
      { sharedLen := nd.partialPath.length
        keyNext := some i
        above := none } := by
  simp [Split.of]

theorem Split.of_fork {shared : Path n} {ki ni : Fin n}
    {keyRest nodeRest : Path n} (hne : ki ≠ ni)
    (hp : nd.partialPath = shared ++ ni :: nodeRest) :
    Split.of (shared ++ ki :: keyRest) nd = .ok
      { sharedLen := shared.length
        keyNext := some ki
        above := some (ni, nodeRest) } := by
  simp [Split.of, hp, commonPrefix_fork shared hne]

end Split

section Descend

variable {store : EdgeStore n V H σ ε} {slot : Option (Fin n)}
  {nd : TrieNode n V H} {d : Descended n}
  {rest : Frames n V H (Descended n)} {i : Fin n} {e : Edge n V H}
  {s s' : σ}

theorem descend_error {x : ε} (he : nd.children.get i = some e)
    (hm : store.materialize s e = (.error x, e, s')) :
    descend store ({ slot, node := nd, extra := d } :: rest) i s =
      .ok (.error x, { slot, node := nd, extra := some i } :: rest, s') := by
  simp [descend, Frames.tryPushChild, he, hm, setChild_get he]

theorem descend_ok (he : nd.children.get i = some e)
    (hm : store.materialize s e = (.ok (), .mk e.node none, s')) :
    descend store ({ slot, node := nd, extra := d } :: rest) i s =
      .ok (.ok (),
        { slot := some i, node := e.node, extra := none } ::
          { slot, node := nd.setChild i (.mk e.node none),
            extra := some i } :: rest, s') := by
  simp [descend, Frames.tryPushChild, he, hm]

end Descend

end ArityTries
