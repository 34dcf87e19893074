import ArityArrays.Tries.Runs

/-!
# Failed mutations can be retried

A mutation that fails in the store has turned some sealed edges inline and
changed nothing else.  However often it fails, once it succeeds it returns and
leaves what it would have without the failures.
-/

namespace ArityTries

open Checked Node

variable {n : ℕ} {V H σ ε : Type}

/-- The edge is in the same slot, in the same state or turned inline. -/
def SameOrInline (a b : Path n × Edge n V H) : Prop :=
  b.1 = a.1 ∧ (b.2.hash = a.2.hash ∨ b.2.hash = none)

/-- Opening turns some edges inline and keeps every slot. -/
theorem Opened.edges {nd nd' : TrieNode n V H} (h : Opened nd nd')
    (L : Path n) :
    List.Forall₂ SameOrInline (Node.edges L nd) (Node.edges L nd') := by
  induction nd using induct generalizing nd' L with
  | step nd ih =>
      have hslot : ∀ i, slotPath L nd' i = slotPath L nd i := by
        intro i
        rw [slotPath, slotPath, h.partialPath_eq]
      have hslots : ∀ i, List.Forall₂ SameOrInline
          (slotEdges (slotPath L nd i) (nd.children.get i))
          (slotEdges (slotPath L nd' i) (nd'.children.get i)) := by
        intro i
        rw [hslot i]
        rcases h.get i with ⟨he, he'⟩ | ⟨e, e', he, he', hstate, hopen⟩
        · rw [he, he']
          exact List.Forall₂.nil
        · rw [he, he', slotEdges_some, slotEdges_some]
          refine List.Forall₂.cons ⟨rfl, ?_⟩ (ih i e he hopen _)
          rcases hstate with rfl | hnone
          · exact Or.inl rfl
          · exact Or.inr hnone
      rw [edges_eq, edges_eq]
      refine List.rel_flatMap (R := Eq) (List.forall₂_refl _) ?_
      rintro i _ rfl
      exact hslots i

namespace Op

variable {hasher : TrieHasher n V H} {op : Op n V} {t t' : Trie n V H}

/-- What a failing mutation leaves. -/
theorem opened_of_error {store : EdgeStore n V H σ ε} {s s' : σ} {x : ε}
    (hop : op.mutates = true)
    (hrun : op.perform hasher store t s = .ok (.error x, t', s')) :
    ∃ nd nd', t = some nd ∧ t' = some nd' ∧ Opened nd nd' ∧
      op.ideal hasher t' = op.ideal hasher t := by
  have houtcome := op.perform_outcome hasher store t s
  rw [hrun] at houtcome
  cases houtcome with
  | failed _ hleft _ =>
      cases hleft with
      | read => cases hop
      | opened _ hopen hsame => exact ⟨_, _, rfl, rfl, hopen, hsame⟩
      | halted => cases hop

/-- What a successful call returns and leaves. -/
theorem ideal_of_ok {store : EdgeStore n V H σ ε} {s s' : σ}
    {r : Answer V H}
    (hrun : op.perform hasher store t s = .ok (.ok r, t', s')) :
    op.ideal hasher t = (r, t') := by
  have houtcome := op.perform_outcome hasher store t s
  rw [hrun] at houtcome
  cases houtcome with
  | done hideal _ => exact hideal

end Op

/-- The tries that failing attempts at one call leave, one after another, over
whatever stores. -/
inductive Attempts (hasher : TrieHasher n V H) (op : Op n V)
    (t : Trie n V H) : Trie n V H → Prop
  | nil : Attempts hasher op t t
  | failed {σ ε : Type} {store : EdgeStore n V H σ ε} {s s' : σ} {x : ε}
      {t₁ t₂ : Trie n V H} (h : Attempts hasher op t t₁)
      (hrun : op.perform hasher store t₁ s = .ok (.error x, t₂, s')) :
      Attempts hasher op t t₂

/-- Failed attempts do not change what the call computes. -/
theorem Attempts.ideal_eq {hasher : TrieHasher n V H} {op : Op n V}
    (hop : op.mutates = true) {t t₁ : Trie n V H}
    (h : Attempts hasher op t t₁) :
    op.ideal hasher t₁ = op.ideal hasher t := by
  induction h with
  | nil => rfl
  | failed _ hrun ih =>
      obtain ⟨_, _, _, _, _, hsame⟩ := Op.opened_of_error hop hrun
      rw [hsame, ih]

/-- A mutation that fails changes nothing but turning sealed edges inline, and
a call repeated until it succeeds returns and leaves what it would on the
original trie over a store that never fails. -/
theorem failed_mutation_atomic (hasher : TrieHasher n V H) {op : Op n V}
    (hop : op.mutates = true) (t : Trie n V H) :
    (∀ (σ ε : Type) (store : EdgeStore n V H σ ε) (s s' : σ) (x : ε)
        (t' : Trie n V H),
      op.perform hasher store t s = .ok (.error x, t', s') →
        t'.map inlined = t.map inlined ∧ contents t' = contents t ∧
          List.Forall₂ SameOrInline t.edges t'.edges) ∧
    (∀ (σ ε σ' ε' : Type) (store : EdgeStore n V H σ ε)
        (store' : EdgeStore n V H σ' ε') (s s₂ : σ) (s' : σ')
        (r : Answer V H) (t₁ t₂ : Trie n V H),
      Attempts hasher op t t₁ →
      op.perform hasher store t₁ s = .ok (.ok r, t₂, s₂) →
      store'.NeverFails →
        ∃ s₂', op.perform hasher store' t s' = .ok (.ok r, t₂, s₂')) := by
  constructor
  · intro σ ε store s s' x t' hrun
    obtain ⟨nd, nd', rfl, rfl, hopen, -⟩ := Op.opened_of_error hop hrun
    refine ⟨?_, contents_eq_of_inlined_eq hopen.inlined_eq, hopen.edges []⟩
    rw [Option.map_some, Option.map_some, hopen.inlined_eq]
  · intro σ ε σ' ε' store store' s s₂ s' r t₁ t₂ hattempts hrun hstore'
    have hideal : op.ideal hasher t = (r, t₂) := by
      rw [← hattempts.ideal_eq hop]
      exact Op.ideal_of_ok hrun
    obtain ⟨s₂', hrun'⟩ := op.perform_of_neverFails hasher hstore' t s'
    rw [hideal] at hrun'
    exact ⟨s₂', hrun'⟩

/-- Removing a key behind a sealed edge, with a first attempt that fails. -/
theorem failed_mutation_atomic_remove :
    ∃ (nd : TrieNode 2 ℕ ℕ) (x : String) (t₁ : Trie 2 ℕ ℕ) (s : ℕ × ℕ)
        (r : Answer ℕ ℕ) (t₂ : Trie 2 ℕ ℕ),
      (Op.remove [0]).perform (TrieHasher.summing 2)
        (EdgeStore.failing 2 ℕ ℕ 0 1) (some nd) (0, 0) =
          .ok (.error x, t₁, s) ∧
      contents t₁ = contents (some nd) ∧
      (Op.remove [0]).perform (TrieHasher.summing 2)
        (EdgeStore.inMemory 2 ℕ ℕ) t₁ () = .ok (.ok r, t₂, ()) ∧
      (Op.remove [0]).perform (TrieHasher.summing 2)
        (EdgeStore.inMemory 2 ℕ ℕ) (some nd) () = .ok (.ok r, t₂, ()) := by
  let nd : TrieNode 2 ℕ ℕ := {
    partialPath := []
    value := some 1
    children := ChildMap.empty.set 0 (.mk (leaf [] 5) (some 9)) }
  have hstore := EdgeStore.inMemory_neverFails 2 ℕ ℕ
  have hop : (Op.remove [0] : Op 2 ℕ).mutates = true := rfl
  have hatomic := failed_mutation_atomic (TrieHasher.summing 2) hop (some nd)
  have hfails : (((Op.remove [0]).perform (TrieHasher.summing 2)
      (EdgeStore.failing 2 ℕ ℕ 0 1) (some nd) (0, 0)).toOption.map
        fun out => out.1.toOption.isSome) = some false := by
    decide +kernel
  obtain ⟨r, t₁, s, hrun, -⟩ := (Op.remove [0]).perform_step
    (TrieHasher.summing 2) (EdgeStore.failing 2 ℕ ℕ 0 1) (some nd) (0, 0)
  rw [hrun] at hfails
  cases r with
  | ok r => cases hfails
  | error x =>
      obtain ⟨-, hcontents, -⟩ := hatomic.1 _ _ _ _ _ _ _ hrun
      obtain ⟨⟨⟩, hretry⟩ := (Op.remove [0]).perform_of_neverFails
        (TrieHasher.summing 2) hstore t₁ ()
      obtain ⟨⟨⟩, hdirect⟩ := hatomic.2 _ _ _ _ _ _ () () () _ _ _
        (.failed .nil hrun) hretry hstore
      exact ⟨nd, x, t₁, s, _, _, hrun, hcontents, hretry, hdirect⟩

end ArityTries
