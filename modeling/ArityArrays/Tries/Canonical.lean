import ArityArrays.Tries.FiniteMap

/-!
# Settled tries along every run

Every call keeps settled tries settled, whether or not the store fails, so
every trie reached from the empty one is settled.  A settled trie is determined
by its contents; two histories with equal contents end in the same shape.
-/

namespace ArityTries

open Node

variable {n : ℕ} {V H σ ε σ' ε' : Type}

theorem performAll_settled (hasher : TrieHasher n V H)
    (store : EdgeStore n V H σ ε) (ops : List (Op n V)) (s : σ) :
    ∃ rs t s', performAll hasher store ops none s = .ok (rs, t, s') ∧
      t.Settled := by
  have hempty : Trie.Settled (none : Trie n V H) := trivial
  exact performAll_invariant hasher store
    (fun _ _ _ h hstep => hstep.settled h) ops
    hempty s

/-- Every call leaves a settled trie settled, and empty exactly when it holds
no key; so does every run from the empty trie. -/
theorem calls_keep_settled (hasher : TrieHasher n V H)
    (store : EdgeStore n V H σ ε) :
    (∀ (op : Op n V) (t : Trie n V H) (s : σ), t.Settled →
      ∃ r t' s', op.perform hasher store t s = .ok (r, t', s') ∧
        t'.Settled ∧ (t' = none ↔ ∀ key, contents t' key = none)) ∧
    (∀ (ops : List (Op n V)) (s : σ),
      ∃ rs t' s', performAll hasher store ops none s = .ok (rs, t', s') ∧
        t'.Settled ∧ (t' = none ↔ ∀ key, contents t' key = none)) := by
  constructor
  · intro op t s ht
    obtain ⟨r, t', s', hrun, hstep⟩ := op.perform_step hasher store t s
    have ht' := hstep.settled ht
    exact ⟨r, t', s', hrun, ht', ht'.eq_none_iff⟩
  · intro ops s
    obtain ⟨rs, t', s', hrun, ht'⟩ := performAll_settled hasher store ops s
    exact ⟨rs, t', s', hrun, ht', ht'.eq_none_iff⟩

/-- Removing one of two children beneath a node that holds no value: the other
is merged into it. -/
theorem calls_keep_settled_merge :
    ∃ root : TrieNode 2 ℕ ℕ, root.value = none ∧ root.children.count = 2 ∧
      ∃ r t' s', (Op.remove [0]).perform (TrieHasher.summing 2)
          (EdgeStore.inMemory 2 ℕ ℕ) (some root) () = .ok (r, t', s') ∧
        t'.Settled ∧ (t' = none ↔ ∀ key, contents t' key = none) := by
  let root : TrieNode 2 ℕ ℕ := {
    partialPath := []
    value := none
    children := (ChildMap.empty.set 0 (.mk (leaf [] 5) none)).set 1
      (.mk (leaf [1] 7) (some 9)) }
  have hsettled : Settled root := by
    unfold Settled Everywhere
    decide +kernel
  exact ⟨root, rfl, by decide +kernel,
    (calls_keep_settled (TrieHasher.summing 2)
      (EdgeStore.inMemory 2 ℕ ℕ)).1 (.remove [0]) (some root) () hsettled⟩

/-- Settled tries with equal contents have equal shapes, the empty trie
included. -/
theorem Trie.inlined_eq_of_contents_eq {t t' : Trie n V H}
    (h : t.Settled) (h' : t'.Settled) (hc : contents t = contents t') :
    t.map inlined = t'.map inlined := by
  have hempty : t = none ↔ t' = none := by
    rw [h.eq_none_iff, h'.eq_none_iff, hc]
  cases t with
  | none =>
      obtain rfl := hempty.mp rfl
      rfl
  | some nd =>
      cases t' with
      | none =>
          have hnone := hempty.mpr rfl
          cases hnone
      | some nd' =>
          rw [Option.map_some, Option.map_some,
            Node.inlined_eq_of_contents_eq h h' hc]

/-- Two runs from the empty trie that end with equal contents end in the same
shape, and a settled trie is determined by its contents. -/
theorem shape_of_contents {hasher hasher' : TrieHasher n V H}
    {store : EdgeStore n V H σ ε} {store' : EdgeStore n V H σ' ε'}
    {ops ops' : List (Op n V)} {s s₁ : σ} {s' s₁' : σ'}
    {rs : List (Except ε (Answer V H))}
    {rs' : List (Except ε' (Answer V H))} {t t' : Trie n V H}
    (hrun : performAll hasher store ops none s = .ok (rs, t, s₁))
    (hrun' : performAll hasher' store' ops' none s' = .ok (rs', t', s₁'))
    (hcontents : contents t = contents t') :
    t.map inlined = t'.map inlined ∧
      ∀ u u' : Trie n V H, u.Settled → u'.Settled →
        contents u = contents u' → u.map inlined = u'.map inlined := by
  have ht := performAll_final (performAll_settled hasher store ops s) hrun
  have ht' :=
    performAll_final (performAll_settled hasher' store' ops' s') hrun'
  refine ⟨Trie.inlined_eq_of_contents_eq ht ht' hcontents, ?_⟩
  intro u u' hu hu' hc
  exact Trie.inlined_eq_of_contents_eq hu hu' hc

/-- Inserting two keys in either order. -/
theorem shape_of_contents_swap :
    ∃ rs t s₁ rs' t' s₁',
      performAll (TrieHasher.summing 2) (EdgeStore.inMemory 2 ℕ ℕ)
        [.insert [0, 1] 5, .insert [0] 7] none () = .ok (rs, t, s₁) ∧
      performAll (TrieHasher.summing 2) (EdgeStore.inMemory 2 ℕ ℕ)
        [.insert [0] 7, .insert [0, 1] 5] none () = .ok (rs', t', s₁') ∧
      t.map inlined = t'.map inlined := by
  have hstore := EdgeStore.inMemory_neverFails 2 ℕ ℕ
  have hops : ∀ op ∈ ([.insert [0, 1] 5, .insert [0] 7] : List (Op 2 ℕ)),
      op ≠ .hash := by
    decide
  have hops' : ∀ op ∈ ([.insert [0] 7, .insert [0, 1] 5] : List (Op 2 ℕ)),
      op ≠ .hash := by
    decide
  obtain ⟨s₁, hrun⟩ := performAll_of_neverFails (TrieHasher.summing 2) hstore
    [.insert [0, 1] 5, .insert [0] 7] none ()
  obtain ⟨s₁', hrun'⟩ := performAll_of_neverFails (TrieHasher.summing 2)
    hstore [.insert [0] 7, .insert [0, 1] 5] none ()
  have hmap := (idealAll_onMap (TrieHasher.summing 2) hops none).2
  have hmap' := (idealAll_onMap (TrieHasher.summing 2) hops' none).2
  have hne : ([0, 1] : Path 2) ≠ [0] := by decide
  refine ⟨_, _, s₁, _, _, s₁', hrun, hrun',
    (shape_of_contents hrun hrun' ?_).1⟩
  rw [hmap, hmap']
  exact Function.update_comm hne _ _ _

end ArityTries
