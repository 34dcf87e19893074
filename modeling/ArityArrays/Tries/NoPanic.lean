import ArityArrays.Tries.Runs
import ArityArrays.Tries.Walking.Validation

/-!
# No assertion fails

Every function of the trie returns: on tries of any shape, settled or not, over
any store, whichever of its calls fail.  The assertions on the way, of indices,
children and frames, are discharged in the specification of each function.
-/

namespace ArityTries

open Checked Walk

variable {n : ℕ} {V H σ ε τ : Type}

theorem getNode_safe (store : EdgeStore n V H σ ε) (t : Trie n V H)
    (key : Path n) (s : σ) : Safe (getNode store t key s) := by
  rcases getNode_cases store t key s with
    ⟨x, s', -, hget⟩ | ⟨o, s', -, hget⟩
  · exact ⟨_, hget⟩
  · exact ⟨_, hget⟩

/-- A mutation that ends in one of the two ways returns. -/
theorem MutationOutcome.safe {ρ : Type} {store : EdgeStore n V H σ ε}
    {ideal : Trie n V H → ρ × Trie n V H} {t : Trie n V H} {s : σ}
    {c : Checked (Except ε ρ × Trie n V H × σ)}
    (hc : MutationOutcome store ideal t s c) : Safe c := by
  cases hc with
  | failed => exact ⟨_, rfl⟩
  | done => exact ⟨_, rfl⟩

theorem materializeSubtree_safe (store : EdgeStore n V H σ ε)
    (root : TrieNode n V H) (s : σ) :
    Safe (materializeSubtree store root s) := by
  rcases materializeSubtree_cases store [] root s with
    ⟨x, nd₁, s', -, -, hrun⟩ | ⟨s', -, hrun⟩
  · exact ⟨_, hrun⟩
  · exact ⟨_, hrun⟩

theorem hash_safe (hasher : TrieHasher n V H) (store : EdgeStore n V H σ ε)
    (root : TrieNode n V H) (s : σ) : Safe (hash hasher store root s) := by
  rcases hash_cases hasher store root s with
    ⟨x, m, s', -, -, hrun⟩ | ⟨s', hrun⟩
  · exact ⟨_, hrun⟩
  · exact ⟨_, hrun⟩

/-- Any number of calls of `next` return, also after a failure. -/
theorem nextAll_safe (store : EdgeStore n V H σ ε) (k : ℕ)
    {w : Walk n V H} {pending : List (Path n × TrieNode n V H)}
    (hw : Pending w pending) (s : σ) : Safe (nextAll store k w s) := by
  induction k generalizing w pending s with
  | zero => exact ⟨_, rfl⟩
  | succ k ih =>
      obtain ⟨⟨r, w₁, s₁⟩, hnext, hyielded⟩ := next_yielded hw store s
      obtain ⟨p, hw₁⟩ : ∃ p, Pending w₁ p := by
        cases hyielded with
        | failed _ hw₁ => exact ⟨_, hw₁⟩
        | ended _ hw₁ => exact ⟨_, hw₁⟩
        | item _ hw₁ => exact ⟨_, hw₁⟩
      obtain ⟨⟨rs, w', s'⟩, hrest⟩ := ih hw₁ s₁
      refine ⟨(r :: rs, w', s'), ?_⟩
      simp only [nextAll, hnext, hrest, ok_bind, pure_eq_ok]

theorem visit_safe (store : EdgeStore n V H σ ε) (t : Trie n V H)
    (start : Option (Path n))
    (f : τ → Path n → TrieNode n V H → ControlFlow × τ) (c : τ) (s : σ) :
    Safe (visit store t start f c s) := by
  obtain ⟨out, hrun, -⟩ := visit_visited store t start f c s
  exact ⟨out, hrun⟩

theorem validate_safe (store : EdgeStore n V H σ ε) (t : Trie n V H)
    (s : σ) : Safe (validate store t s) := by
  obtain ⟨out, hrun, -⟩ := validate_validated store t s
  exact ⟨out, hrun⟩

/-- No function of the trie reaches a failing assertion, whatever the shape of
the trie, the key, the hasher and the failures of the store. -/
theorem no_assertion_fails (hasher : TrieHasher n V H)
    (store : EdgeStore n V H σ ε) (t : Trie n V H) (s : σ) :
    (∀ key, Safe (getNode store t key s)) ∧
    (∀ key value, Safe (insert store t key value s)) ∧
    (∀ key, Safe (remove store t key s)) ∧
    (∀ keyPrefix, Safe (removePrefix store t keyPrefix s)) ∧
    (∀ root, Safe (materializeSubtree store root s)) ∧
    (∀ root, Safe (hash hasher store root s)) ∧
    (∀ start k, Safe (nextAll store k (iter t start) s)) ∧
    (∀ start (τ : Type)
      (f : τ → Path n → TrieNode n V H → ControlFlow × τ) (c : τ),
      Safe (visit store t start f c s)) ∧
    Safe (validate store t s) ∧
    ∀ ops, Safe (performAll hasher store ops t s) := by
  refine ⟨fun key => getNode_safe store t key s,
    fun key value => (insert_outcome store t key value s).safe,
    fun key => (remove_outcome store t key s).safe,
    fun keyPrefix => (removePrefix_outcome store t keyPrefix s).safe,
    fun root => materializeSubtree_safe store root s,
    fun root => hash_safe hasher store root s, ?_,
    fun start τ f c => visit_safe store t start f c s,
    validate_safe store t s, ?_⟩
  · intro start k
    exact nextAll_safe store k (.fresh t start) s
  · intro ops
    obtain ⟨rs, t', s', hrun, -⟩ := performAll_invariant hasher
      (P := fun _ => True) store (fun _ _ _ _ _ => trivial) ops trivial s
    exact ⟨_, hrun⟩

end ArityTries
