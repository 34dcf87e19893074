import ArityArrays.Tries.MerkleRoot
import ArityArrays.Tries.Walking.Validation

/-!
# Validation accepts what the operations can build

A trie passes validation exactly if, up to the state of its edges, it is one
that some run of the operations reaches from the empty trie.  Inserting what it
holds, in any order, is such a run.
-/

namespace ArityTries

open Node

variable {n : ℕ} {V H σ ε σ' ε' : Type}

/-- The key-value pairs of a trie in pre-order. -/
def Trie.entries : Trie n V H → List (Path n × V)
  | none => []
  | some nd => nd.entries []

/-- Settledness is a property of the listed nodes. -/
theorem Trie.settled_iff_nodes {t : Trie n V H} :
    t.Settled ↔
      ∀ sm ∈ t.nodes, sm.2.value = none → 2 ≤ sm.2.children.count := by
  cases t with
  | none => simp [Trie.Settled, Trie.nodes]
  | some nd => exact Iff.rfl

theorem Trie.Settled.of_inlined_eq {t t' : Trie n V H}
    (h : t'.Settled) (hshape : t'.map inlined = t.map inlined) :
    t.Settled := by
  cases t with
  | none => trivial
  | some nd =>
      obtain ⟨nd', rfl, heq⟩ := Option.map_eq_some_iff.mp hshape
      have hsettled : nd'.inlined.Settled := settled_inlined.mpr h
      rw [heq] at hsettled
      exact settled_inlined.mp hsettled

/-- Inserting the entries of a settled trie builds its shape. -/
theorem Trie.Settled.rebuilt (hasher : TrieHasher n V H)
    {store : EdgeStore n V H σ ε} (hstore : store.NeverFails)
    {t : Trie n V H} (h : t.Settled) {kvs : List (Path n × V)}
    (hkvs : kvs.Perm t.entries) (s : σ) :
    ∃ rs t' s', performAll hasher store (insertAll kvs) none s =
        .ok (rs, t', s') ∧ t'.map inlined = t.map inlined := by
  obtain ⟨s', hrun⟩ :=
    performAll_of_neverFails hasher hstore (insertAll kvs) none s
  refine ⟨_, _, s', hrun, ?_⟩
  have hsettled :=
    performAll_final (performAll_settled hasher store (insertAll kvs) s) hrun
  refine Trie.inlined_eq_of_contents_eq hsettled h ?_
  cases t with
  | none =>
      obtain rfl : kvs = [] := hkvs.eq_nil
      rfl
  | some nd => exact contents_insertAll_entries hasher hkvs

/-- Validation over a store that never fails accepts a trie if and only if it
has the shape of one that a run from the empty trie reaches, whatever the
scheme, the store and its failures; inserting its entries in any order is such
a run. -/
theorem validate_accepts_reachable {store : EdgeStore n V H σ ε}
    (hstore : store.NeverFails) (t : Trie n V H) (s : σ) :
    ∃ r s', validate store t s = .ok (r, s') ∧
      (∀ (hasher : TrieHasher n V H) (σ' ε' : Type)
          (store' : EdgeStore n V H σ' ε') (ops : List (Op n V)) (s₀ s₁ : σ')
          (rs : List (Except ε' (Answer V H))) (t' : Trie n V H),
        performAll hasher store' ops none s₀ = .ok (rs, t', s₁) →
        t'.map inlined = t.map inlined → r = .ok ()) ∧
      (r = .ok () → ∀ (hasher : TrieHasher n V H) (σ' ε' : Type)
          (store' : EdgeStore n V H σ' ε') (kvs : List (Path n × V))
          (s₀ : σ'), store'.NeverFails → kvs.Perm t.entries →
        ∃ rs t' s₁, performAll hasher store' (insertAll kvs) none s₀ =
            .ok (rs, t', s₁) ∧ t'.map inlined = t.map inlined) := by
  obtain ⟨out, hrun, hout⟩ := validate_validated store t s
  cases hout with
  | failed hfail => exact absurd hstore hfail
  | done s' =>
      have hok : (reported (firstViolation t.nodes) :
          Except (ValidateError n ε) Unit) = .ok () ↔ t.Settled := by
        rw [Trie.settled_iff_nodes, ← firstViolation_eq_none]
        cases firstViolation t.nodes with
        | none => exact iff_of_true rfl rfl
        | some v =>
            refine iff_of_false ?_ (Option.some_ne_none v)
            rintro ⟨⟩
      refine ⟨_, s', hrun, ?_, ?_⟩
      · intro hasher σ' ε' store' ops s₀ s₁ rs t' hops hshape
        have hsettled := performAll_final
          (performAll_settled hasher store' ops s₀) hops
        exact hok.mpr (hsettled.of_inlined_eq hshape)
      · intro hvalid hasher σ' ε' store' kvs s₀ hstore' hkvs
        exact (hok.mp hvalid).rebuilt hasher hstore' hkvs s₀

/-- A root that holds its own key and one child. -/
theorem validate_accepts_reachable_root :
    ∃ r s', validate (EdgeStore.inMemory 2 ℕ ℕ)
        (some {
          partialPath := [1]
          value := some 4
          children := ChildMap.empty.set 0 (.mk (leaf [] 5) (some 9)) }) () =
          .ok (r, s') ∧
      (r = .ok () → ∃ rs t' s₁, performAll (TrieHasher.summing 2)
          (EdgeStore.inMemory 2 ℕ ℕ) (insertAll [([1, 0], 5), ([1], 4)]) none
          () = .ok (rs, t', s₁)) := by
  let t : Trie 2 ℕ ℕ := some {
    partialPath := [1]
    value := some 4
    children := ChildMap.empty.set 0 (.mk (leaf [] 5) (some 9)) }
  have hstore := EdgeStore.inMemory_neverFails 2 ℕ ℕ
  have hentries : t.entries = [([1], 4), ([1, 0], 5)] := by
    decide +kernel
  obtain ⟨r, s', hrun, -, hbuild⟩ := validate_accepts_reachable hstore t ()
  refine ⟨r, s', hrun, ?_⟩
  intro hr
  have hkvs : ([([1, 0], 5), ([1], 4)] : List (Path 2 × ℕ)).Perm
      t.entries := by
    rw [hentries]
    exact List.Perm.swap _ _ _
  obtain ⟨rs, t', s₁, hrun', -⟩ :=
    hbuild hr (TrieHasher.summing 2) Unit Empty
      (EdgeStore.inMemory 2 ℕ ℕ) [([1, 0], 5), ([1], 4)] () hstore hkvs
  exact ⟨rs, t', s₁, hrun'⟩

end ArityTries
