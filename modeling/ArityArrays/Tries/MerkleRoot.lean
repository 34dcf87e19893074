import ArityArrays.Tries.Canonical
import ArityArrays.Tries.Order

/-!
# The Merkle root

Over a store that never fails the hash walk computes the Merkle recursion.
Along every run under a scheme that keeps its rules, cached hashes stay valid,
and the root therefore depends on the contents alone, not on their history.
-/

namespace ArityTries

open Checked Node

variable {n : ℕ} {V H σ ε σ' ε' : Type}

/-- The walk over a frame stack returns the hash, and leaves the trie, that
the Merkle recursion gives at the root. -/
theorem hash_eq_merkle (hasher : TrieHasher n V H)
    {store : EdgeStore n V H σ ε} (hstore : store.NeverFails)
    (root : TrieNode n V H) (s : σ) :
    ∃ s', hash hasher store root s =
      .ok (.ok (merkle hasher [] 0 root).1,
        some (merkle hasher [] 0 root).2, s') := by
  rcases hash_cases hasher store root s with ⟨x, m, s', hfails, -, -⟩ | h
  · exact (hfails.not_neverFails hstore).elim
  · exact h

/-- A lone sealed child of the root is hashed again as having no siblings. -/
theorem hash_eq_merkle_lone :
    ∃ (root : TrieNode 2 ℕ ℕ) (t : Trie 2 ℕ ℕ),
      hash (TrieHasher.summing 2) (EdgeStore.inMemory 2 ℕ ℕ) root () =
        .ok (.ok 7, t, ()) := by
  let root : TrieNode 2 ℕ ℕ := {
    partialPath := []
    value := none
    children := ChildMap.empty.set 0 (.mk (leaf [] 5) (some 9)) }
  have hroot : (merkle (TrieHasher.summing 2) [] 0 root).1 = 7 := by
    decide +kernel
  obtain ⟨⟨⟩, hrun⟩ := hash_eq_merkle (TrieHasher.summing 2)
    (EdgeStore.inMemory_neverFails 2 ℕ ℕ) root ()
  rw [hroot] at hrun
  exact ⟨root, _, hrun⟩

/-! ## Cached hashes along a run -/

theorem performAll_hashValid {hasher : TrieHasher n V H}
    (hd : hasher.Documented) (store : EdgeStore n V H σ ε)
    (ops : List (Op n V)) (s : σ) :
    ∃ rs t s', performAll hasher store ops none s = .ok (rs, t, s') ∧
      t.HashValid hasher [] := by
  have hempty : Trie.HashValid hasher [] none := trivial
  exact performAll_invariant hasher store
    (fun _ _ _ h hstep => hstep.hashValid hd h) ops hempty s

/-- What is vouched for at every node says of a sealed edge that everything
beneath it is sealed and that its hash is current. -/
theorem Node.HashValid.sealed {hasher : TrieHasher n V H}
    (hd : hasher.Documented) {root : TrieNode n V H}
    (h : root.HashValid hasher []) {L : Path n} {m c : TrieNode n V H}
    {i : Fin n} {hash : H} (hm : (L, m) ∈ nodes [] root)
    (hi : m.children.get i = some (.mk c (some hash))) :
    (∀ se ∈ edges (slotPath L m i) c, se.2.hash ≠ none) ∧
    (∃ k, 1 ≤ k ∧ hash = c.selfHash hasher (slotPath L m i) k) ∧
    (hasher.siblingSensitive L m.partialPath = true →
      m.HasSealedPeer i →
        ∀ k, 2 ≤ k → hash = c.selfHash hasher (slotPath L m i) k) := by
  obtain ⟨hrest, k, hk, hpeer, rfl⟩ := h (L, m) hm i c hash hi
  have hvalid : m.HashValid hasher L := Everywhere.beneath h hm
  have htidy : c.Tidy := (hvalid.child hi).tidy
  refine ⟨htidy.sealed_below hrest.allSealed _, ⟨k, hk, rfl⟩, ?_⟩
  intro hsens hpeers k' hk'
  have htwo := hpeer hsens hpeers
  refine selfHash_eq_of_documented hd L m i c hk (by omega) ?_
  intro _
  omega

/-- A valid trie is hashed without materializing anything: only reads can
fail. -/
theorem hash_of_hashValid {hasher : TrieHasher n V H}
    {store : EdgeStore n V H σ ε}
    (hread : ∀ s e x, (store.read s e).1 ≠ .error x)
    {root : TrieNode n V H} (h : root.HashValid hasher []) (s : σ) :
    ∃ hash' t s', hash hasher store root s = .ok (.ok hash', t, s') := by
  rcases hash_cases hasher store root s with
    ⟨x, m, s', ⟨s₁, e, y, hy⟩ | ⟨-, htidy⟩, -, -⟩ | ⟨s', hrun⟩
  · exact (hread s₁ e y hy).elim
  · exact (htidy h.tidy).elim
  · exact ⟨_, _, s', hrun⟩

/-- Along every run, with any failures: everything beneath a sealed edge is
sealed; a cached hash is the hash of the current node at its current path for
some number of siblings; and among sealed siblings beneath a sensitive position
it is the hash of a node with siblings.  Hashing a reached trie materializes
nothing. -/
theorem cached_hashes_current {hasher : TrieHasher n V H}
    (hd : hasher.Documented) (store : EdgeStore n V H σ ε)
    (ops : List (Op n V)) (s : σ) :
    ∃ rs t s', performAll hasher store ops none s = .ok (rs, t, s') ∧
      ∀ root, t = some root →
        (∀ L m i c hash, (L, m) ∈ nodes [] root →
          m.children.get i = some (.mk c (some hash)) →
          (∀ se ∈ edges (slotPath L m i) c, se.2.hash ≠ none) ∧
          (∃ k, 1 ≤ k ∧ hash = c.selfHash hasher (slotPath L m i) k) ∧
          (hasher.siblingSensitive L m.partialPath = true →
            m.HasSealedPeer i →
              ∀ k, 2 ≤ k →
                hash = c.selfHash hasher (slotPath L m i) k)) ∧
        (∀ (σ' ε' : Type) (store' : EdgeStore n V H σ' ε') (s₁ : σ'),
          (∀ s e x, (store'.read s e).1 ≠ .error x) →
            ∃ hash' t' s₂, hash hasher store' root s₁ =
              .ok (.ok hash', t', s₂)) := by
  obtain ⟨rs, t, s', hrun, hvalid⟩ := performAll_hashValid hd store ops s
  refine ⟨rs, t, s', hrun, ?_⟩
  rintro root rfl
  constructor
  · intro L m i c hash hm hi
    exact Node.HashValid.sealed hd hvalid hm hi
  · intro σ' ε' store' s₁ hread
    exact hash_of_hashValid hread hvalid s₁

/-- A run whose third hash fails to read a lone sealed child. -/
theorem cached_hashes_current_failing :
    ∃ rs t s', performAll (TrieHasher.summing 2)
        (EdgeStore.failing 2 ℕ ℕ 1 0)
        [.insert [0, 0] 5, .insert [0, 1] 7, .hash, .insert [1] 3, .hash,
          .remove [0, 1], .hash] none (0, 0) = .ok (rs, t, s') ∧
      ∀ root, t = some root →
        ∀ L m i c hash, (L, m) ∈ nodes [] root →
          m.children.get i = some (.mk c (some hash)) →
          ∃ k, 1 ≤ k ∧
            hash = c.selfHash (TrieHasher.summing 2) (slotPath L m i) k := by
  obtain ⟨rs, t, s', hrun, hroot⟩ :=
    cached_hashes_current (TrieHasher.summing_documented 2)
      (EdgeStore.failing 2 ℕ ℕ 1 0)
      [.insert [0, 0] 5, .insert [0, 1] 7, .hash, .insert [1] 3, .hash,
        .remove [0, 1], .hash] (0, 0)
  refine ⟨rs, t, s', hrun, ?_⟩
  intro root ht L m i c hash hm hi
  exact ((hroot root ht).1 L m i c hash hm hi).2.1

/-! ## History independence -/

/-- Insert the listed pairs in order. -/
def insertAll (kvs : List (Path n × V)) : List (Op n V) :=
  kvs.map fun kv => .insert kv.1 kv.2

theorem contents_insertAll (hasher : TrieHasher n V H)
    {kvs : List (Path n × V)} (hkeys : (kvs.map Prod.fst).Nodup)
    (t : Trie n V H) (key : Path n) :
    (∀ v, (key, v) ∈ kvs →
      contents (idealAll hasher (insertAll kvs) t).2 key = some v) ∧
    (key ∉ kvs.map Prod.fst →
      contents (idealAll hasher (insertAll kvs) t).2 key =
        contents t key) := by
  induction kvs generalizing t with
  | nil =>
      refine ⟨?_, fun _ => rfl⟩
      intro v hv
      cases hv
  | cons kv kvs ih =>
      rw [List.map_cons, List.nodup_cons] at hkeys
      obtain ⟨hfresh, hkeys⟩ := hkeys
      obtain ⟨hmem, hother⟩ := ih hkeys (t.inserted kv.1 kv.2).2
      rw [contents_inserted] at hother
      constructor
      · intro v hv
        rcases List.mem_cons.mp hv with rfl | hv
        · rw [Function.update_self] at hother
          exact hother hfresh
        · exact hmem v hv
      · intro hkey
        rw [List.map_cons, List.mem_cons, not_or] at hkey
        rw [Function.update_of_ne hkey.1] at hother
        exact hother hkey.2

/-- Inserting the entries of a trie, in any order, gives its contents. -/
theorem contents_insertAll_entries (hasher : TrieHasher n V H)
    {nd : TrieNode n V H} {kvs : List (Path n × V)}
    (hkvs : kvs.Perm (nd.entries [])) :
    contents (idealAll hasher (insertAll kvs) none).2 =
      contents (some nd) := by
  have hkeys : (kvs.map Prod.fst).Nodup :=
    (hkvs.map Prod.fst).nodup_iff.mpr (entries_nodup [] nd)
  funext key
  obtain ⟨hmem, hother⟩ := contents_insertAll hasher hkeys none key
  cases hv : contents (some nd) key with
  | some v => exact hmem v (hkvs.mem_iff.mpr (contents_eq_some_iff.mp hv))
  | none =>
      refine hother ?_
      intro hkey
      obtain ⟨⟨k, v⟩, hkv, rfl⟩ := List.mem_map.mp hkey
      have hsome := contents_eq_some_iff.mpr (hkvs.mem_iff.mp hkv)
      rw [hv] at hsome
      cases hsome

/-- The root hash after any run is that of a trie freshly built, in any order,
from the contents before the final hash; both hashes leave the same trie. -/
theorem root_history_independent {hasher : TrieHasher n V H}
    (hd : hasher.Documented) {store : EdgeStore n V H σ ε}
    {store' : EdgeStore n V H σ' ε'} (hstore : store.NeverFails)
    (hstore' : store'.NeverFails) {ops : List (Op n V)} {s s₁ : σ}
    {rs : List (Except ε (Answer V H))} {root : TrieNode n V H}
    (hrun : performAll hasher store ops none s = .ok (rs, some root, s₁))
    {kvs : List (Path n × V)} (hkvs : kvs.Perm (root.entries [])) (s' : σ') :
    ∃ h t s₂ rs' root' s₁' s₂',
      hash hasher store root s₁ = .ok (.ok h, t, s₂) ∧
      performAll hasher store' (insertAll kvs) none s' =
        .ok (rs', some root', s₁') ∧
      hash hasher store' root' s₁' = .ok (.ok h, t, s₂') := by
  obtain ⟨s₁', hrun'⟩ :=
    performAll_of_neverFails hasher hstore' (insertAll kvs) none s'
  have ht := performAll_final (performAll_settled hasher store ops s) hrun
  have hv := performAll_final (performAll_hashValid hd store ops s) hrun
  have ht' := performAll_final
    (performAll_settled hasher store' (insertAll kvs) s') hrun'
  have hv' := performAll_final
    (performAll_hashValid hd store' (insertAll kvs) s') hrun'
  have hcontents := contents_insertAll_entries hasher hkvs
  have hshape := Trie.inlined_eq_of_contents_eq ht' ht hcontents
  cases hfresh : (idealAll hasher (insertAll kvs) none).2 with
  | none =>
      rw [hfresh] at hshape
      cases hshape
  | some root' =>
      rw [hfresh] at hshape hv' hrun'
      have hinlined : root'.inlined = root.inlined :=
        Option.some.inj hshape
      have hmerkle : merkle hasher [] 0 root' = merkle hasher [] 0 root := by
        have hleft := Node.HashValid.merkle_inlined hd hv' 0
        have hright := Node.HashValid.merkle_inlined hd hv 0
        rw [← hleft, hinlined, hright]
      rcases hash_cases hasher store root s₁ with
        ⟨x, m, s₂, hfails, -, -⟩ | ⟨s₂, hhash⟩
      · exact (hfails.not_neverFails hstore).elim
      rcases hash_cases hasher store' root' s₁' with
        ⟨x, m, s₂', hfails, -, -⟩ | ⟨s₂', hhash'⟩
      · exact (hfails.not_neverFails hstore').elim
      rw [hmerkle] at hhash'
      exact ⟨_, _, s₂, _, root', s₁', s₂', hhash, hrun', hhash'⟩

/-- A trie hashed twice on the way and one rebuilt backwards. -/
theorem root_history_independent_rebuilt :
    ∃ rs root rs' root' h t,
      performAll (TrieHasher.summing 2) (EdgeStore.inMemory 2 ℕ ℕ)
        [.insert [0, 0] 5, .insert [0, 1] 7, .hash, .insert [1] 3, .hash,
          .remove [0, 1]] none () = .ok (rs, some root, ()) ∧
      hash (TrieHasher.summing 2) (EdgeStore.inMemory 2 ℕ ℕ) root () =
        .ok (.ok h, t, ()) ∧
      performAll (TrieHasher.summing 2) (EdgeStore.inMemory 2 ℕ ℕ)
        (insertAll (root.entries []).reverse) none () =
          .ok (rs', some root', ()) ∧
      hash (TrieHasher.summing 2) (EdgeStore.inMemory 2 ℕ ℕ) root' () =
        .ok (.ok h, t, ()) := by
  have hd := TrieHasher.summing_documented 2
  have hstore := EdgeStore.inMemory_neverFails 2 ℕ ℕ
  let ops : List (Op 2 ℕ) := [.insert [0, 0] 5, .insert [0, 1] 7, .hash,
    .insert [1] 3, .hash, .remove [0, 1]]
  have hsome : (idealAll (TrieHasher.summing 2) ops none).2.isSome =
      true := by
    decide +kernel
  obtain ⟨root, hroot⟩ := Option.isSome_iff_exists.mp hsome
  obtain ⟨⟨⟩, hrun⟩ :=
    performAll_of_neverFails (TrieHasher.summing 2) hstore ops none ()
  rw [hroot] at hrun
  obtain ⟨h, t, ⟨⟩, rs', root', ⟨⟩, ⟨⟩, hhash, hrun', hhash'⟩ :=
    root_history_independent hd hstore hstore hrun
      (List.reverse_perm (root.entries [])) ()
  exact ⟨_, root, rs', root', h, t, hrun, hhash, hrun', hhash'⟩

end ArityTries
