import ArityArrays.Tries.Runs

/-!
# A trie is a finite map

Over a store that never fails each operation acts on the contents of a trie as
the operation of that name acts on a finite map, whatever the shape of the
trie.  A run from the empty trie therefore answers as the map does.
-/

namespace ArityTries

open Checked Node

variable {n : ℕ} {V H σ ε : Type}

/-! ## The map -/

/-- What a call returns and leaves on a finite map.  Materializing and hashing
are not operations of the map. -/
def Op.onMap : Op n V → (Path n → Option V) →
    Answer V H × (Path n → Option V)
  | get key, m => (.value (m key), m)
  | insert key value, m =>
      (.value (m key), Function.update m key (some value))
  | remove key, m => (.value (m key), Function.update m key none)
  | removePrefix keyPrefix, m =>
      (.done, fun key => if keyPrefix <+: key then none else m key)
  | materializeSubtree, m => (.done, m)
  | hash, m => (.done, m)

/-- The answers and the map of a run on a finite map. -/
def onMapAll : List (Op n V) → (Path n → Option V) →
    List (Answer V H) × (Path n → Option V)
  | [], m => ([], m)
  | op :: ops, m =>
      let rest := onMapAll ops (op.onMap (H := H) m).2
      ((op.onMap m).1 :: rest.1, rest.2)

/-! ## The operations on contents -/

theorem contents_inserted (t : Trie n V H) (key : Path n) (value : V) :
    contents (t.inserted key value).2 =
      Function.update (contents t) key (some value) := by
  funext k
  obtain ⟨hat, helse⟩ := inserted_replaces key value t k
  by_cases hk : k = key
  · rw [hat hk, hk, Function.update_self]
  · rw [helse hk, Function.update_of_ne hk]

theorem contents_removed (t : Trie n V H) (key : Path n) :
    contents (t.removed key).2 =
      Function.update (contents t) key none := by
  funext k
  obtain ⟨hat, helse⟩ := removed_replaces key t k
  by_cases hk : k = key
  · rw [hat hk, hk, Function.update_self]
  · rw [helse hk, Function.update_of_ne hk]

theorem contents_prefixRemoved (t : Trie n V H) (keyPrefix : Path n) :
    contents (t.prefixRemoved keyPrefix).2 = fun key =>
      if keyPrefix <+: key then none else contents t key := by
  funext k
  obtain ⟨hat, helse⟩ := prefixRemoved_replaces keyPrefix t k
  by_cases hk : keyPrefix <+: k
  · rw [hat hk, if_pos hk]
  · rw [helse hk, if_neg hk]

/-- A call that is no hash acts on the contents as on a map. -/
theorem Op.ideal_onMap (hasher : TrieHasher n V H) {op : Op n V}
    (hop : op ≠ .hash) (t : Trie n V H) :
    (op.ideal hasher t).1 = (op.onMap (contents t)).1 ∧
      contents (op.ideal hasher t).2 =
        (op.onMap (H := H) (contents t)).2 := by
  cases op with
  | get key => exact ⟨rfl, rfl⟩
  | insert key value =>
      refine ⟨?_, contents_inserted t key value⟩
      simp only [Op.ideal, Op.onMap, inserted_result]
  | remove key =>
      refine ⟨?_, contents_removed t key⟩
      simp only [Op.ideal, Op.onMap, removed_result]
  | removePrefix keyPrefix => exact ⟨rfl, contents_prefixRemoved t keyPrefix⟩
  | materializeSubtree =>
      refine ⟨rfl, ?_⟩
      cases t with
      | none => rfl
      | some nd => exact contents_inlined nd
  | hash => exact (hop rfl).elim

theorem idealAll_onMap (hasher : TrieHasher n V H) {ops : List (Op n V)}
    (hops : ∀ op ∈ ops, op ≠ .hash) (t : Trie n V H) :
    (idealAll hasher ops t).1 = (onMapAll ops (contents t)).1 ∧
      contents (idealAll hasher ops t).2 =
        (onMapAll (H := H) ops (contents t)).2 := by
  induction ops generalizing t with
  | nil => exact ⟨rfl, rfl⟩
  | cons op ops ih =>
      obtain ⟨hanswer, hcontents⟩ :=
        op.ideal_onMap hasher (hops op (by simp)) t
      have hrest := ih (fun op' hop' => hops op' (by simp [hop']))
        (op.ideal hasher t).2
      rw [hcontents] at hrest
      simp only [idealAll, onMapAll, hanswer, hrest.1, hrest.2, and_self]

/-! ## The operations over a store -/

section Store

variable {store : EdgeStore n V H σ ε}

theorem MutationOutcome.eq_of_neverFails {ρ : Type}
    {ideal : Trie n V H → ρ × Trie n V H} (hstore : store.NeverFails)
    {t : Trie n V H} {s : σ}
    {c : Checked (Except ε ρ × Trie n V H × σ)}
    (hc : MutationOutcome store ideal t s c) :
    ∃ s', c = .ok (.ok (ideal t).1, (ideal t).2, s') := by
  cases hc with
  | failed _ hfail _ _ => exact (hfail hstore).elim
  | @done s' _ => exact ⟨s', rfl⟩

/-- `get_node` finds exactly the nodes of the trie, by full path. -/
theorem getNode_of_neverFails (hstore : store.NeverFails) (t : Trie n V H)
    (key : Path n) (s : σ) :
    ∃ o s', getNode store t key s = .ok (.ok o, s') ∧
      ∀ m, o.map NodeRef.node = some m ↔
        ∃ L, (L, m) ∈ t.nodes ∧ L ++ m.partialPath = key := by
  rcases getNode_cases store t key s with
    ⟨x, s', hfail, -⟩ | ⟨o, s', ho, hget⟩
  · exact (hfail hstore).elim
  · refine ⟨o, s', hget, ?_⟩
    intro m
    rw [ho]
    cases t with
    | none => simp [Trie.nodes]
    | some nd => exact nodeAt_eq_some_iff

/-- Over a store that never fails, every operation on a trie of any shape is
the operation of its name on the finite map of the contents, and so is every
sequence of them from the empty trie. -/
theorem operations_are_map_operations (hasher : TrieHasher n V H)
    (hstore : store.NeverFails) (t : Trie n V H) (s : σ) :
    (∀ key value, ∃ t' s',
      insert store t key value s = .ok (.ok (contents t key), t', s') ∧
      contents t' = Function.update (contents t) key (some value)) ∧
    (∀ key, ∃ t' s',
      remove store t key s = .ok (.ok (contents t key), t', s') ∧
      contents t' = Function.update (contents t) key none) ∧
    (∀ keyPrefix, ∃ t' s',
      removePrefix store t keyPrefix s = .ok (.ok (), t', s') ∧
      contents t' = fun key =>
        if keyPrefix <+: key then none else contents t key) ∧
    (∀ key, ∃ s', get store t key s = .ok (.ok (contents t key), s')) ∧
    (∀ key, ∃ o s', getNode store t key s = .ok (.ok o, s') ∧
      ∀ m, o.map NodeRef.node = some m ↔
        ∃ L, (L, m) ∈ t.nodes ∧ L ++ m.partialPath = key) ∧
    (∀ ops : List (Op n V), (∀ op ∈ ops, op ≠ .hash) → ∃ t' s',
      performAll hasher store ops none s =
        .ok ((onMapAll ops fun _ => none).1.map .ok, t', s') ∧
      contents t' = (onMapAll (H := H) ops fun _ => none).2) := by
  refine ⟨?_, ?_, ?_, ?_, ?_, ?_⟩
  · intro key value
    obtain ⟨s', h⟩ :=
      (insert_outcome store t key value s).eq_of_neverFails hstore
    rw [inserted_result] at h
    exact ⟨_, s', h, contents_inserted t key value⟩
  · intro key
    obtain ⟨s', h⟩ := (remove_outcome store t key s).eq_of_neverFails hstore
    rw [removed_result] at h
    exact ⟨_, s', h, contents_removed t key⟩
  · intro keyPrefix
    obtain ⟨s', h⟩ :=
      (removePrefix_outcome store t keyPrefix s).eq_of_neverFails hstore
    exact ⟨_, s', h, contents_prefixRemoved t keyPrefix⟩
  · intro key
    rcases get_cases store t key s with ⟨x, s', hfail, -⟩ | h
    · exact (hfail hstore).elim
    · exact h
  · intro key
    exact getNode_of_neverFails hstore t key s
  · intro ops hops
    obtain ⟨s', h⟩ := performAll_of_neverFails hasher hstore ops none s
    obtain ⟨hanswers, hcontents⟩ := idealAll_onMap hasher hops none
    have hempty : contents (none : Trie n V H) = fun _ => none := rfl
    rw [hempty] at hanswers hcontents
    rw [hanswers] at h
    exact ⟨_, s', h, hcontents⟩

/-- Inserting a key that splits the only node, and removing it again, which
merges the two halves. -/
theorem operations_are_map_operations_split :
    ∃ t' s' t'' s'', insert (EdgeStore.inMemory 2 ℕ ℕ)
        (some (Node.leaf [0, 0] 5)) [0, 1] 7 () = .ok (.ok none, t', s') ∧
      contents t' [0, 0] = some 5 ∧ contents t' [0, 1] = some 7 ∧
      remove (EdgeStore.inMemory 2 ℕ ℕ) t' [0, 1] () =
        .ok (.ok (some 7), t'', s'') ∧
      contents t'' [0, 0] = some 5 ∧ contents t'' [0, 1] = none := by
  have hheld : contents (some (Node.leaf [0, 0] 5 : TrieNode 2 ℕ ℕ)) [0, 0] =
      some 5 := by
    decide +kernel
  have hfresh : contents (some (Node.leaf [0, 0] 5 : TrieNode 2 ℕ ℕ)) [0, 1] =
      none := by
    decide +kernel
  have hne : ([0, 0] : Path 2) ≠ [0, 1] := by
    decide
  have hstore := EdgeStore.inMemory_neverFails 2 ℕ ℕ
  obtain ⟨t', s', hinsert, hcontents⟩ :=
    (operations_are_map_operations (TrieHasher.summing 2) hstore
      (some (Node.leaf [0, 0] 5)) ()).1 [0, 1] 7
  rw [hfresh] at hinsert
  obtain ⟨t'', s'', hremove, hcontents'⟩ :=
    (operations_are_map_operations (TrieHasher.summing 2) hstore t' ()).2.1
      [0, 1]
  rw [hcontents, Function.update_self] at hremove
  refine ⟨t', s', t'', s'', hinsert, ?_, ?_, hremove, ?_, ?_⟩
  · rw [hcontents, Function.update_of_ne hne, hheld]
  · rw [hcontents, Function.update_self]
  · rw [hcontents', hcontents, Function.update_of_ne hne,
      Function.update_of_ne hne, hheld]
  · rw [hcontents', Function.update_self]

end Store

end ArityTries
