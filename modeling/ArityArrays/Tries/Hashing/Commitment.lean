import ArityArrays.Tries.MerkleRoot

/-!
# What the root hash commits to

Two tries at rest whose roots hash alike are equal, cached hashes included, or
somewhere at one path their nodes, with as many siblings in the one as in the
other, give the scheme two different inputs that it hashes alike.  The root
hash therefore stands for the whole trie, as far as the scheme has no
collisions.
-/

namespace ArityTries

open Checked Node

variable {n : ℕ} {V H σ ε σ' ε' : Type}

namespace Node

/-- What a node whose children are sealed gives the scheme. -/
def hashInput (L : Path n) (nd : TrieNode n V H) (siblings : ℕ) :
    HashInput n V H where
  leadingPath := L
  partialPath := nd.partialPath
  value := nd.value
  siblings := siblings
  children := nd.cachedHashes

/-- What the nodes of a trie whose edges are sealed give the scheme, a child
with as many siblings as its parent has children. -/
def hashInputs (L : Path n) (siblings : ℕ) (nd : TrieNode n V H) :
    List (HashInput n V H) :=
  nd.hashInput L siblings ::
    (nodes L nd).flatMap fun sm => sm.2.children.iterPresent.map fun ie =>
      ie.2.node.hashInput (slotPath sm.1 sm.2 ie.1) sm.2.children.count

/-- Two listed inputs collide: they differ, with the same leading path and the
same siblings, and the scheme hashes them alike. -/
def Collide (hasher : TrieHasher n V H) (xs ys : List (HashInput n V H)) :
    Prop :=
  ∃ x ∈ xs, ∃ y ∈ ys, x.leadingPath = y.leadingPath ∧
    x.siblings = y.siblings ∧ x ≠ y ∧ hasher.hashNode x = hasher.hashNode y

theorem Collide.mono {hasher : TrieHasher n V H}
    {xs ys xs' ys' : List (HashInput n V H)}
    (h : Collide hasher xs ys) (hxs : xs ⊆ xs') (hys : ys ⊆ ys') :
    Collide hasher xs' ys' := by
  obtain ⟨x, hx, y, hy, hcollide⟩ := h
  exact ⟨x, hxs hx, y, hys hy, hcollide⟩

/-- What the nodes beneath a child give the scheme is among what those of the
parent do. -/
theorem hashInputs_child_subset {L : Path n} (siblings : ℕ)
    {nd : TrieNode n V H} {i : Fin n} {e : Edge n V H}
    (he : nd.children.get i = some e) :
    hashInputs (slotPath L nd i) nd.children.count e.node ⊆
      hashInputs L siblings nd := by
  have hie := ChildMap.mem_iterPresent.mpr he
  intro x hx
  refine List.mem_cons.mpr (Or.inr (List.mem_flatMap.mpr ?_))
  rcases List.mem_cons.mp hx with rfl | hx
  · exact ⟨(L, nd), self_mem_nodes L nd, List.mem_map.mpr ⟨(i, e), hie, rfl⟩⟩
  · obtain ⟨sm, hsm, hx⟩ := List.mem_flatMap.mp hx
    exact ⟨sm, mem_nodes.mpr (Or.inr ⟨i, e, he, hsm⟩), hx⟩

/-! ## The cached hashes of a node -/

theorem mem_cachedHashes {nd : TrieNode n V H} {i : Fin n} {h : H} :
    (i, h) ∈ nd.cachedHashes ↔
      ∃ m, nd.children.get i = some (.mk m (some h)) := by
  rw [cachedHashes, List.mem_filterMap]
  constructor
  · rintro ⟨⟨j, ⟨m, c⟩⟩, hmem, hmap⟩
    obtain ⟨h', rfl, heq⟩ := Option.map_eq_some_iff.mp hmap
    obtain ⟨rfl, rfl⟩ := Prod.mk.inj heq
    exact ⟨m, ChildMap.mem_iterPresent.mp hmem⟩
  · rintro ⟨m, hm⟩
    exact ⟨(i, .mk m (some h)), ChildMap.mem_iterPresent.mpr hm, rfl⟩

/-- With every child sealed, each has its hash in the list. -/
theorem AllSealed.length_cachedHashes {nd : TrieNode n V H}
    (h : nd.AllSealed) : nd.cachedHashes.length = nd.children.count := by
  have hall : ∀ ie ∈ nd.children.iterPresent,
      (ie.2.hash.map fun h => (ie.1, h)).isSome := by
    rintro ⟨i, e⟩ hie
    have hs := h i e (ChildMap.mem_iterPresent.mp hie)
    rw [Option.isSome_map]
    exact Option.isSome_iff_ne_none.mpr hs
  rw [cachedHashes, List.length_filterMap_eq_countP,
    List.countP_eq_length.mpr hall]
  rfl

/-! ## Equal hashes -/

section Resting

variable {hasher : TrieHasher n V H} {L : Path n} {nd nd' : TrieNode n V H}

/-- Every child of a node at rest has its hash in the list. -/
theorem Resting.exists_cached (h : Resting hasher L nd) {i : Fin n}
    {e : Edge n V H} (he : nd.children.get i = some e) :
    ∃ m c, e = .mk m (some c) ∧ (i, c) ∈ nd.cachedHashes := by
  obtain ⟨m, c⟩ := e
  cases c with
  | none => exact (h.allSealed i _ he rfl).elim
  | some c => exact ⟨m, c, rfl, mem_cachedHashes.mpr ⟨m, he⟩⟩

/-- Nodes at rest that give the scheme one input differ only in what hangs off
slots with equal hashes. -/
theorem Resting.eq_of_hashInput_eq {siblings : ℕ}
    (h : Resting hasher L nd) (h' : Resting hasher L nd')
    (hinput : nd.hashInput L siblings = nd'.hashInput L siblings)
    (hchild : ∀ i m m' c, nd.children.get i = some (.mk m (some c)) →
      nd'.children.get i = some (.mk m' (some c)) → m = m') :
    nd = nd' := by
  have hcached : nd.cachedHashes = nd'.cachedHashes :=
    congrArg HashInput.children hinput
  apply Node.ext
  · exact congrArg HashInput.partialPath hinput
  · exact congrArg HashInput.value hinput
  · apply ChildMap.ext_get
    intro i
    rcases he : nd.children.get i with _ | e
    · rcases he' : nd'.children.get i with _ | e'
      · rfl
      · obtain ⟨m', c, rfl, hmem⟩ := h'.exists_cached he'
        rw [← hcached] at hmem
        obtain ⟨m, hm⟩ := mem_cachedHashes.mp hmem
        rw [he] at hm
        cases hm
    · obtain ⟨m, c, rfl, hmem⟩ := h.exists_cached he
      rw [hcached] at hmem
      obtain ⟨m', hm'⟩ := mem_cachedHashes.mp hmem
      rw [hm', hchild i m m' c he hm']

/-- Tries at rest that hash alike are equal or collide. -/
theorem Resting.eq_or_collide (h : Resting hasher L nd)
    (hvalid : nd.HashValid hasher L) (h' : Resting hasher L nd')
    (hvalid' : nd'.HashValid hasher L) {siblings : ℕ}
    (heq : nd.selfHash hasher L siblings =
      nd'.selfHash hasher L siblings) :
    nd = nd' ∨ Collide hasher (hashInputs L siblings nd)
      (hashInputs L siblings nd') := by
  induction nd using induct generalizing L nd' siblings with
  | step nd ih =>
      by_cases hinput :
        nd.hashInput L siblings = nd'.hashInput L siblings
      · by_cases hbelow : Collide hasher (hashInputs L siblings nd)
            (hashInputs L siblings nd')
        · exact Or.inr hbelow
        · refine Or.inl (h.eq_of_hashInput_eq h' hinput ?_)
          intro i m m' c hm hm'
          have hpath : nd.partialPath = nd'.partialPath :=
            congrArg HashInput.partialPath hinput
          have hslot : slotPath L nd' i = slotPath L nd i := by
            rw [slotPath, slotPath, hpath]
          have hcount : nd'.children.count = nd.children.count := by
            rw [← h.allSealed.length_cachedHashes,
              ← h'.allSealed.length_cachedHashes]
            exact (congrArg (·.children.length) hinput).symm
          -- The children have the same number of siblings, so that equal
          -- cached hashes are hashes of inputs that agree on it.
          have hc : c = m.selfHash hasher (slotPath L nd i)
              nd.children.count := Option.some.inj (h.current i _ hm)
          have hc' : c = m'.selfHash hasher (slotPath L nd i)
              nd.children.count := by
            rw [← hslot, ← hcount]
            exact Option.some.inj (h'.current i _ hm')
          have hrest := (hvalid.vouched i m c hm).1
          have hrest' := (hvalid'.vouched i m' c hm').1
          have hbeneath' := hvalid'.child hm'
          rw [hslot] at hrest' hbeneath'
          rcases ih i _ hm hrest (hvalid.child hm) hrest' hbeneath'
              (hc.symm.trans hc') with hnode | hcollide
          · exact hnode
          · refine (hbelow (hcollide.mono
              (hashInputs_child_subset siblings hm) ?_)).elim
            rw [← hslot, ← hcount]
            exact hashInputs_child_subset siblings hm'
      · exact Or.inr ⟨_, List.mem_cons_self, _, List.mem_cons_self, rfl, rfl,
          hinput, heq⟩

end Resting

/-! ## Schemes that leave values alone -/

/-- Hashing under a scheme that rewrites no value changes seals alone. -/
theorem inlined_merkle {hasher : TrieHasher n V H}
    (hkeep : ∀ L p children v, hasher.updateValue L p children v = v)
    (L : Path n) (siblings : ℕ) (nd : TrieNode n V H) :
    (merkle hasher L siblings nd).2.inlined = nd.inlined := by
  induction nd using induct generalizing L siblings with
  | step nd ih =>
      rw [merkle_eq]
      refine inlined_congr rfl ?_ ?_
      · have hid : hasher.updateValue L nd.partialPath
            (walked hasher L nd ∅).cachedHashes = id :=
          funext (hkeep L nd.partialPath _)
        change nd.value.map (hasher.updateValue L nd.partialPath
          (walked hasher L nd ∅).cachedHashes) = nd.value
        rw [hid, Option.map_id_fun, id]
      · intro i
        change (childTrie (walked hasher L nd ∅) i).map inlined = _
        unfold childTrie
        rcases hf : (walked hasher L nd ∅).children.get i with _ | f
        · rw [walked_get, if_neg (Finset.notMem_empty i),
            Option.map_eq_none_iff] at hf
          rcases nd.reseal_get hasher L i with ⟨hnone, -⟩ | ⟨e, c, -, he'⟩
          · rw [hnone]
          · rw [hf] at he'
            cases he'
        · obtain ⟨e, he, hnode | hnode⟩ := walked_get_node hf
          · rw [he, Option.map_some, Option.map_some, Option.map_some,
              Option.map_some, hnode]
          · rw [he, Option.map_some, Option.map_some, Option.map_some,
              Option.map_some, hnode, ih i e he]

end Node

/-- What the nodes of a hashed trie give the scheme; the root has no
siblings. -/
def Trie.hashInputs : Trie n V H → List (HashInput n V H)
  | none => []
  | some nd => Node.hashInputs [] 0 nd

/-! ## Runs -/

/-- What a hash of a trie reached by a run returns and leaves. -/
theorem hash_of_run {hasher : TrieHasher n V H} (hd : hasher.Documented)
    {store : EdgeStore n V H σ ε} {ops : List (Op n V)} {s s₁ s₂ : σ}
    {rs : List (Except ε (Answer V H))} {root : TrieNode n V H}
    {t : Trie n V H} {h : H}
    (hrun : performAll hasher store ops none s = .ok (rs, some root, s₁))
    (hhash : hash hasher store root s₁ = .ok (.ok h, t, s₂)) :
    root.HashValid hasher [] ∧ t = some (merkle hasher [] 0 root).2 ∧
      h = (merkle hasher [] 0 root).2.selfHash hasher [] 0 := by
  have hvalid := performAll_final (performAll_hashValid hd store ops s) hrun
  refine ⟨hvalid, ?_⟩
  rcases hash_cases hasher store root s₁ with
    ⟨x, m, s', -, -, hfail⟩ | ⟨s', hok⟩
  · rw [hhash] at hfail
    cases hfail
  · rw [hhash] at hok
    cases hok
    exact ⟨rfl, merkle_fst hasher [] 0 root⟩

/-- Two runs, over any stores and with any failures, whose tries hash alike
end in equal tries once hashed, or in tries with a collision.  Under a scheme
that rewrites no value the tries held the same map already before. -/
theorem root_hash_commits {hasher : TrieHasher n V H}
    (hd : hasher.Documented) {store : EdgeStore n V H σ ε}
    {store' : EdgeStore n V H σ' ε'} {ops ops' : List (Op n V)}
    {s s₁ s₂ : σ} {s' s₁' s₂' : σ'} {rs : List (Except ε (Answer V H))}
    {rs' : List (Except ε' (Answer V H))} {root root' : TrieNode n V H}
    {t t' : Trie n V H} {h : H}
    (hrun : performAll hasher store ops none s = .ok (rs, some root, s₁))
    (hrun' : performAll hasher store' ops' none s' =
      .ok (rs', some root', s₁'))
    (hhash : hash hasher store root s₁ = .ok (.ok h, t, s₂))
    (hhash' : hash hasher store' root' s₁' = .ok (.ok h, t', s₂')) :
    (t = t' ∨ Collide hasher t.hashInputs t'.hashInputs) ∧
      ((∀ L p children v, hasher.updateValue L p children v = v) →
        contents (some root) = contents (some root') ∨
          Collide hasher t.hashInputs t'.hashInputs) := by
  obtain ⟨hvalid, rfl, hroot⟩ := hash_of_run hd hrun hhash
  obtain ⟨hvalid', rfl, hroot'⟩ := hash_of_run hd hrun' hhash'
  have hcommits := (merkle_resting hd [] 0 hvalid).eq_or_collide
    (hvalid.merkle hd [] 0) (merkle_resting hd [] 0 hvalid')
    (hvalid'.merkle hd [] 0) (hroot.symm.trans hroot')
  refine ⟨?_, ?_⟩
  · rcases hcommits with heq | hcollide
    · exact Or.inl (congrArg some heq)
    · exact Or.inr hcollide
  · intro hkeep
    rcases hcommits with heq | hcollide
    · refine Or.inl (contents_eq_of_inlined_eq ?_)
      rw [← inlined_merkle hkeep [] 0 root, heq, inlined_merkle hkeep]
    · exact Or.inr hcollide

/-- Two keys, inserted in either order. -/
theorem root_hash_commits_swap :
    ∃ t t' : Trie 2 ℕ ℕ,
      (t = t' ∨ Collide (TrieHasher.summing 2) t.hashInputs
        t'.hashInputs) ∧
      ∃ rs root h, performAll (TrieHasher.summing 2)
          (EdgeStore.inMemory 2 ℕ ℕ) [.insert [0, 1] 5, .insert [1] 7] none
          () = .ok (rs, some root, ()) ∧
        hash (TrieHasher.summing 2) (EdgeStore.inMemory 2 ℕ ℕ) root () =
          .ok (.ok h, t, ()) := by
  have hd := TrieHasher.summing_documented 2
  have hstore := EdgeStore.inMemory_neverFails 2 ℕ ℕ
  let ops : List (Op 2 ℕ) := [.insert [0, 1] 5, .insert [1] 7]
  let ops' : List (Op 2 ℕ) := [.insert [1] 7, .insert [0, 1] 5]
  have hroots : ((idealAll (TrieHasher.summing 2) ops none).2.map fun root =>
        (merkle (TrieHasher.summing 2) [] 0 root).1) = some 15 ∧
      ((idealAll (TrieHasher.summing 2) ops' none).2.map fun root =>
        (merkle (TrieHasher.summing 2) [] 0 root).1) = some 15 := by
    decide +kernel
  obtain ⟨root, hroot, hhash⟩ := Option.map_eq_some_iff.mp hroots.1
  obtain ⟨root', hroot', hhash'⟩ := Option.map_eq_some_iff.mp hroots.2
  obtain ⟨⟨⟩, hrun⟩ :=
    performAll_of_neverFails (TrieHasher.summing 2) hstore ops none ()
  obtain ⟨⟨⟩, hrun'⟩ :=
    performAll_of_neverFails (TrieHasher.summing 2) hstore ops' none ()
  obtain ⟨⟨⟩, hdone⟩ :=
    hash_eq_merkle (TrieHasher.summing 2) hstore root ()
  obtain ⟨⟨⟩, hdone'⟩ :=
    hash_eq_merkle (TrieHasher.summing 2) hstore root' ()
  rw [hroot] at hrun
  rw [hroot'] at hrun'
  rw [hhash] at hdone
  rw [hhash'] at hdone'
  exact ⟨_, _, (root_hash_commits hd hrun hrun' hdone hdone').1, _, root, 15,
    hrun, hdone⟩

end ArityTries
