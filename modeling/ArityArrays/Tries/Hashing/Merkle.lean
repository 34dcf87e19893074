import ArityArrays.Tries.Hash

/-!
# The Merkle hash as a recursion

`merkle` is the recursive definition behind the hash walk.  A node first
rehashes a lone sealed child if its position is sibling-sensitive, then hashes
its inline children, rewrites its value from the hashes of all its children
and hashes itself.
-/

namespace ArityTries

namespace Node

variable {n : ℕ} {V H : Type}

/-! ## One node over sealed children -/

/-- The indices and cached hashes of the sealed children, ascending. -/
def cachedHashes (nd : TrieNode n V H) : List (Fin n × H) :=
  nd.children.iterPresent.filterMap fun ie => ie.2.hash.map fun h => (ie.1, h)

/-- The hash of a node over the cached hashes of its children. -/
def selfHash (hasher : TrieHasher n V H) (L : Path n) (nd : TrieNode n V H)
    (siblings : ℕ) : H :=
  hasher.hashNode {
    leadingPath := L
    partialPath := nd.partialPath
    value := nd.value
    siblings
    children := nd.cachedHashes }

/-- The value of a node rewritten from the cached hashes of its children. -/
def rewritten (hasher : TrieHasher n V H) (L : Path n)
    (nd : TrieNode n V H) : TrieNode n V H :=
  { nd with
    value := nd.value.map
      (hasher.updateValue L nd.partialPath nd.cachedHashes) }

/-- Every child is sealed. -/
def AllSealed (nd : TrieNode n V H) : Prop :=
  ∀ i e, nd.children.get i = some e → e.hash ≠ none

/-- The sealed child of a node that has exactly one. -/
def loneSealed (nd : TrieNode n V H) : Option (Fin n × Edge n V H) :=
  match nd.children.iterPresent.filter fun ie => ie.2.hash.isSome with
  | [ie] => some ie
  | _ => none

instance (nd : TrieNode n V H) : Decidable nd.AllSealed :=
  decidable_of_iff
    (∀ ie ∈ nd.children.iterPresent, ie.2.hash.isSome) (by
      constructor
      · intro h i e he
        exact Option.isSome_iff_ne_none.mp
          (h (i, e) (ChildMap.mem_iterPresent.mpr he))
      · rintro h ⟨i, e⟩ he
        exact Option.isSome_iff_ne_none.mpr
          (h i e (ChildMap.mem_iterPresent.mp he)))

/-- The node with a lone sealed child rehashed, if its position is sensitive
to siblings; a child with an inline child of its own is made inline instead. -/
def reseal (hasher : TrieHasher n V H) (L : Path n) (nd : TrieNode n V H) :
    TrieNode n V H :=
  match nd.loneSealed with
  | none => nd
  | some (i, e) =>
      if hasher.siblingSensitive L nd.partialPath then
        if e.node.AllSealed then
          nd.setChild i (.mk e.node (some
            (e.node.selfHash hasher (slotPath L nd i) nd.children.count)))
        else nd.setChild i (.mk e.node none)
      else nd

theorem loneSealed_eq_some {nd : TrieNode n V H} {i : Fin n}
    {e : Edge n V H} (h : nd.loneSealed = some (i, e)) :
    nd.children.get i = some e ∧ e.hash ≠ none ∧
      ∀ j f, nd.children.get j = some f → f.hash ≠ none → j = i := by
  have hfilter : (nd.children.iterPresent.filter
      fun ie => ie.2.hash.isSome) = [(i, e)] := by
    unfold loneSealed at h
    split at h
    · next ie hie =>
        cases h
        exact hie
    · cases h
  have hmem : ∀ j f, nd.children.get j = some f ∧ f.hash ≠ none ↔
      (j, f) = (i, e) := by
    intro j f
    rw [← List.mem_singleton (a := (j, f)), ← hfilter, List.mem_filter,
      ChildMap.mem_iterPresent, Option.isSome_iff_ne_none]
  obtain ⟨he, hsealed⟩ := (hmem i e).mpr rfl
  refine ⟨he, hsealed, ?_⟩
  intro j f hf hf'
  exact (Prod.mk.inj ((hmem j f).mp ⟨hf, hf'⟩)).1

/-- Without a lone sealed child, a sealed child has a sealed sibling. -/
theorem exists_sealed_sibling {nd : TrieNode n V H}
    (h : nd.loneSealed = none) {i : Fin n} {e : Edge n V H}
    (he : nd.children.get i = some e) (hs : e.hash ≠ none) :
    ∃ j f, j ≠ i ∧ nd.children.get j = some f ∧ f.hash ≠ none := by
  by_contra hnone
  push Not at hnone
  have hmem : (i, e) ∈ nd.children.iterPresent.filter
      fun ie => ie.2.hash.isSome := by
    rw [List.mem_filter, ChildMap.mem_iterPresent, Option.isSome_iff_ne_none]
    exact ⟨he, hs⟩
  have hsorted := (nd.children.iterPresent_pairwise).filter
    fun ie : Fin n × Edge n V H => ie.2.hash.isSome
  unfold loneSealed at h
  cases hf : nd.children.iterPresent.filter
      fun ie => ie.2.hash.isSome with
  | nil =>
      rw [hf] at hmem
      cases hmem
  | cons a l =>
      rw [hf] at h hsorted
      cases l with
      | nil => cases h
      | cons b l =>
          have hsealed : ∀ c ∈ a :: b :: l, c.1 = i := by
            intro c hc
            rw [← hf, List.mem_filter, ChildMap.mem_iterPresent,
              Option.isSome_iff_ne_none] at hc
            by_contra hci
            exact hc.2 (hnone c.1 c.2 hci hc.1)
          have hlt := (List.pairwise_cons.mp hsorted).1 b (by simp)
          rw [hsealed a (by simp), hsealed b (by simp)] at hlt
          exact lt_irrefl _ hlt

/-- What preparing a node makes of it: nothing, or its lone sealed child
hashed again or made inline. -/
inductive Resealed (hasher : TrieHasher n V H) (L : Path n)
    (nd : TrieNode n V H) : TrieNode n V H → Prop
  | same (h : nd.loneSealed = none ∨
      hasher.siblingSensitive L nd.partialPath = false) :
      Resealed hasher L nd nd
  | rehashed {i : Fin n} {e : Edge n V H}
      (hsens : hasher.siblingSensitive L nd.partialPath = true)
      (hlone : nd.loneSealed = some (i, e)) (hall : e.node.AllSealed) :
      Resealed hasher L nd (nd.setChild i (.mk e.node (some
        (e.node.selfHash hasher (slotPath L nd i) nd.children.count))))
  | opened {i : Fin n} {e : Edge n V H}
      (hsens : hasher.siblingSensitive L nd.partialPath = true)
      (hlone : nd.loneSealed = some (i, e)) (hall : ¬ e.node.AllSealed) :
      Resealed hasher L nd (nd.setChild i (.mk e.node none))

theorem reseal_resealed (hasher : TrieHasher n V H) (L : Path n)
    (nd : TrieNode n V H) : Resealed hasher L nd (nd.reseal hasher L) := by
  unfold reseal
  split
  · next hlone => exact .same (Or.inl hlone)
  · next i e hlone =>
      split
      · next hsens =>
          split
          · next hall => exact .rehashed hsens hlone hall
          · next hall => exact .opened hsens hlone hall
      · next hsens => exact .same (Or.inr (Bool.eq_false_of_not_eq_true hsens))

theorem Resealed.fields {hasher : TrieHasher n V H} {L : Path n}
    {nd m : TrieNode n V H} (h : Resealed hasher L nd m) :
    m.partialPath = nd.partialPath ∧ m.value = nd.value := by
  cases h with
  | same _ => exact ⟨rfl, rfl⟩
  | rehashed _ _ _ => exact ⟨rfl, rfl⟩
  | opened _ _ _ => exact ⟨rfl, rfl⟩

/-- Every slot and the node behind it are kept. -/
theorem Resealed.get {hasher : TrieHasher n V H} {L : Path n}
    {nd m : TrieNode n V H} (h : Resealed hasher L nd m) (i : Fin n) :
    (nd.children.get i = none ∧ m.children.get i = none) ∨
      ∃ e h, nd.children.get i = some e ∧
        m.children.get i = some (.mk e.node h) := by
  have hsame : (nd.children.get i = none ∧ nd.children.get i = none) ∨
      ∃ e h, nd.children.get i = some e ∧
        nd.children.get i = some (.mk e.node h) := by
    cases he : nd.children.get i with
    | none => exact Or.inl ⟨rfl, rfl⟩
    | some e => exact Or.inr ⟨e, e.hash, rfl, by rw [Edge.mk_node_hash]⟩
  have hset : ∀ j f h, nd.loneSealed = some (j, f) →
      (nd.children.get i = none ∧
        (nd.setChild j (.mk f.node h)).children.get i = none) ∨
      ∃ e h', nd.children.get i = some e ∧
        (nd.setChild j (.mk f.node h)).children.get i =
          some (.mk e.node h') := by
    intro j f h hlone
    by_cases hij : i = j
    · subst j
      exact Or.inr ⟨f, h, (loneSealed_eq_some hlone).1,
        ChildMap.get_set_self _ _ _⟩
    · rw [setChild_children, ChildMap.get_set_of_ne _ hij]
      exact hsame
  cases h with
  | same _ => exact hsame
  | rehashed _ hlone _ => exact hset _ _ _ hlone
  | opened _ hlone _ => exact hset _ _ _ hlone

@[simp] theorem reseal_partialPath (hasher : TrieHasher n V H) (L : Path n)
    (nd : TrieNode n V H) :
    (nd.reseal hasher L).partialPath = nd.partialPath :=
  (nd.reseal_resealed hasher L).fields.1

@[simp] theorem reseal_value (hasher : TrieHasher n V H) (L : Path n)
    (nd : TrieNode n V H) : (nd.reseal hasher L).value = nd.value :=
  (nd.reseal_resealed hasher L).fields.2

theorem reseal_get (hasher : TrieHasher n V H) (L : Path n)
    (nd : TrieNode n V H) (i : Fin n) :
    (nd.children.get i = none ∧
        (nd.reseal hasher L).children.get i = none) ∨
      ∃ e h, nd.children.get i = some e ∧
        (nd.reseal hasher L).children.get i = some (.mk e.node h) :=
  (nd.reseal_resealed hasher L).get i

/-- A child of a prepared node was there before, with the same node. -/
theorem get_of_reseal {hasher : TrieHasher n V H} {L : Path n}
    {nd : TrieNode n V H} {i : Fin n} {f : Edge n V H}
    (hf : (nd.reseal hasher L).children.get i = some f) :
    ∃ e c, nd.children.get i = some e ∧ f = .mk e.node c := by
  rcases nd.reseal_get hasher L i with ⟨-, hnone⟩ | ⟨e, c, he, he'⟩
  · rw [hf] at hnone
    cases hnone
  · rw [hf] at he'
    exact ⟨e, c, he, Option.some.inj he'⟩

theorem reseal_sameSizes (hasher : TrieHasher n V H) (L : Path n)
    (nd : TrieNode n V H) : (nd.reseal hasher L).SameSizes nd := by
  intro i
  rcases nd.reseal_get hasher L i with ⟨hi, hi'⟩ | ⟨e, h, he, he'⟩
  · rw [hi, hi']
  · rw [he, he', slotSize_some, slotSize_some, Edge.node_mk]

/-! ## The recursion -/

/-- The hash of a node with a given number of siblings, and the node with
every child sealed and every value beneath it rewritten. -/
def merkle (hasher : TrieHasher n V H) (L : Path n) (siblings : ℕ)
    (nd : TrieNode n V H) : H × TrieNode n V H :=
  let hashed : TrieNode n V H := {
    partialPath := nd.partialPath
    value := nd.value
    children := ⟨fun i =>
      match _he : (nd.reseal hasher L).children.get i with
      | none => none
      | some e =>
          if e.hash.isSome then some e
          else
            let r := merkle hasher (slotPath L nd i) nd.children.count e.node
            some (.mk r.2 (some r.1))⟩ }
  let done := hashed.rewritten hasher L
  (done.selfHash hasher L siblings, done)
termination_by nd.size
decreasing_by
  rw [← (nd.reseal_sameSizes hasher L).size_eq]
  exact size_lt_of_get _he

/-- An edge once its node is hashed: sealed edges are trusted. -/
def hashedEdge (hasher : TrieHasher n V H) (L : Path n) (siblings : ℕ)
    (e : Edge n V H) : Edge n V H :=
  if e.hash.isSome then e
  else .mk (merkle hasher L siblings e.node).2
    (some (merkle hasher L siblings e.node).1)

/-- The node in the middle of its turn: prepared, and with every child outside
`pending` hashed. -/
def walked (hasher : TrieHasher n V H) (L : Path n) (nd : TrieNode n V H)
    (pending : Bitmap n) : TrieNode n V H where
  partialPath := nd.partialPath
  value := nd.value
  children := ⟨fun i =>
    if i ∈ pending then (nd.reseal hasher L).children.get i
    else ((nd.reseal hasher L).children.get i).map
      (hashedEdge hasher (slotPath L nd i) nd.children.count)⟩

theorem walked_get (hasher : TrieHasher n V H) (L : Path n)
    (nd : TrieNode n V H) (pending : Bitmap n) (i : Fin n) :
    (walked hasher L nd pending).children.get i =
      if i ∈ pending then (nd.reseal hasher L).children.get i
      else ((nd.reseal hasher L).children.get i).map
        (hashedEdge hasher (slotPath L nd i) nd.children.count) :=
  rfl

@[simp] theorem walked_partialPath (hasher : TrieHasher n V H) (L : Path n)
    (nd : TrieNode n V H) (pending : Bitmap n) :
    (walked hasher L nd pending).partialPath = nd.partialPath := rfl

@[simp] theorem walked_value (hasher : TrieHasher n V H) (L : Path n)
    (nd : TrieNode n V H) (pending : Bitmap n) :
    (walked hasher L nd pending).value = nd.value := rfl

theorem merkle_eq (hasher : TrieHasher n V H) (L : Path n) (siblings : ℕ)
    (nd : TrieNode n V H) :
    merkle hasher L siblings nd =
      (((walked hasher L nd ∅).rewritten hasher L).selfHash hasher L
        siblings, (walked hasher L nd ∅).rewritten hasher L) := by
  have hslot : ∀ i, (match _he : (nd.reseal hasher L).children.get i with
      | none => none
      | some e =>
          if e.hash.isSome then some e
          else
            let r := merkle hasher (slotPath L nd i) nd.children.count e.node
            some (.mk r.2 (some r.1))) =
      (walked hasher L nd ∅).children.slot i := by
    intro i
    have hw := walked_get hasher L nd ∅ i
    rw [if_neg (Finset.notMem_empty i)] at hw
    refine Eq.trans ?_ hw.symm
    cases (nd.reseal hasher L).children.get i with
    | none => rfl
    | some e =>
        simp only [Option.map_some, hashedEdge]
        split <;> rfl
  rw [merkle]
  simp only [hslot]
  rfl

end Node

end ArityTries
