import ArityArrays.Tries.Hashing.Stable

/-!
# Why cached hashes may be trusted

The walk trusts the cached hash of a sealed edge.  This module states what a
cached hash is worth: it is the hash of the current node at its current full
path, in a form that only a lone sealed child may outgrow.  The statement is
kept by every edit, by opening edges and by a hash walk, finished or halted.
-/

namespace ArityTries

open Node

variable {n : ℕ} {V H : Type}

/-- The rules a hash scheme documents. -/
structure TrieHasher.Documented (hasher : TrieHasher n V H) : Prop where
  /-- Below the root the number of siblings matters only beneath a sensitive
  position, and then only whether it is one. -/
  siblings : ∀ (L p q : Path n) (i : Fin n) (v : Option V)
    (children : List (Fin n × H)) (k k' : ℕ), 1 ≤ k → 1 ≤ k' →
    (hasher.siblingSensitive L p = true → (k = 1 ↔ k' = 1)) →
    hasher.hashNode {
      leadingPath := L ++ p ++ [i]
      partialPath := q
      value := v
      siblings := k
      children } =
    hasher.hashNode {
      leadingPath := L ++ p ++ [i]
      partialPath := q
      value := v
      siblings := k'
      children }
  /-- Whether a position is sensitive is decided by its full path. -/
  position : ∀ L p L' p' : Path n, L ++ p = L' ++ p' →
    hasher.siblingSensitive L p = hasher.siblingSensitive L' p'
  /-- Rewriting a value twice is rewriting it once. -/
  idempotent : ∀ (L p : Path n) (children : List (Fin n × H)) (v : V),
    hasher.updateValue L p children (hasher.updateValue L p children v) =
      hasher.updateValue L p children v

/-- A scheme that rewrites values and tells lone children apart. -/
def TrieHasher.summing (n : ℕ) : TrieHasher n ℕ ℕ where
  hashNode input :=
    input.leadingPath.length + input.partialPath.length +
      input.value.getD 0 + (input.children.map Prod.snd).sum +
      if input.siblings = 1 then 1 else 0
  siblingSensitive _ _ := true
  updateValue _ _ children value :=
    if children.isEmpty then value else (children.map Prod.snd).sum

theorem TrieHasher.summing_documented (n : ℕ) :
    (TrieHasher.summing n).Documented where
  siblings := by
    intro L p q i v children k k' _ _ hone
    have hiff : k = 1 ↔ k' = 1 := hone rfl
    simp only [summing, hiff]
  position _ _ _ _ _ := rfl
  idempotent := by
    intro L p children v
    simp only [summing]
    split <;> rfl

namespace Node

/-! ## The invariant -/

/-- A node at leading path `L` as hashing leaves it: its value is rewritten,
and every child is sealed with its hash among the present siblings. -/
structure Resting (hasher : TrieHasher n V H) (L : Path n)
    (nd : TrieNode n V H) : Prop where
  rewritten : nd.rewritten hasher L = nd
  current : ∀ i e, nd.children.get i = some e →
    e.hash = some
      (e.node.selfHash hasher (slotPath L nd i) nd.children.count)

/-- Some child besides the one at `i` is sealed. -/
def HasSealedPeer (nd : TrieNode n V H) (i : Fin n) : Prop :=
  ∃ j f, j ≠ i ∧ nd.children.get j = some f ∧ f.hash ≠ none

/-- Every sealed child is at rest, and its cached hash is its hash for some
number of siblings: beneath a sensitive position, sealed children that have
each other for siblings are hashed as having siblings. -/
def Vouched (hasher : TrieHasher n V H) (L : Path n)
    (nd : TrieNode n V H) : Prop :=
  ∀ i m h, nd.children.get i = some (.mk m (some h)) →
    Resting hasher (slotPath L nd i) m ∧
      ∃ k, 1 ≤ k ∧
        (hasher.siblingSensitive L nd.partialPath = true →
          nd.HasSealedPeer i → 2 ≤ k) ∧
        h = m.selfHash hasher (slotPath L nd i) k

/-- Every cached hash of a trie is vouched for. -/
def HashValid (hasher : TrieHasher n V H) (L : Path n)
    (nd : TrieNode n V H) : Prop :=
  Everywhere (Vouched hasher) L nd

end Node

/-- Every cached hash of the trie at leading path `L` is vouched for. -/
def Trie.HashValid (hasher : TrieHasher n V H) (L : Path n) :
    Trie n V H → Prop
  | none => True
  | some nd => nd.HashValid hasher L

namespace Node

variable {hasher : TrieHasher n V H} {L L' : Path n}
  {nd nd' : TrieNode n V H}

theorem Resting.allSealed (h : Resting hasher L nd) : nd.AllSealed := by
  intro i e he
  rw [h.current i e he]
  exact Option.some_ne_none _

theorem two_le_count {i j : Fin n} {e f : Edge n V H} (hij : j ≠ i)
    (he : nd.children.get i = some e) (hf : nd.children.get j = some f) :
    2 ≤ nd.children.count := by
  have herase : (nd.children.erase i).get j = some f := by
    rw [ChildMap.get_erase_of_ne _ hij, hf]
  have hpos := ChildMap.count_pos_of_get herase
  have hcount := ChildMap.count_erase he
  omega

/-- What holds for the sealed children of one node holds for those of another
that keeps its full path and has no others. -/
theorem Vouched.mono (hd : hasher.Documented) (h : Vouched hasher L nd)
    (hpath : L' ++ nd'.partialPath = L ++ nd.partialPath)
    (hsub : ∀ i m c, nd'.children.get i = some (.mk m (some c)) →
      nd.children.get i = some (.mk m (some c))) :
    Vouched hasher L' nd' := by
  intro i m c hi
  have hslot : slotPath L' nd' i = slotPath L nd i := by
    simp only [slotPath, hpath]
  obtain ⟨hrest, k, hk, hpeer, hc⟩ := h i m c (hsub i m c hi)
  rw [hslot]
  refine ⟨hrest, k, hk, ?_, hc⟩
  rintro hsens ⟨j, ⟨m', c'⟩, hj, hf, hs⟩
  rw [hd.position L' nd'.partialPath L nd.partialPath hpath] at hsens
  cases c' with
  | none => exact (hs rfl).elim
  | some c' => exact hpeer hsens ⟨j, _, hj, hsub j m' c' hf, hs⟩

namespace HashValid

theorem vouched (h : nd.HashValid hasher L) : Vouched hasher L nd :=
  Everywhere.root h

theorem child (h : nd.HashValid hasher L) {i : Fin n} {e : Edge n V H}
    (he : nd.children.get i = some e) :
    e.node.HashValid hasher (slotPath L nd i) :=
  Everywhere.child h he

end HashValid

/-! ## Hashing -/

theorem selfHash_eq_of_documented (hd : hasher.Documented)
    (L : Path n) (nd : TrieNode n V H) (i : Fin n) (m : TrieNode n V H)
    {k k' : ℕ} (hk : 1 ≤ k) (hk' : 1 ≤ k')
    (hone : hasher.siblingSensitive L nd.partialPath = true →
      (k = 1 ↔ k' = 1)) :
    m.selfHash hasher (slotPath L nd i) k =
      m.selfHash hasher (slotPath L nd i) k' :=
  hd.siblings L nd.partialPath m.partialPath i m.value m.cachedHashes k k'
    hk hk' hone

theorem Vouched.resting_of_lone (h : Vouched hasher L nd) {i : Fin n}
    {e : Edge n V H} (hlone : nd.loneSealed = some (i, e)) :
    Resting hasher (slotPath L nd i) e.node := by
  obtain ⟨m, c⟩ := e
  obtain ⟨he, hs, -⟩ := loneSealed_eq_some hlone
  cases c with
  | none => exact (hs rfl).elim
  | some c => exact (h i m c he).1

/-- Once a node is prepared, every sealed child has its hash among the
present siblings. -/
theorem Vouched.reseal (hd : hasher.Documented) (h : Vouched hasher L nd)
    {i : Fin n} {m : TrieNode n V H} {c : H}
    (hi : (nd.reseal hasher L).children.get i = some (.mk m (some c))) :
    Resting hasher (slotPath L nd i) m ∧
      c = m.selfHash hasher (slotPath L nd i) nd.children.count := by
  -- A hash from before serves when it agrees on having siblings.
  have hkept : nd.children.get i = some (.mk m (some c)) →
      (hasher.siblingSensitive L nd.partialPath = true →
        nd.HasSealedPeer i) →
      Resting hasher (slotPath L nd i) m ∧
        c = m.selfHash hasher (slotPath L nd i) nd.children.count := by
    intro hget hpeered
    obtain ⟨hrest, k, hk, hpeer, rfl⟩ := h i m c hget
    refine ⟨hrest, selfHash_eq_of_documented hd L nd i m hk
      (ChildMap.count_pos_of_get hget) ?_⟩
    intro hsens
    obtain ⟨j, f, hj, hf, -⟩ := hpeered hsens
    have htwo := two_le_count hj hget hf
    have hk' := hpeer hsens (hpeered hsens)
    omega
  have hresealed := nd.reseal_resealed hasher L
  generalize nd.reseal hasher L = nd' at hi hresealed
  cases hresealed with
  | same hsame =>
      refine hkept hi ?_
      intro hsens
      rcases hsame with hlone | hinsens
      · exact exists_sealed_sibling hlone hi (Option.some_ne_none c)
      · rw [hinsens] at hsens
        cases hsens
  | @rehashed j e _ hlone _ =>
      obtain ⟨hj, -, hunique⟩ := loneSealed_eq_some hlone
      by_cases hij : i = j
      · subst i
        rw [setChild_children, ChildMap.get_set_self] at hi
        cases hi
        exact ⟨h.resting_of_lone hlone, rfl⟩
      · rw [setChild_children, ChildMap.get_set_of_ne _ hij] at hi
        exact (hij (hunique i _ hi (Option.some_ne_none c))).elim
  | opened _ hlone hall => exact (hall (h.resting_of_lone hlone).allSealed).elim

theorem merkle_fst (hasher : TrieHasher n V H) (L : Path n) (siblings : ℕ)
    (nd : TrieNode n V H) :
    (merkle hasher L siblings nd).1 =
      (merkle hasher L siblings nd).2.selfHash hasher L siblings := by
  rw [merkle_eq]

/-- In the middle of the turn of a node, every sealed child has its hash among
the present siblings. -/
theorem walked_sealed (hd : hasher.Documented)
    (h : nd.HashValid hasher L)
    (hrest : ∀ i e, nd.children.get i = some e → Resting hasher
      (slotPath L nd i)
      (merkle hasher (slotPath L nd i) nd.children.count e.node).2)
    {pending : Bitmap n} {i : Fin n} {m : TrieNode n V H} {c : H}
    (hi : (walked hasher L nd pending).children.get i =
      some (.mk m (some c))) :
    Resting hasher (slotPath L nd i) m ∧
      c = m.selfHash hasher (slotPath L nd i) nd.children.count := by
  rcases walked_get_sealed hi with hreseal | ⟨e, he, rfl, rfl⟩
  · exact h.vouched.reseal hd hreseal
  · exact ⟨hrest i e he, merkle_fst _ _ _ _⟩

theorem rewritten_rewritten (hd : hasher.Documented) (L : Path n)
    (nd : TrieNode n V H) :
    (nd.rewritten hasher L).rewritten hasher L = nd.rewritten hasher L := by
  have hhashes : (nd.rewritten hasher L).cachedHashes = nd.cachedHashes :=
    rfl
  have hvalue : ((nd.rewritten hasher L).rewritten hasher L).value =
      (nd.rewritten hasher L).value := by
    simp only [rewritten, Option.map_map]
    cases nd.value with
    | none => rfl
    | some v => simp [cachedHashes, hd.idempotent]
  exact Node.ext rfl hvalue rfl

/-- Hashing puts a node at rest. -/
theorem merkle_resting (hd : hasher.Documented) (L : Path n) (siblings : ℕ)
    {nd : TrieNode n V H} (h : nd.HashValid hasher L) :
    Resting hasher L (merkle hasher L siblings nd).2 := by
  induction nd using induct generalizing L siblings with
  | step nd ih =>
      rw [merkle_eq]
      refine ⟨rewritten_rewritten hd L _, ?_⟩
      rintro i ⟨m, c⟩ he
      have hs := walked_allSealed hasher L nd i _ he
      cases c with
      | none => exact (hs rfl).elim
      | some c =>
          have hi : (walked hasher L nd ∅).children.get i =
              some (.mk m (some c)) := he
          have hcount : ((walked hasher L nd ∅).rewritten hasher
              L).children.count = nd.children.count :=
            walked_count hasher L nd ∅
          have hcurrent := (walked_sealed hd h
            (fun i e he => ih i e he _ _ (h.child he)) hi).2
          rw [hcount, Edge.hash_mk, hcurrent]
          rfl

/-- Whatever has been hashed, cached hashes stay vouched for. -/
theorem HashValid.vouched_walked (hd : hasher.Documented)
    (h : nd.HashValid hasher L) (pending : Bitmap n) :
    Vouched hasher L (walked hasher L nd pending) := by
  intro i m c hi
  obtain ⟨hrest, hc⟩ := walked_sealed hd h
    (fun i e he => merkle_resting hd _ _ (h.child he)) hi
  have hpos := ChildMap.count_pos_of_get hi
  rw [walked_count] at hpos
  refine ⟨hrest, nd.children.count, hpos, ?_, hc⟩
  rintro - ⟨j, f, hj, hf, -⟩
  have htwo := two_le_count hj hi hf
  rwa [walked_count] at htwo

/-- Every call keeps cached hashes vouched for. -/
theorem vouched_stable (hd : hasher.Documented) :
    Stable hasher (Vouched hasher) where
  mono := Vouched.mono hd
  inline hinline := by
    intro i m c hi
    cases hinline i _ hi
  walked := HashValid.vouched_walked hd

theorem HashValid.merkle (hd : hasher.Documented) (L : Path n)
    (siblings : ℕ) {nd : TrieNode n V H} (h : nd.HashValid hasher L) :
    (Node.merkle hasher L siblings nd).2.HashValid hasher L :=
  (vouched_stable hd).merkle L siblings h

/-- A walk that halts leaves cached hashes vouched for. -/
theorem HashValid.halted (hd : hasher.Documented)
    (hm : Halted hasher L nd nd') (h : nd.HashValid hasher L) :
    nd'.HashValid hasher L :=
  (vouched_stable hd).halted hm h

/-! ## What the invariant gives -/

theorem HashValid.tidy (h : nd.HashValid hasher L) : nd.Tidy := by
  apply everywhere_of_const (L := L)
  intro sm hsm i e he hs
  obtain ⟨m, c⟩ := e
  cases c with
  | none => exact (hs rfl).elim
  | some c => exact (h sm hsm i m c he).1.allSealed

end Node

theorem Trie.hashValid_iff {hasher : TrieHasher n V H} {L : Path n}
    {t : Trie n V H} :
    t.HashValid hasher L ↔ t.Throughout (Vouched hasher) L := by
  cases t <;> exact Iff.rfl

end ArityTries
