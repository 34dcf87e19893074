import ArityArrays.Tries.Hashing.Cost

/-!
# Hashing again after a few edits

A successful hash leaves no inline edge.  What is inline afterwards was left by
the calls since, and each of them leaves at most one inline edge for every
index of its key and one more.  The next hash is paid for by these alone.
-/

namespace ArityTries

open Checked Node

variable {n : ℕ} {V H σ ε σ' ε' : Type}

namespace Node

variable {hasher : TrieHasher n V H} {L : Path n} {nd nd' : TrieNode n V H}

theorem Tidy.merkle (h : nd.Tidy) (hasher : TrieHasher n V H) (L : Path n)
    (siblings : ℕ) : (Node.merkle hasher L siblings nd).2.Tidy :=
  everywhere_of_const
    ((tidy_stable hasher).merkle L siblings (everywhere_of_const h))

/-- Hashing seals every edge of a tidy trie. -/
theorem Tidy.inlineEdges_merkle (h : nd.Tidy) (hasher : TrieHasher n V H)
    (L : Path n) (siblings : ℕ) :
    inlineEdges (Node.merkle hasher L siblings nd).2 = 0 :=
  inlineEdges_eq_zero_iff.mpr ((h.merkle hasher L siblings).sealed_below
    (merkle_allSealed hasher L siblings nd) [])

/-- A walk that halts leaves no slot with more inline edges than it had. -/
theorem Tidy.countSlot_walked (h : nd.Tidy) (hasher : TrieHasher n V H)
    (L : Path n) (pending : Bitmap n) (i : Fin n) :
    countSlot (·.hash.isNone)
        ((Node.walked hasher L nd pending).children.get i) ≤
      countSlot (·.hash.isNone) (nd.children.get i) := by
  rw [walked_get]
  have hresealed := nd.reseal_resealed hasher L
  -- Preparing a tidy node turns no edge inline.
  have hsame : ∀ {e : Edge n V H}, nd.children.get i = some e →
      ∃ c, (nd.reseal hasher L).children.get i = some (.mk e.node c) ∧
        (c = none ↔ e.hash = none) := by
    intro e he
    generalize nd.reseal hasher L = nd' at hresealed ⊢
    cases hresealed with
    | same _ =>
        exact ⟨e.hash, by rw [he, Edge.mk_node_hash], Iff.rfl⟩
    | @rehashed j f _ hlone _ =>
        obtain ⟨hf, hsealed, -⟩ := loneSealed_eq_some hlone
        by_cases hij : i = j
        · subst i
          rw [hf] at he
          cases he
          refine ⟨_, ChildMap.get_set_self _ _ _, ?_⟩
          exact iff_of_false (Option.some_ne_none _) hsealed
        · refine ⟨e.hash, ?_, Iff.rfl⟩
          rw [setChild_children, ChildMap.get_set_of_ne _ hij, he,
            Edge.mk_node_hash]
    | opened _ hlone hall =>
        obtain ⟨hf, hsealed, -⟩ := loneSealed_eq_some hlone
        exact (hall (h.root _ _ hf hsealed)).elim
  cases he : nd.children.get i with
  | none =>
      rcases nd.reseal_get hasher L i with ⟨-, hnone⟩ | ⟨e, c, hsome, -⟩
      · rw [hnone]
        split <;> exact le_rfl
      · rw [he] at hsome
        cases hsome
  | some e =>
      obtain ⟨c, hc, hiff⟩ := hsame he
      obtain ⟨m, h₀⟩ := e
      rw [hc]
      cases c with
      | none =>
          obtain rfl : h₀ = none := hiff.mp rfl
          split
          · exact le_rfl
          · have hzero :=
              (h.child he).inlineEdges_merkle hasher (slotPath L nd i)
                nd.children.count
            rw [Option.map_some, countSlot_some]
            exact (Nat.zero_add _).le.trans (hzero.le.trans (Nat.zero_le _))
      | some c =>
          have hnot : ¬ h₀ = none := fun hnone => by
            cases hiff.mpr hnone
          have hsealed : countSlot (·.hash.isNone)
              (some (.mk m (some c) : Edge n V H)) ≤
                countSlot (·.hash.isNone) (some (.mk m h₀)) := by
            rw [countSlot_some, countSlot_some]
            exact Nat.add_le_add_right (Nat.zero_le _) _
          split
          · exact hsealed
          · exact hsealed

/-- A walk that halts leaves at most the inline edges there were. -/
theorem Tidy.inlineEdges_halted (hm : Halted hasher L nd nd') (h : nd.Tidy) :
    inlineEdges nd' ≤ inlineEdges nd := by
  induction hm with
  | prepare L nd => exact le_rfl
  | @slot L nd m m₁ pending i hi hm ih =>
      rw [inlineEdges, inlineEdges, countEdges_eq_sum, countEdges_eq_sum]
      refine Finset.sum_le_sum ?_
      intro j _
      rw [setChild_children]
      by_cases hj : j = i
      · subst j
        obtain ⟨e, c, he, heq⟩ := get_of_reseal hi
        obtain ⟨rfl, -⟩ := Edge.mk.inj heq
        have hchild := ih (h.child he)
        have hslot := h.countSlot_walked hasher L Finset.univ i
        rw [walked_get, if_pos (Finset.mem_univ i), hi] at hslot
        refine le_trans ?_ hslot
        rw [ChildMap.get_set_self, countSlot_inline, countSlot_inline]
        exact Nat.add_le_add_left hchild 1
      · rw [ChildMap.get_set_of_ne _ hj]
        exact h.countSlot_walked hasher L pending j

end Node

/-! ## Calls -/

namespace Op

/-- The calls that leave all but one key alone. -/
def atKey : Op n V → Bool
  | removePrefix _ => false
  | materializeSubtree => false
  | _ => true

/-- How many inline edges a call on one key can leave behind. -/
def growth : Op n V → ℕ
  | insert key _ => key.length + 1
  | remove key => key.length + 1
  | _ => 0

theorem span_le_growth (op : Op n V) : op.span ≤ op.growth := by
  cases op with
  | insert key value => exact Nat.le_succ _
  | remove key => exact le_rfl
  | _ => exact le_rfl

variable {hasher : TrieHasher n V H} {op : Op n V} {t t' : Trie n V H}

/-- A call on one key that succeeds. -/
theorem inline_ideal (hasher : TrieHasher n V H) (ht : t.Tidy)
    (hop : op.atKey = true) :
    Trie.countEdges (·.hash.isNone) (op.ideal hasher t).2 ≤
      Trie.countEdges (·.hash.isNone) t + op.growth := by
  cases op with
  | get key => exact le_rfl
  | insert key value =>
      cases t with
      | none =>
          have hleaf := countEdges_leaf
            (fun e : Edge n V H => e.hash.isNone) key value
          exact hleaf.le.trans (Nat.zero_le _)
      | some nd =>
          exact inlineEdges_edit
            (fun m k hs => (insertAt_counts value m hs).1) nd key
  | remove key =>
      cases t with
      | none => exact Nat.zero_le _
      | some nd =>
          have hedit := inlineEdges_edit (c := 0)
            (fun m k _ => ((removeAt_counts m k).1 _).trans
              (Nat.le_add_right (inlineEdges m) k.length)) nd key
          exact hedit.trans (Nat.le_succ _)
  | removePrefix keyPrefix => cases hop
  | materializeSubtree => cases hop
  | hash =>
      cases t with
      | none => exact le_rfl
      | some nd =>
          have hzero := Node.Tidy.inlineEdges_merkle ht hasher [] 0
          exact hzero.le.trans (Nat.zero_le _)

/-- However a call on one key ends, it leaves at most so many inline edges
more. -/
theorem Step.inline_le (ht : t.Tidy) (hop : op.atKey = true)
    (hstep : Step hasher op t t') :
    Trie.countEdges (·.hash.isNone) t' ≤
      Trie.countEdges (·.hash.isNone) t + op.growth := by
  have hstep' := hstep
  cases hstep with
  | done => exact inline_ideal hasher ht hop
  | failed hleft =>
      cases hleft with
      | read => exact Nat.le_add_right _ _
      | halted hm =>
          exact Node.Tidy.inlineEdges_halted hm ht
      | @opened _ nd nd₁ hmut hopen _ =>
          have hedits : op.edits = true := by
            cases op with
            | insert key value => rfl
            | remove key => rfl
            | removePrefix keyPrefix => cases hop
            | materializeSubtree => cases hop
            | _ => cases hmut
          -- As many edges as before, of which fewer are sealed.
          have hlength := (hopen.edges []).length_eq
          have hsealed := hstep'.sealed_le hedits
          have hbefore := inlineEdges_add_sealedCount nd
          have hafter := inlineEdges_add_sealedCount nd₁
          have hspan := op.span_le_growth
          simp only [Trie.countEdges_some] at hsealed ⊢
          unfold inlineEdges sealedCount at hbefore hafter
          omega

end Op

/-- A run of calls on single keys leaves at most so many inline edges more. -/
theorem performAll_inline_le (hasher : TrieHasher n V H)
    (store : EdgeStore n V H σ ε) {ops : List (Op n V)}
    (hops : ∀ op ∈ ops, op.atKey = true) {t : Trie n V H} (ht : t.Tidy)
    (s : σ) :
    ∃ rs t' s', performAll hasher store ops t s = .ok (rs, t', s') ∧
      t'.Tidy ∧
      Trie.countEdges (·.hash.isNone) t' ≤
        Trie.countEdges (·.hash.isNone) t + (ops.map Op.growth).sum := by
  induction ops generalizing t s with
  | nil => exact ⟨[], t, s, rfl, ht, le_rfl⟩
  | cons op ops ih =>
      obtain ⟨r, t₁, s₁, hop, hstep⟩ := op.perform_step hasher store t s
      have hgrowth := hstep.inline_le ht (hops op (by simp))
      obtain ⟨rs, t', s', hrun, htidy, hle⟩ :=
        ih (fun op' hop' => hops op' (by simp [hop'])) (hstep.tidy ht) s₁
      refine ⟨r :: rs, t', s', ?_, htidy, ?_⟩
      · simp only [performAll, hop, hrun, ok_bind, pure_eq_ok]
      · rw [List.map_cons, List.sum_cons, ← Nat.add_assoc]
        exact hle.trans (Nat.add_le_add_right hgrowth _)

/-- After any run, a hash that succeeds and any calls on single keys, failing
or not, the next hash reads at most once more than the keys since have indices
and ends, materializes nothing, and seals at most as many edges, besides one
for each read; all this whatever the size of the trie. -/
theorem rehash_cost {hasher : TrieHasher n V H}
    {store : EdgeStore n V H σ ε} {pre post : List (Op n V)}
    (hpost : ∀ op ∈ post, op.atKey = true) {s s₁ s₂ s₃ : σ}
    {rs rs' : List (Except ε (Answer V H))} {t t₁ : Trie n V H}
    {r : Answer V H} {root : TrieNode n V H}
    (hpre : performAll hasher store pre none s = .ok (rs, t, s₁))
    (hhash : Op.hash.perform hasher store t s₁ = .ok (.ok r, t₁, s₂))
    (hrun : performAll hasher store post t₁ s₂ =
      .ok (rs', some root, s₃)) (store' : EdgeStore n V H σ' ε') (s' : σ') :
    ∃ r' t' s'' m, hash hasher store'.metered root (s', {}) =
        .ok (r', t', s'', m) ∧
      m.reads ≤ (post.map Op.growth).sum + 1 ∧
      m.materialized = 0 ∧ m.inlined = 0 ∧
      m.seals ≤ (post.map Op.growth).sum + m.reads := by
  have hempty : Trie.Tidy (none : Trie n V H) := trivial
  have ht := performAll_final (performAll_invariant hasher store
    (fun _ _ _ h hstep => hstep.tidy h) pre hempty s) hpre
  have hzero : t₁.Tidy ∧
      Trie.countEdges (·.hash.isNone) t₁ = 0 := by
    have hideal := Op.ideal_of_ok hhash
    cases t with
    | none =>
        cases hideal
        exact ⟨trivial, rfl⟩
    | some nd =>
        cases hideal
        exact ⟨Node.Tidy.merkle ht hasher [] 0,
          Node.Tidy.inlineEdges_merkle ht hasher [] 0⟩
  obtain ⟨htidy, hle⟩ := performAll_final
    (performAll_inline_le hasher store hpost hzero.1 s₂) hrun
  rw [hzero.2, Nat.zero_add, Trie.countEdges_some] at hle
  have hinline : inlineEdges root ≤ (post.map Op.growth).sum := hle
  obtain ⟨r', t', s'', m, hdone, hreads, hmat, hinl, hseals, -⟩ :=
    hash_meter hasher store' htidy s'
  refine ⟨r', t', s'', m, hdone, ?_, hmat, hinl, ?_⟩
  · exact hreads.trans (Nat.add_le_add_right hinline 1)
  · exact hseals.trans (Nat.add_le_add_right hinline m.reads)

/-- One removal between two hashes. -/
theorem rehash_cost_remove :
    ∃ root r' t' s'' m,
      (idealAll (TrieHasher.summing 2) [.insert [0, 0] 5, .insert [0, 1] 7,
        .insert [1] 3, .hash, .remove [0, 1]] none).2 = some root ∧
      hash (TrieHasher.summing 2) (EdgeStore.inMemory 2 ℕ ℕ).metered root
        ((), {}) = .ok (r', t', s'', m) ∧
      m.reads ≤ 4 ∧ m.materialized = 0 ∧ m.inlined = 0 ∧
      m.seals ≤ 3 + m.reads := by
  have hstore := EdgeStore.inMemory_neverFails 2 ℕ ℕ
  let pre : List (Op 2 ℕ) := [.insert [0, 0] 5, .insert [0, 1] 7,
    .insert [1] 3]
  let post : List (Op 2 ℕ) := [.remove [0, 1]]
  let hashed := (Op.hash.ideal (TrieHasher.summing 2)
    (idealAll (TrieHasher.summing 2) pre none).2).2
  have hpost : ∀ op ∈ post, op.atKey = true := by
    decide
  have hsome : (idealAll (TrieHasher.summing 2) post hashed).2.isSome =
      true := by
    decide +kernel
  obtain ⟨root, hroot⟩ := Option.isSome_iff_exists.mp hsome
  obtain ⟨⟨⟩, hpre⟩ :=
    performAll_of_neverFails (TrieHasher.summing 2) hstore pre none ()
  obtain ⟨⟨⟩, hhash⟩ := Op.hash.perform_of_neverFails
    (TrieHasher.summing 2) hstore (idealAll (TrieHasher.summing 2) pre none).2
    ()
  obtain ⟨⟨⟩, hrun⟩ :=
    performAll_of_neverFails (TrieHasher.summing 2) hstore post hashed ()
  rw [hroot] at hrun
  obtain ⟨r', t', s'', m, h⟩ :=
    rehash_cost hpost hpre hhash hrun (EdgeStore.inMemory 2 ℕ ℕ) ()
  exact ⟨root, r', t', s'', m, hroot, h⟩

end ArityTries
