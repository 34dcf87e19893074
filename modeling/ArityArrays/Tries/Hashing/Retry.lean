import ArityArrays.Tries.Atomicity
import ArityArrays.Tries.Hashing.Switching

/-!
# A failed hash can be finished

A hash walk that fails in the store has hashed some subtrees and left the rest
alone.  Hashing what it left computes what hashing the original trie does, so a
caller may repeat the call until it succeeds.
-/

namespace ArityTries

open Checked Node

variable {n : ℕ} {V H σ ε : Type}

namespace Node

variable {hasher : TrieHasher n V H} {L : Path n} {nd nd' : TrieNode n V H}

/-- Hashing a node that was hashed is hashing it once. -/
theorem HashValid.merkle_merkle (hd : hasher.Documented)
    (h : nd.HashValid hasher L) (siblings siblings' : ℕ) :
    Node.merkle hasher L siblings (Node.merkle hasher L siblings' nd).2 =
      Node.merkle hasher L siblings nd := by
  have hrest := merkle_resting hd L siblings' h
  have hrest' := merkle_resting hd L siblings h
  have hvalid := h.merkle hd L siblings'
  have hsame : (Node.merkle hasher L siblings' nd).2 =
      (Node.merkle hasher L siblings nd).2 := by
    rw [merkle_eq, merkle_eq]
  rw [← hvalid.merkle_inlined hd, hrest.merkle_inlined hvalid, hsame,
    ← merkle_fst]

/-- Two valid nodes whose slots hash alike hash alike. -/
theorem HashValid.merkle_eq_of_slots (hd : hasher.Documented)
    (h : nd.HashValid hasher L) (h' : nd'.HashValid hasher L)
    (hp : nd'.partialPath = nd.partialPath) (hv : nd'.value = nd.value)
    (hcount : nd'.children.count = nd.children.count)
    (hslot : ∀ i, (nd'.children.get i).map (fun e =>
        Node.merkle hasher (slotPath L nd i) nd.children.count e.node) =
      (nd.children.get i).map fun e =>
        Node.merkle hasher (slotPath L nd i) nd.children.count e.node)
    (siblings : ℕ) :
    Node.merkle hasher L siblings nd' = Node.merkle hasher L siblings nd := by
  rw [← h.merkle_inlined hd, ← h'.merkle_inlined hd]
  have hpath : ∀ i, slotPath L nd' i = slotPath L nd i := by
    intro i
    rw [slotPath, slotPath, hp]
  refine merkle_congr hasher L siblings ?_ ?_ ?_
  · rw [inlined_partialPath, inlined_partialPath, hp]
  · rw [inlined_value, inlined_value, hv]
  · intro i
    have hi := hslot i
    rw [walked_inlined_get, walked_inlined_get, hpath, hcount]
    rcases he : nd.children.get i with _ | e
    · rw [he, Option.map_none, Option.map_eq_none_iff] at hi
      rw [hi]
    · rw [he, Option.map_some] at hi
      obtain ⟨e', he', heq⟩ := Option.map_eq_some_iff.mp hi
      have hchild' := h'.child he'
      rw [hpath] at hchild'
      rw [he', Option.map_some, Option.map_some,
        hchild'.merkle_inlined hd, heq, (h.child he).merkle_inlined hd]

/-- Hashing what a failed walk left computes what hashing the original node
does. -/
theorem HashValid.merkle_halted (hd : hasher.Documented)
    (hm : Halted hasher L nd nd') (h : nd.HashValid hasher L)
    (siblings : ℕ) :
    Node.merkle hasher L siblings nd' =
      Node.merkle hasher L siblings nd := by
  induction hm generalizing siblings with
  | prepare L nd => rfl
  | @slot L nd m m₁ pending i hi hm ih =>
      obtain ⟨e, c, he, heq⟩ := get_of_reseal hi
      obtain rfl : m = e.node := congrArg Edge.node heq
      have hwalked : ∃ f, (Node.walked hasher L nd pending).children.get i =
          some f := by
        rw [walked_get, hi]
        split <;> exact ⟨_, rfl⟩
      obtain ⟨f, hf⟩ := hwalked
      have hcount : ((Node.walked hasher L nd pending).setChild i
          (.mk m₁ none)).children.count = nd.children.count := by
        rw [setChild_children, ChildMap.count_set_of_mem hf, walked_count]
      refine h.merkle_eq_of_slots hd
        (h.halted hd (.slot hi hm)) rfl rfl hcount ?_ siblings
      intro j
      rw [setChild_children]
      by_cases hj : j = i
      · subst j
        rw [ChildMap.get_set_self, he, Option.map_some, Option.map_some,
          Edge.node_mk, ih (h.child he)]
      · rw [ChildMap.get_set_of_ne _ hj]
        rcases hg : (Node.walked hasher L nd pending).children.get j with _ | g
        · rcases nd.reseal_get hasher L j with ⟨hnone, -⟩ | ⟨e', c', -, he'⟩
          · rw [hnone]
          · rw [walked_get, he'] at hg
            split at hg <;> cases hg
        · obtain ⟨e', he', hnode | hnode⟩ := walked_get_node hg
          · rw [he', Option.map_some, Option.map_some, hnode]
          · rw [he', Option.map_some, Option.map_some, hnode,
              (h.child he').merkle_merkle hd]

end Node

/-! ## Attempts -/

namespace Op

variable {hasher : TrieHasher n V H} {t t' : Trie n V H}

/-- What a failing hash leaves. -/
theorem halted_of_error {store : EdgeStore n V H σ ε} {s s' : σ} {x : ε}
    (hrun : (hash : Op n V).perform hasher store t s =
      .ok (.error x, t', s')) :
    ∃ nd m, t = some nd ∧ t' = some m ∧ Halted hasher [] nd m := by
  have houtcome := (hash : Op n V).perform_outcome hasher store t s
  rw [hrun] at houtcome
  cases houtcome with
  | failed _ hleft _ =>
      cases hleft with
      | opened hop _ _ => cases hop
      | halted hm => exact ⟨_, _, rfl, rfl, hm⟩

end Op

/-- Failed hashes keep cached hashes vouched for, and do not change what the
next one computes. -/
theorem Attempts.hash {hasher : TrieHasher n V H} (hd : hasher.Documented)
    {t t₁ : Trie n V H} (ht : t.HashValid hasher [])
    (h : Attempts hasher .hash t t₁) :
    t₁.HashValid hasher [] ∧
      Op.hash.ideal hasher t₁ = Op.hash.ideal hasher t := by
  induction h with
  | nil => exact ⟨ht, rfl⟩
  | failed _ hrun ih =>
      obtain ⟨hvalid, hideal⟩ := ih
      obtain ⟨nd, m, rfl, rfl, hm⟩ := Op.halted_of_error hrun
      refine ⟨Node.HashValid.halted hd hm hvalid, ?_⟩
      rw [← hideal, Op.ideal, Op.ideal,
        Node.HashValid.merkle_halted hd hm hvalid]

/-- After any run, and however often and over whatever stores a hash failed
since, one that succeeds returns the root hash, and leaves the trie, that
hashing the trie of the run over a store that never fails does. -/
theorem failed_hash_finishes {hasher : TrieHasher n V H}
    (hd : hasher.Documented) {store : EdgeStore n V H σ ε}
    {ops : List (Op n V)} {s s₁ : σ} {rs : List (Except ε (Answer V H))}
    {t : Trie n V H}
    (hrun : performAll hasher store ops none s = .ok (rs, t, s₁))
    (σ₁ ε₁ σ₂ ε₂ : Type) (store₁ : EdgeStore n V H σ₁ ε₁)
    (store₂ : EdgeStore n V H σ₂ ε₂) (s₂ s₂' : σ₁) (s₃ : σ₂)
    (r : Answer V H) (t₁ t₂ : Trie n V H) :
    Attempts hasher .hash t t₁ →
    Op.hash.perform hasher store₁ t₁ s₂ = .ok (.ok r, t₂, s₂') →
    store₂.NeverFails →
      ∃ s₃', Op.hash.perform hasher store₂ t s₃ =
        .ok (.ok r, t₂, s₃') := by
  intro hattempts hdone hstore
  have hvalid := performAll_final (performAll_hashValid hd store ops s) hrun
  have hideal : Op.hash.ideal hasher t = (r, t₂) := by
    rw [← (hattempts.hash hd hvalid).2]
    exact Op.ideal_of_ok hdone
  obtain ⟨s₃', hrun'⟩ := Op.hash.perform_of_neverFails hasher hstore t s₃
  rw [hideal] at hrun'
  exact ⟨s₃', hrun'⟩

/-- A hash that fails to read a lone sealed child, and the one after it. -/
theorem failed_hash_finishes_lone :
    ∃ (t t₁ t₂ : Trie 2 ℕ ℕ) (x : String) (s : ℕ × ℕ) (r : Answer ℕ ℕ),
      Op.hash.perform (TrieHasher.summing 2) (EdgeStore.failing 2 ℕ ℕ 1 0)
        t (0, 0) = .ok (.error x, t₁, s) ∧
      Op.hash.perform (TrieHasher.summing 2) (EdgeStore.inMemory 2 ℕ ℕ)
        t₁ () = .ok (.ok r, t₂, ()) ∧
      Op.hash.perform (TrieHasher.summing 2) (EdgeStore.inMemory 2 ℕ ℕ)
        t () = .ok (.ok r, t₂, ()) := by
  have hd := TrieHasher.summing_documented 2
  have hstore := EdgeStore.inMemory_neverFails 2 ℕ ℕ
  let ops : List (Op 2 ℕ) := [.insert [0, 0] 5, .insert [0, 1] 7,
    .insert [1] 3, .hash, .remove [0, 1]]
  let t := (idealAll (TrieHasher.summing 2) ops none).2
  obtain ⟨⟨⟩, hrun⟩ :=
    performAll_of_neverFails (TrieHasher.summing 2) hstore ops none ()
  have hfails : ((Op.hash.perform (TrieHasher.summing 2)
      (EdgeStore.failing 2 ℕ ℕ 1 0) t (0, 0)).toOption.map
        fun out => out.1.toOption.isSome) = some false := by
    decide +kernel
  obtain ⟨r, t₁, s, hfirst, -⟩ := Op.hash.perform_step
    (TrieHasher.summing 2) (EdgeStore.failing 2 ℕ ℕ 1 0) t (0, 0)
  rw [hfirst] at hfails
  cases r with
  | ok r => cases hfails
  | error x =>
      obtain ⟨⟨⟩, hretry⟩ := Op.hash.perform_of_neverFails
        (TrieHasher.summing 2) hstore t₁ ()
      obtain ⟨⟨⟩, hdirect⟩ := failed_hash_finishes hd hrun _ _ _ _ _ _ _ _
        () _ _ _ (.failed .nil hfirst) hretry hstore
      exact ⟨t, t₁, _, x, s, _, hfirst, hretry, hdirect⟩

end ArityTries
