import ArityArrays.Tries.Atomicity
import ArityArrays.Tries.Counting

/-!
# How far a mutation reaches

A mutation of one key turns edges inline along the key alone.  What it makes
the store resolve, and what it leaves for the next hash, is therefore bounded
by the length of the key, whatever the size of the trie and whether or not the
store fails.
-/

namespace ArityTries

open Checked Node

variable {n : ℕ} {V H σ ε ρ : Type}

namespace Node

variable {nd : TrieNode n V H} {i : Fin n} {e : Edge n V H}

/-! ## Repairing a parent -/

/-- A node whose child leaves gains no edge. -/
theorem countEdges_detach (p : Edge n V H → Bool)
    (he : nd.children.get i = some e) (r : ρ) :
    Trie.countEdges p (nd.detach i r).trie ≤ countEdges p nd := by
  have herase := countEdges_eraseChild p nd i
  have hcount := ChildMap.count_erase he
  unfold detach
  split
  · rw [Fate.trie_stays, Trie.countEdges_some]
    omega
  · split
    · next htwo =>
        have hone : (nd.eraseChild i).children.count = 1 := by
          rw [eraseChild_children]
          omega
        have hmerged := (countEdges_merged p hone).1
        rw [Fate.trie_stays, Trie.countEdges_some]
        omega
    · exact Nat.zero_le _

/-- The edges on the way to where an edit stops are inline afterwards, each of
them beneath an index of the key. -/
theorem inlineEdges_edit {stop : TrieNode n V H → Path n → Fate n V H ρ}
    {c : ℕ}
    (hstop : ∀ nd key, Stops nd key →
      Trie.countEdges (·.hash.isNone) (stop nd key).trie ≤
        inlineEdges nd + key.length + c)
    (nd : TrieNode n V H) (key : Path n) :
    Trie.countEdges (·.hash.isNone) (edit stop nd key).trie ≤
      inlineEdges nd + key.length + c := by
  induction nd, key using walkInduct with
  | stop nd key hs =>
      rw [edit_of_stops hs]
      exact hstop nd key hs
  | descend nd i keyRest e he ih =>
      rw [edit_below he, List.length_append, List.length_cons]
      cases hfate : edit stop e.node keyRest with
      | leaves r =>
          have hdetach :=
            countEdges_detach (fun f => f.hash.isNone) he r
          have hle := Nat.le_add_right (inlineEdges nd)
            (nd.partialPath.length + (keyRest.length + 1) + c)
          rw [← Nat.add_assoc] at hle
          exact hdetach.trans hle
      | stays m r =>
          rw [hfate, Fate.trie_stays, Trie.countEdges_some] at ih
          have hset := countEdges_setChild (fun f => f.hash.isNone) nd i
            (.mk m none)
          rw [he, countSlot_some, countSlot_inline] at hset
          have hchild : inlineEdges e.node =
              countEdges (fun f => f.hash.isNone) e.node := rfl
          have hnode : inlineEdges nd =
              countEdges (fun f => f.hash.isNone) nd := rfl
          have hm : inlineEdges m =
              countEdges (fun f => f.hash.isNone) m := rfl
          rw [lift, Fate.trie_stays, Trie.countEdges_some]
          omega

/-! ## Sealed edges -/

/-- An edit seals nothing when its stopping case does not. -/
theorem sealedCount_edit_le {stop : TrieNode n V H → Path n → Fate n V H ρ}
    (hstop : ∀ nd key, Stops nd key →
      Trie.countEdges (·.hash.isSome) (stop nd key).trie ≤ sealedCount nd)
    (nd : TrieNode n V H) (key : Path n) :
    Trie.countEdges (·.hash.isSome) (edit stop nd key).trie ≤
      sealedCount nd := by
  induction nd, key using walkInduct with
  | stop nd key hs =>
      rw [edit_of_stops hs]
      exact hstop nd key hs
  | descend nd i keyRest e he ih =>
      rw [edit_below he]
      cases hfate : edit stop e.node keyRest with
      | leaves r => exact countEdges_detach _ he r
      | stays m r =>
          rw [hfate, Fate.trie_stays, Trie.countEdges_some] at ih
          have hset := countEdges_setChild (fun f => f.hash.isSome) nd i
            (.mk m none)
          rw [he, countSlot_some, countSlot_sealed_inline] at hset
          rw [lift, Fate.trie_stays, Trie.countEdges_some]
          unfold sealedCount at *
          omega

/-- A node with `k` sealed edges loses at most `a` of them on the path of an
edit and `c` more to a merge, which needs a node that stays. -/
def Loses (k a c : ℕ) : Fate n V H ρ → Prop
  | .stays m _ => k ≤ sealedCount m + a + c
  | .leaves _ => k ≤ a ∧ 1 ≤ c

/-- The repair of a parent adds the edge of the child to what was lost. -/
theorem Loses.lift {fate : Fate n V H ρ} {a c : ℕ}
    (he : nd.children.get i = some e)
    (h : Loses (sealedCount e.node) a c fate) :
    Loses (sealedCount nd) (a + 1) c (nd.lift i fate) := by
  have hslot := countSlot_le (p := fun f => f.hash.isSome) (e := e)
  cases fate with
  | stays m r =>
      have hset := countEdges_setChild (fun f => f.hash.isSome) nd i
        (.mk m none)
      rw [he, countSlot_sealed_inline] at hset
      simp only [Node.lift, Loses, sealedCount] at h hset ⊢
      omega
  | leaves r =>
      obtain ⟨hall, hc⟩ := h
      have herase := countEdges_eraseChild (fun f => f.hash.isSome) nd i
      rw [he] at herase
      have hcount := ChildMap.count_erase he
      unfold sealedCount at hall
      simp only [Node.lift, detach]
      split
      · simp only [Loses, sealedCount]
        omega
      · next hkeep =>
          split
          · have hone : (nd.eraseChild i).children.count = 1 := by
              rw [eraseChild_children]
              omega
            have hmerged :=
              (countEdges_merged (fun f => f.hash.isSome) hone).2
            simp only [Loses, sealedCount]
            omega
          · next htwo =>
              -- The last child of a node that leaves with it.
              have hempty : ∀ j, (nd.eraseChild i).children.get j =
                  none := by
                apply ChildMap.count_eq_zero.mp
                rw [eraseChild_children]
                have hthree := (not_or.mp hkeep).2
                have hpos := ChildMap.count_pos_of_get he
                omega
              rw [countEdges_of_no_child hempty] at herase
              refine ⟨?_, hc⟩
              unfold sealedCount
              omega

/-- An edit loses the sealed edges on its path and what its stopping case
loses. -/
theorem loses_edit {stop : TrieNode n V H → Path n → Fate n V H ρ} {c : ℕ}
    (hstop : ∀ nd key, Stops nd key →
      Loses (sealedCount nd) 0 c (stop nd key))
    (nd : TrieNode n V H) (key : Path n) :
    Loses (sealedCount nd) key.length c (edit stop nd key) := by
  have hmono : ∀ {k a a' : ℕ} {fate : Fate n V H ρ}, a ≤ a' →
      Loses k a c fate → Loses k a' c fate := by
    intro k a a' fate hle h
    cases fate with
    | stays m r =>
        simp only [Loses] at h ⊢
        omega
    | leaves r => exact ⟨h.1.trans hle, h.2⟩
  induction nd, key using walkInduct with
  | stop nd key hs =>
      rw [edit_of_stops hs]
      exact hmono (Nat.zero_le _) (hstop nd key hs)
  | descend nd i keyRest e he ih =>
      rw [edit_below he]
      refine hmono ?_ (ih.lift he)
      rw [List.length_append, List.length_cons]
      omega

/-! ## The stopping cases -/

/-- Where an insertion stops it adds at most two inline edges, one of them
beneath an index of the key, and keeps what is sealed. -/
theorem insertAt_counts (value : V) (nd : TrieNode n V H) {key : Path n}
    (hs : Stops nd key) :
    Trie.countEdges (·.hash.isNone) (insertAt value nd key).trie ≤
        inlineEdges nd + key.length + 1 ∧
      Trie.countEdges (·.hash.isSome) (insertAt value nd key).trie =
        sealedCount nd ∧
      ∃ m r, insertAt value nd key = .stays m r := by
  have hchange : ∀ (p : Edge n V H → Bool) (v : Option V),
      countEdges p { nd with value := v } = countEdges p nd :=
    fun _ _ => countEdges_congr rfl
  have hpush : ∀ (p : Edge n V H → Bool) (nr : Path n),
      countEdges p { nd with partialPath := nr } = countEdges p nd :=
    fun _ _ => countEdges_congr rfl
  rcases descent_cases key nd.partialPath with
    rfl | ⟨ni, nr, hp⟩ | ⟨i, kr, rfl⟩ | ⟨sh, ki, kr, ni, nr, hne, rfl, hp⟩
  · simp only [insertAt, descent_self, Fate.trie_stays,
      Trie.countEdges_some, hchange]
    refine ⟨?_, rfl, _, _, rfl⟩
    unfold inlineEdges
    omega
  · simp only [insertAt, hp, descent_above, Fate.trie_stays,
      Trie.countEdges_some, countEdges_pushDown, countSlot_inline,
      countSlot_sealed_inline, inlineEdges, sealedCount, hpush]
    refine ⟨?_, trivial, _, _, rfl⟩
    omega
  · have hempty := hs i kr rfl
    have hset := countEdges_setChild (fun f => f.hash.isNone) nd i
      (.mk (leaf kr value) none)
    have hset' := countEdges_setChild (fun f => f.hash.isSome) nd i
      (.mk (leaf kr value) none)
    simp only [hempty, countSlot_none, countSlot_inline,
      countSlot_sealed_inline, inlineEdges, sealedCount,
      countEdges_leaf] at hset hset'
    simp only [insertAt, descent_below, Fate.trie_stays,
      Trie.countEdges_some, inlineEdges, sealedCount, List.length_append,
      List.length_cons]
    refine ⟨?_, hset', _, _, rfl⟩
    omega
  · have hempty : (nd.pushDown sh none ni nr).children.get ki = none :=
      pushDown_get_of_ne _ _ _ _ _ hne
    have hset := countEdges_setChild (fun f => f.hash.isNone)
      (nd.pushDown sh none ni nr) ki (.mk (leaf kr value) none)
    have hset' := countEdges_setChild (fun f => f.hash.isSome)
      (nd.pushDown sh none ni nr) ki (.mk (leaf kr value) none)
    simp only [hempty, countSlot_none, countSlot_inline,
      countSlot_sealed_inline, inlineEdges, sealedCount, countEdges_leaf,
      countEdges_pushDown, hpush] at hset hset'
    simp only [insertAt, hp, descent_fork sh hne, Fate.trie_stays,
      Trie.countEdges_some, inlineEdges, sealedCount, List.length_append,
      List.length_cons]
    refine ⟨?_, hset', _, _, rfl⟩
    omega

/-- Where a removal stops it gains no edge and loses at most the one of an only
child that is merged. -/
theorem removeAt_counts (nd : TrieNode n V H) (key : Path n) :
    (∀ p : Edge n V H → Bool,
      Trie.countEdges p (removeAt nd key).trie ≤ countEdges p nd) ∧
      Loses (sealedCount nd) 0 1 (removeAt nd key) := by
  have hsame : Loses (sealedCount nd) 0 1
      (.stays nd none : Fate n V H (Option V)) := by
    simp only [Loses]
    omega
  unfold removeAt
  split
  · split
    · exact ⟨fun p => le_rfl, hsame⟩
    · split
      · next hzero =>
          refine ⟨fun p => Nat.zero_le _, ?_, le_rfl⟩
          rw [sealedCount,
            countEdges_of_no_child (ChildMap.count_eq_zero.mp hzero)]
      · next hone =>
          have hone' : ({ nd with value := none } :
              TrieNode n V H).children.count = 1 := hone
          have hchange : ∀ p : Edge n V H → Bool,
              countEdges p { nd with value := none } = countEdges p nd :=
            fun _ => countEdges_congr rfl
          refine ⟨?_, ?_⟩
          · intro p
            rw [Fate.trie_stays, Trie.countEdges_some, ← hchange p]
            exact (countEdges_merged p hone').1
          · have hmerged :=
              (countEdges_merged (fun f => f.hash.isSome) hone').2
            rw [hchange] at hmerged
            simpa only [Loses, sealedCount, Nat.add_zero] using hmerged
      · have hchange : ∀ p : Edge n V H → Bool,
            countEdges p { nd with value := none } = countEdges p nd :=
          fun _ => countEdges_congr rfl
        refine ⟨fun p => (hchange p).le, ?_⟩
        simp only [Loses, sealedCount, hchange]
        omega
  · exact ⟨fun p => le_rfl, hsame⟩

end Node

/-! ## Calls -/

namespace Op

/-- The calls that change what a trie holds at one key. -/
def edits : Op n V → Bool
  | insert _ _ => true
  | remove _ => true
  | _ => false

/-- How many sealed edges a call on one key can make the store resolve: those
on the way, and the one of a sibling that is merged into its parent. -/
def span : Op n V → ℕ
  | insert key _ => key.length
  | remove key => key.length + 1
  | _ => 0

variable {hasher : TrieHasher n V H} {op : Op n V} {t t' : Trie n V H}

/-- A call on one key loses as many sealed edges as it spans, and seals
none. -/
theorem sealed_ideal (hasher : TrieHasher n V H) (hop : op.edits = true)
    (t : Trie n V H) :
    Trie.countEdges (·.hash.isSome) t ≤
        Trie.countEdges (·.hash.isSome) (op.ideal hasher t).2 + op.span ∧
      Trie.countEdges (·.hash.isSome) (op.ideal hasher t).2 ≤
        Trie.countEdges (·.hash.isSome) t := by
  cases t with
  | none =>
      cases op with
      | insert key value =>
          have hleaf := countEdges_leaf
            (fun e : Edge n V H => e.hash.isSome) key value
          exact ⟨Nat.zero_le _, hleaf.le⟩
      | remove key => exact ⟨Nat.zero_le _, le_rfl⟩
      | _ => cases hop
  | some nd =>
      cases op with
      | insert key value =>
          have hstop : ∀ (m : TrieNode n V H) (k : Path n), Stops m k →
              Loses (sealedCount m) 0 0 (insertAt value m k) := by
            intro m k hs
            obtain ⟨-, hsealed, m', r, hstays⟩ :=
              insertAt_counts value m hs
            rw [hstays] at hsealed ⊢
            exact hsealed.symm.le
          have hloses := loses_edit hstop nd key
          have hle := sealedCount_edit_le
            (fun m k hs => (insertAt_counts value m hs).2.1.le) nd key
          refine ⟨?_, hle⟩
          change sealedCount nd ≤
            Trie.countEdges _ (edit (insertAt value) nd key).trie + _
          cases hfate : edit (insertAt value) nd key with
          | stays m r =>
              rw [hfate] at hloses
              exact hloses
          | leaves r =>
              rw [hfate] at hloses
              cases hloses.2
      | remove key =>
          have hloses := loses_edit
            (fun m k _ => (removeAt_counts m k).2) nd key
          have hle := sealedCount_edit_le
            (fun m k _ => (removeAt_counts m k).1 _) nd key
          refine ⟨?_, hle⟩
          change sealedCount nd ≤
            Trie.countEdges _ (edit removeAt nd key).trie + _
          cases hfate : edit removeAt nd key with
          | stays m r =>
              rw [hfate] at hloses
              exact hloses
          | leaves r =>
              rw [hfate] at hloses
              exact (hloses.1.trans (Nat.le_succ _)).trans
                (Nat.le_add_left _ _)
      | _ => cases hop

theorem edits_mutates (hop : op.edits = true) : op.mutates = true := by
  cases op with
  | insert key value => rfl
  | remove key => rfl
  | _ => cases hop

/-- However a call on one key ends, the sealed edges it has lost are those it
spans. -/
theorem Step.sealed_le (hop : op.edits = true)
    (hstep : Step hasher op t t') :
    Trie.countEdges (·.hash.isSome) t ≤
      Trie.countEdges (·.hash.isSome) t' + op.span := by
  cases hstep with
  | done => exact (sealed_ideal hasher hop t).1
  | failed hleft =>
      cases hleft with
      | read => cases hop
      | halted => cases hop
      | @opened _ nd nd₁ _ _ hsame =>
          -- What was opened would have been opened by the call itself.
          have hloses := (sealed_ideal hasher hop (some nd)).1
          rw [← hsame] at hloses
          exact hloses.trans (Nat.add_le_add_right
            (sealed_ideal hasher hop (some nd₁)).2 _)

end Op

theorem Trie.card_sealedEdges (t : Trie n V H) :
    t.sealedEdges.card = Trie.countEdges (·.hash.isSome) t := by
  cases t with
  | none => rfl
  | some nd => exact Node.card_sealedEdges [] nd

/-- An insertion or a removal, over any store and whether or not it fails,
passes at most as many sealed edges to successful `materialize` calls as the
key has indices, and one more if it removes. -/
theorem edit_resolves_path (hasher : TrieHasher n V H)
    (store : EdgeStore n V H σ ε) {op : Op n V} (hop : op.edits = true)
    (t : Trie n V H) (s : σ) (log : List (Edge n V H)) :
    ∃ r t' s' resolved, op.perform hasher store.logged t (s, log) =
        .ok (r, t', s', log ++ resolved) ∧
      resolved.length ≤ op.span := by
  have houtcome := op.perform_outcome hasher store.logged t (s, log)
  obtain ⟨r, t', ⟨s', log'⟩, hrun, hstep⟩ :=
    op.perform_step hasher store.logged t (s, log)
  rw [hrun] at houtcome
  have hacc : Accounts store.logged (s, log) (s', log') t.sealedEdges
      t'.sealedEdges := by
    cases houtcome with
    | failed _ _ hacc => exact hacc (Op.edits_mutates hop)
    | done _ hacc => exact hacc (Op.edits_mutates hop)
  obtain ⟨gone, hcalls, hgone⟩ := hacc
  have hlog : log' = log ++ gone.map Prod.snd := hcalls.logged
  subst hlog
  refine ⟨r, t', s', gone.map Prod.snd, hrun, ?_⟩
  have hcard := congrArg Multiset.card hgone
  rw [Multiset.card_add, Multiset.coe_card, Trie.card_sealedEdges,
    Trie.card_sealedEdges] at hcard
  have hle := hstep.sealed_le hop
  rw [List.length_map]
  omega

/-- A removal that merges a sealed sibling into the root. -/
theorem edit_resolves_path_merge :
    ∃ r t' s' resolved, (Op.remove [0]).perform (TrieHasher.summing 2)
        (EdgeStore.inMemory 2 ℕ ℕ).logged
        (some {
          partialPath := []
          value := none
          children := (ChildMap.empty.set 0 (.mk (leaf [] 5) (some 9))).set
            1 (.mk (leaf [] 7) (some 9)) }) ((), []) =
          .ok (r, t', s', [] ++ resolved) ∧
      resolved.length ≤ 2 :=
  edit_resolves_path (TrieHasher.summing 2) (EdgeStore.inMemory 2 ℕ ℕ)
    (rfl : (Op.remove [0] : Op 2 ℕ).edits = true) _ () []

end ArityTries
