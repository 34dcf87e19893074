import ArityArrays.Tries.Mutation.Refinement

/-!
# `materialize_subtree` and `remove_prefix` compute their edits

Materializing a subtree makes every edge beneath a node inline, one slot after
another.  Removing a prefix materializes the subtree that leaves before the
unwind drops it.
-/

namespace ArityTries

open Checked Loop Node

variable {n : ℕ} {V H σ ε ρ : Type}

/-! ## Materializing a subtree -/

theorem sealedEdges_inlined (L : Path n) (nd : TrieNode n V H) :
    Node.sealedEdges L nd.inlined = 0 := by
  induction nd using induct generalizing L with
  | step nd ih =>
      rw [sealedEdges_eq]
      refine Finset.sum_eq_zero ?_
      intro i _
      rw [inlined_get]
      cases he : nd.children.get i with
      | none => rfl
      | some e => exact (sealedAt_inline _ _).trans (ih i e he _)

/-- `cur` is `nd` with everything beneath the slots outside `remaining`
inline. -/
structure Inlining (nd cur : TrieNode n V H) (remaining : Bitmap n) :
    Prop where
  path : cur.partialPath = nd.partialPath
  value : cur.value = nd.value
  slots : ∀ i, cur.children.get i =
    if i ∈ remaining then nd.children.get i else nd.inlined.children.get i

namespace Inlining

variable {nd cur : TrieNode n V H} {remaining : Bitmap n}

theorem start (nd : TrieNode n V H) : Inlining nd nd nd.children.present := by
  refine ⟨rfl, rfl, ?_⟩
  intro i
  split
  · rfl
  · next hi =>
      rw [ChildMap.notMem_present] at hi
      rw [inlined_get, hi]
      rfl

theorem done (h : Inlining nd cur ∅) : cur = nd.inlined := by
  apply Node.ext
  · rw [h.path, inlined_partialPath]
  · rw [h.value, inlined_value]
  · apply ChildMap.ext_get
    intro i
    rw [h.slots i, if_neg (Finset.notMem_empty i)]

theorem step (h : Inlining nd cur remaining) {i : Fin n} {e : Edge n V H}
    (he : nd.children.get i = some e) :
    Inlining nd (cur.setChild i (.mk e.node.inlined none))
      (Bitmap.withoutBit remaining i) := by
  refine ⟨h.path, h.value, ?_⟩
  intro j
  simp only [setChild_children, Bitmap.withoutBit, Finset.mem_erase]
  by_cases hj : j = i
  · subst j
    rw [ChildMap.get_set_self, if_neg (by simp), inlined_get, he]
    rfl
  · rw [ChildMap.get_set_of_ne _ hj, h.slots j]
    simp only [hj, ne_eq, not_false_eq_true, true_and]

end Inlining

section MaterializeSubtree

variable {store : EdgeStore n V H σ ε}

/-- The walk that materializes, from an arbitrary stack. -/
def materializeWalk (store : EdgeStore n V H σ ε)
    (frames : Frames n V H (Bitmap n)) (s : σ) :
    Checked (Except ε Unit × Frames n V H (Bitmap n) × σ) :=
  run (materializeSubtreeBody store) _
    (materializeSubtreeBody_decreases store) (frames, s)

/-- How the walk from the frame of `cur` ends when `nd` is what it should
become inline: it fails with the node opened, or goes on from `nd` inline. -/
inductive Materialized (store : EdgeStore n V H σ ε)
    (nd cur : TrieNode n V H) (slot : Option (Fin n))
    (rest : Frames n V H (Bitmap n)) (L : Path n) (s : σ) :
    Checked (Except ε Unit × Frames n V H (Bitmap n) × σ) → Prop
  | failed {x : ε} {cur₁ : TrieNode n V H} {d : Bitmap n}
      {fs : Frames n V H (Bitmap n)} {s' : σ}
      (hfail : ¬ store.NeverFails) (hopen : Opening store L cur cur₁ s s')
      (hfs : Frames.trie fs =
        some (Frames.close { slot, node := cur₁, extra := d } rest)) :
      Materialized store nd cur slot rest L s (.ok (.error x, fs, s'))
  | done {s' : σ} (hopen : Opening store L cur nd.inlined s s') :
      Materialized store nd cur slot rest L s
        (materializeWalk store
          ({ slot, node := nd.inlined, extra := ∅ } :: rest) s')

section Pass

variable {nd cur : TrieNode n V H} {remaining : Bitmap n}
  {slot : Option (Fin n)} {rest : Frames n V H (Bitmap n)} {i : Fin n}
  {e : Edge n V H} {L : Path n} {s s' : σ}

theorem materializeWalk_error {x : ε}
    (hi : Bitmap.select remaining 0 = some i)
    (he : cur.children.get i = some e)
    (hm : store.materialize s e = (.error x, e, s')) :
    materializeWalk store
        ({ slot, node := cur, extra := remaining } :: rest) s =
      .ok (.error x, {
        slot
        node := cur
        extra := Bitmap.withoutBit remaining i } :: rest, s') := by
  apply run_of_leave
  simp [materializeSubtreeBody, hi, materializeChild, Frames.tryPushChild,
    he, hm, setChild_get he]

theorem materializeWalk_push (hi : Bitmap.select remaining 0 = some i)
    (he : cur.children.get i = some e)
    (hm : store.materialize s e = (.ok (), .mk e.node none, s')) :
    materializeWalk store
        ({ slot, node := cur, extra := remaining } :: rest) s =
      materializeWalk store
        ({ slot := some i, node := e.node,
           extra := e.node.children.present } ::
         { slot, node := cur.setChild i (.mk e.node none),
           extra := Bitmap.withoutBit remaining i } :: rest) s' := by
  apply run_of_again
  simp [materializeSubtreeBody, hi, materializeChild, Frames.tryPushChild,
    he, hm]

theorem materializeWalk_pop (m : TrieNode n V H) :
    materializeWalk store
        ({ slot := some i, node := m, extra := ∅ } ::
         { slot, node := cur.setChild i (.mk e.node none),
           extra := remaining } :: rest) s =
      materializeWalk store
        ({ slot, node := cur.setChild i (.mk m none),
           extra := remaining } :: rest) s := by
  have hempty : Bitmap.select (∅ : Bitmap n) 0 = none :=
    Bitmap.select_zero_eq_none.mpr rfl
  apply run_of_again
  simp [materializeSubtreeBody, hempty]

/-- What the walk does before a node is reached counts as opening it. -/
theorem Materialized.of_opening {cur₁ : TrieNode n V H}
    {c : Checked (Except ε Unit × Frames n V H (Bitmap n) × σ)}
    (hopen : Opening store L cur cur₁ s s')
    (hc : Materialized store nd cur₁ slot rest L s' c) :
    Materialized store nd cur slot rest L s c := by
  cases hc with
  | failed hfail hopen' hfs => exact .failed hfail (hopen.trans hopen') hfs
  | done hopen' => exact .done (hopen.trans hopen')

end Pass

/-- The walk over the remaining slots of a node. -/
theorem materializeWalk_node (store : EdgeStore n V H σ ε)
    (nd : TrieNode n V H) {remaining : Bitmap n} {cur : TrieNode n V H}
    (slot : Option (Fin n))
    (rest : Frames n V H (Bitmap n)) (L : Path n) (s : σ)
    (hcur : Inlining nd cur remaining)
    (hsub : remaining ⊆ nd.children.present) :
    Materialized store nd cur slot rest L s (materializeWalk store
      ({ slot, node := cur, extra := remaining } :: rest) s) := by
  induction nd using induct generalizing remaining cur slot rest L s with
  | step nd ih =>
      induction remaining using Finset.strongInduction generalizing cur s with
      | H remaining ihr =>
          cases hi : Bitmap.select remaining 0 with
          | none =>
              obtain rfl := Bitmap.select_zero_eq_none.mp hi
              rw [hcur.done]
              exact .done (.refl store L _ s)
          | some i =>
              have hmem := Bitmap.mem_of_select_zero hi
              obtain ⟨e, he⟩ := ChildMap.mem_present.mp (hsub hmem)
              have he' : cur.children.get i = some e := by
                rw [hcur.slots i, if_pos hmem, he]
              rcases store.materialize_cases s e with ⟨x, s', hm⟩ | ⟨s', hm⟩
              · rw [materializeWalk_error hi he' hm]
                exact .failed (not_neverFails_of_materialize hm)
                  (.of_call (.failed hm) L cur) rfl
              have hopen := Opening.materialized he' hm L
              have hchild := ih i e he (some i)
                ({ slot, node := cur.setChild i (.mk e.node none),
                   extra := Bitmap.withoutBit remaining i } :: rest)
                (slotPath L cur i) s' (.start e.node)
                (Finset.Subset.refl _)
              rw [materializeWalk_push hi he' hm]
              generalize materializeWalk store
                ({ slot := some i, node := e.node,
                   extra := e.node.children.present } :: _) s' = c at hchild ⊢
              cases hchild with
              | @failed x m d fs s₂ hfail hopen' hfs =>
                  refine .failed (d := Bitmap.withoutBit remaining i) hfail
                    (hopen.trans hopen'.child) ?_
                  rw [hfs]
                  simp only [Frames.close, Frame.absorb_setChild,
                    Edge.hash_mk]
              | @done s₂ hopen' =>
                  -- The child is inline: the node goes on with one slot less.
                  have hsmaller : Bitmap.withoutBit remaining i ⊂ remaining :=
                    Finset.erase_ssubset hmem
                  rw [materializeWalk_pop]
                  exact .of_opening (hopen.trans hopen'.child)
                    (ihr _ hsmaller s₂ (hcur.step he)
                      (hsmaller.subset.trans hsub))

/-- The two ways a call of `materialize_subtree` can end. -/
theorem materializeSubtree_cases (store : EdgeStore n V H σ ε)
    (L : Path n) (nd : TrieNode n V H) (s : σ) :
    (∃ x nd₁ s', ¬ store.NeverFails ∧ Opening store L nd nd₁ s s' ∧
      materializeSubtree store nd s = .ok (.error x, nd₁, s')) ∨
    ∃ s', Opening store L nd nd.inlined s s' ∧
      materializeSubtree store nd s = .ok (.ok (), nd.inlined, s') := by
  have hwalk := materializeWalk_node store nd none [] L s (.start nd)
    (Finset.Subset.refl _)
  have hcall : materializeSubtree store nd s =
      materializeWalk store (Frames.new nd nd.children.present) s >>=
        fun out => pure (out.1, out.2.1.trie.getD nd, out.2.2) := rfl
  rw [hcall, Frames.new]
  generalize materializeWalk store
    [{ slot := none, node := nd, extra := nd.children.present }] s = c at hwalk
  cases hwalk with
  | @failed x nd₁ d fs s' hfail hopen hfs =>
      refine Or.inl ⟨x, nd₁, s', hfail, hopen, ?_⟩
      simp only [ok_bind, hfs, Frames.close_nil, Option.getD_some, pure_eq_ok]
  | @done s' hopen =>
      refine Or.inr ⟨s', hopen, ?_⟩
      have hleave : materializeWalk store
          [{ slot := none, node := nd.inlined, extra := ∅ }] s' =
            .ok (.ok (), [{ slot := none, node := nd.inlined, extra := ∅ }],
              s') := by
        have hempty : Bitmap.select (∅ : Bitmap n) 0 = none :=
          Bitmap.select_zero_eq_none.mpr rfl
        apply run_of_leave
        simp [materializeSubtreeBody, hempty]
      simp only [hleave, ok_bind, Frames.trie_cons, Frames.close_nil,
        Option.getD_some, pure_eq_ok]

end MaterializeSubtree

/-! ## Prefix removal -/

/-- A subtree that leaves is dropped: there is nothing to recover. -/
def pruning (n : ℕ) (V H σ ε : Type) : Finish n V H σ ε Unit where
  gone _ _ := True
  collect out :=
    match out with
    | (.error x, fs, s) => .ok (.error x, fs.trie, s)
    | (.ok .root, _, s) => .ok (.ok (), none, s)
    | (.ok (.edge _), fs, s) => .ok (.ok (), fs.trie, s)
  collect_error _ _ _ := rfl
  collect_edge _ _ _ _ _ := rfl
  collect_root _ _ _ _ := rfl
  gone_parent _ _ _ _ _ _ _ _ := trivial

section RemovePrefix

variable {store : EdgeStore n V H σ ε} {slot : Option (Fin n)}
  {rest : Frames n V H (Descended n)} {L : Path n} {nd : TrieNode n V H}
  {key : Path n} {s : σ}

theorem edit_removePrefixAt_of_isPrefix (hkey : key <+: nd.partialPath) :
    edit removePrefixAt nd key = .leaves () := by
  rcases descent_cases key nd.partialPath with
    rfl | ⟨ni, nr, hp⟩ | ⟨i, kr, rfl⟩ | ⟨sh, ki, kr, ni, nr, hki, rfl, hp⟩
  · rw [edit_of_stops (stops_partialPath nd), removePrefixAt, descent_self]
  · have hstop : Stops nd key := by
      rintro i kr rfl
      simp at hp
    rw [edit_of_stops hstop, removePrefixAt, hp, descent_above]
  · have hlen := hkey.length_le
    simp at hlen
  · rw [hp, List.prefix_append_right_inj, List.cons_prefix_cons] at hkey
    exact (hki hkey.1).elim

/-- The walk of `remove_prefix`, from an arbitrary stack. -/
def removePrefixWalk (store : EdgeStore n V H σ ε)
    (frames : Frames n V H (Descended n)) (key : Path n) (s : σ) :
    Checked (Except ε Unit × Trie n V H × σ) :=
  run (removePrefixBody store) _ (removePrefixBody_decreases store)
    (frames, key, s)

/-- A node whose path starts with the prefix is materialized in full, then
leaves. -/
theorem removePrefixWalk_of_isPrefix (hkey : key <+: nd.partialPath) :
    EditOutcome (pruning n V H σ ε) store removePrefixAt slot rest L nd key s
      (removePrefixWalk store ({ slot, node := nd, extra := none } :: rest)
        key s) := by
  have hfate := edit_removePrefixAt_of_isPrefix hkey
  have hsplit : ∃ split, Split.of key nd = .ok split ∧
      split.below key = .ok none := by
    obtain ⟨q, hq⟩ := hkey
    cases q with
    | nil =>
        obtain rfl : key = nd.partialPath := by simpa using hq
        exact ⟨_, Split.of_hit, rfl⟩
    | cons ni nr => exact ⟨_, Split.of_above hq.symm, rfl⟩
  obtain ⟨split, hof, hbelow⟩ := hsplit
  rcases materializeSubtree_cases store L nd s with
    ⟨x, nd₁, s', hfail, hopen, hm⟩ | ⟨s', hopen, hm⟩
  · have hkey' : key <+: nd₁.partialPath := by
      rwa [hopen.opened.partialPath_eq]
    have hrun : removePrefixWalk store
        ({ slot, node := nd, extra := none } :: rest) key s =
          .ok (.error x, some (Frames.close
            { slot, node := nd₁, extra := none } rest), s') := by
      apply run_of_leave
      simp [removePrefixBody, hof, hbelow, hm]
    rw [hrun]
    exact .failed hfail hopen
      ((edit_removePrefixAt_of_isPrefix hkey').trans hfate.symm)
  · have hkey' : key <+: nd.inlined.partialPath := by
      rwa [inlined_partialPath]
    have hrun : removePrefixWalk store
        ({ slot, node := nd, extra := none } :: rest) key s =
          (pruning n V H σ ε).run store
            ({ slot, node := nd.inlined, extra := none } :: rest) s' := by
      rw [removePrefixWalk, run_eq]
      simp only [removePrefixBody, Frames.top_cons, ok_bind, hof, hbelow, hm,
        Frames.setTop_cons, Finish.run]
      cases unwindRemove store
          ({ slot, node := nd.inlined, extra := none } :: rest) s' with
      | error p => rfl
      | ok out =>
          obtain ⟨r, fs, s''⟩ := out
          rcases r with x | (e | _) <;> rfl
    rw [hrun]
    exact .leaves hfate hopen
      ((edit_removePrefixAt_of_isPrefix hkey').trans hfate.symm)
      (sealedEdges_inlined L nd) trivial

theorem removePrefixWalk_stops (hstop : Stops nd key) :
    EditOutcome (pruning n V H σ ε) store removePrefixAt slot rest L nd key s
      (removePrefixWalk store ({ slot, node := nd, extra := none } :: rest)
        key s) := by
  rcases descent_cases key nd.partialPath with
    rfl | ⟨ni, nr, hp⟩ | ⟨i, kr, rfl⟩ | ⟨sh, ki, kr, ni, nr, hki, rfl, hp⟩
  · exact removePrefixWalk_of_isPrefix (List.prefix_refl _)
  · exact removePrefixWalk_of_isPrefix ⟨ni :: nr, hp.symm⟩
  · have hi : nd.children.get i = none := hstop i kr rfl
    have hfate : edit removePrefixAt nd (nd.partialPath ++ i :: kr) =
        .stays nd () := by
      rw [edit_of_stops hstop, removePrefixAt, descent_below]
    have hrun : removePrefixWalk store
        ({ slot, node := nd, extra := none } :: rest)
        (nd.partialPath ++ i :: kr) s = .ok (.ok (), some (Frames.close
          { slot, node := nd, extra := none } rest), s) := by
      apply run_of_leave
      simp [removePrefixBody, Split.of_below, Split.below, hi]
    rw [hrun]
    exact .stays hfate (.refl s _)
  · have hfate : edit removePrefixAt nd (sh ++ ki :: kr) = .stays nd () := by
      rw [edit_of_stops hstop, removePrefixAt, hp, descent_fork sh hki]
    have hrun : removePrefixWalk store
        ({ slot, node := nd, extra := none } :: rest) (sh ++ ki :: kr) s =
          .ok (.ok (), some (Frames.close
            { slot, node := nd, extra := none } rest), s) := by
      apply run_of_leave
      simp [removePrefixBody, Split.of_fork hki hp, Split.below]
    rw [hrun]
    exact .stays hfate (.refl s _)

end RemovePrefix

theorem removePrefix_outcome (store : EdgeStore n V H σ ε)
    (t : Trie n V H) (keyPrefix : Path n) (s : σ) :
    MutationOutcome store (Trie.prefixRemoved keyPrefix) t s
      (removePrefix store t keyPrefix s) := by
  cases t with
  | none => exact .of_eq rfl (.refl s _)
  | some nd =>
      refine EditOutcome.mutation (fun _ => rfl) (editOutcome_of_stops
        (pruning n V H σ ε) (removePrefixWalk store) ?_ ?_ ?_
        none [] [] nd keyPrefix s)
      · intro slot rest L nd key s hstop
        exact removePrefixWalk_stops hstop
      · intro slot rest nd i e keyRest s x s' he hm
        apply run_of_leave
        simp [removePrefixBody, Split.of_below, Split.below, he,
          descend_error he hm]
      · intro slot rest nd i e keyRest s s' he hm
        apply run_of_again
        simp [removePrefixBody, Split.of_below, Split.below, he,
          descend_ok he hm]

end ArityTries
