import ArityArrays.Tries.Mutation.Edit
import ArityArrays.Tries.Mutation.Opening
import ArityArrays.Tries.Ops

/-!
# From frame stacks to edits

A mutation over a frame stack is compared with the edit it computes, for an
arbitrary stack beneath the current node.  A run started on the top node ends
in one of three ways: the store failed and the node was opened; the node
stays, changed as the edit says; or the node leaves, and the run has become
the unwind of the stack with that node on top.
-/

namespace ArityTries

open Checked Loop Node

variable {n : ℕ} {V H σ ε ρ : Type}

/-! ## One step of the unwind -/

theorem mergeOnlyChild_of_get {nd m : TrieNode n V H} {i : Fin n}
    (hc : nd.children.count = 1)
    (hi : nd.children.get i = some (.mk m none)) :
    mergeOnlyChild nd = .ok { m with
      partialPath := nd.partialPath ++ i :: m.partialPath } := by
  have htake := ChildMap.takeOnlyChild_of_only_child hc hi
  simp [mergeOnlyChild, htake]

section Unwind

variable {store : EdgeStore n V H σ ε} {s s' : σ} {r : ρ}

@[simp] theorem unwindRemove_singleton (f : Frame n V H (Descended n)) :
    unwindRemove store [f] s = .ok (.ok .root, [f], s) :=
  run_of_leave rfl

variable {f p q : Frame n V H (Descended n)}
  {rest : Frames n V H (Descended n)} {i : Fin n} {e : Edge n V H}

/-- The parent keeps its place: the slot is emptied. -/
theorem unwindRemove_keep (hq : p.absorb f = q) (hextra : q.extra = some i)
    (he : q.node.children.get i = some e)
    (hkeep : q.node.value.isSome ∨ 3 ≤ q.node.children.count) :
    unwindRemove store (f :: p :: rest) s =
      .ok (.ok (.edge e), { q with node := q.node.eraseChild i } :: rest,
        s) := by
  apply run_of_leave
  simp [unwindRemoveBody, hq, hextra, hkeep, he, eraseChild]

/-- A valueless parent of two is merged with the survivor, once that is
materialized. -/
theorem unwindRemove_merge (store : EdgeStore n V H σ ε) (s : σ)
    (rest : Frames n V H (Descended n)) (hq : p.absorb f = q)
    (hextra : q.extra = some i)
    (he : q.node.children.get i = some e)
    (hv : q.node.value = none) (hc : q.node.children.count = 2) :
    ∃ j g, j ≠ i ∧ q.node.children.get j = some g ∧
      (∀ x s', store.materialize s g = (.error x, g, s') →
        unwindRemove store (f :: p :: rest) s =
          .ok (.error x, q :: rest, s')) ∧
      ∀ s', store.materialize s g = (.ok (), .mk g.node none, s') →
        unwindRemove store (f :: p :: rest) s =
          .ok (.ok (.edge e),
            { q with node := (q.node.eraseChild i).merged } :: rest, s') := by
  obtain ⟨j, g, hji, hg, -, hfind⟩ := ChildMap.exists_survivor hc he
  simp only [ne_eq, decide_not] at hfind
  refine ⟨j, g, hji, hg, ?_, ?_⟩
  · intro x s' hm
    have hset : q.node.setChild j g = q.node := setChild_get hg
    apply run_of_leave
    simp [unwindRemoveBody, hq, hextra, hv, hc, hfind, hg, hm, hset]
    rw [← hextra]
  · intro s' hm
    have hi : (q.node.children.set j (.mk g.node none)).get i = some e := by
      rw [ChildMap.get_set_of_ne _ hji.symm, he]
    have hj : ((q.node.setChild j (.mk g.node none)).eraseChild
        i).children.get j = some (.mk g.node none) := by
      rw [eraseChild_children, ChildMap.get_erase_of_ne _ hji,
        setChild_children, ChildMap.get_set_self]
    have hone : ((q.node.setChild j (.mk g.node none)).eraseChild
        i).children.count = 1 := by
      have hset := ChildMap.count_set_of_mem hg (.mk g.node none)
      have herase := ChildMap.count_erase hi
      rw [eraseChild_children, setChild_children]
      omega
    have hmerge : mergeOnlyChild
        ((q.node.setChild j (.mk g.node none)).eraseChild i) =
          .ok (q.node.eraseChild i).merged := by
      have hj' : (q.node.eraseChild i).children.get j = some g := by
        rw [eraseChild_children, ChildMap.get_erase_of_ne _ hji, hg]
      have hone' : (q.node.eraseChild i).children.count = 1 := by
        have herase := ChildMap.count_erase he
        rw [eraseChild_children]
        omega
      rw [mergeOnlyChild_of_get hone hj, merged_of_get hone' hj']
      rfl
    simp only [eraseChild, setChild] at hmerge
    have hsome : q.node.value.isSome = false := by simp [hv]
    apply run_of_leave
    simp [unwindRemoveBody, hq, hextra, hsome, hc, hfind, hg, hm, hi, hmerge,
      eraseChild]

/-- A valueless parent whose only child leaves leaves too. -/
theorem unwindRemove_again (hq : p.absorb f = q) (hextra : q.extra = some i)
    (hv : q.node.value = none) (hc : q.node.children.count < 2) :
    unwindRemove store (f :: p :: rest) s =
      unwindRemove store (q :: rest) s := by
  apply run_of_again
  have hthree : ¬ 3 ≤ q.node.children.count := by omega
  have htwo : q.node.children.count ≠ 2 := by omega
  simp [unwindRemoveBody, hq, hextra, hv, hthree, htwo]

end Unwind

/-! ## Runs and the fates they lead to -/

/-- How a mutation goes on once the unwind is over: `gone` says which nodes
yield which result when they leave. -/
structure Finish (n : ℕ) (V H σ ε ρ : Type) where
  gone : TrieNode n V H → ρ → Prop
  collect : Except ε (Detached n V H) × Frames n V H (Descended n) × σ →
    Checked (Except ε ρ × Trie n V H × σ)
  collect_error : ∀ x fs s, collect (.error x, fs, s) =
    .ok (.error x, fs.trie, s)
  collect_edge : ∀ m r fs s, gone m r →
    collect (.ok (.edge (.mk m none)), fs, s) = .ok (.ok r, fs.trie, s)
  collect_root : ∀ f r s, gone f.node r →
    collect (.ok .root, [f], s) = .ok (.ok r, none, s)
  gone_parent : ∀ nd i m r, gone m r → nd.value = none →
    nd.children.get i = some (.mk m none) → nd.children.count = 1 → gone nd r

/-- Unwind, then go on. -/
def Finish.run (F : Finish n V H σ ε ρ) (store : EdgeStore n V H σ ε)
    (fs : Frames n V H (Descended n)) (s : σ) :
    Checked (Except ε ρ × Trie n V H × σ) :=
  unwindRemove store fs s >>= F.collect

/-- The three ways a run can end that starts on node `nd` in slot `slot` of a
stack `rest`, and walks down `key`. -/
inductive EditOutcome (F : Finish n V H σ ε ρ) (store : EdgeStore n V H σ ε)
    (stop : TrieNode n V H → Path n → Fate n V H ρ) (slot : Option (Fin n))
    (rest : Frames n V H (Descended n)) (L : Path n) (nd : TrieNode n V H)
    (key : Path n) (s : σ) : Checked (Except ε ρ × Trie n V H × σ) → Prop
  | failed {x : ε} {nd₁ : TrieNode n V H} {d : Descended n} {s' : σ}
      (hfail : ¬ store.NeverFails) (hopen : Opening store L nd nd₁ s s')
      (hsame : edit stop nd₁ key = edit stop nd key) :
      EditOutcome F store stop slot rest L nd key s
        (.ok (.error x,
          some (Frames.close { slot, node := nd₁, extra := d } rest), s'))
  | stays {nd' : TrieNode n V H} {r : ρ} {d : Descended n} {s' : σ}
      (hfate : edit stop nd key = .stays nd' r)
      (hacc : Accounts store s s' (sealedEdges L nd) (sealedEdges L nd')) :
      EditOutcome F store stop slot rest L nd key s
        (.ok (.ok r,
          some (Frames.close { slot, node := nd', extra := d } rest), s'))
  | leaves {nd₁ : TrieNode n V H} {r : ρ} {d : Descended n} {s' : σ}
      (hfate : edit stop nd key = .leaves r)
      (hopen : Opening store L nd nd₁ s s')
      (hsame : edit stop nd₁ key = edit stop nd key)
      (hempty : sealedEdges L nd₁ = 0) (hgone : F.gone nd₁ r) :
      EditOutcome F store stop slot rest L nd key s
        (F.run store ({ slot, node := nd₁, extra := d } :: rest) s')

theorem not_neverFails_of_materialize {store : EdgeStore n V H σ ε}
    {s s' : σ} {e : Edge n V H} {x : ε}
    (hm : store.materialize s e = (.error x, e, s')) : ¬ store.NeverFails :=
  fun h => h.materialize s e x (by rw [hm])

theorem edit_setChild {stop : TrieNode n V H → Path n → Fate n V H ρ}
    {nd : TrieNode n V H} {i : Fin n} {e : Edge n V H}
    (he : nd.children.get i = some e) (e' : Edge n V H) (keyRest : Path n) :
    edit stop (nd.setChild i e') (nd.partialPath ++ i :: keyRest) =
      nd.lift i (edit stop e'.node keyRest) := by
  have hget : (nd.setChild i e').children.get i = some e' :=
    ChildMap.get_set_self _ _ _
  have hbelow : edit stop (nd.setChild i e')
      ((nd.setChild i e').partialPath ++ i :: keyRest) = _ :=
    edit_below hget keyRest
  rw [lift_setChild he] at hbelow
  exact hbelow

section Lift

variable {F : Finish n V H σ ε ρ} {store : EdgeStore n V H σ ε}
  {stop : TrieNode n V H → Path n → Fate n V H ρ} {slot : Option (Fin n)}
  {rest : Frames n V H (Descended n)} {L : Path n} {nd : TrieNode n V H}
  {i : Fin n} {e : Edge n V H} {keyRest : Path n} {s s₁ : σ}

/-- What the opening of a child means for its parent. -/
theorem Opening.parent {m : TrieNode n V H} {s' : σ}
    (he : nd.children.get i = some e)
    (hm : store.materialize s e = (.ok (), .mk e.node none, s₁))
    (hopen : Opening store (slotPath L nd i) e.node m s₁ s') :
    Opening store L nd (nd.setChild i (.mk m none)) s s' :=
  (Opening.materialized he hm L).trans hopen.child

theorem edit_parent_eq {m : TrieNode n V H}
    (he : nd.children.get i = some e)
    (hsame : edit stop m keyRest = edit stop e.node keyRest) :
    edit stop (nd.setChild i (.mk m none))
        (nd.partialPath ++ i :: keyRest) =
      edit stop nd (nd.partialPath ++ i :: keyRest) := by
  rw [edit_setChild he, edit_below he, Edge.node_mk, hsame]

/-- What is sealed beside one of two children, and what is left of it in the
merged node once the survivor `g` is materialized. -/
theorem sealedEdges_survivor (L : Path n) {j : Fin n} {g : Edge n V H}
    (hji : j ≠ i) (he : nd.children.get i = some e)
    (hg : nd.children.get j = some g) (htwo : nd.children.count = 2) :
    sealedBeside L nd i = sealedAt (slotPath L nd j) (some g) ∧
      sealedEdges L (nd.eraseChild i).merged =
        sealedEdges (slotPath L nd j) g.node := by
  have hj : (nd.eraseChild i).children.get j = some g := by
    rw [eraseChild_children, ChildMap.get_erase_of_ne _ hji, hg]
  have hone : (nd.eraseChild i).children.count = 1 := by
    have herase := ChildMap.count_erase he
    rw [eraseChild_children]
    omega
  constructor
  · rw [← sealedEdges_eraseChild, sealedEdges_eq_add L _ j, hj,
      sealedBeside_of_only_child L hone hj, add_zero]
    rfl
  · rw [merged_of_get hone hj]
    refine sealedEdges_repath ?_ rfl
    simp [slotPath]

/-- The unwind reaches a parent whose child `m` at `i` leaves. -/
theorem EditOutcome.of_child_leaves {m : TrieNode n V H} {r : ρ}
    {d : Descended n} {s' : σ} (he : nd.children.get i = some e)
    (hopen : Opening store L nd (nd.setChild i (.mk m none)) s s')
    (hsame : edit stop m keyRest = edit stop e.node keyRest)
    (hfate : edit stop e.node keyRest = .leaves r)
    (hempty : sealedEdges (slotPath L nd i) m = 0) (hgone : F.gone m r) :
    EditOutcome F store stop slot rest L nd
      (nd.partialPath ++ i :: keyRest) s
      (F.run store ({ slot := some i, node := m, extra := d } ::
        { slot, node := nd.setChild i (.mk e.node none), extra := some i } ::
          rest) s') := by
  let q : Frame n V H (Descended n) :=
    { slot, node := nd.setChild i (.mk m none), extra := some i }
  have hq : Frame.absorb
      { slot, node := nd.setChild i (.mk e.node none), extra := some i }
      { slot := some i, node := m, extra := d } = q :=
    Frame.absorb_setChild _ _ _ _ _ _ _
  have hget : q.node.children.get i = some (.mk m none) :=
    ChildMap.get_set_self _ _ _
  have hcount : q.node.children.count = nd.children.count :=
    ChildMap.count_set_of_mem he _
  have hpos := ChildMap.count_pos_of_get he
  have hedit : edit stop nd (nd.partialPath ++ i :: keyRest) =
      nd.detach i r := by
    rw [edit_below he, hfate, lift]
  have hbeside : sealedEdges L q.node = sealedBeside L nd i := by
    rw [sealedEdges_setChild, sealedAt_inline, hempty, zero_add]
  have hacc := hopen.accounts
  change Accounts store s s' _ (sealedEdges L q.node) at hacc
  unfold Finish.run
  by_cases hkeep : nd.value.isSome ∨ 3 ≤ nd.children.count
  · have hfate' : edit stop nd (nd.partialPath ++ i :: keyRest) =
        .stays (nd.eraseChild i) r := by
      rw [hedit, detach, if_pos hkeep]
    rw [unwindRemove_keep hq rfl hget (by rwa [hcount]), ok_bind,
      F.collect_edge m r _ _ hgone]
    simp only [q, eraseChild_setChild, Frames.trie_cons]
    refine .stays hfate' ?_
    rwa [sealedEdges_eraseChild, ← hbeside]
  · rw [not_or, Bool.not_eq_true, Option.isSome_eq_false_iff,
      Option.isNone_iff_eq_none] at hkeep
    obtain ⟨hv, hthree⟩ := hkeep
    have hdrop : ¬ (nd.value.isSome ∨ 3 ≤ nd.children.count) := by
      simp [hv, hthree]
    by_cases htwo : nd.children.count = 2
    · have hfate' : edit stop nd (nd.partialPath ++ i :: keyRest) =
          .stays (nd.eraseChild i).merged r := by
        rw [hedit, detach, if_neg hdrop, if_pos htwo]
      obtain ⟨j, g, hji, hg, herror, hok⟩ :=
        unwindRemove_merge store s' rest hq rfl hget hv (by rwa [hcount])
      rcases store.materialize_cases s' g with ⟨x, s₂, hm⟩ | ⟨s₂, hm⟩
      · rw [herror x s₂ hm, ok_bind, F.collect_error]
        refine .failed (not_neverFails_of_materialize hm) ?_
          (edit_parent_eq he hsame)
        exact hopen.trans (.of_call (.failed hm) L _)
      · rw [hok s₂ hm, ok_bind, F.collect_edge m r _ _ hgone]
        simp only [q, eraseChild_setChild, Frames.trie_cons]
        refine .stays hfate' (hacc.trans ?_)
        have hg' : nd.children.get j = some g := by
          rwa [setChild_children, ChildMap.get_set_of_ne _ hji] at hg
        obtain ⟨hslots, hmerged⟩ := sealedEdges_survivor L hji he hg' htwo
        rw [hbeside, hslots, hmerged]
        exact Accounts.materialized hm _
    · have hone : nd.children.count = 1 := by omega
      have hfate' : edit stop nd (nd.partialPath ++ i :: keyRest) =
          .leaves r := by
        rw [hedit, detach, if_neg hdrop, if_neg htwo]
      rw [unwindRemove_again hq rfl hv (by omega)]
      have hone' : q.node.children.count = 1 := hcount.trans hone
      refine .leaves hfate' hopen (edit_parent_eq he hsame) ?_
        (F.gone_parent _ i m r hgone hv hget hone')
      exact hbeside.trans (sealedBeside_of_only_child L hone he)

/-- A run on a child, seen from its parent. -/
theorem EditOutcome.parent {c : Checked (Except ε ρ × Trie n V H × σ)}
    (he : nd.children.get i = some e)
    (hm : store.materialize s e = (.ok (), .mk e.node none, s₁))
    (hc : EditOutcome F store stop (some i)
      ({ slot, node := nd.setChild i (.mk e.node none), extra := some i } ::
        rest) (slotPath L nd i) e.node keyRest s₁ c) :
    EditOutcome F store stop slot rest L nd
      (nd.partialPath ++ i :: keyRest) s c := by
  cases hc with
  | failed hfail hopen hsame =>
      simp only [Frames.close, Frame.absorb_setChild]
      exact .failed hfail (hopen.parent he hm) (edit_parent_eq he hsame)
  | @stays nd' r d s' hfate hacc =>
      have hfate' : edit stop nd (nd.partialPath ++ i :: keyRest) =
          .stays (nd.setChild i (.mk nd' none)) r := by
        rw [edit_below he, hfate, lift]
      have hopen := (Opening.materialized he hm L).accounts
      simp only [Frames.close, Frame.absorb_setChild, Edge.hash_mk]
      refine .stays hfate' (hopen.trans ?_)
      rw [sealedEdges_setChild, sealedEdges_setChild, sealedAt_inline,
        sealedAt_inline]
      exact hacc.add_right _
  | leaves hfate hopen hsame hempty hgone =>
      exact .of_child_leaves he (hopen.parent he hm) hsame hfate hempty hgone

end Lift

/-! ## Whole walks -/

/-- A run that descends like the edit and agrees with it where the walk stops
agrees with it everywhere. -/
theorem editOutcome_of_stops (F : Finish n V H σ ε ρ)
    (go : Frames n V H (Descended n) → Path n → σ →
      Checked (Except ε ρ × Trie n V H × σ))
    {store : EdgeStore n V H σ ε}
    {stop : TrieNode n V H → Path n → Fate n V H ρ}
    (hstop : ∀ slot rest L nd key s, Stops nd key →
      EditOutcome F store stop slot rest L nd key s
        (go ({ slot, node := nd, extra := none } :: rest) key s))
    (herror : ∀ slot rest nd i e keyRest s x s',
      nd.children.get i = some e →
      store.materialize s e = (.error x, e, s') →
        go ({ slot, node := nd, extra := none } :: rest)
            (nd.partialPath ++ i :: keyRest) s =
          .ok (.error x, some (Frames.close
            { slot, node := nd, extra := some i } rest), s'))
    (hok : ∀ slot rest nd i e keyRest s s',
      nd.children.get i = some e →
      store.materialize s e = (.ok (), .mk e.node none, s') →
        go ({ slot, node := nd, extra := none } :: rest)
            (nd.partialPath ++ i :: keyRest) s =
          go ({ slot := some i, node := e.node, extra := none } ::
            { slot, node := nd.setChild i (.mk e.node none),
              extra := some i } :: rest) keyRest s')
    (slot : Option (Fin n)) (rest : Frames n V H (Descended n))
    (L : Path n) (nd : TrieNode n V H) (key : Path n) (s : σ) :
    EditOutcome F store stop slot rest L nd key s
      (go ({ slot, node := nd, extra := none } :: rest) key s) := by
  induction nd, key using walkInduct generalizing slot rest L s with
  | stop nd key h => exact hstop slot rest L nd key s h
  | descend nd i keyRest e he ih =>
      rcases store.materialize_cases s e with ⟨x, s', hm⟩ | ⟨s', hm⟩
      · rw [herror slot rest nd i e keyRest s x s' he hm]
        exact .failed (not_neverFails_of_materialize hm)
          (.of_call (.failed hm) L nd) rfl
      · rw [hok slot rest nd i e keyRest s s' he hm]
        exact (ih _ _ _ s').parent he hm

end ArityTries
