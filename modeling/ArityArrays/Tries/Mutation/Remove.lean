import ArityArrays.Tries.Mutation.Refinement

/-!
# `remove` computes its edit

A removal clears a value that still has children, and unwinds when the node
leaves.  The value comes back through the detached edge, down a chain of
valueless nodes with one child each.
-/

namespace ArityTries

open Checked Loop Node

variable {n : ℕ} {V H σ ε ρ : Type}

/-- What `remove` does with the outcome of its unwind. -/
def removeCollect (out : Except ε (Detached n V H) ×
    Frames n V H (Descended n) × σ) :
    Checked (Except ε (Option V) × Trie n V H × σ) := do
  let (r, frames, s) := out
  match r with
  | .error x => return (.error x, frames.trie, s)
  | .ok .root =>
      match frames.trie with
      | none => return (.ok none, none, s)
      | some node => return (.ok (← recover node), none, s)
  | .ok (.edge edge) =>
      match edge.asInline with
      | none => return (.ok none, frames.trie, s)
      | some node => return (.ok (← recover node), frames.trie, s)

theorem recover_of_value {nd : TrieNode n V H} (hv : nd.value ≠ none) :
    recover nd = .ok nd.value := by
  have hsome : nd.value.isSome := Option.isSome_iff_ne_none.mpr hv
  apply run_of_leave
  simp [recoverBody, hsome]

theorem recover_of_only_child {nd m : TrieNode n V H} {i : Fin n}
    (hv : nd.value = none) (hc : nd.children.count = 1)
    (hi : nd.children.get i = some (.mk m none)) :
    recover nd = recover m := by
  have htake := ChildMap.takeOnlyChild_of_only_child hc hi
  apply run_of_again
  simp [recoverBody, hv, htake]

/-- A node leaves with the value `recover` finds in it. -/
def removing (n : ℕ) (V H σ ε : Type) : Finish n V H σ ε (Option V) where
  gone nd r := recover nd = .ok r
  collect := removeCollect
  collect_error _ _ _ := rfl
  collect_edge m r fs s h := by
    simp [removeCollect, h]
  collect_root f r s h := by
    simp [removeCollect, h]
  gone_parent nd i m r h hv hi hc := by
    rw [recover_of_only_child hv hc hi, h]

/-- The part of `remove` that starts at the top of a stack. -/
def removeFrom (store : EdgeStore n V H σ ε)
    (frames : Frames n V H (Descended n)) (key : Path n) (s : σ) :
    Checked (Except ε (Option V) × Trie n V H × σ) := do
  match ← descendTo store frames key s with
  | (.error x, frames, s) => return (.error x, frames.trie, s)
  | (.ok false, frames, s) => return (.ok none, frames.trie, s)
  | (.ok true, frames, s) =>
      let (cur, _) ← frames.top
      if cur.value.isNone then
        return (.ok none, frames.trie, s)
      match cur.children.count with
      | 0 => (removing n V H σ ε).run store frames s
      | 1 =>
          let (r, cur, s) ← clearAndMerge store cur s
          return (r, (frames.setTop cur).trie, s)
      | _ =>
          let (old, cur) := cur.setValue none
          return (.ok old, (frames.setTop cur).trie, s)

theorem remove_some (store : EdgeStore n V H σ ε) (nd : TrieNode n V H)
    (key : Path n) (s : σ) :
    remove store (some nd) key s =
      removeFrom store (Frames.new nd none) key s := rfl

section Remove

variable {store : EdgeStore n V H σ ε} {slot : Option (Fin n)}
  {rest : Frames n V H (Descended n)} {L : Path n} {nd : TrieNode n V H}
  {key : Path n} {s : σ}

theorem descendTo_hit :
    descendTo store ({ slot, node := nd, extra := none } :: rest)
        nd.partialPath s =
      .ok (.ok true, { slot, node := nd, extra := none } :: rest, s) := by
  apply run_of_leave
  simp [descendToBody, Split.of_hit, Split.below]

/-- Off the node's own path the walk ends without a node. -/
theorem descendTo_absent (hstop : Stops nd key) (hne : key ≠ nd.partialPath) :
    descendTo store ({ slot, node := nd, extra := none } :: rest) key s =
      .ok (.ok false, { slot, node := nd, extra := none } :: rest, s) := by
  apply run_of_leave
  rcases descent_cases key nd.partialPath with
    rfl | ⟨ni, nr, hp⟩ | ⟨i, kr, rfl⟩ | ⟨sh, ki, kr, ni, nr, hki, rfl, hp⟩
  · exact (hne rfl).elim
  · simp [descendToBody, Split.of_above hp]
  · simp [descendToBody, Split.of_below, Split.below, hstop i kr rfl]
  · simp [descendToBody, Split.of_fork hki hp]

theorem removeAt_absent (hne : key ≠ nd.partialPath) :
    removeAt nd key = .stays nd none := by
  rcases descent_cases key nd.partialPath with
    rfl | ⟨ni, nr, hp⟩ | ⟨i, kr, rfl⟩ | ⟨sh, ki, kr, ni, nr, hki, rfl, hp⟩
  · exact (hne rfl).elim
  · simp [removeAt, hp]
  · simp [removeAt]
  · simp [removeAt, hp, descent_fork sh hki]

theorem clearAndMerge_outcome (hv : nd.value ≠ none)
    (hc : nd.children.count = 1) :
    EditOutcome (removing n V H σ ε) store removeAt slot rest L nd
      nd.partialPath s
      (do
        let (r, cur, s) ← clearAndMerge store nd s
        return (r, (Frames.setTop
          ({ slot, node := nd, extra := none } :: rest) cur).trie, s)) := by
  obtain ⟨i, e, he⟩ := ChildMap.exists_only_child hc
  have hpresent := ChildMap.iterPresent_of_only_child hc he
  have hsome : nd.value.isNone = false :=
    Option.isNone_eq_false_iff.mpr (Option.isSome_iff_ne_none.mpr hv)
  have hfate : edit removeAt nd nd.partialPath =
      .stays { nd with value := none }.merged nd.value := by
    rw [edit_of_stops (stops_partialPath nd), removeAt, descent_self]
    simp [hsome, hc]
  rcases store.materialize_cases s e with ⟨x, s', hm⟩ | ⟨s', hm⟩
  · simp only [clearAndMerge, hpresent, List.head?_cons, expect_some, ok_bind,
      he, hm, setChild_get he, pure_eq_ok, Frames.setTop_cons,
      Frames.trie_cons]
    exact .failed (not_neverFails_of_materialize hm)
      (.of_call (.failed hm) L nd) rfl
  · have hmerged : { nd with value := none }.merged = { e.node with
        partialPath := nd.partialPath ++ i :: e.node.partialPath } := by
      have hone : (nd.setValue none).2.children.count = 1 := hc
      exact merged_of_get hone he
    have hget : ((nd.setChild i (.mk e.node none)).setValue
        none).2.children.get i = some (.mk e.node none) :=
      ChildMap.get_set_self _ _ _
    have hone : ((nd.setChild i (.mk e.node none)).setValue
        none).2.children.count = 1 :=
      (ChildMap.count_set_of_mem he _).trans hc
    have hmerge := mergeOnlyChild_of_get hone hget
    simp only [setValue_snd, setChild_partialPath,
      setChild_children] at hmerge
    rw [hmerged] at hfate
    simp only [clearAndMerge, hpresent, List.head?_cons, expect_some, ok_bind,
      he, hm, setValue_snd, setValue_fst, setChild_partialPath,
      setChild_value, setChild_children, hmerge, pure_eq_ok,
      Frames.setTop_cons, Frames.trie_cons]
    refine .stays hfate ?_
    have hbefore : Node.sealedEdges L nd =
        sealedAt (slotPath L nd i) (some e) := by
      rw [sealedEdges_eq_add L nd i, sealedBeside_of_only_child L hc he,
        add_zero, he]
    have hafter : Node.sealedEdges L { e.node with
        partialPath := nd.partialPath ++ i :: e.node.partialPath } =
          Node.sealedEdges (slotPath L nd i) e.node := by
      refine sealedEdges_repath ?_ rfl
      simp [slotPath]
    rw [hbefore, hafter]
    exact Accounts.materialized hm _

theorem removeFrom_stops (hstop : Stops nd key) :
    EditOutcome (removing n V H σ ε) store removeAt slot rest L nd key s
      (removeFrom store ({ slot, node := nd, extra := none } :: rest) key
        s) := by
  by_cases hkey : key = nd.partialPath
  · subst key
    cases hv : nd.value with
    | none =>
        have hfate : edit removeAt nd nd.partialPath = .stays nd none := by
          rw [edit_of_stops hstop, removeAt, descent_self]
          simp [hv]
        simp only [removeFrom, descendTo_hit, ok_bind, Frames.top_cons, hv,
          Option.isNone_none, if_true, pure_eq_ok, Frames.trie_cons]
        exact .stays hfate (.refl s _)
    | some v =>
        have hsome : nd.value ≠ none := by simp [hv]
        simp only [removeFrom, descendTo_hit, ok_bind, Frames.top_cons, hv,
          Option.isNone_some, Bool.false_eq_true, if_false]
        split
        · next hcount =>
            have hfate : edit removeAt nd nd.partialPath =
                .leaves nd.value := by
              rw [edit_of_stops hstop, removeAt, descent_self]
              simp [hv, hcount]
            exact .leaves hfate (.refl store L nd s) rfl
              (sealedEdges_of_no_child (ChildMap.count_eq_zero.mp hcount))
              (recover_of_value hsome)
        · next hcount => exact clearAndMerge_outcome hsome hcount
        · next hzero hone =>
            have hfate : edit removeAt nd nd.partialPath =
                .stays { nd with value := none } nd.value := by
              rw [edit_of_stops hstop, removeAt, descent_self]
              simp only [hv, Option.isNone_some, Bool.false_eq_true, if_false]
            have hsealed : Node.sealedEdges L { nd with value := none } =
                Node.sealedEdges L nd := sealedEdges_repath rfl rfl
            exact .stays hfate (hsealed.symm ▸ .refl s _)
  · have hfate : edit removeAt nd key = .stays nd none := by
      rw [edit_of_stops hstop, removeAt_absent hkey]
    simp only [removeFrom, descendTo_absent hstop hkey, ok_bind, pure_eq_ok,
      Frames.trie_cons]
    exact .stays hfate (.refl s _)

end Remove

theorem remove_outcome (store : EdgeStore n V H σ ε) (t : Trie n V H)
    (key : Path n) (s : σ) :
    MutationOutcome store (Trie.removed key) t s (remove store t key s) := by
  cases t with
  | none => exact .of_eq rfl (.refl s _)
  | some nd =>
      rw [remove_some]
      refine EditOutcome.mutation (fun _ => rfl) (editOutcome_of_stops
        (removing n V H σ ε) (removeFrom store) ?_ ?_ ?_
        none [] [] nd key s)
      · intro slot rest L nd key s hstop
        exact removeFrom_stops hstop
      · intro slot rest nd i e keyRest s x s' he hm
        have hbody : descendTo store
            ({ slot, node := nd, extra := none } :: rest)
            (nd.partialPath ++ i :: keyRest) s =
              .ok (.error x,
                { slot, node := nd, extra := some i } :: rest, s') := by
          apply run_of_leave
          simp [descendToBody, Split.of_below, Split.below, he,
            descend_error he hm]
        simp [removeFrom, hbody]
      · intro slot rest nd i e keyRest s s' he hm
        have hbody : descendTo store
            ({ slot, node := nd, extra := none } :: rest)
            (nd.partialPath ++ i :: keyRest) s =
              descendTo store
                ({ slot := some i, node := e.node, extra := none } ::
                  { slot, node := nd.setChild i (.mk e.node none),
                    extra := some i } :: rest) keyRest s' := by
          apply run_of_again
          simp [descendToBody, Split.of_below, Split.below, he,
            descend_ok he hm]
        simp only [removeFrom, hbody]

end ArityTries
