import ArityArrays.Tries.Mutation.Refinement

/-!
# `insert` computes its edit

An insertion changes the node its descent stops on and never unwinds.  Only
the edges of the descent are replaced.
-/

namespace ArityTries

open Checked Loop Node

variable {n : ℕ} {V H σ ε ρ : Type}

/-- An insertion never unwinds. -/
def neverUnwinds (n : ℕ) (V H σ ε ρ : Type) : Finish n V H σ ε ρ where
  gone _ _ := False
  collect out :=
    match out with
    | (.error x, fs, s) => .ok (.error x, fs.trie, s)
    | (.ok _, _, _) => .error ⟨"an insertion never unwinds"⟩
  collect_error _ _ _ := rfl
  collect_edge _ _ _ _ h := h.elim
  collect_root _ _ _ h := h.elim
  gone_parent _ _ _ _ h := h.elim

theorem inline_eq (store : EdgeStore n V H σ ε) (s : σ)
    (m : TrieNode n V H) :
    ∃ s', store.inline s m = (.mk m none, s') ∧ Call store s [] s' := by
  have hcall : Call store s [] (store.inline s m).2 := .inline s m
  have hedge := store.inline_edge s m
  cases hm : store.inline s m with
  | mk e s' =>
      rw [hm] at hcall hedge
      exact ⟨s', by rw [← hedge], hcall⟩

section Insert

variable {store : EdgeStore n V H σ ε} {value : V} {slot : Option (Fin n)}
  {rest : Frames n V H (Descended n)} {L : Path n} {nd : TrieNode n V H}
  {key : Path n} {s : σ}

theorem sealedEdges_leaf (L p : Path n) (v : V) :
    Node.sealedEdges L (leaf p v : TrieNode n V H) = 0 :=
  sealedEdges_of_no_child fun _ => rfl

theorem sealedEdges_setChild_leaf (L : Path n) {nd : TrieNode n V H}
    {i : Fin n} (hi : nd.children.get i = none) (p : Path n) (v : V) :
    Node.sealedEdges L (nd.setChild i (.mk (leaf p v) none)) =
      Node.sealedEdges L nd := by
  rw [sealedEdges_setChild, sealedAt_inline, sealedEdges_leaf,
    sealedEdges_eq_add L nd i, hi, sealedAt_none]

/-- A node split in two keeps its sealed edges where they are. -/
theorem sealedEdges_pushDown (L : Path n) {nd : TrieNode n V H}
    {shared nodeRest : Path n} {ni : Fin n}
    (hp : nd.partialPath = shared ++ ni :: nodeRest) (v : Option V) :
    Node.sealedEdges L (nd.pushDown shared v ni nodeRest) =
      Node.sealedEdges L nd := by
  have hself := nd.pushDown_get_self shared v ni nodeRest
  rw [sealedEdges_eq_add L _ ni, hself, sealedAt_inline,
    sealedBeside_of_only_child L (pushDown_count ..) hself, add_zero]
  refine sealedEdges_repath ?_ rfl
  simp [slotPath, hp]

theorem insertBody_stops (hstop : Stops nd key) :
    EditOutcome (neverUnwinds n V H σ ε _) store (insertAt value) slot rest
      L nd key s
      (run (insertBody store value) _ (insertBody_decreases store value)
        ({ slot, node := nd, extra := none } :: rest, key, s)) := by
  rw [run_eq]
  rcases descent_cases key nd.partialPath with
    rfl | ⟨ni, nr, hp⟩ | ⟨i, kr, rfl⟩ | ⟨sh, ki, kr, ni, nr, hne, rfl, hp⟩
  · have hfate : edit (insertAt value) nd nd.partialPath =
        .stays { nd with value := some value } nd.value := by
      rw [edit_of_stops hstop, insertAt, descent_self]
    have hsealed : Node.sealedEdges L { nd with value := some value } =
        Node.sealedEdges L nd := sealedEdges_repath rfl rfl
    simp only [insertBody, Frames.top_cons, ok_bind, Split.of_hit,
      Split.below, setValue_snd]
    exact .stays hfate (hsealed.symm ▸ .refl s _)
  · obtain ⟨s', hinline, hcall⟩ :=
      inline_eq store s { nd with partialPath := nr }
    have hfate : edit (insertAt value) nd key =
        .stays (nd.pushDown key (some value) ni nr) none := by
      rw [edit_of_stops hstop, insertAt, hp, descent_above]
    have hsealed := sealedEdges_pushDown L hp (some value)
    simp only [insertBody, Frames.top_cons, ok_bind, Split.of_above hp,
      Split.below, sliceTo_length, setPartialPath_snd, hinline]
    exact .stays hfate (hsealed.symm ▸ .of_call hcall _)
  · obtain ⟨s', hinline, hcall⟩ := inline_eq store s (leaf kr value)
    have hi : nd.children.get i = none := hstop i kr rfl
    have hfate : edit (insertAt value) nd (nd.partialPath ++ i :: kr) =
        .stays (nd.setChild i (.mk (leaf kr value) none)) none := by
      rw [edit_of_stops hstop, insertAt, descent_below]
    have hsealed := sealedEdges_setChild_leaf L hi kr value
    simp only [insertBody, Frames.top_cons, ok_bind, Split.of_below,
      Split.below, sliceFrom_succ, pure_eq_ok, hi, Option.isNone_none,
      if_true, hinline]
    exact .stays hfate (hsealed.symm ▸ .of_call hcall _)
  · obtain ⟨s₁, hinline, hcall⟩ :=
      inline_eq store s { nd with partialPath := nr }
    obtain ⟨s₂, hinline', hcall'⟩ := inline_eq store s₁ (leaf kr value)
    have hfate : edit (insertAt value) nd (sh ++ ki :: kr) =
        .stays ((nd.pushDown sh none ni nr).setChild ki
          (.mk (leaf kr value) none)) none := by
      rw [edit_of_stops hstop, insertAt, hp, descent_fork sh hne]
    have hsealed := sealedEdges_setChild_leaf L
      (nd.pushDown_get_of_ne sh none ni nr hne) kr value
    rw [sealedEdges_pushDown L hp none] at hsealed
    simp only [insertBody, Frames.top_cons, ok_bind, Split.of_fork hne hp,
      Split.below, sliceFrom_succ, pure_eq_ok, sliceTo_append,
      setPartialPath_snd, hinline, hinline']
    exact .stays hfate
      (hsealed.symm ▸ (Accounts.of_call hcall _).trans (.of_call hcall' _))

end Insert

theorem insert_outcome (store : EdgeStore n V H σ ε) (t : Trie n V H)
    (key : Path n) (value : V) (s : σ) :
    MutationOutcome store (Trie.inserted key value) t s
      (insert store t key value s) := by
  cases t with
  | none =>
      have hleaf : Trie.sealedEdges
          (some (leaf key value) : Trie n V H) = 0 := sealedEdges_leaf _ _ _
      refine .of_eq rfl ?_
      rw [hleaf]
      exact .refl s _
  | some nd =>
      refine EditOutcome.mutation (fun _ => rfl) (editOutcome_of_stops
        (neverUnwinds n V H σ ε _)
        (fun fs key s => run (insertBody store value) _
          (insertBody_decreases store value) (fs, key, s))
        ?_ ?_ ?_ none [] [] nd key s)
      · intro slot rest L nd key s hstop
        exact insertBody_stops hstop
      · intro slot rest nd i e keyRest s x s' he hm
        apply run_of_leave
        simp [insertBody, Split.of_below, Split.below, he,
          descend_error he hm]
      · intro slot rest nd i e keyRest s s' he hm
        apply run_of_again
        simp [insertBody, Split.of_below, Split.below, he,
          descend_ok he hm]

end ArityTries
