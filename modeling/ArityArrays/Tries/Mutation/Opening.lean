import Mathlib.Algebra.BigOperators.Fin
import ArityArrays.Tries.Shape
import ArityArrays.Tries.Store

/-!
# Turning edges inline, and accounting for it

The only change a mutation makes before it succeeds is that edges on its way
turn inline.  `Opened` relates a node to what such changes can make of it.
`Accounts` says that the sealed edges that are gone between two moments are
the ones the store was passed, while sealed, in successful `materialize`
calls.
-/

namespace ArityTries

variable {n : ℕ} {V H σ ε : Type}

/-! ## The sealed edges of a trie -/

namespace Node

/-- The sealed edges beneath a node at leading path `L`, each with the full
path of its slot. -/
def sealedEdges (L : Path n) (nd : TrieNode n V H) :
    Multiset (Path n × Edge n V H) :=
  ((edges L nd).filter fun se => se.2.hash.isSome : List _)

/-- The sealed edges at and beneath one slot. -/
def sealedAt (L : Path n) (o : Option (Edge n V H)) :
    Multiset (Path n × Edge n V H) :=
  ((slotEdges L o).filter fun se => se.2.hash.isSome : List _)

/-- The sealed edges beneath a node, the slot at `i` left out. -/
def sealedBeside (L : Path n) (nd : TrieNode n V H) (i : Fin n) :
    Multiset (Path n × Edge n V H) :=
  ∑ j ∈ Finset.univ.erase i, sealedAt (slotPath L nd j) (nd.children.get j)

@[simp] theorem sealedAt_none (L : Path n) :
    sealedAt L (none : Option (Edge n V H)) = 0 := rfl

theorem sealedAt_some (L : Path n) (e : Edge n V H) :
    sealedAt L (some e) =
      (if e.hash.isSome then {(L, e)} else 0) + sealedEdges L e.node := by
  unfold sealedAt sealedEdges
  rw [slotEdges_some, List.filter_cons]
  split
  · rfl
  · simp

@[simp] theorem sealedAt_inline (L : Path n) (m : TrieNode n V H) :
    sealedAt L (some (.mk m none)) = sealedEdges L m := by
  simp [sealedAt_some]

theorem sealedEdges_eq (L : Path n) (nd : TrieNode n V H) :
    sealedEdges L nd =
      ∑ i, sealedAt (slotPath L nd i) (nd.children.get i) := by
  have hfold : ∀ l : List (Fin n),
      ((l.flatMap fun i =>
          (slotEdges (slotPath L nd i) (nd.children.get i)).filter
            fun se => se.2.hash.isSome : List _) : Multiset _) =
        (l.map fun i =>
          sealedAt (slotPath L nd i) (nd.children.get i)).sum := by
    intro l
    induction l with
    | nil => rfl
    | cons i l ih =>
        rw [List.flatMap_cons, ← Multiset.coe_add, ih, List.map_cons,
          List.sum_cons]
        rfl
  rw [sealedEdges, edges_eq, List.filter_flatMap, hfold, Fin.sum_univ_def]

theorem sealedEdges_eq_add (L : Path n) (nd : TrieNode n V H) (i : Fin n) :
    sealedEdges L nd =
      sealedAt (slotPath L nd i) (nd.children.get i) +
        sealedBeside L nd i := by
  rw [sealedEdges_eq, sealedBeside]
  exact (Finset.add_sum_erase Finset.univ
    (fun j => sealedAt (slotPath L nd j) (nd.children.get j))
    (Finset.mem_univ i)).symm

/-- What lies beside a slot depends on the other slots alone. -/
theorem sealedBeside_congr {L : Path n} {nd nd' : TrieNode n V H}
    {i : Fin n} (hp : nd'.partialPath = nd.partialPath)
    (hc : ∀ j, j ≠ i → nd'.children.get j = nd.children.get j) :
    sealedBeside L nd' i = sealedBeside L nd i := by
  refine Finset.sum_congr rfl ?_
  intro j hj
  rw [hc j (Finset.ne_of_mem_erase hj), slotPath, slotPath, hp]

theorem sealedEdges_setChild (L : Path n) (nd : TrieNode n V H) (i : Fin n)
    (e : Edge n V H) :
    sealedEdges L (nd.setChild i e) =
      sealedAt (slotPath L nd i) (some e) + sealedBeside L nd i := by
  have hbeside : sealedBeside L (nd.setChild i e) i = sealedBeside L nd i :=
    sealedBeside_congr rfl fun j hj => ChildMap.get_set_of_ne _ hj e
  rw [sealedEdges_eq_add L _ i, hbeside, setChild_children,
    ChildMap.get_set_self]
  rfl

theorem sealedEdges_eraseChild (L : Path n) (nd : TrieNode n V H)
    (i : Fin n) :
    sealedEdges L (nd.eraseChild i) = sealedBeside L nd i := by
  have hbeside : sealedBeside L (nd.eraseChild i) i = sealedBeside L nd i :=
    sealedBeside_congr rfl fun j hj => ChildMap.get_erase_of_ne _ hj
  rw [sealedEdges_eq_add L _ i, hbeside, eraseChild_children,
    ChildMap.get_erase_self, sealedAt_none, zero_add]

/-- Sealed edges stay where they are when leading and partial path trade
indices, whatever the value. -/
theorem sealedEdges_repath {L L' : Path n} {nd nd' : TrieNode n V H}
    (hpath : L' ++ nd'.partialPath = L ++ nd.partialPath)
    (hc : nd'.children = nd.children) :
    sealedEdges L' nd' = sealedEdges L nd := by
  rw [sealedEdges_eq, sealedEdges_eq]
  simp only [slotPath, hpath, hc]

theorem sealedEdges_of_no_child {L : Path n} {nd : TrieNode n V H}
    (hempty : ∀ i, nd.children.get i = none) : sealedEdges L nd = 0 := by
  rw [sealedEdges_eq]
  refine Finset.sum_eq_zero ?_
  intro i _
  rw [hempty i, sealedAt_none]

/-- Nothing sealed lies beside an only child. -/
theorem sealedBeside_of_only_child (L : Path n) {nd : TrieNode n V H}
    {i : Fin n} {e : Edge n V H} (hc : nd.children.count = 1)
    (he : nd.children.get i = some e) : sealedBeside L nd i = 0 := by
  refine Finset.sum_eq_zero ?_
  intro j hj
  rw [ChildMap.get_of_only_child hc he (Finset.ne_of_mem_erase hj),
    sealedAt_none]

end Node

open Node

/-! ## Calls of a store -/

/-- One call of the store, with the edge it replaces: the one a successful
`materialize` call was passed while sealed. -/
inductive Call (store : EdgeStore n V H σ ε) :
    σ → List (Edge n V H) → σ → Prop
  | read (s : σ) (e : Edge n V H) : Call store s [] (store.read s e).2
  | inline (s : σ) (m : TrieNode n V H) :
      Call store s [] (store.inline s m).2
  | sealEdge (s : σ) (e : Edge n V H) (h : H) :
      Call store s [] (store.sealEdge s e h).2
  | failed {s s' : σ} {e : Edge n V H} {x : ε}
      (hm : store.materialize s e = (.error x, e, s')) : Call store s [] s'
  | materialized {s s' : σ} {e : Edge n V H}
      (hm : store.materialize s e = (.ok (), .mk e.node none, s')) :
      Call store s (if e.hash.isSome then [e] else []) s'

/-- Any number of calls, with the edges they replace in call order. -/
inductive Calls (store : EdgeStore n V H σ ε) :
    σ → List (Edge n V H) → σ → Prop
  | nil (s : σ) : Calls store s [] s
  | cons {s s' s'' : σ} {log log' : List (Edge n V H)}
      (hcall : Call store s log s') (hcalls : Calls store s' log' s'') :
      Calls store s (log ++ log') s''

theorem Calls.trans {store : EdgeStore n V H σ ε} {s s' s'' : σ}
    {log log' : List (Edge n V H)} (h : Calls store s log s')
    (h' : Calls store s' log' s'') : Calls store s (log ++ log') s'' := by
  induction h with
  | nil s => exact h'
  | cons hcall _ ih =>
      rw [List.append_assoc]
      exact .cons hcall (ih h')

theorem Call.calls {store : EdgeStore n V H σ ε} {s s' : σ}
    {log : List (Edge n V H)} (h : Call store s log s') :
    Calls store s log s' := by
  simpa using Calls.cons h (.nil s')

/-- The logging store lists exactly the replaced edges. -/
theorem Calls.logged {store : EdgeStore n V H σ ε}
    {s s' : σ × List (Edge n V H)} {log : List (Edge n V H)}
    (h : Calls store.logged s log s') : s'.2 = s.2 ++ log := by
  have hcall : ∀ {s s' log}, Call store.logged s log s' →
      s'.2 = s.2 ++ log := by
    intro s s' log hcall
    cases hcall with
    | read e => simp [EdgeStore.logged]
    | inline m => simp [EdgeStore.logged]
    | sealEdge e h => simp [EdgeStore.logged]
    | @failed _ e x hm =>
        rcases store.materialize_cases s.1 e with ⟨y, t, ht⟩ | ⟨t, ht⟩
        · simp only [EdgeStore.logged, ht, Prod.mk.injEq] at hm
          rw [← hm.2.2, List.append_nil]
        · simp only [EdgeStore.logged, ht, Prod.mk.injEq] at hm
          cases hm.1
    | @materialized _ e hm =>
        rcases store.materialize_cases s.1 e with ⟨y, t, ht⟩ | ⟨t, ht⟩
        · simp only [EdgeStore.logged, ht, Prod.mk.injEq] at hm
          cases hm.1
        · simp only [EdgeStore.logged, ht, Prod.mk.injEq] at hm
          rw [← hm.2.2]
          cases e.hash.isSome <;> simp
  induction h with
  | nil s => simp
  | cons hc _ ih => rw [ih, hcall hc, List.append_assoc]

/-! ## Accounting -/

/-- Between store states `s` and `s'` the sealed edges `A` became `B`: every
one that is gone was replaced by one call. -/
def Accounts (store : EdgeStore n V H σ ε) (s s' : σ)
    (A B : Multiset (Path n × Edge n V H)) : Prop :=
  ∃ log : List (Path n × Edge n V H),
    Calls store s (log.map Prod.snd) s' ∧ A = (log : Multiset _) + B

namespace Accounts

variable {store : EdgeStore n V H σ ε} {s s' s'' : σ}
  {A B C : Multiset (Path n × Edge n V H)}

theorem refl (s : σ) (A : Multiset (Path n × Edge n V H)) :
    Accounts store s s A A :=
  ⟨[], .nil s, by simp⟩

theorem trans (h : Accounts store s s' A B)
    (h' : Accounts store s' s'' B C) : Accounts store s s'' A C := by
  obtain ⟨log, hcalls, rfl⟩ := h
  obtain ⟨log', hcalls', rfl⟩ := h'
  refine ⟨log ++ log', ?_, ?_⟩
  · rw [List.map_append]
    exact hcalls.trans hcalls'
  · rw [← Multiset.coe_add, add_assoc]

theorem add_right (h : Accounts store s s' A B)
    (R : Multiset (Path n × Edge n V H)) :
    Accounts store s s' (A + R) (B + R) := by
  obtain ⟨log, hcalls, rfl⟩ := h
  exact ⟨log, hcalls, add_assoc _ _ _⟩

/-- A call that replaces nothing. -/
theorem of_call (h : Call store s [] s')
    (A : Multiset (Path n × Edge n V H)) : Accounts store s s' A A :=
  ⟨[], h.calls, by simp⟩

/-- A `materialize` call accounts for its own edge. -/
theorem materialized {e : Edge n V H}
    (hm : store.materialize s e = (.ok (), .mk e.node none, s'))
    (L : Path n) :
    Accounts store s s' (sealedAt L (some e)) (sealedEdges L e.node) := by
  have hcall := Call.materialized hm
  rw [sealedAt_some]
  split at hcall
  · next hs =>
      rw [if_pos hs]
      exact ⟨[(L, e)], hcall.calls, rfl⟩
  · next hs =>
      rw [if_neg hs, zero_add]
      exact of_call hcall _

end Accounts

/-! ## Opening -/

/-- `nd'` is `nd` with some edges turned inline, each of them beneath inline
edges alone. -/
inductive Opened : TrieNode n V H → TrieNode n V H → Prop
  | refl (nd : TrieNode n V H) : Opened nd nd
  | slot {nd nd' m : TrieNode n V H} {i : Fin n} {e : Edge n V H}
      (hnd : Opened nd nd') (he : nd'.children.get i = some e)
      (hm : Opened e.node m) : Opened nd (nd'.setChild i (.mk m none))

namespace Opened

variable {nd nd' nd'' : TrieNode n V H}

theorem trans (h : Opened nd nd') (h' : Opened nd' nd'') :
    Opened nd nd'' := by
  induction h' with
  | refl _ => exact h
  | slot _ he hm ih _ => exact .slot (ih h) he hm

theorem child {i : Fin n} {e : Edge n V H} {m : TrieNode n V H}
    (he : nd.children.get i = some e) (hm : Opened e.node m) :
    Opened nd (nd.setChild i (.mk m none)) :=
  .slot (.refl nd) he hm

theorem partialPath_eq (h : Opened nd nd') :
    nd'.partialPath = nd.partialPath := by
  induction h with
  | refl _ => rfl
  | slot _ _ _ ih _ => exact ih

/-- Opening keeps every edge or turns it inline. -/
theorem get (h : Opened nd nd') (i : Fin n) :
    (nd.children.get i = none ∧ nd'.children.get i = none) ∨
      ∃ e e', nd.children.get i = some e ∧ nd'.children.get i = some e' ∧
        (e' = e ∨ e'.hash = none) ∧ Opened e.node e'.node := by
  induction h with
  | refl nd =>
      cases he : nd.children.get i with
      | none => exact Or.inl ⟨rfl, rfl⟩
      | some e => exact Or.inr ⟨e, e, rfl, rfl, Or.inl rfl, .refl _⟩
  | @slot nd nd' m j f _ hf hm ih _ =>
      by_cases hj : i = j
      · subst j
        rcases ih with ⟨-, hnone⟩ | ⟨e, e', he, he', -, hopen⟩
        · rw [hf] at hnone
          cases hnone
        · rw [hf] at he'
          cases he'
          refine Or.inr ⟨e, _, he, ChildMap.get_set_self _ _ _,
            Or.inr rfl, hopen.trans hm⟩
      · rw [setChild_children, ChildMap.get_set_of_ne _ hj]
        exact ih

theorem inlined_eq (h : Opened nd nd') : nd'.inlined = nd.inlined := by
  induction h with
  | refl _ => rfl
  | @slot nd nd' m i e _ he _ ih ihm =>
      rw [← ih]
      refine inlined_congr rfl rfl ?_
      intro j
      by_cases hj : j = i
      · subst j
        rw [childTrie_setChild_self, childTrie_of_get he]
        simp [ihm]
      · rw [childTrie_setChild_of_ne _ hj]

end Opened

/-- `nd` was opened to `nd₁` between store states `s` and `s'`. -/
structure Opening (store : EdgeStore n V H σ ε) (L : Path n)
    (nd nd₁ : TrieNode n V H) (s s' : σ) : Prop where
  opened : Opened nd nd₁
  accounts : Accounts store s s' (sealedEdges L nd) (sealedEdges L nd₁)

namespace Opening

variable {store : EdgeStore n V H σ ε} {L : Path n}
  {nd nd₁ nd₂ m : TrieNode n V H} {s s' s'' : σ} {i : Fin n}
  {e : Edge n V H}

theorem refl (store : EdgeStore n V H σ ε) (L : Path n)
    (nd : TrieNode n V H) (s : σ) : Opening store L nd nd s s :=
  ⟨.refl nd, .refl s _⟩

theorem trans (h : Opening store L nd nd₁ s s')
    (h' : Opening store L nd₁ nd₂ s' s'') : Opening store L nd nd₂ s s'' :=
  ⟨h.opened.trans h'.opened, h.accounts.trans h'.accounts⟩

theorem of_call (h : Call store s [] s') (L : Path n)
    (nd : TrieNode n V H) : Opening store L nd nd s s' :=
  ⟨.refl nd, .of_call h _⟩

/-- A successful `materialize` call on the edge at `i`. -/
theorem materialized (he : nd.children.get i = some e)
    (hm : store.materialize s e = (.ok (), .mk e.node none, s'))
    (L : Path n) :
    Opening store L nd (nd.setChild i (.mk e.node none)) s s' := by
  refine ⟨Opened.child he (.refl _), ?_⟩
  rw [sealedEdges_eq_add L nd i, sealedEdges_setChild, he, sealedAt_inline]
  exact (Accounts.materialized hm _).add_right _

/-- Opening the node behind an inline edge opens its parent. -/
theorem child (h : Opening store (slotPath L nd i) m nd₁ s s') :
    Opening store L (nd.setChild i (.mk m none))
      (nd.setChild i (.mk nd₁ none)) s s' := by
  refine ⟨?_, ?_⟩
  · have hget : (nd.setChild i (.mk m none)).children.get i =
        some (.mk m none) := ChildMap.get_set_self _ _ _
    simpa using Opened.child hget h.opened
  · rw [sealedEdges_setChild, sealedEdges_setChild, sealedAt_inline,
      sealedAt_inline]
    exact h.accounts.add_right _

end Opening

end ArityTries
