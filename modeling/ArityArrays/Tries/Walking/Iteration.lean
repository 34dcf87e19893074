import ArityArrays.Tries.Walking.Seek

/-!
# Iteration in key order

`next` and `visit` hand on the valued nodes of a walk.  What an iterator still
has to yield is read off the nodes its walk has left, and from the start it is
the run of keys at or after the start.
-/

namespace ArityTries

open Checked Loop Node Walk

variable {n : ℕ} {V H σ ε τ : Type}

/-- The keys and values among listed nodes. -/
def entriesOf (pending : List (Path n × TrieNode n V H)) :
    List (Path n × V) :=
  pending.filterMap fun sm => sm.2.value.map fun v => (fullPath sm, v)

/-- The valued nodes among listed nodes, by full path. -/
def valuedNodes (pending : List (Path n × TrieNode n V H)) :
    List (Path n × TrieNode n V H) :=
  (pending.filter fun sm => sm.2.value.isSome).map fun sm =>
    (fullPath sm, sm.2)

/-- The entries of a trie at or after a start. -/
def entriesFrom (t : Trie n V H) (start : Option (Path n)) :
    List (Path n × V) :=
  entriesOf (nodesFrom start t.nodes)

theorem entriesOf_cons_of_value {sm : Path n × TrieNode n V H} {v : V}
    (hv : sm.2.value = some v) (rest : List (Path n × TrieNode n V H)) :
    entriesOf (sm :: rest) = (fullPath sm, v) :: entriesOf rest := by
  refine List.filterMap_cons_some ?_
  rw [hv, Option.map_some]

theorem entriesOf_cons_of_none {sm : Path n × TrieNode n V H}
    (hv : sm.2.value = none) (rest : List (Path n × TrieNode n V H)) :
    entriesOf (sm :: rest) = entriesOf rest := by
  refine List.filterMap_cons_none ?_
  rw [hv, Option.map_none]

/-- Valued nodes and entries are the same list. -/
theorem valuedNodes_map_value (pending : List (Path n × TrieNode n V H)) :
    (valuedNodes pending).map (fun pm => (pm.1, pm.2.value)) =
      (entriesOf pending).map fun kv => (kv.1, some kv.2) := by
  induction pending with
  | nil => rfl
  | cons sm rest ih =>
      cases hv : sm.2.value with
      | none =>
          rw [entriesOf_cons_of_none hv, ← ih, valuedNodes, valuedNodes,
            List.filter_cons_of_neg (by simp [hv])]
      | some v =>
          rw [entriesOf_cons_of_value hv, List.map_cons, ← ih, valuedNodes,
            valuedNodes, List.filter_cons_of_pos (by simp [hv]),
            List.map_cons, List.map_cons, hv]

/-! ## The run of keys at or after a start -/

/-- The entries from a start are strictly ascending. -/
theorem entriesFrom_ascending (t : Trie n V H) (start : Option (Path n)) :
    (entriesFrom t start).Pairwise fun a b => a.1 < b.1 := by
  have hnodes : (nodesFrom start t.nodes).Pairwise fun a b =>
      fullPath a < fullPath b := by
    refine List.Pairwise.filter _ ?_
    cases t with
    | none => exact List.Pairwise.nil
    | some nd => exact nodes_ascending [] nd
  refine List.Pairwise.filterMap _ ?_ hnodes
  intro a b hab kv hkv kv' hkv'
  obtain ⟨v, -, rfl⟩ := Option.map_eq_some_iff.mp hkv
  obtain ⟨v', -, rfl⟩ := Option.map_eq_some_iff.mp hkv'
  exact hab

/-- The entries from a start are the contents at or after it. -/
theorem mem_entriesFrom {t : Trie n V H} {start : Option (Path n)}
    {key : Path n} {v : V} :
    (key, v) ∈ entriesFrom t start ↔
      contents t key = some v ∧ ∀ st ∈ start, st ≤ key := by
  have hnodes : contents t key = some v ↔
      ∃ sm ∈ t.nodes, fullPath sm = key ∧ sm.2.value = some v := by
    cases t with
    | none => simp [Trie.nodes]
    | some nd =>
        rw [contents_some, Option.bind_eq_some_iff]
        constructor
        · rintro ⟨m, hm, hv⟩
          obtain ⟨L, hmem, hkey⟩ := nodeAt_eq_some_iff.mp hm
          exact ⟨(L, m), hmem, hkey, hv⟩
        · rintro ⟨⟨L, m⟩, hmem, hkey, hv⟩
          exact ⟨m, nodeAt_eq_some_iff.mpr ⟨L, hmem, hkey⟩, hv⟩
  rw [hnodes, entriesFrom, entriesOf, List.mem_filterMap]
  constructor
  · rintro ⟨sm, hsm, hentry⟩
    obtain ⟨hmem, hfrom⟩ := List.mem_filter.mp hsm
    obtain ⟨w, hw, heq⟩ := Option.map_eq_some_iff.mp hentry
    obtain ⟨rfl, rfl⟩ := Prod.mk.inj heq
    exact ⟨⟨sm, hmem, rfl, hw⟩, of_decide_eq_true hfrom⟩
  · rintro ⟨⟨sm, hmem, rfl, hv⟩, hfrom⟩
    refine ⟨sm, List.mem_filter.mpr ⟨hmem, decide_eq_true hfrom⟩, ?_⟩
    rw [hv, Option.map_some]

/-! ## The iterator -/

/-- How a call of `next` ends: the first entry left is yielded; after the last
one, or a failure, nothing is left. -/
inductive Yielded (store : EdgeStore n V H σ ε) (out : List (Path n × V)) :
    Option (Except ε (Path n × V)) × Walk n V H × σ → Prop
  | failed {x : ε} {w : Walk n V H} {s : σ} (hfail : ¬ store.NeverFails)
      (hw : Pending w []) : Yielded store out (some (.error x), w, s)
  | ended {w : Walk n V H} {s : σ} (hout : out = [])
      (hw : Pending w []) : Yielded store out (none, w, s)
  | item {kv : Path n × V} {w : Walk n V H} {s : σ}
      {pending : List (Path n × TrieNode n V H)}
      (hout : out = kv :: entriesOf pending) (hw : Pending w pending) :
      Yielded store out (some (.ok kv), w, s)

/-- A call of `next` yields the first entry among the nodes left. -/
theorem next_yielded {w : Walk n V H}
    {pending : List (Path n × TrieNode n V H)} (hw : Pending w pending)
    (store : EdgeStore n V H σ ε) (s : σ) :
    ∃ out, next store w s = .ok out ∧
      Yielded store (entriesOf pending) out := by
  refine run_of_invariant
    (I := fun ws => ∃ p, Pending ws.1 p ∧ entriesOf p = entriesOf pending)
    ?_ (w, s) ⟨pending, hw, rfl⟩
  rintro ⟨w₁, s₁⟩ ⟨p, hw₁, hp⟩
  obtain ⟨out, hadvance, hout⟩ := hw₁.advance store s₁
  simp only [nextBody, hadvance, ok_bind]
  cases hout with
  | failed hfail hw₂ => exact Or.inr ⟨_, rfl, .failed hfail hw₂⟩
  | ended hpending hw₂ =>
      subst hpending
      exact Or.inr ⟨_, rfl, .ended hp.symm hw₂⟩
  | @node sm w₂ s₂ rest hpending hw₂ =>
      subst hpending
      cases hv : sm.2.value with
      | none =>
          rw [entriesOf_cons_of_none hv] at hp
          exact Or.inl ⟨(w₂, s₂), by simp [hv], rest, hw₂, hp⟩
      | some v =>
          rw [entriesOf_cons_of_value hv] at hp
          exact Or.inr ⟨(some (.ok (fullPath sm, v)), w₂, s₂),
            by simp [hv], .item hp.symm hw₂⟩

/-- The answers of `k` calls of `next` in a row. -/
def nextAll (store : EdgeStore n V H σ ε) :
    ℕ → Walk n V H → σ →
      Checked (List (Option (Except ε (Path n × V))) × Walk n V H × σ)
  | 0, w, s => .ok ([], w, s)
  | k + 1, w, s => do
      let (r, w, s) ← next store w s
      let (rs, w, s) ← nextAll store k w s
      return (r :: rs, w, s)

/-- Over a store that never fails, the entries left are yielded in turn and
then `none` for ever. -/
theorem nextAll_of_neverFails {store : EdgeStore n V H σ ε}
    (hstore : store.NeverFails) (k : ℕ) {w : Walk n V H}
    {pending : List (Path n × TrieNode n V H)} (hw : Pending w pending)
    (s : σ) :
    ∃ w' s', nextAll store k w s =
      .ok ((List.range k).map fun j => (entriesOf pending)[j]?.map .ok,
        w', s') := by
  induction k generalizing w pending s with
  | zero => exact ⟨w, s, rfl⟩
  | succ k ih =>
      obtain ⟨out, hnext, hyielded⟩ := next_yielded hw store s
      rw [List.range_succ_eq_map, List.map_cons, List.map_map]
      cases hyielded with
      | failed hfail _ => exact (hfail hstore).elim
      | @ended w₁ s₁ hout hw₁ =>
          obtain ⟨w', s', hrest⟩ := ih hw₁ s₁
          refine ⟨w', s', ?_⟩
          simp only [nextAll, hnext, hrest, ok_bind, pure_eq_ok, hout]
          rfl
      | @item kv w₁ s₁ rest hout hw₁ =>
          obtain ⟨w', s', hrest⟩ := ih hw₁ s₁
          refine ⟨w', s', ?_⟩
          simp only [nextAll, hnext, hrest, ok_bind, pure_eq_ok, hout]
          rfl

/-! ## The visitor -/

/-- Call `f` on each listed node in turn until it breaks. -/
def callAll (f : τ → Path n → TrieNode n V H → ControlFlow × τ) :
    List (Path n × TrieNode n V H) → τ → ControlFlow × τ
  | [], c => (.Continue, c)
  | pm :: rest, c =>
      match f c pm.1 pm.2 with
      | (.Break, c) => (.Break, c)
      | (.Continue, c) => callAll f rest c

/-- A callback that goes on through a first part goes on to the second. -/
theorem callAll_append {f : τ → Path n → TrieNode n V H → ControlFlow × τ}
    {xs : List (Path n × TrieNode n V H)} {c c' : τ}
    (hxs : callAll f xs c = (.Continue, c'))
    (ys : List (Path n × TrieNode n V H)) :
    callAll f (xs ++ ys) c = callAll f ys c' := by
  induction xs generalizing c with
  | nil =>
      cases hxs
      rfl
  | cons pm xs ih =>
      rw [List.cons_append, callAll]
      rw [callAll] at hxs
      split at hxs
      · cases hxs
      · exact ih hxs

/-- How a visit over the valued nodes `vs` ends: the callback has seen all of
them up to its break, or a first part of them before a failure. -/
inductive Visited (store : EdgeStore n V H σ ε)
    (f : τ → Path n → TrieNode n V H → ControlFlow × τ)
    (vs : List (Path n × TrieNode n V H)) (c : τ) :
    Except ε ControlFlow × τ × σ → Prop
  | failed {x : ε} {seen : List (Path n × TrieNode n V H)} {c' : τ} {s : σ}
      (hfail : ¬ store.NeverFails) (hseen : seen <+: vs)
      (hcalls : callAll f seen c = (.Continue, c')) :
      Visited store f vs c (.error x, c', s)
  | done {flow : ControlFlow} {c' : τ} {s : σ}
      (hcalls : callAll f vs c = (flow, c')) :
      Visited store f vs c (.ok flow, c', s)

theorem valuedNodes_cons_of_value {sm : Path n × TrieNode n V H} {v : V}
    (hv : sm.2.value = some v) (rest : List (Path n × TrieNode n V H)) :
    valuedNodes (sm :: rest) = (fullPath sm, sm.2) :: valuedNodes rest := by
  rw [valuedNodes, List.filter_cons_of_pos (by simp [hv]), List.map_cons,
    valuedNodes]

theorem valuedNodes_cons_of_none {sm : Path n × TrieNode n V H}
    (hv : sm.2.value = none) (rest : List (Path n × TrieNode n V H)) :
    valuedNodes (sm :: rest) = valuedNodes rest := by
  rw [valuedNodes, List.filter_cons_of_neg (by simp [hv]), valuedNodes]

/-- A visit calls `f` on the valued nodes at or after the start, in turn. -/
theorem visit_visited (store : EdgeStore n V H σ ε) (t : Trie n V H)
    (start : Option (Path n))
    (f : τ → Path n → TrieNode n V H → ControlFlow × τ) (c : τ) (s : σ) :
    ∃ out, visit store t start f c s = .ok out ∧
      Visited store f (valuedNodes (nodesFrom start t.nodes)) c out := by
  -- The callback has gone on through `seen`, and the walk has the rest.
  refine run_of_invariant
    (I := fun wcs => ∃ seen p, Pending wcs.1 p ∧
      valuedNodes (nodesFrom start t.nodes) = seen ++ valuedNodes p ∧
      callAll f seen c = (.Continue, wcs.2.1))
    ?_ (Walk.new t start, c, s) ⟨[], _, .fresh t start, rfl, rfl⟩
  rintro ⟨w₁, c₁, s₁⟩ ⟨seen, p, hw₁, hvs, hseen⟩
  obtain ⟨out, hadvance, hout⟩ := hw₁.advance store s₁
  simp only [visitBody, hadvance, ok_bind]
  cases hout with
  | failed hfail _ =>
      exact Or.inr ⟨_, rfl, .failed hfail ⟨_, hvs.symm⟩ hseen⟩
  | ended hpending _ =>
      subst hpending
      refine Or.inr ⟨_, rfl, .done ?_⟩
      rw [hvs, callAll_append hseen]
      rfl
  | @node sm w₂ s₂ rest hpending hw₂ =>
      subst hpending
      cases hv : sm.2.value with
      | none =>
          rw [valuedNodes_cons_of_none hv] at hvs
          exact Or.inl ⟨(w₂, c₁, s₂), by simp [hv], seen, rest, hw₂, hvs,
            hseen⟩
      | some v =>
          rw [valuedNodes_cons_of_value hv] at hvs
          have hcall : callAll f [(fullPath sm, sm.2)] c₁ =
              f c₁ (fullPath sm) sm.2 := by
            simp only [callAll]
            split <;> simp_all
          rcases hf : f c₁ (fullPath sm) sm.2 with ⟨_ | _, c₂⟩
          · refine Or.inl ⟨(w₂, c₂, s₂), by simp [hv, hf],
              seen ++ [(fullPath sm, sm.2)], rest, hw₂, ?_, ?_⟩
            · rw [hvs, List.append_assoc, List.singleton_append]
            · rw [callAll_append hseen, hcall, hf]
          · refine Or.inr ⟨(.ok .Break, c₂, s₂), by simp [hv, hf], .done ?_⟩
            rw [hvs, callAll_append hseen, callAll, hf]

/-- The callback that records what it is given and breaks at the `k`-th
call. -/
def recordUntil (k : ℕ) (seen : List (Path n × Option V)) (path : Path n)
    (node : TrieNode n V H) : ControlFlow × List (Path n × Option V) :=
  (if seen.length + 1 = k then .Break else .Continue,
    seen ++ [(path, node.value)])

theorem callAll_recordUntil {k : ℕ} (vs : List (Path n × TrieNode n V H))
    (seen : List (Path n × Option V)) (hseen : seen.length ≤ k) :
    callAll (recordUntil (k + 1)) vs seen =
      (if k < seen.length + vs.length then .Break else .Continue,
        seen ++ (vs.map fun pm => (pm.1, pm.2.value)).take
          (k + 1 - seen.length)) := by
  induction vs generalizing seen with
  | nil =>
      have hlt : ¬ k < seen.length := by omega
      simp [callAll, hlt]
  | cons pm vs ih =>
      by_cases hk : seen.length = k
      · simp [callAll, recordUntil, hk]
      · have hlength : (seen ++ [(pm.1, pm.2.value)]).length =
            seen.length + 1 := by
          rw [List.length_append, List.length_singleton]
        have hsum : seen.length + 1 + vs.length =
            seen.length + (vs.length + 1) := by
          omega
        have htake : k + 1 - seen.length =
            (k + 1 - (seen.length + 1)) + 1 := by
          omega
        have hrest := ih (seen ++ [(pm.1, pm.2.value)]) (by omega)
        rw [hlength, hsum] at hrest
        rw [callAll, recordUntil, if_neg (by omega)]
        dsimp only
        rw [hrest, htake, List.map_cons, List.take_succ_cons,
          List.length_cons, List.append_assoc, List.singleton_append]

/-! ## Ordered range iteration -/

/-- Over a store that never fails, iteration from an optional start yields
exactly the contents at or after it, strictly ascending, and then `none` for
ever; a visit calls its callback on the same sequence until it breaks. -/
theorem iteration_is_ascending_range {store : EdgeStore n V H σ ε}
    (hstore : store.NeverFails) (t : Trie n V H) (start : Option (Path n))
    (s : σ) :
    ∃ out : List (Path n × V),
      (out.Pairwise fun a b => a.1 < b.1) ∧
      (∀ key v, (key, v) ∈ out ↔
        contents t key = some v ∧ ∀ st ∈ start, st ≤ key) ∧
      (∀ k, ∃ w s', nextAll store k (iter t start) s =
        .ok ((List.range k).map fun j => out[j]?.map .ok, w, s')) ∧
      (∃ vs : List (Path n × TrieNode n V H),
        (vs.map fun pm => (pm.1, pm.2.value)) =
          (out.map fun kv => (kv.1, some kv.2)) ∧
        ∀ (τ : Type) (f : τ → Path n → TrieNode n V H → ControlFlow × τ)
          (c : τ), ∃ s', visit store t start f c s =
            .ok (.ok (callAll f vs c).1, (callAll f vs c).2, s')) ∧
      (∀ k, ∃ s', visit store t start (recordUntil (k + 1)) [] s =
        .ok (.ok (if k < out.length then .Break else .Continue),
          (out.take (k + 1)).map fun kv => (kv.1, some kv.2), s')) := by
  have hvalues := valuedNodes_map_value (nodesFrom start t.nodes)
  have hvisit : ∀ (τ : Type)
      (f : τ → Path n → TrieNode n V H → ControlFlow × τ) (c : τ),
      ∃ s', visit store t start f c s =
        .ok (.ok (callAll f (valuedNodes (nodesFrom start t.nodes)) c).1,
          (callAll f (valuedNodes (nodesFrom start t.nodes)) c).2, s') := by
    intro τ f c
    obtain ⟨out, hrun, hout⟩ := visit_visited store t start f c s
    cases hout with
    | failed hfail _ _ => exact (hfail hstore).elim
    | @done flow c' s' hcalls => exact ⟨s', by rw [hrun, hcalls]⟩
  refine ⟨entriesFrom t start, entriesFrom_ascending t start,
    fun key v => mem_entriesFrom, ?_, ⟨_, hvalues, hvisit⟩, ?_⟩
  · intro k
    exact nextAll_of_neverFails hstore k (.fresh t start) s
  · intro k
    obtain ⟨s', hrun⟩ := hvisit _ (recordUntil (k + 1)) []
    have hlength := congrArg List.length hvalues
    rw [List.length_map, List.length_map] at hlength
    have hcalls := callAll_recordUntil
      (valuedNodes (nodesFrom start t.nodes)) [] (Nat.zero_le k)
    rw [List.length_nil, Nat.zero_add, hlength, hvalues, List.nil_append,
      Nat.sub_zero, ← List.map_take] at hcalls
    refine ⟨s', ?_⟩
    rw [hrun, hcalls]
    rfl

/-- From a start between an inline and a sealed child, only the latter. -/
theorem iteration_is_ascending_range_sealed :
    let t : Trie 2 ℕ ℕ := some {
      partialPath := [1]
      value := none
      children := (ChildMap.empty.set 0 (.mk (leaf [] 5) none)).set 1
        (.mk (leaf [0] 7) (some 3)) }
    ∃ (out : List (Path 2 × ℕ)) (w : Walk 2 ℕ ℕ) (s' : Unit),
      nextAll (EdgeStore.inMemory 2 ℕ ℕ) 4
        (iter t (some [1, 0, 1])) () =
          .ok ((List.range 4).map fun j => out[j]?.map .ok, w, s') ∧
      ([1, 1, 0], 7) ∈ out ∧ ([1, 0], 5) ∉ out := by
  intro t
  obtain ⟨out, -, hmem, hnext, -⟩ := iteration_is_ascending_range
    (EdgeStore.inMemory_neverFails 2 ℕ ℕ) t (some [1, 0, 1]) ()
  obtain ⟨w, s', hrun⟩ := hnext 4
  refine ⟨out, w, s', hrun, (hmem _ _).mpr ?_, ?_⟩
  · decide +kernel
  · intro hin
    have hle := ((hmem _ _).mp hin).2 [1, 0, 1] rfl
    revert hle
    decide

end ArityTries
