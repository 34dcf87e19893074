import ArityArrays.Tries.Walking.Failing
import ArityArrays.Tries.Walking.Reads

/-!
# What scans read

A range scan reads the edges its start leaves it, each once, in key order, and
none of them before it is needed.
-/

namespace ArityTries

open Checked Loop Node Walk

variable {n : ℕ} {V H σ ε : Type}

namespace Walk

/-! ## The reads of an advance -/

section Advance

variable {store : EdgeStore n V H σ ε} {seen : σ → List (Edge n V H)}

/-- How a walk goes on that has `pending` to hand out and `unread` to read:
what it reads ends with the edge of the node it hands out, and what is left to
read is what is left to hand out. -/
inductive Scanned (store : EdgeStore n V H σ ε)
    (seen : σ → List (Edge n V H)) (pending : List (Path n × TrieNode n V H))
    (unread : List (Path n × Edge n V H)) (s : σ) :
    Except ε (Option (TrieNode n V H)) × Walk n V H × σ → Prop
  | failed {x : ε} {w : Walk n V H} {s' : σ}
      {front : List (Path n × Edge n V H)} (hfail : ¬ store.NeverFails)
      (hfront : front <+: unread)
      (hseen : seen s' = seen s ++ front.map Prod.snd) :
      Scanned store seen pending unread s (.error x, w, s')
  | ended {w : Walk n V H} {s' : σ} (hpending : pending = [])
      (hseen : seen s' = seen s ++ unread.map Prod.snd) :
      Scanned store seen pending unread s (.ok none, w, s')
  | node {L : Path n} {m : TrieNode n V H} {w : Walk n V H} {s' : σ}
      {front : List (Path n × Edge n V H)}
      (hw : Aligned w.chain w.frames w.buf)
      (hbuf : w.buf = L ++ m.partialPath) (hstate : w.state = .walking)
      (hpending : pending = (L, m) :: todo w.buf w.frames)
      (hunread : unread = front ++ edgesAhead w.buf w.frames)
      (hseen : seen s' = seen s ++ front.map Prod.snd)
      (hlast : front = [] ∨
        ∃ front' se, front = front' ++ [se] ∧ behind se = (L, m)) :
      Scanned store seen pending unread s (.ok (some m), w, s')

/-- One more read after those of `front`. -/
theorem seen_concat {front : List (Path n × Edge n V H)}
    {x : Path n × Edge n V H} {s s₁ s₂ : σ}
    (hs₁ : seen s₁ = seen s ++ front.map Prod.snd)
    (hs₂ : seen s₂ = seen s₁ ++ [x.2]) :
    seen s₂ = seen s ++ (front ++ [x]).map Prod.snd := by
  rw [hs₂, hs₁, List.map_append, List.append_assoc]
  rfl

theorem concat_prefix {front rest : List (Path n × Edge n V H)}
    {se : Path n × Edge n V H} : front ++ [se] <+: front ++ se :: rest := by
  refine ⟨rest, ?_⟩
  rw [List.append_assoc, List.singleton_append]

/-- A step after `front` has been read. -/
theorem Stepped.scanned {front left unread : List (Path n × Edge n V H)}
    {s s₁ : σ} {out : Except ε (Option (TrieNode n V H)) × Walk n V H × σ}
    (h : Stepped store seen left s₁ out) (hunread : unread = front ++ left)
    (hs₁ : seen s₁ = seen s ++ front.map Prod.snd) :
    Scanned store seen (left.map behind) unread s out := by
  subst hunread
  cases h with
  | failed hfail hleft hseen =>
      refine .failed hfail ?_ (seen_concat hs₁ hseen)
      rw [hleft]
      exact concat_prefix
  | ended hleft hseen =>
      refine .ended ?_ ?_
      · rw [hleft, List.map_nil]
      · rw [hseen, hs₁, hleft, List.append_nil]
  | @node L e w s' hw hbuf hstate hleft hseen =>
      refine .node hw hbuf hstate ?_ ?_ (seen_concat (x := (L, e)) hs₁ hseen)
        (Or.inr ⟨front, (L, e), rfl, rfl⟩)
      · rw [hleft, List.map_cons, ← todo_eq_map]
        rfl
      · rw [hleft, List.append_assoc, List.singleton_append]

/-- The seek reads what the start leads it through, and no more than it needs
to find the first node at or after the start. -/
theorem Seeking.scanned (hseen : Lists store seen) {st : Path n}
    {w : Walk n V H} {L : Path n} {top : TrieNode n V H}
    {rest : List (PathFrame n V H)}
    (hw : Seeking st { w with start := none } L top rest)
    (hstart : w.start = some st) (s : σ) :
    ∃ out, seek store w s = .ok out ∧
      Scanned store seen (target st { w with start := none } L top rest)
        (need st { w with start := none } top rest) s out := by
  rw [seek, hstart, expect_some, ok_bind]
  refine run_of_invariant
    (I := fun ws => ∃ front L' top' rest', Seeking st ws.1 L' top' rest' ∧
      target st { w with start := none } L top rest =
        target st ws.1 L' top' rest' ∧
      need st { w with start := none } top rest =
        front ++ need st ws.1 top' rest' ∧
      seen ws.2 = seen s ++ front.map Prod.snd ∧
      (front = [] ∨
        ∃ front' se, front = front' ++ [se] ∧ behind se = (L', top'))) ?_ _
    ⟨[], L, top, rest, hw, rfl, rfl, by simp, Or.inl rfl⟩
  rintro ⟨w₁, s₁⟩ ⟨front, L₁, top₁, rest₁, hw₁, htarget, hneed, hs₁, hlast⟩
  obtain ⟨pass, hbody, hsought⟩ := hw₁.sought hseen s₁
  cases hsought with
  | @enter w₂ L₂ e rest₂ s₂ hw₂ htarget₂ hneed₂ hseen₂ =>
      refine Or.inl ⟨_, hbody, front ++ [(L₂, e)], L₂, e.node, rest₂, hw₂,
        htarget.trans htarget₂.symm, ?_, seen_concat (x := (L₂, e)) hs₁ hseen₂,
        Or.inr ⟨front, (L₂, e), rfl, rfl⟩⟩
      rw [hneed, hneed₂, List.append_assoc, List.singleton_append]
  | failed hfail hneed₂ hseen₂ =>
      refine Or.inr ⟨_, hbody, .failed hfail ?_ (seen_concat hs₁ hseen₂)⟩
      rw [hneed, hneed₂]
      exact concat_prefix
  | top htarget₂ hneed₂ =>
      rw [hneed₂] at hneed
      exact Or.inr ⟨_, hbody, .node hw₁.aligned hw₁.buf rfl
        (htarget.trans htarget₂) hneed hs₁ hlast⟩
  | stepped hout htarget₂ =>
      refine Or.inr ⟨_, hbody, ?_⟩
      rw [htarget, htarget₂]
      exact hout.scanned hneed hs₁

/-- What a walk has to hand out and to read between two calls of `advance`. -/
inductive Reading : Walk n V H → List (Path n × TrieNode n V H) →
    List (Path n × Edge n V H) → Prop
  | fresh (root : Trie n V H) (start : Option (Path n)) :
      Reading (new root start) (nodesFrom start root.nodes)
        (readsFrom root start)
  | walking {w : Walk n V H} (hw : Aligned w.chain w.frames w.buf)
      (hstate : w.state = .walking) :
      Reading w (todo w.buf w.frames) (edgesAhead w.buf w.frames)
  | done {w : Walk n V H} (hstate : w.state = .done) : Reading w [] []

/-- How a call of `advance` ends, and what it has read. -/
inductive Advances (store : EdgeStore n V H σ ε)
    (seen : σ → List (Edge n V H)) (pending : List (Path n × TrieNode n V H))
    (unread : List (Path n × Edge n V H)) (s : σ) :
    Except ε (Option (Path n × TrieNode n V H)) × Walk n V H × σ → Prop
  | failed {x : ε} {w : Walk n V H} {s' : σ}
      {front : List (Path n × Edge n V H)} (hfail : ¬ store.NeverFails)
      (hdone : w.state = .done) (hfront : front <+: unread)
      (hseen : seen s' = seen s ++ front.map Prod.snd) :
      Advances store seen pending unread s (.error x, w, s')
  | ended {w : Walk n V H} {s' : σ} (hpending : pending = [])
      (hdone : w.state = .done)
      (hseen : seen s' = seen s ++ unread.map Prod.snd) :
      Advances store seen pending unread s (.ok none, w, s')
  | node {sm : Path n × TrieNode n V H} {w : Walk n V H} {s' : σ}
      {front rest : List (Path n × Edge n V H)}
      (hpending : pending = sm :: rest.map behind)
      (hunread : unread = front ++ rest)
      (hw : Reading w (rest.map behind) rest)
      (hseen : seen s' = seen s ++ front.map Prod.snd)
      (hlast : front = [] ∨
        ∃ front' se, front = front' ++ [se] ∧ behind se = sm) :
      Advances store seen pending unread s
        (.ok (some (fullPath sm, sm.2)), w, s')

theorem Scanned.handOut {pending : List (Path n × TrieNode n V H)}
    {unread : List (Path n × Edge n V H)} {s : σ}
    {out : Except ε (Option (TrieNode n V H)) × Walk n V H × σ}
    (h : Scanned store seen pending unread s out) :
    Advances store seen pending unread s (Walk.handOut out) := by
  cases h with
  | failed hfail hfront hseen => exact .failed hfail rfl hfront hseen
  | ended hpending hseen => exact .ended hpending rfl hseen
  | @node L m w s' front hw hbuf hstate hpending hunread hseen hlast =>
      have hreading := Reading.walking hw hstate
      rw [todo_eq_map] at hpending hreading
      have hadvances : Advances store seen pending unread s
          (.ok (some (fullPath (L, m), m)), w, s') :=
        .node hpending hunread hreading hseen hlast
      rwa [fullPath_mk, ← hbuf] at hadvances

theorem Reading.advance (hseen : Lists store seen) {w : Walk n V H}
    {pending : List (Path n × TrieNode n V H)}
    {unread : List (Path n × Edge n V H)}
    (hw : Reading w pending unread) (s : σ) :
    ∃ out, w.advance store s = .ok out ∧
      Advances store seen pending unread s out := by
  cases hw with
  | fresh root start =>
      cases root with
      | none =>
          refine ⟨_, rfl, .ended rfl rfl ?_⟩
          simp [readsFrom, Trie.edges, reachesFrom]
      | some root =>
          have hedges : Trie.edges (some root) =
              edgesBeneath root.partialPath root root.children.present := by
            rw [Trie.edges, edges_eq_beneath, List.nil_append]
          cases start with
          | none =>
              have hroot := seeking_root root [] .walking
              have hunread : readsFrom (some root) none =
                  [] ++ edgesAhead root.partialPath [{
                    node := root
                    pathLen := root.partialPath.length
                    remaining := root.children.present }] := by
                simp [readsFrom, reachesFrom_none, hedges, edgesAhead]
              refine ⟨_, rfl, Scanned.handOut (.node (L := [])
                hroot.aligned rfl rfl ?_ hunread ?_ (Or.inl rfl))⟩
              · simp [nodesFrom_none, Trie.nodes, nodes_eq_beneath, Walk.new]
              · simp
          | some st =>
              obtain ⟨out, hseek, hscanned⟩ := Seeking.scanned hseen
                (w := {
                  chain := []
                  frames := [{
                    node := root
                    pathLen := root.partialPath.length
                    remaining := root.children.present }]
                  buf := root.partialPath
                  root := none
                  state := .seeking
                  start := some st })
                (seeking_root root st .seeking) rfl s
              refine ⟨Walk.handOut out, ?_, ?_⟩
              · simp [Walk.advance, Walk.new, hseek]
              · rw [readsFrom, hedges]
                simpa [target, need, Trie.nodes, edgesAhead] using
                  hscanned.handOut
  | walking hw hstate =>
      obtain ⟨out, hstep, hout⟩ := step_stepped hseen hw hstate s
      refine ⟨Walk.handOut out, ?_, ?_⟩
      · simp [Walk.advance, hstate, hstep]
      · have hnil : seen s = seen s ++
            ([] : List (Path n × Edge n V H)).map Prod.snd := by
          simp
        rw [todo_eq_map]
        exact (hout.scanned rfl hnil).handOut
  | done hstate =>
      refine ⟨(.ok none, w, s), ?_, .ended rfl hstate (by simp)⟩
      simp [Walk.advance, hstate]

end Advance

end Walk

/-! ## The reads of an iterator -/

/-- Listed nodes in the order of their full paths. -/
def Ascending (pending : List (Path n × TrieNode n V H)) : Prop :=
  pending.Pairwise fun a b => fullPath a < fullPath b

/-- The full path of the node behind a listed edge. -/
def edgePath (se : Path n × Edge n V H) : Path n := fullPath (behind se)

section Next

variable {store : EdgeStore n V H σ ε} {seen : σ → List (Edge n V H)}
  {w : Walk n V H} {pending : List (Path n × TrieNode n V H)}
  {unread : List (Path n × Edge n V H)}

/-- How a call of `next` ends, and what it has read: up to the edge of the
entry it yields. -/
inductive Reads (store : EdgeStore n V H σ ε)
    (seen : σ → List (Edge n V H)) (pending : List (Path n × TrieNode n V H))
    (unread : List (Path n × Edge n V H)) (s : σ) :
    Option (Except ε (Path n × V)) × Walk n V H × σ → Prop
  | failed {x : ε} {w : Walk n V H} {s' : σ}
      {front : List (Path n × Edge n V H)} (hfail : ¬ store.NeverFails)
      (hdone : w.state = .done) (hfront : front <+: unread)
      (hseen : seen s' = seen s ++ front.map Prod.snd) :
      Reads store seen pending unread s (some (.error x), w, s')
  | ended {w : Walk n V H} {s' : σ} (hdone : w.state = .done)
      (hseen : seen s' = seen s ++ unread.map Prod.snd) :
      Reads store seen pending unread s (none, w, s')
  | item {kv : Path n × V} {w : Walk n V H} {s' : σ}
      {front rest : List (Path n × Edge n V H)}
      (hmem : ∃ sm ∈ pending, fullPath sm = kv.1)
      (hsub : rest.map behind <:+ pending) (hunread : unread = front ++ rest)
      (hw : Reading w (rest.map behind) rest)
      (hseen : seen s' = seen s ++ front.map Prod.snd)
      (hfront : ∀ se ∈ front, edgePath se ≤ kv.1)
      (hrest : ∀ sm ∈ rest.map behind, kv.1 < fullPath sm) :
      Reads store seen pending unread s (some (.ok kv), w, s')

/-- What is read up to a node that is handed out comes no later than it. -/
theorem le_of_read {front rest : List (Path n × Edge n V H)}
    {sm : Path n × TrieNode n V H}
    (hunread : Ascending ((front ++ rest).map behind))
    (hlast : front = [] ∨
      ∃ front' se, front = front' ++ [se] ∧ behind se = sm) :
    ∀ se ∈ front, edgePath se ≤ fullPath sm := by
  rcases hlast with rfl | ⟨front', se', rfl, rfl⟩
  · simp
  · rw [Ascending, List.map_append, List.map_append] at hunread
    have hfront := (List.pairwise_append.mp hunread).1
    intro se hse
    rcases List.mem_append.mp hse with hse | hse
    · exact ((List.pairwise_append.mp hfront).2.2 (behind se)
        (List.mem_map_of_mem hse) (behind se') List.mem_cons_self).le
    · rw [List.mem_singleton.mp hse]
      exact le_refl _

theorem Walk.Reading.next (hseen : Lists store seen)
    (hw : Reading w pending unread) (hpending : Ascending pending)
    (hunread : Ascending (unread.map behind)) (s : σ) :
    ∃ out, next store w s = .ok out ∧
      Reads store seen pending unread s out := by
  refine run_of_invariant
    (I := fun ws => ∃ p u front, Reading ws.1 p u ∧ unread = front ++ u ∧
      p <:+ pending ∧ seen ws.2 = seen s ++ front.map Prod.snd ∧
      ∀ se ∈ front, ∀ sm ∈ p, edgePath se < fullPath sm)
    ?_ (w, s) ⟨pending, unread, [], hw, rfl, List.suffix_refl _, by simp,
      by simp⟩
  rintro ⟨w₁, s₁⟩ ⟨p, u, front, hw₁, hu, hp, hs₁, hfront⟩
  obtain ⟨out, hadvance, hout⟩ := hw₁.advance hseen s₁
  simp only [nextBody, hadvance, ok_bind]
  have hall : ∀ {s₂ : σ} {front₂ : List (Path n × Edge n V H)},
      seen s₂ = seen s₁ ++ front₂.map Prod.snd →
        seen s₂ = seen s ++ (front ++ front₂).map Prod.snd := by
    intro s₂ front₂ hs₂
    rw [hs₂, hs₁, List.map_append, List.append_assoc]
  cases hout with
  | failed hfail hdone hfront₂ hseen₂ =>
      refine Or.inr ⟨_, rfl, .failed hfail hdone ?_ (hall hseen₂)⟩
      rw [hu]
      exact (List.prefix_append_right_inj front).mpr hfront₂
  | ended _ hdone hseen₂ =>
      refine Or.inr ⟨_, rfl, .ended hdone ?_⟩
      rw [hu]
      exact hall hseen₂
  | @node sm w₂ s₂ front₂ rest hp₂ hu₂ hw₂ hseen₂ hlast =>
      subst hp₂ hu₂
      have hascending : Ascending ((front₂ ++ rest).map behind) := by
        rw [hu, List.map_append] at hunread
        exact (List.pairwise_append.mp hunread).2.1
      have hsm : ∀ se ∈ front ++ front₂, edgePath se ≤ fullPath sm := by
        intro se hse
        rcases List.mem_append.mp hse with hse | hse
        · exact (hfront se hse sm List.mem_cons_self).le
        · exact le_of_read hascending hlast se hse
      have hrest : ∀ sm' ∈ rest.map behind, fullPath sm < fullPath sm' :=
        (List.pairwise_cons.mp (hpending.sublist hp.sublist)).1
      have hsuffix : rest.map behind <:+ pending :=
        (List.suffix_cons sm _).trans hp
      rw [← List.append_assoc] at hu
      cases hv : sm.2.value with
      | none =>
          refine Or.inl ⟨(w₂, s₂), by simp [hv], rest.map behind, rest,
            front ++ front₂, hw₂, hu, hsuffix, hall hseen₂, ?_⟩
          intro se hse sm' hsm'
          exact (hsm se hse).trans_lt (hrest sm' hsm')
      | some v =>
          refine Or.inr ⟨(some (.ok (fullPath sm, v)), w₂, s₂), by simp [hv],
            .item ⟨sm, hp.subset List.mem_cons_self, rfl⟩ hsuffix hu hw₂
              (hall hseen₂) hsm hrest⟩

/-- What `k` calls of `next` with the answers `rs` have read: the edges
`front`. -/
structure ReadsAll (store : EdgeStore n V H σ ε)
    (pending : List (Path n × TrieNode n V H))
    (unread front : List (Path n × Edge n V H))
    (rs : List (Option (Except ε (Path n × V)))) : Prop where
  untouched : rs = [] → front = []
  initial : front <+: unread
  yielded : ∀ kv, some (.ok kv) ∈ rs → ∃ sm ∈ pending, fullPath sm = kv.1
  /-- Nothing is read ahead of the last entry yielded. -/
  upTo : ∀ rs' kv, rs = rs' ++ [some (.ok kv)] →
    front = unread.filter fun se => decide (edgePath se ≤ kv.1)
  /-- At the end everything is read. -/
  exhausted : store.NeverFails → none ∈ rs → front = unread

theorem filter_le_append {front rest : List (Path n × Edge n V H)}
    {q : Path n} (hfront : ∀ se ∈ front, edgePath se ≤ q) :
    ((front ++ rest).filter fun se => decide (edgePath se ≤ q)) =
      front ++ rest.filter fun se => decide (edgePath se ≤ q) := by
  rw [List.filter_append, List.filter_eq_self.mpr]
  intro se hse
  exact decide_eq_true (hfront se hse)

/-- A walk that is done reads nothing more. -/
theorem not_last_of_replicate {α : Type} {k : ℕ} {r : Option α} {a : α}
    {rs : List (Option α)} (hr : r ≠ some a)
    (h : r :: List.replicate k none = rs ++ [some a]) : False := by
  have hmem : some a ∈ r :: List.replicate k none := by
    rw [h]
    exact List.mem_append_right rs List.mem_cons_self
  rcases List.mem_cons.mp hmem with h | h
  · exact hr h.symm
  · cases List.eq_of_mem_replicate h

theorem Walk.Reading.nextAll (hseen : Lists store seen) (k : ℕ)
    (hw : Reading w pending unread) (hpending : Ascending pending)
    (hunread : Ascending (unread.map behind)) (s : σ) :
    ∃ rs w' s' front, ArityTries.nextAll store k w s = .ok (rs, w', s') ∧
      seen s' = seen s ++ front.map Prod.snd ∧
      ReadsAll store pending unread front rs := by
  induction k generalizing w pending unread s with
  | zero =>
      refine ⟨[], w, s, [], rfl, by simp, fun _ => rfl, List.nil_prefix,
        by simp, by simp, ?_⟩
      rintro - ⟨⟩
  | succ k ih =>
      obtain ⟨⟨r, w₁, s₁⟩, hnext, hreads⟩ := hw.next hseen hpending hunread s
      cases hreads with
      | @failed x _ _ front hfail hdone hfront hseen₁ =>
          refine ⟨some (.error x) :: List.replicate k none, w₁, s₁, front, ?_,
            hseen₁, by simp, hfront, ?_, ?_,
            fun hstore => (hfail hstore).elim⟩
          · simp only [ArityTries.nextAll, hnext, nextAll_of_done hdone,
              ok_bind, pure_eq_ok]
          · simp
          · intro rs' kv hrs
            exact (not_last_of_replicate (by simp) hrs).elim
      | ended hdone hseen₁ =>
          refine ⟨none :: List.replicate k none, w₁, s₁, unread, ?_, hseen₁,
            by simp, List.prefix_refl _, ?_, ?_, fun _ _ => rfl⟩
          · simp only [ArityTries.nextAll, hnext, nextAll_of_done hdone,
              ok_bind, pure_eq_ok]
          · simp
          · intro rs' kv hrs
            exact (not_last_of_replicate (by simp) hrs).elim
      | @item kv _ _ front rest hmem hsub hu hw₁ hseen₁ hfront hrest =>
          have hascending : Ascending (rest.map behind) :=
            hpending.sublist hsub.sublist
          obtain ⟨rs, w', s', front', hall, hseen', hreads⟩ :=
            ih hw₁ hascending hascending s₁
          subst hu
          refine ⟨some (.ok kv) :: rs, w', s', front ++ front', ?_, ?_,
            by simp, ?_, ?_, ?_, ?_⟩
          · simp only [ArityTries.nextAll, hnext, hall, ok_bind, pure_eq_ok]
          · rw [hseen', hseen₁, List.map_append, List.append_assoc]
          · exact (List.prefix_append_right_inj front).mpr hreads.initial
          · intro kv' hkv'
            rcases List.mem_cons.mp hkv' with heq | hkv'
            · cases heq
              exact hmem
            · obtain ⟨sm, hsm, heq⟩ := hreads.yielded kv' hkv'
              exact ⟨sm, hsub.subset hsm, heq⟩
          · intro rs' kv' hrs
            rcases List.cons_eq_append_iff.mp hrs with
              ⟨-, hlast⟩ | ⟨rs'', rfl, hlast⟩
            · obtain ⟨heq, rfl⟩ := List.cons.inj hlast
              cases heq
              have hlater : (rest.filter fun se =>
                  decide (edgePath se ≤ kv.1)) = [] := by
                refine List.filter_eq_nil_iff.mpr ?_
                intro se hse
                have hlt : kv.1 < edgePath se :=
                  hrest (behind se) (List.mem_map_of_mem hse)
                simpa using hlt
              rw [hreads.untouched rfl, filter_le_append hfront, hlater]
            · have hmem' : some (.ok kv') ∈ rs := by
                rw [hlast]
                exact List.mem_append_right rs'' List.mem_cons_self
              obtain ⟨sm, hsm, heq⟩ := hreads.yielded kv' hmem'
              have hle : kv.1 ≤ kv'.1 := heq ▸ (hrest sm hsm).le
              rw [hreads.upTo rs'' kv' hlast,
                filter_le_append fun se hse => (hfront se hse).trans hle]
          · intro hstore hnone
            rcases List.mem_cons.mp hnone with heq | hnone
            · cases heq
            · rw [hreads.exhausted hstore hnone]

end Next

theorem EdgeStore.NeverFails.listed {store : EdgeStore n V H σ ε}
    (h : store.NeverFails) : store.listed.NeverFails :=
  ⟨fun s e x => h.read s.1 e x, fun s e x => h.materialize s.1 e x⟩

/-- The nodes behind the edges of a trie are its nodes but the root. -/
theorem map_behind_edges (t : Trie n V H) :
    t.edges.map behind = t.nodes.tail := by
  cases t <;> rfl

/-- However often `next` is called and however the store fails, a scan from
`start` has read an initial part of the edges whose slot may lead to a key at
or after the start, in key order: up to the entry it yielded last, if the last
call yielded one, and all of them once it has reached the end. -/
theorem range_scan_reads (store : EdgeStore n V H σ ε) (t : Trie n V H)
    (start : Option (Path n)) (k : ℕ) (s : σ) :
    ∃ rs w s' read, nextAll store.listed k (iter t start) (s, []) =
        .ok (rs, w, s', read.map Prod.snd) ∧
      read <+: readsFrom t start ∧
      (∀ rs' kv, rs = rs' ++ [some (.ok kv)] →
        read = (readsFrom t start).filter fun se =>
          decide (edgePath se ≤ kv.1)) ∧
      (store.NeverFails → none ∈ rs → read = readsFrom t start) := by
  have hnodes : Ascending t.nodes := by
    cases t with
    | none => exact List.Pairwise.nil
    | some nd => exact nodes_ascending [] nd
  have hunread : Ascending ((readsFrom t start).map behind) := by
    have hedges : Ascending (t.edges.map behind) := by
      rw [map_behind_edges]
      exact hnodes.sublist (List.tail_sublist _)
    exact hedges.sublist (List.filter_sublist.map behind)
  obtain ⟨rs, w, ⟨s', seen⟩, read, hall, hseen, hreads⟩ :=
    Walk.Reading.nextAll (listed_lists store) k (.fresh t start)
      (hnodes.sublist List.filter_sublist) hunread (s, [])
  obtain rfl : seen = read.map Prod.snd := by simpa using hseen
  exact ⟨rs, w, s', read, hall, hreads.initial, hreads.upTo,
    fun hstore => hreads.exhausted hstore.listed⟩

end ArityTries
