import Mathlib.Data.List.Basic
import ArityArrays.Tries.Walking.Validation

/-!
# Walks over a store that fails

A walk over any store takes a course: it hands out some of the nodes in turn
and then ends or reports the failure of a read.  Iteration, visiting and
validation follow the course, so each sees a first part of what it would see
over a store that never fails, and then the failure, once.
-/

namespace ArityTries

open Checked Loop Node Walk

variable {n : ℕ} {V H σ ε τ : Type}

/-! ## Failing reads -/

/-- The failure of a result that is one. -/
def failureOf {α : Type} : Except ε α → Option ε
  | .ok _ => none
  | .error x => some x

/-- The states of a store list the reads that failed. -/
def Records (store : EdgeStore n V H σ ε) (failed : σ → List ε) : Prop :=
  ∀ s e, failed (store.read s e).2 =
    failed s ++ (failureOf (store.read s e).1).toList

/-- The store that also lists the reads that failed. -/
def EdgeStore.watched (store : EdgeStore n V H σ ε) :
    EdgeStore n V H (σ × List ε) ε :=
  store.noting fun failed _ r => failed ++ (failureOf r).toList

theorem watched_records (store : EdgeStore n V H σ ε) :
    Records store.watched Prod.snd :=
  fun _ _ => rfl

section Records

variable {store : EdgeStore n V H σ ε} {failed : σ → List ε}

theorem Records.step (hfailed : Records store failed) {w w' : Walk n V H}
    {s s' : σ} {r : Except ε (Option (TrieNode n V H))}
    (hstep : step store w s = .ok (r, w', s')) :
    failed s' = failed s ++ (failureOf r).toList := by
  induction hframes : w.frames generalizing w with
  | nil =>
      rw [step_of_nil hframes] at hstep
      cases hstep
      simp [failureOf]
  | cons f rest ih =>
      rcases hi : Bitmap.select f.remaining 0 with _ | i
      · rw [step_of_exhausted hframes hi] at hstep
        exact ih hstep (popFrame_frames hframes)
      · rw [step_of_select hframes hi] at hstep
        obtain ⟨edge, -, hstep⟩ := bind_eq_ok.mp hstep
        have hread := hfailed s edge
        rcases store.read_cases s edge with ⟨x, s₁, hr⟩ | ⟨s₁, hr⟩
        · rw [hr] at hstep hread
          cases hstep
          exact hread
        · rw [hr] at hstep hread
          cases hstep
          exact hread

/-- A pass of the seek that goes on has failed no read. -/
theorem Records.seekBody (hfailed : Records store failed) {start : Path n}
    {w : Walk n V H} {s : σ} {pass : Pass (Walk n V H × σ)
      (Except ε (Option (TrieNode n V H)) × Walk n V H × σ)}
    (h : seekBody store start (w, s) = .ok pass) :
    (∀ ws, pass = .again ws → failed ws.2 = failed s) ∧
      ∀ out, pass = .leave out →
        failed out.2.2 = failed s ++ (failureOf out.1).toList := by
  rcases seekBody_pass h with _ | ⟨-, hstep⟩ | ⟨-, hstep⟩ | ⟨-, -, hstep⟩ | hstep
  · refine ⟨by simp, ?_⟩
    rintro out ⟨⟩
    simp [failureOf]
  · refine ⟨by simp, ?_⟩
    rintro out ⟨⟩
    exact hfailed.step hstep
  · refine ⟨by simp, ?_⟩
    rintro out ⟨⟩
    exact hfailed.step hstep
  · refine ⟨?_, by simp⟩
    rintro ws ⟨⟩
    simpa [failureOf] using hfailed.step hstep
  · refine ⟨by simp, ?_⟩
    rintro out ⟨⟩
    exact hfailed.step hstep

theorem Records.seek (hfailed : Records store failed) {w : Walk n V H} {s : σ}
    {out : Except ε (Option (TrieNode n V H)) × Walk n V H × σ}
    (hseek : seek store w s = .ok out) :
    failed out.2.2 = failed s ++ (failureOf out.1).toList := by
  obtain ⟨start, -, hrun⟩ := bind_eq_ok.mp hseek
  refine run_eq_ok_of_invariant (I := fun ws => failed ws.2 = failed s)
    (Q := fun out => failed out.2.2 = failed s ++ (failureOf out.1).toList)
    ?_ ?_ rfl hrun
  · rintro ⟨w₁, s₁⟩ ws hs hbody
    rw [(hfailed.seekBody hbody).1 ws rfl, hs]
  · rintro ⟨w₁, s₁⟩ out hs hbody
    rw [(hfailed.seekBody hbody).2 out rfl, hs]

theorem handOut_failed (failed : σ → List ε)
    {out : Except ε (Option (TrieNode n V H)) × Walk n V H × σ} {s : σ}
    (h : failed out.2.2 = failed s ++ (failureOf out.1).toList) :
    failed (handOut out).2.2 =
      failed s ++ (failureOf (handOut out).1).toList := by
  obtain ⟨_ | _ | _, w, s'⟩ := out
  · exact h
  · exact h
  · exact h

/-- A call of `advance` reports the read that failed, if one did. -/
theorem Records.advance (hfailed : Records store failed) {w : Walk n V H}
    {s : σ} {out : Except ε (Option (Path n × TrieNode n V H)) × Walk n V H × σ}
    (h : w.advance store s = .ok out) :
    failed out.2.2 = failed s ++ (failureOf out.1).toList := by
  unfold Walk.advance at h
  split at h
  · cases h
    simp [failureOf]
  · split at h
    · cases h
      simp [handOut, failureOf]
    · dsimp only at h
      split at h
      · obtain ⟨out', hseek, rfl⟩ := map_eq_ok.mp h
        exact handOut_failed failed (hfailed.seek hseek)
      · cases h
        simp [handOut, failureOf]
  · obtain ⟨out', hseek, rfl⟩ := map_eq_ok.mp h
    exact handOut_failed failed (hfailed.seek hseek)
  · obtain ⟨⟨r, w', s'⟩, hstep, rfl⟩ := map_eq_ok.mp h
    exact handOut_failed failed (hfailed.step hstep)

end Records

/-! ## The course of a walk -/

theorem advance_of_done {store : EdgeStore n V H σ ε} {w : Walk n V H}
    (hdone : w.state = .done) (s : σ) :
    w.advance store s = .ok (.ok none, w, s) := by
  simp only [Walk.advance, hdone]

theorem handOut_done {out : Except ε (Option (TrieNode n V H)) × Walk n V H × σ}
    (h : ∀ sm, (handOut out).1 ≠ .ok (some sm)) :
    (handOut out).2.1.state = .done := by
  obtain ⟨_ | _ | m, w, s⟩ := out
  · rfl
  · rfl
  · exact absurd rfl (h (w.buf, m))

/-- A walk that hands out nothing is done. -/
theorem advance_done {store : EdgeStore n V H σ ε} {w : Walk n V H} {s : σ}
    {out : Except ε (Option (Path n × TrieNode n V H)) × Walk n V H × σ}
    (h : w.advance store s = .ok out) (hnone : ∀ sm, out.1 ≠ .ok (some sm)) :
    out.2.1.state = .done := by
  unfold Walk.advance at h
  split at h
  · next hdone =>
      cases h
      exact hdone
  · split at h
    · cases h
      rfl
    · dsimp only at h
      split at h
      · obtain ⟨out', -, rfl⟩ := map_eq_ok.mp h
        exact handOut_done hnone
      · cases h
        exact absurd rfl (hnone _)
  · obtain ⟨out', -, rfl⟩ := map_eq_ok.mp h
    exact handOut_done hnone
  · obtain ⟨out', -, rfl⟩ := map_eq_ok.mp h
    exact handOut_done hnone

/-- From a state of the store a walk hands out the nodes `seen` in turn, and
then ends in another state or reports `failure`. -/
inductive Course (store : EdgeStore n V H σ ε) :
    Walk n V H → σ → List (Path n × TrieNode n V H) → Option ε → σ → Prop
  | stop {w w' : Walk n V H} {s s' : σ} (failure : Option ε)
      (hadvance : w.advance store s =
        .ok (failure.elim (.ok none) .error, w', s'))
      (hdone : w'.state = .done) : Course store w s [] failure s'
  | node {w w' : Walk n V H} {s s' s'' : σ} {sm : Path n × TrieNode n V H}
      {seen : List (Path n × TrieNode n V H)} {failure : Option ε}
      (hadvance : w.advance store s =
        .ok (.ok (some (fullPath sm, sm.2)), w', s'))
      (hrest : Course store w' s' seen failure s'') :
      Course store w s (sm :: seen) failure s''

/-- Every walk takes a course: it hands out a first part of the nodes it has
left, and all of them unless a read fails. -/
theorem Walk.Pending.course {w : Walk n V H}
    {pending : List (Path n × TrieNode n V H)} (hw : Pending w pending)
    (store : EdgeStore n V H σ ε) (s : σ) :
    ∃ seen failure s', Course store w s seen failure s' ∧ seen <+: pending ∧
      (failure = none → seen = pending) ∧
      (store.NeverFails → failure = none) := by
  induction pending generalizing w s with
  | nil =>
      obtain ⟨out, hadvance, hout⟩ := hw.advance store s
      rcases hout with ⟨hfail, -⟩ | _ | ⟨hpending, -⟩
      · refine ⟨[], some _, _, .stop (some _) hadvance
          (advance_done hadvance (by simp)), List.prefix_refl _, by simp,
          fun hstore => absurd hstore hfail⟩
      · exact ⟨[], none, _, .stop none hadvance
          (advance_done hadvance (by simp)), List.prefix_refl _,
          fun _ => rfl, fun _ => rfl⟩
      · cases hpending
  | cons sm rest ih =>
      obtain ⟨out, hadvance, hout⟩ := hw.advance store s
      rcases hout with ⟨hfail, -⟩ | ⟨hpending, -⟩ | ⟨hpending, hw'⟩
      · exact ⟨[], some _, _, .stop (some _) hadvance
          (advance_done hadvance (by simp)), List.nil_prefix, by simp,
          fun hstore => absurd hstore hfail⟩
      · cases hpending
      · obtain ⟨rfl, rfl⟩ := List.cons.inj hpending
        obtain ⟨seen, failure, s', hcourse, hprefix, hall, hnever⟩ := ih hw' _
        refine ⟨_ :: seen, failure, s', .node hadvance hcourse, ?_, ?_, hnever⟩
        · rw [List.prefix_cons_inj]
          exact hprefix
        · intro hfailure
          rw [hall hfailure]

/-- The only read that may fail along a course is the one it reports. -/
theorem Course.failed {store : EdgeStore n V H σ ε} {failed : σ → List ε}
    (hfailed : Records store failed) {w : Walk n V H} {s s' : σ}
    {seen : List (Path n × TrieNode n V H)} {failure : Option ε}
    (h : Course store w s seen failure s') :
    failed s' = failed s ++ failure.toList := by
  induction h with
  | stop failure hadvance _ =>
      have hreads := hfailed.advance hadvance
      cases failure <;> simpa [failureOf] using hreads
  | node hadvance _ ih =>
      have hreads := hfailed.advance hadvance
      rw [ih]
      simpa [failureOf] using hreads

/-! ## Iteration -/

/-- The items of an iterator that meets a failure after them. -/
def interrupted {α : Type} (items : List α) (failure : Option ε) :
    List (Except ε α) :=
  items.map .ok ++ (failure.map .error).toList

theorem next_of_done {store : EdgeStore n V H σ ε} {w : Walk n V H}
    (hdone : w.state = .done) (s : σ) :
    next store w s = .ok (none, w, s) := by
  apply run_of_leave
  simp only [nextBody, advance_of_done hdone, ok_bind, pure_eq_ok]

theorem nextAll_of_done {store : EdgeStore n V H σ ε} {w : Walk n V H}
    (hdone : w.state = .done) (s : σ) (k : ℕ) :
    nextAll store k w s = .ok (List.replicate k none, w, s) := by
  induction k with
  | zero => rfl
  | succ k ih =>
      simp only [nextAll, next_of_done hdone, ih, ok_bind, pure_eq_ok]
      rfl

/-- A call of `next` follows the course up to its next value. -/
theorem Course.next {store : EdgeStore n V H σ ε} {w : Walk n V H} {s s' : σ}
    {seen : List (Path n × TrieNode n V H)} {failure : Option ε}
    (h : Course store w s seen failure s') :
    (∃ kv rest w₁ s₁, entriesOf seen = kv :: entriesOf rest ∧
      ArityTries.next store w s = .ok (some (.ok kv), w₁, s₁) ∧
      Course store w₁ s₁ rest failure s') ∨
    entriesOf seen = [] ∧ ∃ w₁, w₁.state = .done ∧
      ArityTries.next store w s = .ok (failure.map .error, w₁, s') := by
  induction h with
  | @stop w w' s s' failure hadvance hdone =>
      refine Or.inr ⟨rfl, w', hdone, ?_⟩
      apply run_of_leave
      simp only [nextBody, hadvance, ok_bind]
      cases failure <;> rfl
  | @node w w' s s₁ s' sm seen failure hadvance hrest ih =>
      rcases hv : sm.2.value with _ | v
      · have hagain : ArityTries.next store w s =
            ArityTries.next store w' s₁ := by
          apply run_of_again
          simp only [nextBody, hadvance, ok_bind, hv, pure_eq_ok]
        rw [entriesOf_cons_of_none hv, hagain]
        exact ih
      · refine Or.inl ⟨(fullPath sm, v), seen, w', s₁,
          entriesOf_cons_of_value hv seen, ?_, hrest⟩
        apply run_of_leave
        simp only [nextBody, hadvance, ok_bind, hv, pure_eq_ok]

/-- The iterator yields the values along the course, then the failure, and
then `none` for ever; it fails no read but the one it reports. -/
theorem Course.nextAll {store : EdgeStore n V H σ ε} (k : ℕ) {w : Walk n V H}
    {s s' : σ} {seen : List (Path n × TrieNode n V H)} {failure : Option ε}
    (h : Course store w s seen failure s') :
    ∃ w' s'', ArityTries.nextAll store k w s =
      .ok ((List.range k).map fun j =>
        (interrupted (entriesOf seen) failure)[j]?, w', s'') ∧
      ∀ failed, Records store failed → failed s'' = failed s ++
        ((List.range k).filterMap fun j =>
          (interrupted (entriesOf seen) failure)[j]?.bind failureOf) := by
  induction k generalizing w s seen with
  | zero => exact ⟨w, s, rfl, fun failed _ => by simp⟩
  | succ k ih =>
      rw [List.range_succ_eq_map]
      rcases h.next with
        ⟨kv, rest, w₁, s₁, hseen, hnext, hcourse⟩ | ⟨hseen, w₁, hdone, hnext⟩
      · obtain ⟨w', s'', hall, hrecords⟩ := ih hcourse
        refine ⟨w', s'', ?_, fun failed hfailed => ?_⟩
        · simp only [ArityTries.nextAll, hnext, hall, ok_bind, pure_eq_ok,
            hseen, interrupted, List.map_cons, List.map_map]
          rfl
        · have hcall := h.failed hfailed
          have hlater := hcourse.failed hfailed
          have hsame : failed s₁ = failed s := by
            rw [hcall] at hlater
            exact (List.append_cancel_right hlater).symm
          rw [hrecords failed hfailed, hsame, hseen, List.filterMap_cons_none
            (by simp [interrupted, failureOf]), List.filterMap_map]
          rfl
      · refine ⟨w₁, s', ?_, fun failed hfailed => ?_⟩
        · have hrest : (List.range k).map
              ((fun j => (interrupted ([] : List (Path n × V)) failure)[j]?) ∘
                Nat.succ) = List.replicate k none := by
            rw [List.eq_replicate_iff]
            constructor
            · simp
            · intro o ho
              obtain ⟨j, -, rfl⟩ := List.mem_map.mp ho
              cases failure <;> simp [interrupted]
          simp only [ArityTries.nextAll, hnext, nextAll_of_done hdone, ok_bind,
            pure_eq_ok, hseen, List.map_cons, List.map_map, hrest]
          cases failure <;> rfl
        · rw [h.failed hfailed, hseen]
          cases failure <;> simp [interrupted, failureOf, List.filterMap_map]

/-! ## Visiting -/

/-- A visit calls `f` along the course until it breaks, and returns the failure
if it does not. -/
theorem Course.visit {store : EdgeStore n V H σ ε}
    (f : τ → Path n → TrieNode n V H → ControlFlow × τ) {w : Walk n V H}
    {s s' : σ} {seen : List (Path n × TrieNode n V H)} {failure : Option ε}
    (h : Course store w s seen failure s') (c : τ) :
    ∃ r s'', run (visitBody store f) _ (visitBody_decreases store f)
        (w, c, s) = .ok (r, (callAll f (valuedNodes seen) c).2, s'') ∧
      ((callAll f (valuedNodes seen) c).1 = .Break ∧ r = .ok .Break ∨
        (callAll f (valuedNodes seen) c).1 = .Continue ∧
          r = failure.elim (.ok .Continue) .error) ∧
      ∀ failed, Records store failed →
        failed s'' = failed s ++ (failureOf r).toList := by
  induction h generalizing c with
  | @stop w w' s s' failure hadvance hdone =>
      refine ⟨failure.elim (.ok .Continue) .error, s', ?_, Or.inr ⟨rfl, rfl⟩, ?_⟩
      · apply run_of_leave
        simp only [visitBody, hadvance, ok_bind]
        cases failure <;> rfl
      · intro failed hfailed
        have hreads := hfailed.advance hadvance
        cases failure <;> exact hreads
  | @node w w' s s₁ s' sm seen failure hadvance hrest ih =>
      have hreads : ∀ failed, Records store failed →
          failed s₁ = failed s := by
        intro failed hfailed
        simpa [failureOf] using hfailed.advance hadvance
      have hagain : ∀ c', visitBody store f (w, c, s) =
          .ok (.again (w', c', s₁)) → ∀ rest : ControlFlow × τ,
          rest = callAll f (valuedNodes seen) c' →
          ∃ r s'', run (visitBody store f) _ (visitBody_decreases store f)
              (w, c, s) = .ok (r, rest.2, s'') ∧
            (rest.1 = .Break ∧ r = .ok .Break ∨ rest.1 = .Continue ∧
              r = failure.elim (.ok .Continue) .error) ∧
            ∀ failed, Records store failed →
              failed s'' = failed s ++ (failureOf r).toList := by
        rintro c' hbody _ rfl
        obtain ⟨r, s'', hrun, hr, hlater⟩ := ih c'
        refine ⟨r, s'', ?_, hr, fun failed hfailed => ?_⟩
        · rw [run_of_again hbody, hrun]
        · rw [hlater failed hfailed, hreads failed hfailed]
      rcases hv : sm.2.value with _ | v
      · rw [valuedNodes_cons_of_none hv]
        refine hagain c ?_ _ rfl
        simp only [visitBody, hadvance, ok_bind, hv, pure_eq_ok]
        rfl
      · rw [valuedNodes_cons_of_value hv]
        rcases hf : f c (fullPath sm) sm.2 with ⟨_ | _, c'⟩
        · refine hagain c' ?_ _ (by simp only [callAll, hf])
          simp [visitBody, hadvance, hv, hf]
        · refine ⟨.ok .Break, s₁, ?_, Or.inl ⟨by simp only [callAll, hf], rfl⟩,
            fun failed hfailed => ?_⟩
          · apply run_of_leave
            simp [visitBody, hadvance, hv, hf, callAll]
          · rw [hreads failed hfailed]
            simp [failureOf]

/-! ## Validation -/

/-- A walk without a start, and the nodes it has left. -/
inductive Unsought : Walk n V H → List (Path n × TrieNode n V H) → Prop
  | fresh (root : Trie n V H) : Unsought (Walk.new root none) root.nodes
  | walking {w : Walk n V H} (hw : Aligned w.chain w.frames w.buf)
      (hstate : w.state = .walking) : Unsought w (todo w.buf w.frames)

/-- A step reads the edge to the first node a walk has left, and nothing
else. -/
theorem step_reads (store : EdgeStore n V H σ ε) {w : Walk n V H}
    (hw : Aligned w.chain w.frames w.buf) (hstate : w.state = .walking)
    (s : σ) :
    (todo w.buf w.frames = [] ∧ ∃ w', step store w s = .ok (.ok none, w', s)) ∨
    ∃ L e rest, todo w.buf w.frames = (L, e.node) :: rest ∧
      ((∃ x w' s', store.read s e = (.error x, s') ∧
          step store w s = .ok (.error x, w', s')) ∨
        ∃ w' s', step store w s = .ok (.ok (some e.node), w', s') ∧
          w'.buf = L ++ e.node.partialPath ∧ Unsought w' rest) := by
  induction hframes : w.frames generalizing w with
  | nil => exact Or.inl ⟨rfl, w, step_of_nil hframes⟩
  | cons f rest ih =>
      rcases hi : Bitmap.select f.remaining 0 with _ | i
      · rw [step_of_exhausted hframes hi, todo_cons,
          beneath_of_select_none hi, List.nil_append]
        have hpop := popFrame_frames hframes
        have hw' := hw.popFrame hframes
        rw [← hpop] at hw'
        exact ih hw' hstate hpop
      · have hw' := hw
        rw [hframes] at hw'
        obtain ⟨e, he⟩ := ChildMap.mem_present.mp
          (hw'.present f List.mem_cons_self (Bitmap.mem_of_select_zero hi))
        have htodo := entered_todo_cons hw hframes hi he
        rw [hframes] at htodo
        refine Or.inr ⟨_, e, _, htodo, ?_⟩
        rw [step_of_select hframes hi, he, expect_some, ok_bind]
        rcases store.read_cases s e with ⟨x, s', hr⟩ | ⟨s', hr⟩
        · refine Or.inl ⟨x, { w with
            frames := { f with
              remaining := Bitmap.withoutBit f.remaining i } :: rest
            buf := w.buf.take f.pathLen ++ [i] }, s', hr, ?_⟩
          rw [hr]
          rfl
        · refine Or.inr ⟨w.entered f rest i e.node, s', ?_, rfl,
            .walking (hw.entered hframes e.node) hstate⟩
          rw [hr]
          rfl

/-- A call of `advance` without a start reads at most the edge to the node it
hands out. -/
theorem Unsought.advance {w : Walk n V H}
    {pending : List (Path n × TrieNode n V H)} (hw : Unsought w pending)
    (store : EdgeStore n V H σ ε) (s : σ) :
    (pending = [] ∧ ∃ w', w.advance store s = .ok (.ok none, w', s)) ∨
    ∃ sm rest, pending = sm :: rest ∧
      ((∃ x e w' s', e.node = sm.2 ∧ store.read s e = (.error x, s') ∧
          w.advance store s = .ok (.error x, w', s')) ∨
        ∃ w' s', w.advance store s =
          .ok (.ok (some (fullPath sm, sm.2)), w', s') ∧ Unsought w' rest) := by
  rcases hw with root | ⟨hw, hstate⟩
  · rcases root with _ | root
    · exact Or.inl ⟨rfl, _, rfl⟩
    · have hroot := seeking_root root [] .walking
      refine Or.inr ⟨([], root), _, nodes_eq_beneath [] root,
        Or.inr ⟨_, s, rfl, ?_⟩⟩
      have hw := Unsought.walking hroot.aligned rfl
      simpa [Walk.new] using hw
  · have hadvance : w.advance store s = handOut <$> step store w s := by
      simp only [Walk.advance, hstate]
    rcases step_reads store hw hstate s with
      ⟨htodo, w', hstep⟩ | ⟨L, e, rest, htodo, hread | hfound⟩
    · exact Or.inl ⟨htodo, _, by rw [hadvance, hstep]; rfl⟩
    · obtain ⟨x, w', s', hread, hstep⟩ := hread
      exact Or.inr ⟨_, rest, htodo, Or.inl ⟨x, e, _, s', rfl, hread,
        by rw [hadvance, hstep]; rfl⟩⟩
    · obtain ⟨w', s', hstep, hbuf, hw'⟩ := hfound
      refine Or.inr ⟨_, rest, htodo, Or.inr ⟨w', s', ?_, hw'⟩⟩
      rw [hadvance, hstep, fullPath_mk, ← hbuf]
      rfl

/-- How validation over a store that may fail ends: with the failure of a read
before the first violation, or as if nothing had failed. -/
inductive Halfway (store : EdgeStore n V H σ ε)
    (pending : List (Path n × TrieNode n V H)) :
    Except (ValidateError n ε) Unit × σ → Prop
  | failed {x : ε} {seen rest : List (Path n × TrieNode n V H)}
      {sm : Path n × TrieNode n V H} {e : Edge n V H} {s s' : σ}
      (hpending : pending = seen ++ sm :: rest)
      (hseen : firstViolation seen = none) (he : e.node = sm.2)
      (hread : store.read s e = (.error x, s')) :
      Halfway store pending (.error (.store x), s')
  | done (s : σ) : Halfway store pending (reported (firstViolation pending), s)

theorem firstViolation_append {seen : List (Path n × TrieNode n V H)}
    (hseen : firstViolation seen = none)
    (rest : List (Path n × TrieNode n V H)) :
    firstViolation (seen ++ rest) = firstViolation rest := by
  rw [firstViolation, List.findSome?_append]
  unfold firstViolation at hseen
  rw [hseen, Option.none_or, firstViolation]

/-- Validation fails at the read of a node with no violation before it, or
reports the first violation. -/
theorem validate_halfway (store : EdgeStore n V H σ ε) (t : Trie n V H)
    (s : σ) :
    ∃ out, validate store t s = .ok out ∧ Halfway store t.nodes out := by
  -- The nodes passed so far keep the invariant.
  refine run_of_invariant
    (I := fun ws => ∃ seen rest, t.nodes = seen ++ rest ∧
      firstViolation seen = none ∧ Unsought ws.1 rest)
    ?_ (Walk.new t none, s) ⟨[], t.nodes, rfl, rfl, .fresh t⟩
  rintro ⟨w₁, s₁⟩ ⟨seen, rest, hnodes, hseen, hw₁⟩
  have hfirst := firstViolation_append hseen rest
  rw [← hnodes] at hfirst
  rcases hw₁.advance store s₁ with
    ⟨rfl, w₂, hadvance⟩ | ⟨sm, rest', rfl, hread | hfound⟩
  · refine Or.inr ⟨(reported (firstViolation t.nodes), s₁), ?_, .done s₁⟩
    simp only [validateBody, hadvance, ok_bind, pure_eq_ok, hfirst]
    rfl
  · obtain ⟨x, e, w₂, s₂, he, hread, hadvance⟩ := hread
    refine Or.inr ⟨(.error (.store x), s₂), ?_,
      .failed hnodes hseen he hread⟩
    simp only [validateBody, hadvance, ok_bind, pure_eq_ok]
  · obtain ⟨w₂, s₂, hadvance, hw₂⟩ := hfound
    have hbody := validateBody_node hadvance
    rcases hv : violationAt sm with _ | v
    · rw [hv] at hbody
      refine Or.inl ⟨(w₂, s₂), hbody, seen ++ [sm], rest', ?_, ?_, hw₂⟩
      · rw [hnodes, List.append_assoc, List.singleton_append]
      · rw [firstViolation_append hseen, firstViolation,
          List.findSome?_cons, hv]
        rfl
    · rw [firstViolation.eq_def (sm :: rest'), List.findSome?_cons, hv] at hfirst
      rw [hv] at hbody
      refine Or.inr ⟨(reported (firstViolation t.nodes), s₂), ?_, .done s₂⟩
      rw [hbody, hfirst]

/-! ## Under failure -/

/-- Over any store, with `out` the entries and `vs` the valued nodes at or after
the start: iteration yields a first part of `out`, then the failure of a read
if one failed, and then `none` for ever; a visit calls its callback on the
nodes of the same part and then returns that failure; validation returns a
failure only of a read with no violation before it, and otherwise the first
violation.  No read fails but the one that is reported. -/
theorem iteration_under_failure (store : EdgeStore n V H σ ε) (t : Trie n V H)
    (start : Option (Path n)) (s : σ) :
    ∃ (out : List (Path n × V)) (vs : List (Path n × TrieNode n V H))
      (k : ℕ) (failure : Option ε),
      (∀ (σ' ε' : Type) (store' : EdgeStore n V H σ' ε'),
        store'.NeverFails → ∀ s', (∀ j, ∃ w s'',
          nextAll store' j (iter t start) s' =
            .ok ((List.range j).map fun j => out[j]?.map .ok, w, s'')) ∧
        ∃ s'', validate store' t s' =
          .ok (reported (firstViolation t.nodes), s'')) ∧
      (vs.map fun pm => (pm.1, pm.2.value)) =
        (out.map fun kv => (kv.1, some kv.2)) ∧
      (failure = none → out.length ≤ k) ∧
      (∀ j, ∃ w s', nextAll store j (iter t start) s =
          .ok ((List.range j).map fun j =>
            (interrupted (out.take k) failure)[j]?, w, s') ∧
        ∀ failed, Records store failed → failed s' = failed s ++
          ((List.range j).filterMap fun j =>
            (interrupted (out.take k) failure)[j]?.bind failureOf)) ∧
      (∀ (τ : Type) (f : τ → Path n → TrieNode n V H → ControlFlow × τ)
        (c : τ), ∃ r s', visit store t start f c s =
          .ok (r, (callAll f (vs.take k) c).2, s') ∧
        ((callAll f (vs.take k) c).1 = .Break ∧ r = .ok .Break ∨
          (callAll f (vs.take k) c).1 = .Continue ∧
            r = failure.elim (.ok .Continue) .error) ∧
        ∀ failed, Records store failed →
          failed s' = failed s ++ (failureOf r).toList) ∧
      ∃ out, validate store t s = .ok out ∧ Halfway store t.nodes out := by
  obtain ⟨seen, failure, s', hcourse, ⟨rest, hprefix⟩, hall, -⟩ :=
    (Pending.fresh t start).course store s
  have hvalues := valuedNodes_map_value (nodesFrom start t.nodes)
  have hout : entriesOf seen = (entriesFrom t start).take
      (entriesOf seen).length := by
    rw [entriesFrom, ← hprefix, entriesOf, entriesOf, List.filterMap_append,
      List.take_left]
  have hvs : valuedNodes seen = (valuedNodes (nodesFrom start t.nodes)).take
      (entriesOf seen).length := by
    have hlength := congrArg List.length (valuedNodes_map_value seen)
    rw [List.length_map, List.length_map] at hlength
    rw [← hlength, ← hprefix, valuedNodes, valuedNodes, List.filter_append,
      List.map_append, List.take_left]
  refine ⟨entriesFrom t start, valuedNodes (nodesFrom start t.nodes),
    (entriesOf seen).length, failure, ?_, hvalues, ?_, ?_, ?_,
    validate_halfway store t s⟩
  · intro σ' ε' store' hstore' s₁
    constructor
    · intro j
      exact nextAll_of_neverFails hstore' j (.fresh t start) s₁
    · obtain ⟨out, hrun, hout⟩ := validate_validated store' t s₁
      rcases hout with hfail | s₂
      · exact absurd hstore' hfail
      · exact ⟨s₂, hrun⟩
  · intro hfailure
    rw [hall hfailure]
    exact le_rfl
  · rw [← hout]
    intro j
    exact hcourse.nextAll j
  · rw [← hvs]
    intro τ f c
    exact hcourse.visit f c

/-- Iterating over two children when the second read fails: the store lists
the failure that the iterator returns. -/
theorem iteration_under_failure_watched :
    ∃ (out : List (Path 2 × ℕ)) (k : ℕ) (failure : Option String),
      ∀ j, ∃ w s',
        nextAll (EdgeStore.failing 2 ℕ ℕ 2 0).watched j
            (iter (some {
              partialPath := []
              value := none
              children := (ChildMap.empty.set 0
                (.mk (leaf [] 5) (some 9))).set 1
                  (.mk (leaf [] 7) none) }) none) ((0, 0), []) =
          .ok ((List.range j).map fun j =>
            (interrupted (out.take k) failure)[j]?, w, s') ∧
        s'.2 = [] ++ (List.range j).filterMap fun j =>
          (interrupted (out.take k) failure)[j]?.bind failureOf := by
  obtain ⟨out, -, k, failure, -, -, -, hnext, -⟩ :=
    iteration_under_failure (EdgeStore.failing 2 ℕ ℕ 2 0).watched
      (some {
        partialPath := []
        value := none
        children := (ChildMap.empty.set 0 (.mk (leaf [] 5) (some 9))).set 1
          (.mk (leaf [] 7) none) }) none ((0, 0), [])
  refine ⟨out, k, failure, ?_⟩
  intro j
  obtain ⟨w, s', hrun, hrecords⟩ := hnext j
  exact ⟨w, s', hrun, hrecords Prod.snd (watched_records _)⟩

end ArityTries
