import ArityArrays.Tries.Walking.Pointers
import ArityArrays.Tries.Walking.Seek

/-!
# The handle chain keeps every pointer of a walk in place

A walk on pointers stands for a walk on nodes: its frames point at the root
and at what the handles of its chain dereference to, one each.  Every call on
pointers answers what the call on nodes does.  When the destructor of a handle
panics on the way, the walk left behind still stands for one with the same
nodes to visit.
-/

namespace ArityTries

open Checked Loop Handles

variable {n : ℕ} {V H σ ε : Type}

namespace Raw

/-- What a frame shows to a reader of its node. -/
def Frame.seen (c : ChainStack n V H) (f : Frame n) :
    Checked (TrieNode n V H) × ℕ × Bitmap n :=
  (c.deref f.node, f.pathLen, f.remaining)

/-- What the frame of a walk on nodes shows. -/
def seenAt (f : PathFrame n V H) :
    Checked (TrieNode n V H) × ℕ × Bitmap n :=
  (.ok f.node, f.pathLen, f.remaining)

/-- A walk on pointers that stands for the walk `w` on nodes. -/
structure Stands (pw : Walk n V H) (w : ArityTries.Walk n V H) : Prop where
  stacked : pw.chain.Stacked
  /-- The frames point at the root and at the pointees of the handles. -/
  pointers : pw.frames.map Frame.node = Chain.pointers pw.chain.handles ∨
    pw.frames = [] ∧ pw.chain.handles = []
  frames : pw.frames.map (Frame.seen pw.chain) = w.frames.map seenAt
  buf : pw.buf = w.buf
  root : pw.root = w.root.map fun _ => .root
  fresh : ∀ nd ∈ w.root, pw.chain.root = some nd ∧ pw.frames = []
  state : pw.state = w.state
  start : pw.start = w.start

namespace Stands

theorem new (t : Trie n V H) (start : Option (Path n)) :
    Stands (Walk.new t start) (ArityTries.Walk.new t start) where
  stacked := Chain.Stacked.new t
  pointers := Or.inr ⟨rfl, rfl⟩
  frames := rfl
  buf := rfl
  root := rfl
  fresh := fun _ hnd => ⟨hnd, rfl⟩
  state := rfl
  start := rfl

section Frames

variable {pw : Walk n V H} {w : ArityTries.Walk n V H}

theorem frames_nil (hw : Stands pw w) (hframes : w.frames = []) :
    pw.frames = [] := by
  have hseen := hw.frames
  rw [hframes] at hseen
  simpa using hseen

/-- The top frame points at what the last handle dereferences to. -/
theorem frames_cons (hw : Stands pw w) {f : PathFrame n V H}
    {rest : List (PathFrame n V H)} (hframes : w.frames = f :: rest) :
    ∃ pf prest, pw.frames = pf :: prest ∧
      pf.node = Chain.lastOf pw.chain.handles ∧
      pw.chain.deref pf.node = .ok f.node ∧ pf.pathLen = f.pathLen ∧
      pf.remaining = f.remaining ∧
      prest.map (Frame.seen pw.chain) = rest.map seenAt := by
  have hseen := hw.frames
  rw [hframes, List.map_cons] at hseen
  obtain ⟨pf, prest, hpw, hpf, hprest⟩ := List.map_eq_cons_iff.mp hseen
  obtain ⟨hnode, hlen, hremaining⟩ := by simpa [Frame.seen, seenAt] using hpf
  refine ⟨pf, prest, hpw, ?_, hnode, hlen, hremaining, hprest⟩
  rcases hw.pointers with hpointers | ⟨hnil, -⟩
  · obtain ⟨ps, hps⟩ := Chain.pointers_eq_cons pw.chain.handles
    rw [hpw, hps, List.map_cons] at hpointers
    exact (List.cons.inj hpointers).1
  · rw [hpw] at hnil
    cases hnil

/-- Frames are seen as before when their pointers are kept. -/
theorem seen_of_keeps {c c' : ChainStack n V H} {fs : List (Frame n)}
    {ps : List Pointer} (hkeeps : Chain.Keeps c c' ps)
    (hsub : fs.map Frame.node ⊆ ps) :
    fs.map (Frame.seen c') = fs.map (Frame.seen c) := by
  refine List.map_congr_left ?_
  intro f hf
  have hderef := hkeeps f.node (hsub (List.mem_map_of_mem hf))
  simp only [Frame.seen, hderef]

end Frames

/-- Leaving a frame releases its handle, and what the frames beneath point at
stays in place, also when the destructor panics. -/
theorem popFrame {pw : Walk n V H} {w : ArityTries.Walk n V H}
    (hw : Stands pw w) (d : Destructor ℕ) {f : PathFrame n V H}
    {rest : List (PathFrame n V H)} (hframes : w.frames = f :: rest) :
    ∃ x pw', pw.popFrame d = .ok (x, pw') ∧ Stands pw' w.popFrame ∧
      (x ≠ .returns → ∃ k, d.fails k = true) := by
  obtain ⟨pf, prest, hpw, -, -, -, -, hprest⟩ := hw.frames_cons hframes
  have hpopped := ArityTries.Walk.popFrame_frames hframes
  rcases hw.pointers with hpointers | ⟨hnil, -⟩
  · rw [hpw, List.map_cons] at hpointers
    cases hhandles : pw.chain.handles with
    | nil =>
        -- The last frame is the root's, which has no handle.
        rw [hhandles] at hpointers
        obtain ⟨-, hmap⟩ := List.cons.inj hpointers
        obtain rfl : prest = [] := List.map_eq_nil_iff.mp hmap
        refine ⟨.returns, { pw with frames := [] }, ?_,
          ⟨hw.stacked, Or.inr ⟨rfl, hhandles⟩, ?_, hw.buf, hw.root, ?_,
            hw.state, hw.start⟩, by simp⟩
        · simp [Walk.popFrame, hpw]
        · rw [hpopped]
          simpa using hprest
        · intro nd hnd
          exact ⟨(hw.fresh nd hnd).1, rfl⟩
    | cons k ks =>
        rw [hhandles, Chain.pointers_cons] at hpointers
        obtain ⟨-, hmap⟩ := List.cons.inj hpointers
        obtain ⟨c', hpop, hc', hc'root, hks, hkeeps⟩ :=
          hw.stacked.pop d hhandles
        have hne : prest.isEmpty = false := by
          cases prest with
          | nil =>
              simp [Chain.pointers] at hmap
          | cons g prest => rfl
        refine ⟨if d.fails k then .unwinds else .returns,
          { pw with frames := prest, chain := c' }, ?_,
          ⟨hc', Or.inl ?_, ?_, hw.buf, hw.root, ?_, hw.state, hw.start⟩, ?_⟩
        · simp [Walk.popFrame, hpw, hne, hpop]
        · rw [hks]
          exact hmap
        · rw [hpopped, ← hprest]
          exact seen_of_keeps hkeeps (by rw [hmap]; exact List.Subset.refl _)
        · intro nd hnd
          obtain ⟨-, hnil⟩ := hw.fresh nd hnd
          rw [hpw] at hnil
          cases hnil
        · intro hx
          refine ⟨k, ?_⟩
          by_contra hfails
          simp [hfails] at hx
  · rw [hpw] at hnil
    cases hnil

theorem withState {pw : Walk n V H} {w : ArityTries.Walk n V H}
    (hw : Stands pw w) (state : WalkState) :
    Stands { pw with state } { w with state } :=
  ⟨hw.stacked, hw.pointers, hw.frames, hw.buf, hw.root, hw.fresh, rfl,
    hw.start⟩

/-- A walk that takes its root has one frame, without a handle. -/
theorem takeRoot {pw : Walk n V H} {w : ArityTries.Walk n V H}
    (hw : Stands pw w) {nd : TrieNode n V H} (hroot : w.root = some nd) :
    pw.chain.deref .root = .ok nd ∧ w.frames = [] ∧
      ∀ state : WalkState, Stands { pw with
          root := none
          buf := pw.buf ++ nd.partialPath
          frames := {
            node := .root
            pathLen := (pw.buf ++ nd.partialPath).length
            remaining := nd.children.present } :: pw.frames
          state } { w with
          root := none
          buf := w.buf ++ nd.partialPath
          frames := [{
            node := nd
            pathLen := (w.buf ++ nd.partialPath).length
            remaining := nd.children.present }]
          state } := by
  obtain ⟨hchain, hnil⟩ := hw.fresh nd hroot
  have hderef : pw.chain.deref .root = .ok nd := by
    rw [Chain.deref, hchain, expect_some]
  have hseen := hw.frames
  rw [hnil, List.map_nil] at hseen
  have hhandles : pw.chain.handles = [] := by
    rcases hw.pointers with hpointers | ⟨-, hhandles⟩
    · rw [hnil] at hpointers
      simp [Chain.pointers] at hpointers
    · exact hhandles
  refine ⟨hderef, List.map_eq_nil_iff.mp hseen.symm, ?_⟩
  intro state
  refine ⟨hw.stacked, Or.inl ?_, ?_, ?_, rfl, ?_, rfl, hw.start⟩
  · simp [hnil, hhandles, Chain.pointers]
  · simp [hnil, Frame.seen, seenAt, hderef, hw.buf]
  · rw [hw.buf]
  · rintro nd' ⟨⟩

/-- Only the children the top frame has left may change. -/
theorem setRemaining {pw : Walk n V H} {w : ArityTries.Walk n V H}
    (hw : Stands pw w) (remaining : Bitmap n) :
    Stands (pw.setRemaining remaining) (w.setRemaining remaining) := by
  cases hframes : w.frames with
  | nil =>
      have hnil := hw.frames_nil hframes
      simpa only [Walk.setRemaining, hnil, ArityTries.Walk.setRemaining,
        hframes] using hw
  | cons f rest =>
      obtain ⟨pf, prest, hpw, -, hnode, hlen, -, hprest⟩ :=
        hw.frames_cons hframes
      have hpointers := hw.pointers
      have hfresh := hw.fresh
      rw [hpw] at hpointers hfresh
      simp only [Walk.setRemaining, hpw, ArityTries.Walk.setRemaining,
        hframes]
      refine ⟨hw.stacked, ?_, ?_, hw.buf, hw.root, ?_, hw.state, hw.start⟩
      · simpa using hpointers
      · simpa [Frame.seen, seenAt, hnode, hlen] using hprest
      · intro nd hnd
        cases (hfresh nd hnd).2

end Stands

/-! ## Steps -/

/-- A call on pointers that returns answers what the call on nodes does. -/
inductive Returns : Call (Except ε (Option Pointer)) × Walk n V H × σ →
    Except ε (Option (TrieNode n V H)) × ArityTries.Walk n V H × σ → Prop
  | node {p : Pointer} {m : TrieNode n V H} {pw : Walk n V H}
      {w : ArityTries.Walk n V H} {s : σ} (hw : Stands pw w)
      (hp : pw.chain.deref p = .ok m) :
      Returns (.returned (.ok (some p)), pw, s) (.ok (some m), w, s)
  | ended {pw : Walk n V H} {w : ArityTries.Walk n V H} {s : σ}
      (hw : Stands pw w) : Returns (.returned (.ok none), pw, s) (.ok none, w, s)
  | failed {x : ε} {pw : Walk n V H} {w : ArityTries.Walk n V H} {s : σ}
      (hw : Stands pw w) :
      Returns (.returned (.error x), pw, s) (.error x, w, s)

/-- A step or a seek on pointers answers what the one on nodes does, unless a
destructor panics, which leaves a walk whose next step does. -/
inductive Answers (d : Destructor ℕ) (store : EdgeStore n V H σ ε) :
    Call (Except ε (Option Pointer)) × Walk n V H × σ →
    Except ε (Option (TrieNode n V H)) × ArityTries.Walk n V H × σ → Prop
  | returned {pout : Call (Except ε (Option Pointer)) × Walk n V H × σ}
      {out : Except ε (Option (TrieNode n V H)) × ArityTries.Walk n V H × σ}
      (h : Returns pout out) : Answers d store pout out
  | unwound {pw : Walk n V H} {w : ArityTries.Walk n V H} {s : σ}
      {out : Except ε (Option (TrieNode n V H)) × ArityTries.Walk n V H × σ}
      (hw : Stands pw w) (hstate : w.state = .walking)
      (hstep : w.step store s = .ok out)
      (hfails : ∃ k, d.fails k = true) :
      Answers d store (.unwound, pw, s) out

section Steps

variable {d : Destructor ℕ} {store : EdgeStore n V H σ ε}
  {pw : Walk n V H} {w : ArityTries.Walk n V H} {s : σ}
  {out : Except ε (Option (TrieNode n V H)) × ArityTries.Walk n V H × σ}

/-- Entering a child: the handle that `read` returned borrows from the node
the last handle dereferences to, and is pushed on top of it. -/
theorem Stands.enter (hw : Stands pw w) {f : PathFrame n V H}
    {rest : List (PathFrame n V H)} {i : Fin n}
    (hframes : w.frames = f :: rest)
    (hi : Bitmap.select f.remaining 0 = some i)
    (hstep : w.step store s = .ok out) :
    ∃ pout, pw.step d store s = .ok pout ∧ Returns pout out := by
  obtain ⟨pf, prest, hpw, hlast, hnode, hlen, hremaining, hprest⟩ :=
    hw.frames_cons hframes
  have hpi : Bitmap.select pf.remaining 0 = some i := by rw [hremaining, hi]
  have hpointers : (pf :: prest).map Frame.node =
      Chain.pointers pw.chain.handles := by
    rcases hw.pointers with hpointers | ⟨hnil, -⟩
    · rwa [hpw] at hpointers
    · rw [hpw] at hnil
      cases hnil
  have hroot : ∀ nd ∈ w.root, False := by
    intro nd hnd
    obtain ⟨-, hnil⟩ := hw.fresh nd hnd
    rw [hpw] at hnil
    cases hnil
  rw [ArityTries.Walk.step_of_select hframes hi] at hstep
  obtain ⟨edge, hedge, hstep⟩ := bind_eq_ok.mp hstep
  rw [Walk.step_of_select hpw hpi, hnode, ok_bind, hedge, ok_bind]
  rcases store.read_cases s edge with ⟨x, s', hr⟩ | ⟨s', hr⟩
  · rw [hr] at hstep ⊢
    cases hstep
    refine ⟨_, rfl, .failed ⟨hw.stacked, Or.inl ?_, ?_, ?_, hw.root, ?_,
      hw.state, hw.start⟩⟩
    · simpa using hpointers
    · simpa [Frame.seen, seenAt, hnode, hlen, hremaining] using hprest
    · rw [hlen, hw.buf]
    · exact fun nd hnd => (hroot nd hnd).elim
  · rw [hr] at hstep ⊢
    cases hstep
    rw [hlast] at hnode ⊢
    obtain ⟨k, c₁, c', hacquire, hpush, hc', -, hhandles, hderef, hkeeps⟩ :=
      hw.stacked.push hnode edge.node
    simp only [hacquire, hpush, hderef, ok_bind]
    refine ⟨_, rfl, .node ⟨hc', Or.inl ?_, ?_, ?_, hw.root, ?_, hw.state,
      hw.start⟩ hderef⟩
    · have hnodes : (pw.entered pf prest i (.handle k) edge.node
          c').frames.map Frame.node = .handle k ::
            (pf :: prest).map Frame.node := rfl
      rw [hnodes, hpointers, ← Chain.pointers_cons, ← hhandles]
      rfl
    · have hsub : (pf :: prest).map Frame.node ⊆
          Chain.pointers pw.chain.handles := by
        rw [hpointers]
        exact List.Subset.refl _
      have hseen := Stands.seen_of_keeps hkeeps hsub
      have hold : (pf :: prest).map (Frame.seen pw.chain) =
          (f :: rest).map seenAt := by
        rw [← hpw, ← hframes]
        exact hw.frames
      rw [hold, List.map_cons, List.map_cons] at hseen
      obtain ⟨hpf, hprest'⟩ := List.cons.inj hseen
      have hpf' : c'.deref pf.node = .ok f.node := (Prod.ext_iff.mp hpf).1
      simp [Walk.entered, ArityTries.Walk.entered, Frame.seen, seenAt,
        hderef, hpf', hprest', hlen, hremaining, hw.buf]
    · simp [Walk.entered, ArityTries.Walk.entered, hlen, hw.buf]
    · exact fun nd hnd => (hroot nd hnd).elim

/-- A step on pointers. -/
theorem Stands.step (hw : Stands pw w) (hstate : w.state = .walking)
    (hstep : w.step store s = .ok out) :
    ∃ pout, pw.step d store s = .ok pout ∧ Answers d store pout out := by
  induction hframes : w.frames generalizing w pw with
  | nil =>
      rw [ArityTries.Walk.step_of_nil hframes] at hstep
      cases hstep
      exact ⟨_, Walk.step_of_nil (hw.frames_nil hframes),
        .returned (.ended hw)⟩
  | cons f rest ih =>
      cases hi : Bitmap.select f.remaining 0 with
      | none =>
          obtain ⟨pf, prest, hpw, -, -, -, hremaining, -⟩ :=
            hw.frames_cons hframes
          obtain ⟨x, pw', hpop, hw', hfails⟩ := hw.popFrame d hframes
          rw [ArityTries.Walk.step_of_exhausted hframes hi] at hstep
          rw [Walk.step_of_exhausted hpw (by rw [hremaining, hi]), hpop,
            ok_bind]
          by_cases hx : x = .returns
          · simp only [hx, if_true]
            exact ih hw' hstate hstep
              (ArityTries.Walk.popFrame_frames hframes)
          · simp only [hx, if_false]
            exact ⟨_, rfl, .unwound hw' hstate hstep (hfails hx)⟩
      | some i =>
          obtain ⟨pout, hpout, hreturns⟩ := hw.enter hframes hi hstep
          exact ⟨pout, hpout, .returned hreturns⟩

/-- A pass of the seek on pointers. -/
theorem Stands.seekPass (hw : Stands pw w) {st : Path n}
    {pass : Pass (ArityTries.Walk n V H × σ)
      (Except ε (Option (TrieNode n V H)) × ArityTries.Walk n V H × σ)}
    (hbody : ArityTries.Walk.seekBody store st (w, s) = .ok pass) :
    ∃ pass', Walk.seekBody d store st (pw, s) = .ok pass' ∧
      Pass.Related (fun ws pws => ws.2 = pws.2 ∧ Stands pws.1 ws.1)
        (fun out pout => Answers d store pout out) pass pass' := by
  obtain ⟨f, hf, hbody⟩ := bind_eq_ok.mp hbody
  obtain ⟨o, ho, hbody⟩ := bind_eq_ok.mp hbody
  rw [expect_eq_ok] at hf
  obtain ⟨rest, hframes⟩ := List.head?_eq_some_iff.mp hf
  obtain ⟨pf, prest, hpw, -, hnode, -, hremaining, -⟩ :=
    hw.frames_cons hframes
  have hwalking := hw.withState .walking
  have htop : Answers d store
      (.returned (.ok (some pf.node)), { pw with state := .walking }, s)
      (.ok (some f.node), { w with state := .walking }, s) :=
    .returned (.node hwalking hnode)
  have hset := fun si => hw.setRemaining (Bitmap.dropBefore si f.remaining)
  have hhead : pw.frames.head? = some pf := by rw [hpw, List.head?_cons]
  have hcp : commonPrefix pw.buf st = .ok o := by rw [hw.buf, ho]
  simp only [Walk.seekBody, hhead, expect_some, ok_bind, hcp, hremaining]
  cases hB : o.uniqueB.head? with
  | none =>
      simp only [hB] at hbody
      cases hbody
      exact ⟨_, rfl, .leave htop⟩
  | some si =>
      cases hA : o.uniqueA.head? with
      | none =>
          simp only [hA, hB] at hbody ⊢
          split at hbody
          · next htest =>
              obtain ⟨out, hstep, hbody⟩ := bind_eq_ok.mp hbody
              cases hbody
              obtain ⟨pout, hpout, hanswers⟩ :=
                ((hset si).withState .walking).step (d := d) rfl hstep
              exact ⟨_, by simp [htest, hpout], .leave hanswers⟩
          · next htest =>
              have hsi : si ∈ Bitmap.dropBefore si f.remaining := by
                simpa [Bitmap.test] using htest
              -- The child at `si` is the next one, so no frame is popped.
              have hmin : Bitmap.select
                  (Bitmap.dropBefore si f.remaining) 0 = some si := by
                refine Bitmap.select_zero_eq_some.mpr ⟨hsi, ?_⟩
                intro j hj
                exact (Bitmap.mem_dropBefore.mp hj).2
              obtain ⟨out, hstep, hbody⟩ := bind_eq_ok.mp hbody
              obtain ⟨pout, hpout, hreturns⟩ := (hset si).enter (d := d)
                (by rw [ArityTries.Walk.setRemaining_of_frames hframes])
                hmin hstep
              cases hreturns with
              | @node p m pw₁ w₁ s₁ hw₁ hp =>
                  cases hbody
                  exact ⟨.again (pw₁, s₁), by simp [htest, hpout],
                    .again ⟨rfl, hw₁⟩⟩
              | @ended pw₁ w₁ s₁ hw₁ =>
                  cases hbody
                  exact ⟨.again (pw₁, s₁), by simp [htest, hpout],
                    .again ⟨rfl, hw₁⟩⟩
              | failed hw₁ =>
                  cases hbody
                  exact ⟨_, by simp [htest, hpout],
                    .leave (.returned (.failed hw₁))⟩
      | some a =>
          simp only [hA, hB] at hbody ⊢
          split at hbody
          · next hgt =>
              cases hbody
              exact ⟨_, by simp [hgt], .leave htop⟩
          · next hgt =>
              obtain ⟨out, hstep, hbody⟩ := bind_eq_ok.mp hbody
              cases hbody
              obtain ⟨x, pw', hpop, hw', hfails⟩ :=
                hwalking.popFrame d hframes
              by_cases hx : x = .returns
              · obtain ⟨pout, hpout, hanswers⟩ := hw'.step (d := d) rfl hstep
                exact ⟨_, by simp [hgt, hpop, hx, hpout], .leave hanswers⟩
              · exact ⟨_, by simp [hgt, hpop, hx],
                  .leave (.unwound hw' rfl hstep (hfails hx))⟩

/-- A seek on pointers. -/
theorem Stands.seek (hw : Stands pw w) (hstep : w.seek store s = .ok out) :
    ∃ pout, pw.seek d store s = .ok pout ∧ Answers d store pout out := by
  obtain ⟨st, hst, hrun⟩ := bind_eq_ok.mp hstep
  rw [expect_eq_ok] at hst
  rw [Walk.seek, hw.start, hst, expect_some, ok_bind]
  refine run_of_related
    (R := fun ws pws => ws.2 = pws.2 ∧ Stands pws.1 ws.1)
    (Q := fun out pout => Answers d store pout out) ?_ ?_ hrun
  · rintro ⟨w₁, s₁⟩ ⟨pw₁, s₂⟩ pass ⟨hs, hw₁⟩ hbody
    obtain rfl : s₁ = s₂ := hs
    exact hw₁.seekPass hbody
  · exact ⟨rfl, hw.stacked, hw.pointers, hw.frames, hw.buf, hw.root,
      hw.fresh, hw.state, rfl⟩

end Steps

/-! ## Calls -/

/-- A call of `advance` on pointers returns what the call on nodes does, or a
destructor panics, which leaves a walk whose next call does. -/
inductive Advances (d : Destructor ℕ) (store : EdgeStore n V H σ ε) :
    Call (Except ε (Option (Path n × TrieNode n V H))) × Walk n V H × σ →
    Except ε (Option (Path n × TrieNode n V H)) × ArityTries.Walk n V H × σ →
    Prop
  | returned {r : Except ε (Option (Path n × TrieNode n V H))}
      {pw : Walk n V H} {w : ArityTries.Walk n V H} {s : σ}
      (hw : Stands pw w) : Advances d store (.returned r, pw, s) (r, w, s)
  | unwound {pw : Walk n V H} {w : ArityTries.Walk n V H} {s : σ}
      {out : Except ε (Option (Path n × TrieNode n V H)) ×
        ArityTries.Walk n V H × σ}
      (hw : Stands pw w) (hadvance : w.advance store s = .ok out)
      (hfails : ∃ k, d.fails k = true) :
      Advances d store (.unwound, pw, s) out

/-- Handing out reads the node while its handle is held. -/
theorem Answers.handOut {d : Destructor ℕ} {store : EdgeStore n V H σ ε}
    {pout : Call (Except ε (Option Pointer)) × Walk n V H × σ}
    {out : Except ε (Option (TrieNode n V H)) × ArityTries.Walk n V H × σ}
    (h : Answers d store pout out) :
    ∃ pout', Walk.handOut pout = .ok pout' ∧
      Advances d store pout' (ArityTries.Walk.handOut out) := by
  cases h with
  | returned h =>
      cases h with
      | @node p m pw w s hw hp =>
          refine ⟨(.returned (.ok (some (pw.buf, m))), pw, s), ?_, ?_⟩
          · simp [Walk.handOut, hp]
          · rw [hw.buf]
            exact .returned hw
      | ended hw => exact ⟨_, rfl, .returned (hw.withState .done)⟩
      | failed hw => exact ⟨_, rfl, .returned (hw.withState .done)⟩
  | @unwound pw w s out hw hstate hstep hfails =>
      refine ⟨_, rfl, .unwound hw ?_ hfails⟩
      simp [ArityTries.Walk.advance, hstate, hstep]

theorem Stands.advance {pw : Walk n V H} {w : ArityTries.Walk n V H}
    (hw : Stands pw w) (d : Destructor ℕ) {store : EdgeStore n V H σ ε}
    {s : σ} {out : Except ε (Option (Path n × TrieNode n V H)) ×
      ArityTries.Walk n V H × σ}
    (hadvance : w.advance store s = .ok out) :
    ∃ pout, pw.advance d store s = .ok pout ∧ Advances d store pout out := by
  cases hstate : w.state with
  | done =>
      simp only [ArityTries.Walk.advance, hstate] at hadvance
      cases hadvance
      have hdone : pw.state = .done := by rw [hw.state, hstate]
      exact ⟨_, by simp only [Walk.advance, hdone], .returned hw⟩
  | fresh =>
      have hfresh : pw.state = .fresh := by rw [hw.state, hstate]
      cases hroot : w.root with
      | none =>
          simp only [ArityTries.Walk.advance, hstate, hroot] at hadvance
          cases hadvance
          have hnone : pw.root = none := by
            rw [hw.root, hroot, Option.map_none]
          refine ⟨_, ?_, .returned (hw.withState .done)⟩
          simp only [Walk.advance, hfresh, hnone, Walk.handOut]
      | some nd =>
          obtain ⟨hderef, hframes, htaken⟩ := hw.takeRoot hroot
          have hsome : pw.root = some .root := by
            rw [hw.root, hroot, Option.map_some]
          simp only [ArityTries.Walk.advance, hstate, hroot, hframes]
            at hadvance
          simp only [Walk.advance, hfresh, hsome, hderef, ok_bind, hw.start,
            hw.buf]
          split at hadvance
          · next hstart =>
              obtain ⟨out₁, hseek, rfl⟩ := map_eq_ok.mp hadvance
              obtain ⟨pout, hpout, hanswers⟩ :=
                (htaken .seeking).seek (d := d) hseek
              rw [hw.start, hw.buf] at hpout
              simp only [hstart, if_true, hpout, ok_bind]
              exact hanswers.handOut
          · next hstart =>
              cases hadvance
              have hanswers : Answers d store _ _ :=
                .returned (.node (s := s) (htaken .walking) hderef)
              rw [hw.start, hw.buf] at hanswers
              simp only [hstart]
              exact hanswers.handOut
  | seeking =>
      have hseeking : pw.state = .seeking := by rw [hw.state, hstate]
      simp only [ArityTries.Walk.advance, hstate] at hadvance
      obtain ⟨out₁, hseek, rfl⟩ := map_eq_ok.mp hadvance
      obtain ⟨pout, hpout, hanswers⟩ := hw.seek (d := d) hseek
      simp only [Walk.advance, hseeking, hpout, ok_bind]
      exact hanswers.handOut
  | walking =>
      have hwalking : pw.state = .walking := by rw [hw.state, hstate]
      simp only [ArityTries.Walk.advance, hstate] at hadvance
      obtain ⟨out₁, hstep, rfl⟩ := map_eq_ok.mp hadvance
      obtain ⟨pout, hpout, hanswers⟩ := hw.step (d := d) hstate hstep
      simp only [Walk.advance, hwalking, hpout, ok_bind]
      exact hanswers.handOut

/-! ## Runs -/

/-- What the calls that returned have returned. -/
def answers {α : Type} (calls : List (Call α)) : List α :=
  calls.filterMap fun c =>
    match c with
    | .returned a => some a
    | .unwound => none

/-- `k` calls of `advance` in a row, each on the walk the one before left. -/
def Walk.advanceAll (d : Destructor ℕ) (store : EdgeStore n V H σ ε) :
    ℕ → Walk n V H → σ →
      Checked (List (Call (Except ε (Option (Path n × TrieNode n V H)))) ×
        Walk n V H × σ)
  | 0, w, s => .ok ([], w, s)
  | k + 1, w, s => do
      let (r, w, s) ← w.advance d store s
      let (rs, w, s) ← advanceAll d store k w s
      return (r :: rs, w, s)

end Raw

/-- `k` calls of `advance` in a row, each on the walk the one before left. -/
def Walk.advanceAll (store : EdgeStore n V H σ ε) : ℕ → Walk n V H → σ →
    Checked (List (Except ε (Option (Path n × TrieNode n V H))) ×
      Walk n V H × σ)
  | 0, w, s => .ok ([], w, s)
  | k + 1, w, s => do
      let (r, w, s) ← w.advance store s
      let (rs, w, s) ← advanceAll store k w s
      return (r :: rs, w, s)

/-- A walk can be advanced any number of times. -/
theorem Walk.Pending.advanceAll {w : Walk n V H}
    {pending : List (Path n × TrieNode n V H)} (hw : Pending w pending)
    (store : EdgeStore n V H σ ε) (k : ℕ) (s : σ) :
    ∃ out, Walk.advanceAll store k w s = .ok out := by
  induction k generalizing w pending s with
  | zero => exact ⟨_, rfl⟩
  | succ k ih =>
      obtain ⟨⟨r, w', s'⟩, hadvance, hout⟩ := hw.advance store s
      have hnext : ∃ pending', Pending w' pending' := by
        cases hout with
        | failed hfail hw' => exact ⟨_, hw'⟩
        | ended hpending hw' => exact ⟨_, hw'⟩
        | node hpending hw' => exact ⟨_, hw'⟩
      obtain ⟨pending', hw'⟩ := hnext
      obtain ⟨out, hrest⟩ := ih hw' s'
      refine ⟨(r :: out.1, out.2.1, out.2.2), ?_⟩
      simp only [Walk.advanceAll, hadvance, hrest, ok_bind, pure_eq_ok]

namespace Raw

theorem Stands.advanceAll {pw : Walk n V H} {w : ArityTries.Walk n V H}
    (hw : Stands pw w) (d : Destructor ℕ) {store : EdgeStore n V H σ ε}
    (k : ℕ) {s : σ}
    (htotal : ∀ j, ∃ out, ArityTries.Walk.advanceAll store j w s = .ok out) :
    ∃ calls pw' s', pw.advanceAll d store k s = .ok (calls, pw', s') ∧
      pw'.chain.Stacked ∧ calls.length = k ∧
      (∃ out, ArityTries.Walk.advanceAll store (answers calls).length w s =
        .ok (answers calls, out)) ∧
      ((∀ j, d.fails j = false) → (answers calls).length = k) := by
  induction k generalizing pw w s with
  | zero => exact ⟨[], pw, s, rfl, hw.stacked, rfl, ⟨_, rfl⟩, fun _ => rfl⟩
  | succ k ih =>
      obtain ⟨⟨rs, out⟩, hone⟩ := htotal 1
      obtain ⟨⟨r, w₁, s₁⟩, hadvance, -⟩ := bind_eq_ok.mp hone
      have hagain : ∀ j, ArityTries.Walk.advanceAll store (j + 1) w s =
          ArityTries.Walk.advanceAll store j w₁ s₁ >>= fun (rs, ws) =>
            .ok (r :: rs, ws) := by
        intro j
        rw [ArityTries.Walk.advanceAll, hadvance, ok_bind]
        rfl
      obtain ⟨pout, hpout, hanswers⟩ := hw.advance d hadvance
      cases hanswers with
      | @returned r pw₁ w₁ s₁ hw₁ =>
          have hnext : ∀ j, ∃ out,
              ArityTries.Walk.advanceAll store j w₁ s₁ = .ok out := by
            intro j
            obtain ⟨out, hj⟩ := htotal (j + 1)
            rw [hagain] at hj
            obtain ⟨out', hout', -⟩ := bind_eq_ok.mp hj
            exact ⟨out', hout'⟩
          obtain ⟨calls, pw', s', hrun, hstacked, hlen, ⟨out, hall⟩, hquiet⟩ :=
            ih hw₁ hnext
          refine ⟨.returned r :: calls, pw', s', ?_, hstacked, ?_, ⟨out, ?_⟩,
            ?_⟩
          · simp only [Walk.advanceAll, hpout, hrun, ok_bind, pure_eq_ok]
          · rw [List.length_cons, hlen]
          · change ArityTries.Walk.advanceAll store
              ((answers calls).length + 1) w s = _
            rw [hagain, hall, ok_bind]
            rfl
          · intro hcalm
            change (answers calls).length + 1 = k + 1
            rw [hquiet hcalm]
      | @unwound pw₁ w₂ s₂ out hw₁ hsame hfails =>
          -- The walk left behind has the calls of the one before it to make.
          have heq : ∀ j, ArityTries.Walk.advanceAll store (j + 1) w₂ s₂ =
              ArityTries.Walk.advanceAll store (j + 1) w s := by
            intro j
            rw [ArityTries.Walk.advanceAll, ArityTries.Walk.advanceAll, hsame,
              hadvance]
          have hnext : ∀ j, ∃ out,
              ArityTries.Walk.advanceAll store j w₂ s₂ = .ok out := by
            rintro (- | j)
            · exact ⟨_, rfl⟩
            · rw [heq]
              exact htotal (j + 1)
          obtain ⟨calls, pw', s', hrun, hstacked, hlen, ⟨out, hall⟩, -⟩ :=
            ih hw₁ hnext
          refine ⟨.unwound :: calls, pw', s', ?_, hstacked, ?_, ?_, ?_⟩
          · simp only [Walk.advanceAll, hpout, hrun, ok_bind, pure_eq_ok]
          · rw [List.length_cons, hlen]
          · change ∃ out, ArityTries.Walk.advanceAll store
              (answers calls).length w s = .ok (answers calls, out)
            cases hanswered : answers calls with
            | nil => exact ⟨_, rfl⟩
            | cons a as =>
                rw [hanswered, List.length_cons, heq] at hall
                exact ⟨out, by rw [List.length_cons, hall]⟩
          · intro hcalm
            obtain ⟨j, hj⟩ := hfails
            rw [hcalm j] at hj
            cases hj

/-- A walk over any trie and store, advanced any number of times, reads no node
whose handle is released, releases no handle twice or under a handle that
borrows from it, and hands out what the walk on nodes does.  A destructor that
panics on the way loses nothing: the calls that return answer as if it had
not.  Dropping the walk then releases the handles it still holds, deepest
first. -/
theorem walk_on_handles (d : Destructor ℕ) (cap : Option ℕ)
    (store : EdgeStore n V H σ ε) (t : Trie n V H) (start : Option (Path n))
    (k : ℕ) (s : σ) :
    ∃ calls w s', (Walk.new t start).advanceAll d store k s =
        .ok (calls, w, s') ∧
      calls.length = k ∧
      (∃ out, (ArityTries.Walk.new t start).advanceAll store
        (answers calls).length s = .ok (answers calls, out)) ∧
      ((∀ j, d.fails j = false) → (answers calls).length = k) ∧
      ∃ out, w.chain.drop d cap = .ok out ∧
        Chain.Dropped d cap w.chain out := by
  have htotal : ∀ j, ∃ out, (ArityTries.Walk.new t start).advanceAll store j
      s = .ok out := fun j =>
    (ArityTries.Walk.Pending.fresh t start).advanceAll store j s
  obtain ⟨calls, w, s', hrun, hstacked, hlen, hanswers, hquiet⟩ :=
    (Stands.new t start).advanceAll d k htotal
  exact ⟨calls, w, s', hrun, hlen, hanswers, hquiet, hstacked.drop d cap⟩

end Raw

end ArityTries
