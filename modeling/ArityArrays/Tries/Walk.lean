import Mathlib.Algebra.GroupWithZero.Nat
import ArityArrays.Tries.Store
import ArityArrays.Tries.Frames

/-!
# The pre-order walk behind iteration and validation

A walk owns a frame per node on the current path, `(node, full path length,
children still to visit)`, and one path buffer shared by all of them.  Given a
start it first seeks: it descends towards the start, dropping the children that
sort before it.
-/

namespace ArityTries

open Checked Loop

variable {n : ℕ} {V H σ ε : Type}

/-- A node on the current path, the length of its full path in the shared
buffer, and its children still to visit. -/
structure PathFrame (n : ℕ) (V H : Type) where
  node : TrieNode n V H
  pathLen : ℕ
  remaining : Bitmap n

inductive WalkState where
  /-- Nothing visited yet. -/
  | fresh
  /-- Descending towards the start. -/
  | seeking
  | walking
  | done
  deriving DecidableEq

/-- A pre-order walk over every node, valued or not; stacks are top first. -/
structure Walk (n : ℕ) (V H : Type) where
  /-- The handles of the nodes above the root. -/
  chain : List (TrieNode n V H)
  frames : List (PathFrame n V H)
  buf : Path n
  /-- The root, until the first step takes it. -/
  root : Trie n V H
  state : WalkState
  start : Option (Path n)

namespace Bitmap

/-- Drop the positions before `si`, smallest first. -/
def dropBefore (si : Fin n) (b : Bitmap n) : Bitmap n :=
  match _hj : select b 0 with
  | none => b
  | some j => if j ≥ si then b else dropBefore si (withoutBit b j)
termination_by b.card
decreasing_by exact Finset.card_erase_lt_of_mem (mem_of_select_zero _hj)

theorem dropBefore_eq (si : Fin n) (b : Bitmap n) :
    dropBefore si b = b.filter fun j => si ≤ j := by
  induction b using Finset.strongInduction with
  | H b ih =>
      rw [dropBefore]
      split
      · next hnone =>
          rw [select_zero_eq_none.mp hnone]
          rfl
      · next j hj =>
          obtain ⟨hmem, hmin⟩ := select_zero_eq_some.mp hj
          split
          · next hge =>
              refine (Finset.filter_true_of_mem ?_).symm
              intro k hk
              exact le_trans hge (hmin k hk)
          · next hlt =>
              rw [ih (withoutBit b j) (Finset.erase_ssubset hmem)]
              ext k
              simp only [withoutBit, Finset.mem_filter, Finset.mem_erase]
              constructor
              · rintro ⟨⟨-, hk⟩, hle⟩
                exact ⟨hk, hle⟩
              · rintro ⟨hk, hle⟩
                refine ⟨⟨?_, hk⟩, hle⟩
                rintro rfl
                exact hlt hle

theorem mem_dropBefore {si j : Fin n} {b : Bitmap n} :
    j ∈ dropBefore si b ↔ j ∈ b ∧ si ≤ j := by
  rw [dropBefore_eq, Finset.mem_filter]

theorem bits_dropBefore (si : Fin n) (b : Bitmap n) :
    bits (dropBefore si b) = (bits b).filter fun j => decide (si ≤ j) := by
  simp only [dropBefore_eq, bits, List.filter_filter, Finset.mem_filter,
    Bool.decide_and, Bool.and_comm]

theorem dropBefore_subset (si : Fin n) (b : Bitmap n) :
    dropBefore si b ⊆ b := by
  rw [dropBefore_eq]
  exact Finset.filter_subset _ b

end Bitmap

namespace Walk

def new (root : Trie n V H) (start : Option (Path n)) : Walk n V H where
  chain := []
  frames := []
  buf := []
  root := root
  state := .fresh
  start := start

/-- Discard the top frame, and its handle unless it is the root's. -/
def popFrame (w : Walk n V H) : Walk n V H :=
  { w with
    frames := w.frames.tail
    chain := if w.frames.tail.isEmpty then w.chain else w.chain.tail }

theorem popFrame_frames {w : Walk n V H} {f : PathFrame n V H}
    {rest : List (PathFrame n V H)} (hframes : w.frames = f :: rest) :
    w.popFrame.frames = rest := by
  rw [popFrame, hframes, List.tail_cons]

/-- Assign to the top frame's remaining children. -/
def setRemaining (w : Walk n V H) (remaining : Bitmap n) : Walk n V H :=
  match w.frames with
  | [] => w
  | f :: rest => { w with frames := { f with remaining } :: rest }

theorem setRemaining_of_frames {w : Walk n V H} {f : PathFrame n V H}
    {rest : List (PathFrame n V H)} (hframes : w.frames = f :: rest)
    (remaining : Bitmap n) :
    w.setRemaining remaining =
      { w with frames := { f with remaining } :: rest } := by
  simp only [setRemaining, hframes]

/-- One pass of `step`: leave an exhausted frame, or enter its next child. -/
def stepBody (store : EdgeStore n V H σ ε) :
    Walk n V H × σ → Checked (Pass (Walk n V H × σ)
      (Except ε (Option (TrieNode n V H)) × Walk n V H × σ))
  | (w, s) =>
      match w.frames with
      | [] => .ok (.leave (.ok none, w, s))
      | f :: rest =>
          match Bitmap.select f.remaining 0 with
          | none => .ok (.again (w.popFrame, s))
          | some i => do
              let f := { f with remaining := Bitmap.withoutBit f.remaining i }
              let buf := w.buf.take f.pathLen ++ [i]
              let edge ← expect (f.node.children.get i) "present"
              match store.read s edge with
              | (.error x, s) =>
                  return .leave (.error x,
                    { w with frames := f :: rest, buf }, s)
              | (.ok child, s) =>
                  let buf := buf ++ child.partialPath
                  let top : PathFrame n V H := {
                    node := child
                    pathLen := buf.length
                    remaining := child.children.present }
                  return .leave (.ok (some child), { w with
                    chain := child :: w.chain
                    frames := top :: f :: rest
                    buf }, s)

theorem stepBody_decreases (store : EdgeStore n V H σ ε) :
    Decreases (stepBody store) fun st => st.1.frames.length := by
  rintro ⟨w, s⟩ st' h
  simp only [stepBody] at h
  split at h
  · cases h
  · next f rest hframes =>
      split at h
      · cases h
        simp [popFrame, hframes]
      · obtain ⟨edge, -, h⟩ := bind_eq_ok.mp h
        split at h <;> cases h

/-- The next node in pre-order, with the walk already positioned. -/
def step (store : EdgeStore n V H σ ε) (w : Walk n V H) (s : σ) :
    Checked (Except ε (Option (TrieNode n V H)) × Walk n V H × σ) :=
  run (stepBody store) _ (stepBody_decreases store) (w, s)

/-- One pass of `seek`. -/
def seekBody (store : EdgeStore n V H σ ε) (start : Path n) :
    Walk n V H × σ → Checked (Pass (Walk n V H × σ)
      (Except ε (Option (TrieNode n V H)) × Walk n V H × σ))
  | (w, s) => do
      let f ← expect w.frames.head? "positioned"
      let o ← commonPrefix w.buf start
      match o.uniqueA.head?, o.uniqueB.head? with
      -- At the start, or past it with the start a proper prefix.
      | _, none =>
          return .leave (.ok (some f.node), { w with state := .walking }, s)
      -- The node's path is a proper prefix of the start.
      | none, some si =>
          let remaining := Bitmap.dropBefore si f.remaining
          let w := w.setRemaining remaining
          if !Bitmap.test remaining si then
            return .leave (← step store { w with state := .walking } s)
          match ← step store w s with
          | (.error x, w, s) => return .leave (.error x, w, s)
          | (.ok _, w, s) => return .again (w, s)
      -- Diverged: the whole subtree is on one side of the start.
      | some a, some b =>
          let w := { w with state := .walking }
          if a > b then return .leave (.ok (some f.node), w, s)
          return .leave (← step store w.popFrame s)

/-- The walk inside `child`, the child at `i` of its top frame `f`. -/
def entered (w : Walk n V H) (f : PathFrame n V H)
    (rest : List (PathFrame n V H)) (i : Fin n) (child : TrieNode n V H) :
    Walk n V H :=
  let buf := w.buf.take f.pathLen ++ [i] ++ child.partialPath
  let top : PathFrame n V H := {
    node := child
    pathLen := buf.length
    remaining := child.children.present }
  { w with
    chain := child :: w.chain
    frames := top ::
      { f with remaining := Bitmap.withoutBit f.remaining i } :: rest
    buf }

/-- A step of a walk with a child left to visit enters it. -/
theorem step_of_select {store : EdgeStore n V H σ ε} {w : Walk n V H}
    {f : PathFrame n V H} {rest : List (PathFrame n V H)} {i : Fin n}
    {s : σ} (hframes : w.frames = f :: rest)
    (hi : Bitmap.select f.remaining 0 = some i) :
    step store w s = (do
      let edge ← expect (f.node.children.get i) "present"
      match store.read s edge with
      | (.error x, s) =>
          return (.error x, { w with
            frames := { f with
              remaining := Bitmap.withoutBit f.remaining i } :: rest
            buf := w.buf.take f.pathLen ++ [i] }, s)
      | (.ok child, s) =>
          return (.ok (some child), w.entered f rest i child, s)) := by
  rw [step, run_eq]
  simp only [stepBody, hframes, hi]
  cases hedge : f.node.children.get i with
  | none => rfl
  | some edge =>
      rw [expect_some, ok_bind, ok_bind]
      split <;> rfl

/-- A step whose top frame has no child left goes on beneath it. -/
theorem step_of_exhausted {store : EdgeStore n V H σ ε} {w : Walk n V H}
    {f : PathFrame n V H} {rest : List (PathFrame n V H)} {s : σ}
    (hframes : w.frames = f :: rest)
    (hi : Bitmap.select f.remaining 0 = none) :
    step store w s = step store w.popFrame s := by
  apply run_of_again
  simp only [stepBody, hframes, hi]

theorem step_of_nil {store : EdgeStore n V H σ ε} {w : Walk n V H} {s : σ}
    (hframes : w.frames = []) :
    step store w s = .ok (.ok none, w, s) := by
  apply run_of_leave
  simp only [stepBody, hframes]

/-- The size of the node a walk is positioned at. -/
def topSize (w : Walk n V H) : ℕ :=
  (w.frames.head?.map fun f => f.node.size).getD 0

/-- What one pass of `seek` can do. -/
inductive SeekPass (store : EdgeStore n V H σ ε) (w : Walk n V H) (s : σ) :
    Pass (Walk n V H × σ)
      (Except ε (Option (TrieNode n V H)) × Walk n V H × σ) → Prop
  | top {f : PathFrame n V H} (hf : w.frames.head? = some f) :
      SeekPass store w s
        (.leave (.ok (some f.node), { w with state := .walking }, s))
  | after {f : PathFrame n V H} {si : Fin n}
      {out : Except ε (Option (TrieNode n V H)) × Walk n V H × σ}
      (hf : w.frames.head? = some f)
      (hstep : step store
        { w.setRemaining (Bitmap.dropBefore si f.remaining) with
          state := .walking } s = .ok out) :
      SeekPass store w s (.leave out)
  | failed {f : PathFrame n V H} {si : Fin n} {x : ε} {w' : Walk n V H}
      {s' : σ} (hf : w.frames.head? = some f)
      (hstep : step store
        (w.setRemaining (Bitmap.dropBefore si f.remaining)) s =
          .ok (.error x, w', s')) :
      SeekPass store w s (.leave (.error x, w', s'))
  | enter {f : PathFrame n V H} {si : Fin n} {w' : Walk n V H} {s' : σ}
      {o : Option (TrieNode n V H)} (hf : w.frames.head? = some f)
      (hsi : si ∈ Bitmap.dropBefore si f.remaining)
      (hstep : step store
        (w.setRemaining (Bitmap.dropBefore si f.remaining)) s =
          .ok (.ok o, w', s')) :
      SeekPass store w s (.again (w', s'))
  | beneath {out : Except ε (Option (TrieNode n V H)) × Walk n V H × σ}
      (hstep : step store
        { w with state := .walking }.popFrame s = .ok out) :
      SeekPass store w s (.leave out)

theorem seekBody_pass {store : EdgeStore n V H σ ε} {start : Path n}
    {w : Walk n V H} {s : σ} {pass : Pass (Walk n V H × σ)
      (Except ε (Option (TrieNode n V H)) × Walk n V H × σ)}
    (h : seekBody store start (w, s) = .ok pass) :
    SeekPass store w s pass := by
  obtain ⟨f, hf, h⟩ := bind_eq_ok.mp h
  obtain ⟨o, -, h⟩ := bind_eq_ok.mp h
  rw [expect_eq_ok] at hf
  split at h
  · cases h
    exact .top hf
  · next si _ _ =>
      dsimp only at h
      split at h
      · obtain ⟨out, hstep, h⟩ := bind_eq_ok.mp h
        cases h
        exact .after hf hstep
      · next htest =>
          obtain ⟨⟨r, w', s'⟩, hstep, h⟩ := bind_eq_ok.mp h
          cases r with
          | error x =>
              cases h
              exact .failed hf hstep
          | ok o =>
              cases h
              exact .enter hf (by simpa [Bitmap.test] using htest) hstep
  · dsimp only at h
    split at h
    · cases h
      exact .top hf
    · obtain ⟨out, hstep, h⟩ := bind_eq_ok.mp h
      cases h
      exact .beneath hstep

theorem seekBody_decreases (store : EdgeStore n V H σ ε) (start : Path n) :
    Decreases (seekBody store start) fun st => st.1.topSize := by
  rintro ⟨w, s⟩ st' h
  cases seekBody_pass h with
  | @enter f si w' s' o hf hsi hstep =>
      obtain ⟨rest, hframes⟩ := List.head?_eq_some_iff.mp hf
      -- The child at the start's next index is left, so some child is.
      obtain ⟨i, hi⟩ : ∃ i, Bitmap.select
          (Bitmap.dropBefore si f.remaining) 0 = some i := by
        rw [← Option.isSome_iff_exists, Option.isSome_iff_ne_none]
        intro hnone
        rw [Bitmap.select_zero_eq_none.mp hnone] at hsi
        cases hsi
      rw [setRemaining_of_frames hframes, step_of_select rfl hi] at hstep
      obtain ⟨edge, hedge, hstep⟩ := bind_eq_ok.mp hstep
      rw [expect_eq_ok] at hedge
      rcases store.read_cases s edge with ⟨x, s₁, hr⟩ | ⟨s₁, hr⟩
      · rw [hr] at hstep
        cases hstep
      · rw [hr] at hstep
        cases hstep
        simpa [topSize, entered, hframes] using Node.size_lt_of_get hedge

/-- Descend towards the start, dropping children that sort before it; the
first node whose full path is at or after it. -/
def seek (store : EdgeStore n V H σ ε) (w : Walk n V H) (s : σ) :
    Checked (Except ε (Option (TrieNode n V H)) × Walk n V H × σ) := do
  let start ← expect w.start "seeking has a start"
  run (seekBody store start) _ (seekBody_decreases store start)
    ({ w with start := none }, s)

/-- Hand out what a step or a seek found, with its full path; at the end and
after an error the walk is done. -/
def handOut : Except ε (Option (TrieNode n V H)) × Walk n V H × σ →
    Except ε (Option (Path n × TrieNode n V H)) × Walk n V H × σ
  | (.ok (some node), w, s) => (.ok (some (w.buf, node)), w, s)
  | (.ok none, w, s) => (.ok none, { w with state := .done }, s)
  | (.error x, w, s) => (.error x, { w with state := .done }, s)

/-- The next node in pre-order with its full path, or `none` at the end. -/
def advance (store : EdgeStore n V H σ ε) (w : Walk n V H) (s : σ) :
    Checked (Except ε (Option (Path n × TrieNode n V H)) × Walk n V H × σ) :=
  match w.state with
  | .done => .ok (.ok none, w, s)
  | .fresh =>
      match w.root with
      | none => .ok (handOut (.ok none, w, s))
      | some root =>
          let buf := w.buf ++ root.partialPath
          let frame : PathFrame n V H := {
            node := root
            pathLen := buf.length
            remaining := root.children.present }
          let w := { w with root := none, buf, frames := frame :: w.frames }
          if w.start.isSome then
            handOut <$> seek store { w with state := .seeking } s
          else .ok (handOut (.ok (some root),
            { w with state := .walking }, s))
  | .seeking => handOut <$> seek store w s
  | .walking => handOut <$> step store w s

/-! ### Every node handed out is one node less to visit -/

/-- The nodes still to visit beneath the children a frame has left. -/
def unvisited (f : PathFrame n V H) : ℕ :=
  ∑ i ∈ f.remaining, slotSize (f.node.children.get i)

/-- The nodes still to visit, and whether the start is still to be sought. -/
def left (w : Walk n V H) : ℕ :=
  (w.frames.map unvisited).sum + (w.root.map Node.size).getD 0 +
    if w.start.isSome then 1 else 0

theorem unvisited_present (nd : TrieNode n V H) (pathLen : ℕ) :
    unvisited { node := nd, pathLen, remaining := nd.children.present } + 1 =
      nd.size := by
  have hsubset : ∑ i ∈ nd.children.present, slotSize (nd.children.get i) =
      ∑ i, slotSize (nd.children.get i) := by
    refine Finset.sum_subset (Finset.subset_univ _) ?_
    intro i _ hi
    rw [ChildMap.notMem_present.mp hi, slotSize_none]
  rw [unvisited, nd.size_eq, hsubset, add_comm]

theorem unvisited_withoutBit {f : PathFrame n V H} {i : Fin n}
    {e : Edge n V H} (hi : i ∈ f.remaining)
    (he : f.node.children.get i = some e) :
    unvisited { f with remaining := Bitmap.withoutBit f.remaining i } +
      e.node.size = unvisited f := by
  have hsum := Finset.add_sum_erase f.remaining
    (fun j => slotSize (f.node.children.get j)) hi
  rw [he, slotSize_some] at hsum
  rw [add_comm]
  exact hsum

theorem setRemaining_left {w : Walk n V H} {f : PathFrame n V H}
    {remaining : Bitmap n} (hf : w.frames.head? = some f)
    (hsub : remaining ⊆ f.remaining) :
    (w.setRemaining remaining).left ≤ w.left := by
  obtain ⟨rest, hframes⟩ := List.head?_eq_some_iff.mp hf
  have hle : unvisited { f with remaining } ≤ unvisited f :=
    Finset.sum_le_sum_of_subset hsub
  simp only [left, setRemaining, hframes, List.map_cons, List.sum_cons]
  omega

theorem popFrame_left (w : Walk n V H) : w.popFrame.left ≤ w.left := by
  cases hframes : w.frames with
  | nil => simp [left, popFrame, hframes]
  | cons f rest =>
      simp only [left, popFrame, hframes, List.map_cons, List.sum_cons,
        List.tail_cons]
      omega

/-- A step leaves no more to visit, and less once it finds a node. -/
theorem step_left {store : EdgeStore n V H σ ε} {w w' : Walk n V H}
    {s s' : σ} {r : Except ε (Option (TrieNode n V H))}
    (hstep : step store w s = .ok (r, w', s')) :
    w'.left ≤ w.left ∧ ∀ m, r = .ok (some m) → w'.left < w.left := by
  induction hframes : w.frames generalizing w with
  | nil =>
      rw [step_of_nil hframes] at hstep
      cases hstep
      refine ⟨le_refl _, ?_⟩
      rintro m ⟨⟩
  | cons f rest ih =>
      cases hi : Bitmap.select f.remaining 0 with
      | none =>
          rw [step_of_exhausted hframes hi] at hstep
          obtain ⟨hle, hlt⟩ := ih hstep (popFrame_frames hframes)
          have hpop := popFrame_left w
          exact ⟨hle.trans hpop, fun m hm => (hlt m hm).trans_le hpop⟩
      | some i =>
          rw [step_of_select hframes hi] at hstep
          obtain ⟨edge, hedge, hstep⟩ := bind_eq_ok.mp hstep
          rw [expect_eq_ok] at hedge
          have hmem := Bitmap.mem_of_select_zero hi
          have hparent := unvisited_withoutBit hmem hedge
          rcases store.read_cases s edge with ⟨x, s₁, hr⟩ | ⟨s₁, hr⟩
          · rw [hr] at hstep
            cases hstep
            refine ⟨?_, by rintro m ⟨⟩⟩
            simp only [left, hframes, List.map_cons, List.sum_cons]
            omega
          · rw [hr] at hstep
            cases hstep
            have hchild := unvisited_present edge.node
              (w.buf.take f.pathLen ++ [i] ++ edge.node.partialPath).length
            have hlt : (w.entered f rest i edge.node).left < w.left := by
              dsimp only [left, entered]
              rw [hframes]
              simp only [List.map_cons, List.sum_cons]
              omega
            exact ⟨hlt.le, fun m _ => hlt⟩

/-- Dropping children of the top frame and stepping leave no more. -/
theorem step_setRemaining_left {store : EdgeStore n V H σ ε}
    {w w' : Walk n V H} {f : PathFrame n V H} {si : Fin n} {s s' : σ}
    {state : WalkState} {r : Except ε (Option (TrieNode n V H))}
    (hf : w.frames.head? = some f)
    (hstep : step store
      { w.setRemaining (Bitmap.dropBefore si f.remaining) with state } s =
        .ok (r, w', s')) : w'.left ≤ w.left :=
  (step_left hstep).1.trans
    (setRemaining_left hf (Bitmap.dropBefore_subset si f.remaining))

/-- A pass of the seek leaves no more to visit. -/
theorem seekBody_left {store : EdgeStore n V H σ ε} {start : Path n}
    {w : Walk n V H} {s : σ} {pass : Pass (Walk n V H × σ)
      (Except ε (Option (TrieNode n V H)) × Walk n V H × σ)}
    (h : seekBody store start (w, s) = .ok pass) :
    (∀ ws, pass = .again ws → ws.1.left ≤ w.left) ∧
      ∀ out, pass = .leave out → out.2.1.left ≤ w.left := by
  cases seekBody_pass h with
  | top hf =>
      refine ⟨by simp, ?_⟩
      rintro out ⟨⟩
      exact le_refl w.left
  | @after f si out hf hstep =>
      refine ⟨by simp, ?_⟩
      rintro _ ⟨⟩
      exact step_setRemaining_left hf hstep
  | failed hf hstep =>
      refine ⟨by simp, ?_⟩
      rintro _ ⟨⟩
      exact step_setRemaining_left hf hstep
  | enter hf hsi hstep =>
      refine ⟨?_, by simp⟩
      rintro _ ⟨⟩
      exact step_setRemaining_left hf hstep
  | beneath hstep =>
      refine ⟨by simp, ?_⟩
      rintro _ ⟨⟩
      have hpop := popFrame_left { w with state := .walking }
      exact (step_left hstep).1.trans hpop

theorem seek_left {store : EdgeStore n V H σ ε} {w w' : Walk n V H}
    {s s' : σ} {m : TrieNode n V H}
    (hseek : seek store w s = .ok (.ok (some m), w', s')) :
    w'.left < w.left := by
  obtain ⟨start, hstart, hrun⟩ := bind_eq_ok.mp hseek
  rw [expect_eq_ok] at hstart
  have htaken : ({ w with start := none } : Walk n V H).left + 1 =
      w.left := by
    simp [left, hstart]
  have hle : w'.left ≤ ({ w with start := none } : Walk n V H).left := by
    refine run_eq_ok_of_invariant
      (I := fun st =>
        st.1.left ≤ ({ w with start := none } : Walk n V H).left)
      (Q := fun out =>
        out.2.1.left ≤ ({ w with start := none } : Walk n V H).left)
      ?_ ?_ (le_refl _) hrun
    · rintro ⟨w₁, s₁⟩ ws hle hbody
      exact ((seekBody_left hbody).1 ws rfl).trans hle
    · rintro ⟨w₁, s₁⟩ out hle hbody
      exact ((seekBody_left hbody).2 out rfl).trans hle
  omega

theorem handOut_eq_some
    {out : Except ε (Option (TrieNode n V H)) × Walk n V H × σ}
    {x : Path n × TrieNode n V H} {w' : Walk n V H} {s' : σ}
    (h : handOut out = (.ok (some x), w', s')) :
    ∃ m, out = (.ok (some m), w', s') := by
  obtain ⟨r, w, s⟩ := out
  rcases r with y | (_ | m)
  · cases h
  · cases h
  · cases h
    exact ⟨m, rfl⟩

theorem advance_left {store : EdgeStore n V H σ ε} {w w' : Walk n V H}
    {s s' : σ} {x : Path n × TrieNode n V H}
    (h : advance store w s = .ok (.ok (some x), w', s')) :
    w'.left < w.left := by
  unfold advance at h
  split at h
  · cases h
  · split at h
    · cases h
    · next root hroot =>
        have htaken : ∀ state : WalkState, (Walk.mk w.chain
            ({ node := root
               pathLen := (w.buf ++ root.partialPath).length
               remaining := root.children.present } :: w.frames)
            (w.buf ++ root.partialPath) none state w.start).left + 1 =
              w.left := by
          intro state
          have hpresent := unvisited_present root
            (w.buf ++ root.partialPath).length
          simp only [left, hroot, List.map_cons, List.sum_cons,
            Option.map_some, Option.map_none, Option.getD_some,
            Option.getD_none]
          omega
        dsimp only at h
        split at h
        · obtain ⟨out, hseek, hout⟩ := map_eq_ok.mp h
          obtain ⟨m, rfl⟩ := handOut_eq_some hout
          have hlt := seek_left hseek
          have hroot' := htaken .seeking
          omega
        · cases h
          have hroot' := htaken .walking
          omega
  · obtain ⟨out, hseek, hout⟩ := map_eq_ok.mp h
    obtain ⟨m, rfl⟩ := handOut_eq_some hout
    exact seek_left hseek
  · obtain ⟨out, hstep, hout⟩ := map_eq_ok.mp h
    obtain ⟨m, rfl⟩ := handOut_eq_some hout
    exact (step_left hstep).2 m rfl

end Walk

end ArityTries
