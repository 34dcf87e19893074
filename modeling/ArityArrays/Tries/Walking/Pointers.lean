import ArityArrays.Support.Handles
import ArityArrays.Tries.Walk
import ArityArrays.Tries.Ops

/-!
# Lookup and the walk on raw pointers

The code keeps node pointers in its frames, and a chain of read handles that
keeps what they point at in place.  Here every access goes through a pointer,
every handle is acquired from the edge that `read` resolved, and popping one
runs its destructor, which may panic.
-/

namespace ArityTries

namespace Raw

open Checked Loop Handles

variable {n : ℕ} {V H σ ε : Type}

/-- The handle chain behind lookup, iteration and validation. -/
abbrev ChainStack (n : ℕ) (V H : Type) := Chain (TrieNode n V H)

/-- How a call is left: it returns, or the destructor of a handle panics. -/
inductive Call (α : Type) where
  | returned (a : α)
  | unwound

/-- A pointer to a node on the current path, the length of its full path in
the shared buffer, and its children still to visit. -/
structure Frame (n : ℕ) where
  node : Pointer
  pathLen : ℕ
  remaining : Bitmap n

/-- A pre-order walk over every node; stacks are top first. -/
structure Walk (n : ℕ) (V H : Type) where
  chain : ChainStack n V H
  frames : List (Frame n)
  buf : Path n
  /-- The root, until the first step takes it. -/
  root : Option Pointer
  state : WalkState
  start : Option (Path n)

namespace Walk

def new (root : Trie n V H) (start : Option (Path n)) : Walk n V H where
  chain := Chain.new root
  frames := []
  buf := []
  root := root.map fun _ => .root
  state := .fresh
  start := start

/-- Discard the top frame, and its handle unless it is the root's. -/
def popFrame (d : Destructor ℕ) (w : Walk n V H) :
    Checked (Exit × Walk n V H) :=
  let w := { w with frames := w.frames.tail }
  if w.frames.isEmpty then .ok (.returns, w)
  else do
    let out ← w.chain.pop d
    return (out.exit, { w with chain := out.state })

/-- Assign to the top frame's remaining children. -/
def setRemaining (w : Walk n V H) (remaining : Bitmap n) : Walk n V H :=
  match w.frames with
  | [] => w
  | f :: rest => { w with frames := { f with remaining } :: rest }

/-- One pass of `step`: leave an exhausted frame, or enter its next child. -/
def stepBody (d : Destructor ℕ) (store : EdgeStore n V H σ ε) :
    Walk n V H × σ → Checked (Pass (Walk n V H × σ)
      (Call (Except ε (Option Pointer)) × Walk n V H × σ))
  | (w, s) =>
      match w.frames with
      | [] => .ok (.leave (.returned (.ok none), w, s))
      | f :: rest =>
          match Bitmap.select f.remaining 0 with
          | none => do
              let (exit, w) ← w.popFrame d
              if exit = .returns then return .again (w, s)
              return .leave (.unwound, w, s)
          | some i => do
              let f := { f with remaining := Bitmap.withoutBit f.remaining i }
              let buf := w.buf.take f.pathLen ++ [i]
              let parent ← w.chain.deref f.node
              let edge ← expect (parent.children.get i) "present"
              match store.read s edge with
              | (.error x, s) =>
                  return .leave (.returned (.error x),
                    { w with frames := f :: rest, buf }, s)
              | (.ok node, s) =>
                  let (handle, chain) ← w.chain.acquire f.node node
                  let (child, chain) ← chain.push handle
                  let childNode ← chain.deref child
                  let buf := buf ++ childNode.partialPath
                  let top : Frame n := {
                    node := child
                    pathLen := buf.length
                    remaining := childNode.children.present }
                  return .leave (.returned (.ok (some child)), { w with
                    chain
                    frames := top :: f :: rest
                    buf }, s)

theorem popFrame_frames {d : Destructor ℕ} {w w' : Walk n V H} {x : Exit}
    (h : w.popFrame d = .ok (x, w')) : w'.frames = w.frames.tail := by
  unfold popFrame at h
  dsimp only at h
  split at h
  · cases h
    rfl
  · obtain ⟨out, -, h⟩ := bind_eq_ok.mp h
    cases h
    rfl

theorem stepBody_decreases (d : Destructor ℕ)
    (store : EdgeStore n V H σ ε) :
    Decreases (stepBody d store) fun st => st.1.frames.length := by
  rintro ⟨w, s⟩ st' h
  simp only [stepBody] at h
  split at h
  · cases h
  · next f rest hframes =>
      split at h
      · obtain ⟨⟨x, w'⟩, hpop, h⟩ := bind_eq_ok.mp h
        dsimp only at h
        split at h
        · cases h
          simp [popFrame_frames hpop, hframes]
        · cases h
      · obtain ⟨parent, -, h⟩ := bind_eq_ok.mp h
        obtain ⟨edge, -, h⟩ := bind_eq_ok.mp h
        split at h
        · cases h
        · obtain ⟨⟨k, c⟩, -, h⟩ := bind_eq_ok.mp h
          obtain ⟨⟨p, c'⟩, -, h⟩ := bind_eq_ok.mp h
          obtain ⟨nd, -, h⟩ := bind_eq_ok.mp h
          cases h

/-- The next node in pre-order, with the walk already positioned. -/
def step (d : Destructor ℕ) (store : EdgeStore n V H σ ε) (w : Walk n V H)
    (s : σ) :
    Checked (Call (Except ε (Option Pointer)) × Walk n V H × σ) :=
  run (stepBody d store) _ (stepBody_decreases d store) (w, s)

/-- One pass of `seek`. -/
def seekBody (d : Destructor ℕ) (store : EdgeStore n V H σ ε)
    (start : Path n) : Walk n V H × σ → Checked (Pass (Walk n V H × σ)
      (Call (Except ε (Option Pointer)) × Walk n V H × σ))
  | (w, s) => do
      let f ← expect w.frames.head? "positioned"
      let o ← commonPrefix w.buf start
      match o.uniqueA.head?, o.uniqueB.head? with
      -- At the start, or past it with the start a proper prefix.
      | _, none =>
          return .leave (.returned (.ok (some f.node)),
            { w with state := .walking }, s)
      -- The node's path is a proper prefix of the start.
      | none, some si =>
          let remaining := Bitmap.dropBefore si f.remaining
          let w := w.setRemaining remaining
          if !Bitmap.test remaining si then
            return .leave (← step d store { w with state := .walking } s)
          match ← step d store w s with
          | (.unwound, w, s) => return .leave (.unwound, w, s)
          | (.returned (.error x), w, s) =>
              return .leave (.returned (.error x), w, s)
          | (.returned (.ok _), w, s) => return .again (w, s)
      -- Diverged: the whole subtree is on one side of the start.
      | some a, some b =>
          let w := { w with state := .walking }
          if a > b then return .leave (.returned (.ok (some f.node)), w, s)
          let (exit, w) ← w.popFrame d
          if exit = .returns then return .leave (← step d store w s)
          return .leave (.unwound, w, s)

/-- The walk inside the child just pushed, whose node is `childNode`. -/
def entered (w : Walk n V H) (f : Frame n) (rest : List (Frame n))
    (i : Fin n) (child : Pointer) (childNode : TrieNode n V H)
    (chain : ChainStack n V H) : Walk n V H :=
  let buf := w.buf.take f.pathLen ++ [i] ++ childNode.partialPath
  let top : Frame n := {
    node := child
    pathLen := buf.length
    remaining := childNode.children.present }
  { w with
    chain
    frames := top ::
      { f with remaining := Bitmap.withoutBit f.remaining i } :: rest
    buf }

section Equations

variable {d : Destructor ℕ} {store : EdgeStore n V H σ ε}
  {w : Walk n V H} {f : Frame n} {rest : List (Frame n)} {s : σ}

theorem step_of_nil (hframes : w.frames = []) :
    step d store w s = .ok (.returned (.ok none), w, s) := by
  apply run_of_leave
  simp only [stepBody, hframes]

/-- A step whose top frame has no child left goes on beneath it, unless the
destructor of the handle it pops panics. -/
theorem step_of_exhausted (hframes : w.frames = f :: rest)
    (hi : Bitmap.select f.remaining 0 = none) :
    step d store w s = (do
      let (exit, w) ← w.popFrame d
      if exit = .returns then step d store w s
      else return (.unwound, w, s)) := by
  rw [step, run_eq]
  simp only [stepBody, hframes, hi]
  cases w.popFrame d with
  | error p => rfl
  | ok out =>
      rw [ok_bind, ok_bind]
      by_cases hx : out.1 = .returns
      · simp only [hx, if_pos, pure_eq_ok, ok_bind]
        rfl
      · simp only [hx, if_false, pure_eq_ok, ok_bind]

/-- A step of a walk with a child left to visit enters it. -/
theorem step_of_select {i : Fin n} (hframes : w.frames = f :: rest)
    (hi : Bitmap.select f.remaining 0 = some i) :
    step d store w s = (do
      let parent ← w.chain.deref f.node
      let edge ← expect (parent.children.get i) "present"
      match store.read s edge with
      | (.error x, s) =>
          return (.returned (.error x), { w with
            frames := { f with
              remaining := Bitmap.withoutBit f.remaining i } :: rest
            buf := w.buf.take f.pathLen ++ [i] }, s)
      | (.ok node, s) =>
          let (handle, chain) ← w.chain.acquire f.node node
          let (child, chain) ← chain.push handle
          let childNode ← chain.deref child
          return (.returned (.ok (some child)),
            w.entered f rest i child childNode chain, s)) := by
  rw [step, run_eq]
  simp only [stepBody, hframes, hi]
  cases w.chain.deref f.node with
  | error p => rfl
  | ok parent =>
      rw [ok_bind, ok_bind]
      cases expect (parent.children.get i) "present" with
      | error p => rfl
      | ok edge =>
          rw [ok_bind, ok_bind]
          split
          · rfl
          · next node s' _ =>
              cases w.chain.acquire f.node node with
              | error p => rfl
              | ok kc =>
                  rw [ok_bind, ok_bind]
                  cases kc.2.push kc.1 with
                  | error p => rfl
                  | ok pc =>
                      rw [ok_bind, ok_bind]
                      cases pc.2.deref pc.1 <;> rfl

end Equations

/-- The size of the node a walk is positioned at. -/
def topSize (w : Walk n V H) : ℕ :=
  match w.frames with
  | [] => 0
  | f :: _ =>
      match w.chain.deref f.node with
      | .ok node => node.size
      | .error _ => 0

theorem topSize_of_deref {w : Walk n V H} {f : Frame n}
    {rest : List (Frame n)} {nd : TrieNode n V H}
    (hframes : w.frames = f :: rest) (hnd : w.chain.deref f.node = .ok nd) :
    w.topSize = nd.size := by
  simp only [topSize, hframes, hnd]

theorem setRemaining_of_frames {w : Walk n V H} {f : Frame n}
    {rest : List (Frame n)} (hframes : w.frames = f :: rest)
    (remaining : Bitmap n) :
    w.setRemaining remaining =
      { w with frames := { f with remaining } :: rest } := by
  simp only [setRemaining, hframes]

/-- Entering a child positions the walk at a smaller node. -/
theorem step_topSize {d : Destructor ℕ} {store : EdgeStore n V H σ ε}
    {w w' : Walk n V H} {f : Frame n} {rest : List (Frame n)} {i : Fin n}
    {o : Option Pointer} {s s' : σ} (hframes : w.frames = f :: rest)
    (hi : Bitmap.select f.remaining 0 = some i)
    (hstep : step d store w s = .ok (.returned (.ok o), w', s')) :
    w'.topSize < w.topSize := by
  rw [step_of_select hframes hi] at hstep
  obtain ⟨parent, hparent, hstep⟩ := bind_eq_ok.mp hstep
  obtain ⟨edge, hedge, hstep⟩ := bind_eq_ok.mp hstep
  rw [expect_eq_ok] at hedge
  rcases store.read_cases s edge with ⟨x, s₁, hr⟩ | ⟨s₁, hr⟩
  · rw [hr] at hstep
    cases hstep
  · rw [hr] at hstep
    obtain ⟨⟨k, c₁⟩, hacquire, hstep⟩ := bind_eq_ok.mp hstep
    obtain ⟨⟨child, c'⟩, hpush, hstep⟩ := bind_eq_ok.mp hstep
    obtain ⟨childNode, hderef, hstep⟩ := bind_eq_ok.mp hstep
    have hchild := Chain.deref_of_push hacquire hpush
    rw [hchild] at hderef
    cases hderef
    cases hstep
    rw [topSize_of_deref hframes hparent, topSize_of_deref rfl hchild]
    exact Node.size_lt_of_get hedge

theorem seekBody_decreases (d : Destructor ℕ)
    (store : EdgeStore n V H σ ε) (start : Path n) :
    Decreases (seekBody d store start) fun st => st.1.topSize := by
  rintro ⟨w, s⟩ st' h
  obtain ⟨f, hf, h⟩ := bind_eq_ok.mp h
  obtain ⟨o, -, h⟩ := bind_eq_ok.mp h
  rw [expect_eq_ok] at hf
  obtain ⟨rest, hframes⟩ := List.head?_eq_some_iff.mp hf
  split at h
  · cases h
  · next si _ _ =>
      dsimp only at h
      split at h
      · obtain ⟨out, -, h⟩ := bind_eq_ok.mp h
        cases h
      · next htest =>
          have hsi : si ∈ Bitmap.dropBefore si f.remaining := by
            simpa [Bitmap.test] using htest
          -- The child at the start's next index is left, so some child is.
          obtain ⟨i, hi⟩ : ∃ i, Bitmap.select
              (Bitmap.dropBefore si f.remaining) 0 = some i := by
            rw [← Option.isSome_iff_exists, Option.isSome_iff_ne_none]
            intro hnone
            rw [Bitmap.select_zero_eq_none.mp hnone] at hsi
            cases hsi
          obtain ⟨⟨r, w', s'⟩, hstep, h⟩ := bind_eq_ok.mp h
          rw [setRemaining_of_frames hframes] at hstep
          rcases r with (x | o) | -
          · cases h
          · cases h
            have hlt := step_topSize rfl hi hstep
            simpa only [topSize, hframes] using hlt
          · cases h
  · dsimp only at h
    split at h
    · cases h
    · obtain ⟨⟨x, w'⟩, -, h⟩ := bind_eq_ok.mp h
      dsimp only at h
      split at h
      · obtain ⟨out, -, h⟩ := bind_eq_ok.mp h
        cases h
      · cases h

/-- Descend towards the start, dropping children that sort before it; the
first node whose full path is at or after it. -/
def seek (d : Destructor ℕ) (store : EdgeStore n V H σ ε) (w : Walk n V H)
    (s : σ) :
    Checked (Call (Except ε (Option Pointer)) × Walk n V H × σ) := do
  let start ← expect w.start "seeking has a start"
  run (seekBody d store start) _ (seekBody_decreases d store start)
    ({ w with start := none }, s)

/-- Hand out the node a step or a seek found, read through its pointer, with
its full path; at the end and after an error the walk is done. -/
def handOut : Call (Except ε (Option Pointer)) × Walk n V H × σ →
    Checked (Call (Except ε (Option (Path n × TrieNode n V H))) ×
      Walk n V H × σ)
  | (.returned (.ok (some p)), w, s) => do
      let node ← w.chain.deref p
      return (.returned (.ok (some (w.buf, node))), w, s)
  | (.returned (.ok none), w, s) =>
      .ok (.returned (.ok none), { w with state := .done }, s)
  | (.returned (.error x), w, s) =>
      .ok (.returned (.error x), { w with state := .done }, s)
  | (.unwound, w, s) => .ok (.unwound, w, s)

/-- The next node in pre-order with its full path, or `none` at the end. -/
def advance (d : Destructor ℕ) (store : EdgeStore n V H σ ε)
    (w : Walk n V H) (s : σ) :
    Checked (Call (Except ε (Option (Path n × TrieNode n V H))) ×
      Walk n V H × σ) :=
  match w.state with
  | .done => .ok (.returned (.ok none), w, s)
  | .fresh =>
      match w.root with
      | none => handOut (.returned (.ok none), w, s)
      | some p => do
          let node ← w.chain.deref p
          let buf := w.buf ++ node.partialPath
          let frame : Frame n := {
            node := p
            pathLen := buf.length
            remaining := node.children.present }
          let w := { w with root := none, buf, frames := frame :: w.frames }
          if w.start.isSome then
            handOut (← seek d store { w with state := .seeking } s)
          else handOut (.returned (.ok (some p)),
            { w with state := .walking }, s)
  | .seeking => do handOut (← seek d store w s)
  | .walking => do handOut (← step d store w s)

end Walk

/-! ## Lookup -/

/-- A found node, kept in place by the chain of handles down to it. -/
structure NodeRef (n : ℕ) (V H : Type) where
  chain : ChainStack n V H
  node : Pointer

/-- The node a lookup found. -/
def NodeRef.deref (r : NodeRef n V H) : Checked (TrieNode n V H) :=
  r.chain.deref r.node

/-- One pass of `get_node`: descend one edge, or leave with what is found. -/
def getNodeBody (store : EdgeStore n V H σ ε) :
    ChainStack n V H × Pointer × Path n × σ →
      Checked (Pass (ChainStack n V H × Pointer × Path n × σ)
        (Except ε (Option Pointer) × ChainStack n V H × σ))
  | (chain, cur, rest, s) => do
      let node ← chain.deref cur
      let o ← commonPrefix rest node.partialPath
      if !o.uniqueB.isEmpty then return .leave (.ok none, chain, s)
      match o.uniqueA with
      | [] => return .leave (.ok (some cur), chain, s)
      | i :: keyRest =>
          match node.children.get i with
          | none => return .leave (.ok none, chain, s)
          | some edge =>
              match store.read s edge with
              | (.error x, s) => return .leave (.error x, chain, s)
              | (.ok child, s) => do
                  let (handle, chain) ← chain.acquire cur child
                  let (cur, chain) ← chain.push handle
                  return .again (chain, cur, keyRest, s)

theorem getNodeBody_decreases (store : EdgeStore n V H σ ε) :
    Decreases (getNodeBody store) fun st => st.2.2.1.length := by
  rintro ⟨chain, cur, rest, s⟩ st' h
  simp only [getNodeBody, bind_eq_ok] at h
  obtain ⟨node, -, o, ho, h⟩ := h
  have hlen := commonPrefix_uniqueA_length ho
  split at h
  · cases h
  · split at h
    · cases h
    · next hA =>
        rw [hA] at hlen
        split at h
        · cases h
        · split at h
          · cases h
          · obtain ⟨⟨k, c₁⟩, -, h⟩ := bind_eq_ok.mp h
            obtain ⟨⟨p, c'⟩, -, h⟩ := bind_eq_ok.mp h
            cases h
            exact hlen

/-- The node whose full path equals `key`, valued or not.  A chain that is not
returned is dropped, and how that went is the second component. -/
def getNode (d : Destructor ℕ) (cap : Option ℕ)
    (store : EdgeStore n V H σ ε) (root : Trie n V H) (key : Path n)
    (s : σ) :
    Checked (Except ε (Option (NodeRef n V H)) ×
      Option (Outcome (ChainStack n V H) ℕ) × σ) :=
  match root with
  | none => .ok (.ok none, none, s)
  | some _ => do
      let (r, chain, s) ← run (getNodeBody store) _
        (getNodeBody_decreases store) (Chain.new root, .root, key, s)
      match r with
      | .ok (some node) => return (.ok (some { chain, node }), none, s)
      | .ok none => return (.ok none, some (← chain.drop d cap), s)
      | .error x => return (.error x, some (← chain.drop d cap), s)

end Raw

end ArityTries
