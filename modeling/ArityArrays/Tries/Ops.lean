import ArityArrays.Tries.Frames

/-!
# Lookup and mutation over a store

Each mutation descends by recording the path as a stack of frames,
materializing every edge on it.  `insert` applies its change to the node the
descent stops on; `remove` and `remove_prefix` unwind, popping the frames and
repairing each parent after its child frame is gone.

An operation returns its result, which is an error when the store failed, with
the trie and the store as it leaves them.  A failing assertion leaves neither.
-/

namespace ArityTries

open Checked Loop

variable {n : ℕ} {V H X σ ε : Type}

/-! ## Lookup -/

/-- The found node, kept alive by the chain of handles down to it. -/
structure NodeRef (n : ℕ) (V H : Type) where
  chain : List (TrieNode n V H)
  node : TrieNode n V H

/-- One step of the lookup: `cur` and the rest of the key. -/
def getNodeBody (store : EdgeStore n V H σ ε) :
    List (TrieNode n V H) × TrieNode n V H × Path n × σ →
      Checked (Pass (List (TrieNode n V H) × TrieNode n V H × Path n × σ)
        (Except ε (Option (NodeRef n V H)) × σ))
  | (chain, node, rest, s) => do
      let o ← commonPrefix rest node.partialPath
      if !o.uniqueB.isEmpty then
        return .leave (.ok none, s)
      match o.uniqueA with
      | [] => return .leave (.ok (some { chain, node }), s)
      | i :: keyRest =>
          match node.children.get i with
          | none => return .leave (.ok none, s)
          | some edge =>
              match store.read s edge with
              | (.error x, s) => return .leave (.error x, s)
              | (.ok m, s) => return .again (m :: chain, m, keyRest, s)

theorem commonPrefix_uniqueA_length [DecidableEq α] {a b : List α}
    {o : PrefixOverlap α} (ho : commonPrefix a b = .ok o) :
    o.uniqueA.length ≤ a.length := by
  simp only [commonPrefix, bind_eq_ok, sliceFrom_eq_ok] at ho
  obtain ⟨_, -, ua, ⟨-, rfl⟩, _, -, ho⟩ := ho
  obtain rfl := Except.ok.inj ho
  simp

theorem getNodeBody_decreases (store : EdgeStore n V H σ ε) :
    Decreases (getNodeBody store) fun st => st.2.2.1.length := by
  rintro ⟨chain, node, rest, s⟩ st' h
  simp only [getNodeBody, bind_eq_ok] at h
  obtain ⟨o, ho, h⟩ := h
  have hlen := commonPrefix_uniqueA_length ho
  split at h
  · cases h
  · split at h
    · cases h
    · next hA =>
        rw [hA] at hlen
        split at h
        · cases h
        · split at h <;> cases h
          exact hlen

/-- The node whose full path equals `key`, valued or not. -/
def getNode (store : EdgeStore n V H σ ε) (root : Trie n V H)
    (key : Path n) (s : σ) :
    Checked (Except ε (Option (NodeRef n V H)) × σ) :=
  match root with
  | none => .ok (.ok none, s)
  | some root =>
      run (getNodeBody store) _ (getNodeBody_decreases store)
        ([], root, key, s)

/-- The value at `key`. -/
def get (store : EdgeStore n V H σ ε) (root : Trie n V H) (key : Path n)
    (s : σ) : Checked (Except ε (Option V) × σ) := do
  let (r, s) ← getNode store root key s
  return (r.map fun o => o.bind fun node => node.node.value, s)

/-! ## Descent -/

/-- Per-frame data of a mutation: the index of the child the frame descended
into, `none` on the deepest frame. -/
abbrev Descended (n : ℕ) := Option (Fin n)

/-- The case analysis of a descent step. -/
structure Split (n : ℕ) where
  sharedLen : ℕ
  /-- The first unconsumed key index, if the key continues past the node. -/
  keyNext : Option (Fin n)
  /-- The first unmatched index of the partial path and the rest of it, if
  the key ends inside or diverges from the partial path. -/
  above : Option (Fin n × Path n)

namespace Split

def of (rest : Path n) (node : TrieNode n V H) : Checked (Split n) := do
  let o ← commonPrefix rest node.partialPath
  return {
    sharedLen := o.shared.length
    keyNext := o.uniqueA.head?
    above := match o.uniqueB with
      | [] => none
      | i :: r => some (i, r) }

/-- The next key index and the key after it, if the key continues. -/
def below (split : Split n) (rest : Path n) :
    Checked (Option (Fin n × Path n)) :=
  match split.keyNext with
  | none => .ok none
  | some i => do
      let keyRest ← sliceFrom rest (split.sharedLen + 1)
      return some (i, keyRest)

theorem below_length {split : Split n} {rest keyRest : Path n} {i : Fin n}
    (h : split.below rest = .ok (some (i, keyRest))) :
    keyRest.length < rest.length := by
  unfold below at h
  split at h
  · cases h
  · simp only [bind_eq_ok, sliceFrom_eq_ok] at h
    obtain ⟨kr, ⟨hle, rfl⟩, h⟩ := h
    cases h
    rw [List.length_drop]
    omega

end Split

/-- Materialize the child at `i` of the top node and push it. -/
def descend (store : EdgeStore n V H σ ε)
    (frames : Frames n V H (Descended n)) (i : Fin n) (s : σ) :
    Checked (Except ε Unit × Frames n V H (Descended n) × σ) := do
  let frames ← frames.setTopExtra (some i)
  frames.tryPushChild s fun cur s => do
    let edge ← expect (cur.children.get i) "checked present"
    match store.materialize s edge with
    | (.error x, edge, s) => return (.error x, cur.setChild i edge, s)
    | (.ok _, edge, s) =>
        return (.ok (i, edge.node, none), cur.setChild i edge, s)

/-! ## Insertion -/

/-- One step of `insert`: apply the change to the top node or descend. -/
def insertBody (store : EdgeStore n V H σ ε) (value : V) :
    Frames n V H (Descended n) × Path n × σ →
      Checked (Pass (Frames n V H (Descended n) × Path n × σ)
        (Except ε (Option V) × Trie n V H × σ))
  | (frames, rest, s) => do
      let (cur, _) ← frames.top
      let split ← Split.of rest cur
      match ← split.below rest, split.above with
      | none, none =>
          let (old, cur) := cur.setValue (some value)
          return .leave (.ok old, (frames.setTop cur).trie, s)
      | none, some (ni, nodeRest) =>
          -- The key ends inside this node's partial path.
          let shared ← sliceTo rest split.sharedLen
          let (_, old) := cur.setPartialPath nodeRest
          let (edge, s) := store.inline s old
          let (_, children) := ChildMap.empty.insert ni edge
          let cur := { partialPath := shared, value := some value, children }
          return .leave (.ok none, (frames.setTop cur).trie, s)
      | some (ki, keyRest), none =>
          if (cur.children.get ki).isNone then
            let (edge, s) := store.inline s (Node.leaf keyRest value)
            let (_, children) := cur.children.insert ki edge
            return .leave
              (.ok none, (frames.setTop { cur with children }).trie, s)
          match ← descend store frames ki s with
          | (.error x, frames, s) => return .leave (.error x, frames.trie, s)
          | (.ok _, frames, s) => return .again (frames, keyRest, s)
      | some (ki, keyRest), some (ni, nodeRest) =>
          -- Divergence: the old node and a new leaf beneath a fresh node.
          let shared ← sliceTo rest split.sharedLen
          let (_, old) := cur.setPartialPath nodeRest
          let (edge, s) := store.inline s old
          let (_, children) := ChildMap.empty.insert ni edge
          let (edge, s) := store.inline s (Node.leaf keyRest value)
          let (_, children) := children.insert ki edge
          let cur := { partialPath := shared, value := none, children }
          return .leave (.ok none, (frames.setTop cur).trie, s)

theorem insertBody_decreases (store : EdgeStore n V H σ ε) (value : V) :
    Decreases (insertBody store value) fun st => st.2.1.length := by
  rintro ⟨frames, rest, s⟩ st' h
  simp only [insertBody, bind_eq_ok] at h
  obtain ⟨⟨cur, x⟩, -, split, -, below, hbelow, h⟩ := h
  split at h
  · cases h
  · obtain ⟨_, -, h⟩ := bind_eq_ok.mp h
    cases h
  · split at h
    · cases h
    · obtain ⟨⟨r, frames', s'⟩, -, h⟩ := bind_eq_ok.mp h
      cases r <;> cases h
      exact Split.below_length hbelow
  · obtain ⟨_, -, h⟩ := bind_eq_ok.mp h
    cases h

/-- Insert `value` at `key`, returning the value it displaced. -/
def insert (store : EdgeStore n V H σ ε) (root : Trie n V H) (key : Path n)
    (value : V) (s : σ) : Checked (Except ε (Option V) × Trie n V H × σ) :=
  match root with
  | none => .ok (.ok none, some (Node.leaf key value), s)
  | some root =>
      run (insertBody store value) _ (insertBody_decreases store value)
        (Frames.new root none, key, s)

/-! ## Removal -/

/-- One step of the descent to the node at a key. -/
def descendToBody (store : EdgeStore n V H σ ε) :
    Frames n V H (Descended n) × Path n × σ →
      Checked (Pass (Frames n V H (Descended n) × Path n × σ)
        (Except ε Bool × Frames n V H (Descended n) × σ))
  | (frames, rest, s) => do
      let (cur, _) ← frames.top
      let split ← Split.of rest cur
      if split.above.isSome then
        return .leave (.ok false, frames, s)
      match ← split.below rest with
      | none => return .leave (.ok true, frames, s)
      | some (i, keyRest) =>
          if (cur.children.get i).isNone then
            return .leave (.ok false, frames, s)
          match ← descend store frames i s with
          | (.error x, frames, s) => return .leave (.error x, frames, s)
          | (.ok _, frames, s) => return .again (frames, keyRest, s)

theorem descendToBody_decreases (store : EdgeStore n V H σ ε) :
    Decreases (descendToBody store) fun st => st.2.1.length := by
  rintro ⟨frames, rest, s⟩ st' h
  simp only [descendToBody, bind_eq_ok] at h
  obtain ⟨⟨cur, x⟩, -, split, -, h⟩ := h
  split at h
  · cases h
  · obtain ⟨below, hbelow, h⟩ := bind_eq_ok.mp h
    split at h
    · cases h
    · split at h
      · cases h
      · obtain ⟨⟨r, frames', s'⟩, -, h⟩ := bind_eq_ok.mp h
        cases r <;> cases h
        exact Split.below_length hbelow

/-- Descend to the node at `key`; `true` when the top frame is that node. -/
def descendTo (store : EdgeStore n V H σ ε)
    (frames : Frames n V H (Descended n)) (key : Path n) (s : σ) :
    Checked (Except ε Bool × Frames n V H (Descended n) × σ) :=
  run (descendToBody store) _ (descendToBody_decreases store)
    (frames, key, s)

/-- Merge the only child of `node` into it.  The child must be inline. -/
def mergeOnlyChild (node : TrieNode n V H) : Checked (TrieNode n V H) := do
  let (taken, _) := node.children.takeOnlyChild
  let (i, edge) ← expect taken "one child"
  let child ← expect edge.asInline "materialized"
  let path := join node.partialPath i child.partialPath
  return (child.setPartialPath path).2

/-- What the unwind detached: an edge removed from a parent's map, or nothing
yet because the node leaving is the root. -/
inductive Detached (n : ℕ) (V H : Type) where
  | edge (e : Edge n V H)
  | root

/-- One step of the unwind: discard the top frame and repair its parent. -/
def unwindRemoveBody (store : EdgeStore n V H σ ε) :
    Frames n V H (Descended n) × σ →
      Checked (Pass (Frames n V H (Descended n) × σ)
        (Except ε (Detached n V H) × Frames n V H (Descended n) × σ))
  | (frames, s) =>
      match frames.pop with
      | none => .ok (.leave (.ok .root, frames, s))
      | some (_, frames) => do
          let (parent, descended) ← frames.top
          let i ← expect descended "descended into a child"
          let count := parent.children.count
          if parent.value.isSome || 3 ≤ count then
            let (edge, children) := parent.children.remove i
            let edge ← expect edge "present"
            return .leave (.ok (.edge edge),
              frames.setTop { parent with children }, s)
          if count = 2 then
            let (survivor, _) ← expect
              (parent.children.iterPresent.find? fun jf =>
                decide (jf.1 ≠ i)) "two children"
            let edge ← expect (parent.children.get survivor) "present"
            match store.materialize s edge with
            | (.error x, edge, s) =>
                return .leave (.error x,
                  frames.setTop (parent.setChild survivor edge), s)
            | (.ok _, edge, s) =>
                let parent := parent.setChild survivor edge
                let (edge, children) := parent.children.remove i
                let edge ← expect edge "present"
                let parent ← mergeOnlyChild { parent with children }
                return .leave (.ok (.edge edge), frames.setTop parent, s)
          -- A valueless parent whose only child is leaving leaves too.
          return .again (frames, s)

theorem pop_length {fs fs' : Frames n V H X} {x : X}
    (h : fs.pop = some (x, fs')) : fs'.length < fs.length := by
  match fs, h with
  | f :: p :: rest, h =>
      obtain ⟨-, rfl⟩ := Prod.mk.inj (Option.some.inj h)
      simp

/-- What a step of the unwind may say. -/
inductive UnwindStep (fs : Frames n V H (Descended n)) (s : σ) :
    Pass (Frames n V H (Descended n) × σ)
      (Except ε (Detached n V H) × Frames n V H (Descended n) × σ) → Prop
  | root (hpop : fs.pop = none) : UnwindStep fs s (.leave (.ok .root, fs, s))
  | again {x : Descended n} {fs' : Frames n V H (Descended n)}
      (hpop : fs.pop = some (x, fs')) : UnwindStep fs s (.again (fs', s))
  | leave {d : Except ε (Detached n V H)}
      {fs' : Frames n V H (Descended n)} {s' : σ} (hd : d ≠ .ok .root) :
      UnwindStep fs s (.leave (d, fs', s'))

theorem unwindRemoveBody_step {store : EdgeStore n V H σ ε}
    {fs : Frames n V H (Descended n)} {s : σ}
    {pass : Pass (Frames n V H (Descended n) × σ)
      (Except ε (Detached n V H) × Frames n V H (Descended n) × σ)}
    (h : unwindRemoveBody store (fs, s) = .ok pass) :
    UnwindStep fs s pass := by
  unfold unwindRemoveBody at h
  dsimp only at h
  cases hpop : fs.pop with
  | none =>
      rw [hpop] at h
      cases h
      exact .root hpop
  | some xf =>
      obtain ⟨x, fs'⟩ := xf
      rw [hpop] at h
      dsimp only at h
      obtain ⟨⟨parent, d⟩, -, h⟩ := bind_eq_ok.mp h
      obtain ⟨i, -, h⟩ := bind_eq_ok.mp h
      split at h
      · obtain ⟨_, -, h⟩ := bind_eq_ok.mp h
        cases h
        exact .leave (by rintro ⟨⟩)
      · split at h
        · obtain ⟨⟨j, _⟩, -, h⟩ := bind_eq_ok.mp h
          obtain ⟨_, -, h⟩ := bind_eq_ok.mp h
          split at h
          · cases h
            exact .leave (by rintro ⟨⟩)
          · obtain ⟨_, -, h⟩ := bind_eq_ok.mp h
            obtain ⟨_, -, h⟩ := bind_eq_ok.mp h
            cases h
            exact .leave (by rintro ⟨⟩)
        · cases h
          exact .again hpop

theorem unwindRemoveBody_decreases (store : EdgeStore n V H σ ε) :
    Decreases (unwindRemoveBody store) fun st => st.1.length := by
  rintro ⟨frames, s⟩ st' h
  cases unwindRemoveBody_step h with
  | again hpop => exact pop_length hpop

/-- Remove the top node from the trie and repair its ancestors. -/
def unwindRemove (store : EdgeStore n V H σ ε)
    (frames : Frames n V H (Descended n)) (s : σ) :
    Checked (Except ε (Detached n V H) × Frames n V H (Descended n) × σ) :=
  run (unwindRemoveBody store) _ (unwindRemoveBody_decreases store)
    (frames, s)

/-- One step down a chain of valueless single-child nodes. -/
def recoverBody (node : TrieNode n V H) :
    Checked (Pass (TrieNode n V H) (Option V)) :=
  if node.value.isSome then .ok (.leave node.value)
  else
    match node.children.takeOnlyChild with
    | (none, _) => .ok (.leave none)
    | (some (_, edge), _) => do
        let node ← expect edge.asInline "materialized"
        return .again node

theorem takeOnlyChild_get {E : Type} {c c' : ChildMap n E} {i : Fin n}
    {e : E} (h : c.takeOnlyChild = (some (i, e), c')) : c.get i = some e := by
  unfold ChildMap.takeOnlyChild at h
  split at h
  · next ie hie =>
      cases h
      exact ChildMap.mem_iterPresent.mp (by simp [hie])
  · cases h

theorem recoverBody_decreases :
    Decreases (recoverBody (n := n) (V := V) (H := H)) Node.size := by
  intro node node' h
  unfold recoverBody at h
  split at h
  · cases h
  · split at h
    · cases h
    · next htake =>
        obtain ⟨m, hm, h⟩ := bind_eq_ok.mp h
        cases h
        rw [expect_eq_ok] at hm
        unfold Edge.asInline at hm
        split at hm <;> cases hm
        exact Node.size_lt_of_get (takeOnlyChild_get htake)

/-- The value inside a detached node. -/
def recover (node : TrieNode n V H) : Checked (Option V) :=
  run recoverBody _ recoverBody_decreases node

/-- Clear the value of a node with exactly one child and merge the child into
it. -/
def clearAndMerge (store : EdgeStore n V H σ ε) (cur : TrieNode n V H)
    (s : σ) : Checked (Except ε (Option V) × TrieNode n V H × σ) := do
  let (i, _) ← expect cur.children.iterPresent.head? "one child"
  let edge ← expect (cur.children.get i) "present"
  match store.materialize s edge with
  | (.error x, edge, s) => return (.error x, cur.setChild i edge, s)
  | (.ok _, edge, s) =>
      let (old, cur) := (cur.setChild i edge).setValue none
      let cur ← mergeOnlyChild cur
      return (.ok old, cur, s)

/-- Remove the value at `key`, returning it. -/
def remove (store : EdgeStore n V H σ ε) (root : Trie n V H) (key : Path n)
    (s : σ) : Checked (Except ε (Option V) × Trie n V H × σ) :=
  match root with
  | none => .ok (.ok none, none, s)
  | some node => do
      match ← descendTo store (Frames.new node none) key s with
      | (.error x, frames, s) => return (.error x, frames.trie, s)
      | (.ok false, frames, s) => return (.ok none, frames.trie, s)
      | (.ok true, frames, s) =>
          let (cur, _) ← frames.top
          if cur.value.isNone then
            return (.ok none, frames.trie, s)
          match cur.children.count with
          | 0 =>
              let (r, frames, s) ← unwindRemove store frames s
              match r with
              | .error x => return (.error x, frames.trie, s)
              | .ok .root =>
                  match frames.trie with
                  | none => return (.ok none, none, s)
                  | some node => return (.ok (← recover node), none, s)
              | .ok (.edge edge) =>
                  match edge.asInline with
                  | none => return (.ok none, frames.trie, s)
                  | some node => return (.ok (← recover node), frames.trie, s)
          | 1 =>
              let (r, cur, s) ← clearAndMerge store cur s
              return (r, (frames.setTop cur).trie, s)
          | _ =>
              let (old, cur) := cur.setValue none
              return (.ok old, (frames.setTop cur).trie, s)

/-! ## Materializing a subtree -/

/-- Materialize the child at `i` of the top node and push it with its own set
of children to visit. -/
def materializeChild (store : EdgeStore n V H σ ε)
    (frames : Frames n V H (Bitmap n)) (i : Fin n) (s : σ) :
    Checked (Except ε Unit × Frames n V H (Bitmap n) × σ) :=
  frames.tryPushChild s fun cur s => do
    let edge ← expect (cur.children.get i) "present"
    match store.materialize s edge with
    | (.error x, edge, s) => return (.error x, cur.setChild i edge, s)
    | (.ok _, edge, s) =>
        return (.ok (i, edge.node, edge.node.children.present),
          cur.setChild i edge, s)

/-- One step of the depth-first walk that materializes. -/
def materializeSubtreeBody (store : EdgeStore n V H σ ε) :
    Frames n V H (Bitmap n) × σ →
      Checked (Pass (Frames n V H (Bitmap n) × σ)
        (Except ε Unit × Frames n V H (Bitmap n) × σ))
  | (frames, s) => do
      let (_, remaining) ← frames.top
      match Bitmap.select remaining 0 with
      | none =>
          match frames.pop with
          | none => return .leave (.ok (), frames, s)
          | some (_, frames) => return .again (frames, s)
      | some i =>
          let frames ← frames.setTopExtra (Bitmap.withoutBit remaining i)
          match ← materializeChild store frames i s with
          | (.error x, frames, s) => return .leave (.error x, frames, s)
          | (.ok _, frames, s) => return .again (frames, s)

/-- A pushed frame, in a stack whose top was `p`. -/
theorem materializeChild_eq_ok {store : EdgeStore n V H σ ε}
    {frames frames' : Frames n V H (Bitmap n)} {i : Fin n} {s s' : σ}
    (h : materializeChild store frames i s = .ok (.ok (), frames', s')) :
    ∃ p rest e, frames = p :: rest ∧ p.node.children.get i = some e ∧
      frames' = { slot := some i, node := e.node,
                  extra := e.node.children.present } ::
        { p with node := p.node.setChild i (.mk e.node none) } :: rest := by
  cases frames with
  | nil => cases h
  | cons p rest =>
      simp only [materializeChild, Frames.tryPushChild] at h
      obtain ⟨⟨r, nd, s₁⟩, hderive, h⟩ := bind_eq_ok.mp h
      obtain ⟨e, he, hderive⟩ := bind_eq_ok.mp hderive
      rw [expect_eq_ok] at he
      rcases store.materialize_cases s e with ⟨x, s₂, hm⟩ | ⟨s₂, hm⟩ <;>
        rw [hm] at hderive <;> cases hderive <;> cases h
      exact ⟨p, rest, e, rfl, he, rfl⟩

theorem materializeSubtreeBody_decreases (store : EdgeStore n V H σ ε) :
    Decreases (materializeSubtreeBody store) fun st => st.1.work id := by
  rintro ⟨frames, s⟩ st' h
  simp only [materializeSubtreeBody] at h
  obtain ⟨⟨cur, remaining⟩, htop, h⟩ := bind_eq_ok.mp h
  split at h
  · split at h
    · cases h
    · next hpop =>
        cases h
        exact Frames.work_pop hpop
  · next i hi =>
      cases frames with
      | nil => cases htop
      | cons f rest =>
          obtain ⟨frames', hset, h⟩ := bind_eq_ok.mp h
          cases htop
          cases hset
          obtain ⟨⟨r, frames'', s'⟩, hchild, h⟩ := bind_eq_ok.mp h
          cases r with
          | error x => cases h
          | ok u =>
              cases h
              obtain ⟨p, rest', e, heq, he, rfl⟩ :=
                materializeChild_eq_ok hchild
              cases heq
              refine Frames.work_push rest rfl ?_ rfl
                (Bitmap.mem_of_select_zero hi) rfl
                (e := .mk e.node none) (by simp) rfl
              exact Node.SameSizes.setChild he rfl

/-- Turn every edge beneath `node` inline. -/
def materializeSubtree (store : EdgeStore n V H σ ε)
    (node : TrieNode n V H) (s : σ) :
    Checked (Except ε Unit × TrieNode n V H × σ) := do
  let (r, frames, s) ← run (materializeSubtreeBody store) _
    (materializeSubtreeBody_decreases store)
    (Frames.new node node.children.present, s)
  -- The stack still holds the root, so the default is never used.
  return (r, frames.trie.getD node, s)

/-! ## Prefix removal -/

/-- One step of `remove_prefix`: descend, or detach the top node. -/
def removePrefixBody (store : EdgeStore n V H σ ε) :
    Frames n V H (Descended n) × Path n × σ →
      Checked (Pass (Frames n V H (Descended n) × Path n × σ)
        (Except ε Unit × Trie n V H × σ))
  | (frames, rest, s) => do
      let (cur, _) ← frames.top
      let split ← Split.of rest cur
      match ← split.below rest with
      | none =>
          -- The full path of `cur` starts with the prefix: it leaves.
          match ← materializeSubtree store cur s with
          | (.error x, cur, s) =>
              return .leave (.error x, (frames.setTop cur).trie, s)
          | (.ok _, cur, s) =>
              match ← unwindRemove store (frames.setTop cur) s with
              | (.error x, frames, s) =>
                  return .leave (.error x, frames.trie, s)
              | (.ok .root, _, s) => return .leave (.ok (), none, s)
              | (.ok (.edge _), frames, s) =>
                  return .leave (.ok (), frames.trie, s)
      | some (i, prefixRest) =>
          if split.above.isSome || (cur.children.get i).isNone then
            return .leave (.ok (), frames.trie, s)
          match ← descend store frames i s with
          | (.error x, frames, s) => return .leave (.error x, frames.trie, s)
          | (.ok _, frames, s) => return .again (frames, prefixRest, s)

theorem removePrefixBody_decreases (store : EdgeStore n V H σ ε) :
    Decreases (removePrefixBody store) fun st => st.2.1.length := by
  rintro ⟨frames, rest, s⟩ st' h
  simp only [removePrefixBody, bind_eq_ok] at h
  obtain ⟨⟨cur, x⟩, -, split, -, below, hbelow, h⟩ := h
  split at h
  · obtain ⟨⟨r, cur', s'⟩, -, h⟩ := bind_eq_ok.mp h
    cases r with
    | error x => cases h
    | ok u =>
        obtain ⟨⟨d, frames', s''⟩, -, h⟩ := bind_eq_ok.mp h
        rcases d with x | (e | _) <;> cases h
  · split at h
    · cases h
    · obtain ⟨⟨r, frames', s'⟩, -, h⟩ := bind_eq_ok.mp h
      cases r <;> cases h
      exact Split.below_length hbelow

/-- Remove every key that starts with `prefix`. -/
def removePrefix (store : EdgeStore n V H σ ε) (root : Trie n V H)
    (keyPrefix : Path n) (s : σ) :
    Checked (Except ε Unit × Trie n V H × σ) :=
  match root with
  | none => .ok (.ok (), none, s)
  | some node =>
      run (removePrefixBody store) _ (removePrefixBody_decreases store)
        (Frames.new node none, keyPrefix, s)

end ArityTries
