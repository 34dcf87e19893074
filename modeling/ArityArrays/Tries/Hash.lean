import ArityArrays.Tries.Ops

/-!
# The hash scheme and the Merkle hash walk

The walk is post-order over a frame stack with one path buffer shared by all
frames.  It seals every inline edge with its node's hash on the way up,
trusts every sealed edge, and rehashes a lone sealed child of a
sibling-sensitive parent before descending.
-/

namespace ArityTries

open Checked Loop

variable {n : ℕ} {V H σ ε : Type}

/-- Everything a scheme needs to hash one node. -/
structure HashInput (n : ℕ) (V H : Type) where
  leadingPath : Path n
  partialPath : Path n
  value : Option V
  /-- Present children of the parent, counting this node; `0` at the root. -/
  siblings : ℕ
  /-- The present children's indices and hashes, ascending. -/
  children : List (Fin n × H)

/-- A hash scheme over a trie. -/
structure TrieHasher (n : ℕ) (V H : Type) where
  hashNode : HashInput n V H → H
  /-- Whether the children of the node at this position hash differently
  depending on whether they have siblings. -/
  siblingSensitive : Path n → Path n → Bool
  /-- The value of a node rewritten from its children's hashes. -/
  updateValue : Path n → Path n → List (Fin n × H) → V → V

/-- Per-frame data of the hash walk. -/
structure HashFrame (n : ℕ) where
  indexInParent : Option (Fin n)
  /-- The length of the node's leading path in the shared buffer. -/
  leadingLen : ℕ
  siblings : ℕ
  count : ℕ
  /-- The inline children still to hash. -/
  pending : Bitmap n

/-- The sealed hashes of a node's children, ascending. -/
def sealedHashes (children : ChildMap n (Edge n V H)) :
    Checked (List (Fin n × H)) :=
  children.iterPresent.mapM fun ie => do
    let h ← expect ie.2.hash "every child is sealed"
    return (ie.1, h)

/-- Hash one node whose children are all sealed; `none` if any child is
inline. -/
def hashSealedNode (hasher : TrieHasher n V H) (node : TrieNode n V H)
    (leadingPath : Path n) (siblings : ℕ) : Checked (Option H) := do
  if node.children.iterPresent.any fun ie => ie.2.hash.isNone then
    return none
  let children ← sealedHashes node.children
  return some (hasher.hashNode {
    leadingPath
    partialPath := node.partialPath
    value := node.value
    siblings
    children })

/-- What one scan of a node's children collects. -/
structure Scan (n : ℕ) where
  pending : Bitmap n := Bitmap.ZERO
  count : ℕ := 0
  numSealed : ℕ := 0
  lastSealed : Option (Fin n) := none

def Scan.edge (scan : Scan n) (ie : Fin n × Edge n V H) : Scan n :=
  if ie.2.hash.isNone then
    { scan with
      count := scan.count + 1
      pending := Bitmap.withBit scan.pending ie.1 }
  else
    { scan with
      count := scan.count + 1
      numSealed := scan.numSealed + 1
      lastSealed := some ie.1 }

def scanChildren (children : ChildMap n (Edge n V H)) : Scan n :=
  children.iterPresent.foldl Scan.edge {}

/-- Prepare the frame for `node`, whose leading path is `buf[..leadingLen]`:
one scan of the children, and the rehash of a lone sealed child under a
sibling-sensitive parent. -/
def prepare (hasher : TrieHasher n V H) (store : EdgeStore n V H σ ε)
    (node : TrieNode n V H) (indexInParent : Option (Fin n))
    (leadingLen siblings : ℕ) (buf : Path n) (s : σ) :
    Checked (Except ε (HashFrame n) × TrieNode n V H × Path n × σ) := do
  let scan := scanChildren node.children
  let frame : HashFrame n := {
    indexInParent, leadingLen, siblings
    count := scan.count
    pending := scan.pending }
  if scan.numSealed = 1 then
    let leading ← sliceTo buf leadingLen
    if hasher.siblingSensitive leading node.partialPath then
      let i ← expect scan.lastSealed "one sealed child"
      let buf := buf.take leadingLen ++ node.partialPath ++ [i]
      let edge ← expect (node.children.get i) "present"
      match store.read s edge with
      | (.error x, s) => return (.error x, node, buf, s)
      | (.ok handle, s) =>
          let rehashed ← hashSealedNode hasher handle buf scan.count
          let buf := buf.take leadingLen
          match rehashed with
          | some h =>
              let (edge, s) := store.sealEdge s edge h
              return (.ok frame, node.setChild i edge, buf, s)
          | none =>
              -- Only a hand-built trie has inline edges beneath a sealed one.
              match store.materialize s edge with
              | (.error x, edge, s) =>
                  return (.error x, node.setChild i edge, buf, s)
              | (.ok _, edge, s) =>
                  let pending := Bitmap.withBit scan.pending i
                  return (.ok { frame with pending }, node.setChild i edge,
                    buf, s)
  return (.ok frame, node, buf, s)

/-- Push the inline child at `i` of the top node, whose leading path is the
whole of `buf`. -/
def pushPendingChild (hasher : TrieHasher n V H)
    (store : EdgeStore n V H σ ε) (frames : Frames n V H (HashFrame n))
    (i : Fin n) (siblings : ℕ) (buf : Path n) (s : σ) :
    Checked (Except ε Unit × Frames n V H (HashFrame n) × Path n × σ) :=
  frames.tryPushChild (buf, s) fun parent (buf, s) => do
    let edge ← expect (parent.children.get i) "present"
    let child ← expect edge.asInline "pending children are inline"
    let (r, child, buf, s) ←
      prepare hasher store child (some i) buf.length siblings buf s
    match r with
    | .error x => return (.error x, parent.writeChild i child, buf, s)
    | .ok frame => return (.ok (i, child, frame), parent, buf, s)

/-- Call `update_value` on the value of a node, if it has one. -/
def rewriteValue (hasher : TrieHasher n V H) (node : TrieNode n V H)
    (leadingPath : Path n) : Checked (TrieNode n V H) :=
  match node.value with
  | none => .ok node
  | some value => do
      let children ← sealedHashes node.children
      return { node with
        value := some (hasher.updateValue leadingPath node.partialPath
          children value) }

/-- Rewrite the value of a node whose children are all sealed, then hash
it. -/
def finishNode (hasher : TrieHasher n V H) (node : TrieNode n V H)
    (leadingPath : Path n) (siblings : ℕ) :
    Checked (H × TrieNode n V H) := do
  let node ← rewriteValue hasher node leadingPath
  let children ← sealedHashes node.children
  return (hasher.hashNode {
    leadingPath
    partialPath := node.partialPath
    value := node.value
    siblings
    children }, node)

/-- Seal the child at `i` of `parent` with `h`. -/
def sealChild (store : EdgeStore n V H σ ε) (parent : TrieNode n V H)
    (i : Fin n) (h : H) (s : σ) : Checked (TrieNode n V H × σ) := do
  let edge ← expect (parent.children.get i) "present"
  let (edge, s) := store.sealEdge s edge h
  return (parent.setChild i edge, s)

/-- One step of the walk: push a pending child, or hash the top node and seal
it through its parent. -/
def hashBody (hasher : TrieHasher n V H) (store : EdgeStore n V H σ ε) :
    Frames n V H (HashFrame n) × Path n × σ →
      Checked (Pass (Frames n V H (HashFrame n) × Path n × σ)
        (Except ε H × Trie n V H × σ))
  | (frames, buf, s) => do
      let (node, frame) ← frames.top
      match Bitmap.select frame.pending 0 with
      | some i =>
          let frames ← frames.setTopExtra
            { frame with pending := Bitmap.withoutBit frame.pending i }
          let buf := buf.take frame.leadingLen ++ node.partialPath ++ [i]
          match ← pushPendingChild hasher store frames i frame.count buf s with
          | (.error x, frames, _, s) =>
              return .leave (.error x, frames.trie, s)
          | (.ok _, frames, buf, s) => return .again (frames, buf, s)
      | none =>
          let buf := buf.take frame.leadingLen
          let ((h, indexInParent), node, frames) ←
            frames.popWith fun node frame => do
              let (h, node) ← finishNode hasher node buf frame.siblings
              return ((h, frame.indexInParent), node)
          match indexInParent with
          | none => return .leave (.ok h, some node, s)
          | some i =>
              let (parent, _) ← frames.top
              let (parent, s) ← sealChild store parent i h s
              return .again (frames.setTop parent, buf, s)

/-! ### Every pass lowers the work left -/

theorem prepare_sameSizes {hasher : TrieHasher n V H}
    {store : EdgeStore n V H σ ε} {node node' : TrieNode n V H}
    {index : Option (Fin n)} {leadingLen siblings : ℕ} {buf buf' : Path n}
    {s s' : σ} {r : Except ε (HashFrame n)}
    (h : prepare hasher store node index leadingLen siblings buf s =
      .ok (r, node', buf', s')) : node'.SameSizes node := by
  simp only [prepare] at h
  split at h
  · obtain ⟨leading, -, h⟩ := bind_eq_ok.mp h
    split at h
    · obtain ⟨i, -, h⟩ := bind_eq_ok.mp h
      obtain ⟨edge, hedge, h⟩ := bind_eq_ok.mp h
      rw [expect_eq_ok] at hedge
      split at h
      · cases h
        exact Node.SameSizes.refl node
      · obtain ⟨rehashed, -, h⟩ := bind_eq_ok.mp h
        cases rehashed with
        | some hash =>
            cases h
            exact Node.SameSizes.setChild hedge (by rw [store.sealEdge_edge]; rfl)
        | none =>
            rename_i s₁ _ _
            rcases store.materialize_cases s₁ edge with
              ⟨x, s₂, hm⟩ | ⟨s₂, hm⟩ <;> rw [hm] at h <;> cases h
            · exact Node.SameSizes.setChild hedge rfl
            · exact Node.SameSizes.setChild hedge rfl
    · cases h
      exact Node.SameSizes.refl node
  · cases h
    exact Node.SameSizes.refl node

/-- A pushed frame, in a stack whose top was `p`. -/
theorem pushPendingChild_eq_ok {hasher : TrieHasher n V H}
    {store : EdgeStore n V H σ ε} {p : Frame n V H (HashFrame n)}
    {rest frames' : Frames n V H (HashFrame n)} {i : Fin n} {siblings : ℕ}
    {buf buf' : Path n} {s s' : σ}
    (h : pushPendingChild hasher store (p :: rest) i siblings buf s =
      .ok (.ok (), frames', buf', s')) :
    ∃ e child frame, p.node.children.get i = some e ∧
      child.SameSizes e.node ∧
      frames' = { slot := some i, node := child, extra := frame } ::
        p :: rest := by
  simp only [pushPendingChild, Frames.tryPushChild] at h
  obtain ⟨⟨r, nd, buf₁, s₁⟩, hderive, h⟩ := bind_eq_ok.mp h
  obtain ⟨e, he, hderive⟩ := bind_eq_ok.mp hderive
  obtain ⟨child, hchild, hderive⟩ := bind_eq_ok.mp hderive
  obtain ⟨⟨r', child', buf₂, s₂⟩, hprepare, hderive⟩ := bind_eq_ok.mp hderive
  rw [expect_eq_ok] at he hchild
  have hnode : child = e.node := by
    unfold Edge.asInline at hchild
    split at hchild <;> cases hchild
    rfl
  subst hnode
  cases r' with
  | error x =>
      cases hderive
      cases h
  | ok frame =>
      cases hderive
      cases h
      exact ⟨e, child', frame, he, prepare_sameSizes hprepare, rfl⟩

theorem finishNode_sameSizes {hasher : TrieHasher n V H}
    {node node' : TrieNode n V H} {L : Path n} {siblings : ℕ} {h : H}
    (hfinish : finishNode hasher node L siblings = .ok (h, node')) :
    node'.SameSizes node := by
  obtain ⟨m, hm, hfinish⟩ := bind_eq_ok.mp hfinish
  obtain ⟨children, -, hfinish⟩ := bind_eq_ok.mp hfinish
  cases hfinish
  unfold rewriteValue at hm
  split at hm
  · cases hm
    exact Node.SameSizes.refl node
  · obtain ⟨hashes, -, hm⟩ := bind_eq_ok.mp hm
    cases hm
    exact fun i => rfl

theorem sealChild_eq_ok {store : EdgeStore n V H σ ε}
    {parent parent' : TrieNode n V H} {i : Fin n} {h : H} {s s' : σ}
    (hseal : sealChild store parent i h s = .ok (parent', s')) :
    ∃ e, parent.children.get i = some e ∧
      parent' = parent.setChild i (.mk e.node (some h)) := by
  obtain ⟨e, he, hseal⟩ := bind_eq_ok.mp hseal
  rw [expect_eq_ok] at he
  cases hseal
  exact ⟨e, he, by rw [store.sealEdge_edge]⟩

theorem hashBody_decreases (hasher : TrieHasher n V H)
    (store : EdgeStore n V H σ ε) :
    Decreases (hashBody hasher store) fun st => st.1.work (·.pending) := by
  rintro ⟨frames, buf, s⟩ st' h
  cases frames with
  | nil => cases h
  | cons f rest =>
      simp only [hashBody, Frames.top_cons, ok_bind] at h
      split at h
      · next i hi =>
          rw [Frames.setTopExtra_cons, ok_bind] at h
          obtain ⟨⟨r, frames', buf', s'⟩, hpush, h⟩ := bind_eq_ok.mp h
          cases r with
          | error x => cases h
          | ok u =>
              cases h
              obtain ⟨e, child, frame, he, hchild, rfl⟩ :=
                pushPendingChild_eq_ok hpush
              exact Frames.work_push rest rfl (Node.SameSizes.refl _) rfl
                (Bitmap.mem_of_select_zero hi) rfl he hchild.size_eq
      · obtain ⟨popped, hpop, h⟩ := bind_eq_ok.mp h
        cases rest with
        | nil =>
            obtain ⟨_, -, hpop⟩ := bind_eq_ok.mp hpop
            cases hpop
            split at h <;> cases h
        | cons p rest =>
            obtain ⟨finished, hfinish, hpop⟩ := bind_eq_ok.mp hpop
            obtain ⟨⟨hash, node⟩, hnode, hfinished⟩ :=
              bind_eq_ok.mp hfinish
            cases hfinished
            cases hpop
            dsimp only at h
            split at h
            · cases h
            · rw [Frames.top_cons, ok_bind] at h
              obtain ⟨⟨parent, s'⟩, hseal, h⟩ := bind_eq_ok.mp h
              cases h
              obtain ⟨e, he, rfl⟩ := sealChild_eq_ok hseal
              have hslot : ({ f with node } : Frame n V H _).slot = f.slot :=
                rfl
              refine Frames.work_absorb rest hslot
                (finishNode_sameSizes hnode).size_eq rfl ?_ rfl
              exact Node.SameSizes.setChild he rfl

/-- Hash the trie under `root`, sealing every inline edge with its node's
hash on the way up, and return the root's hash. -/
def hash (hasher : TrieHasher n V H) (store : EdgeStore n V H σ ε)
    (root : TrieNode n V H) (s : σ) :
    Checked (Except ε H × Trie n V H × σ) := do
  let (r, root, buf, s) ← prepare hasher store root none 0 0 [] s
  match r with
  | .error x => return (.error x, some root, s)
  | .ok frame =>
      run (hashBody hasher store) _ (hashBody_decreases hasher store)
        (Frames.new root frame, buf, s)

end ArityTries
