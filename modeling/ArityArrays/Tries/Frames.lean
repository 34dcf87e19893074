import ArityArrays.Tries.Store

/-!
# The frame stack behind mutation and hashing

A stack holds the nodes on the current path from the root down, each with
plain data of type `X`.  A frame stands for a pointer into the frame beneath
it: it records the slot it was derived from, and what is written through it
reaches the slot when the frame is discarded.  Only the top node is ever
accessed, so this is when the write can first be observed.
-/

namespace ArityTries

open Checked

variable {n : ℕ} {V H X ε σ : Type}

/-- Write the node behind the edge at `i`, leaving the edge's hash alone. -/
def Node.writeChild (nd : TrieNode n V H) (i : Fin n)
    (m : TrieNode n V H) : TrieNode n V H :=
  match nd.children.get i with
  | none => nd
  | some e => nd.setChild i (.mk m e.hash)

/-- A node on the current path, with the slot of the node beneath it that it
was derived from. -/
structure Frame (n : ℕ) (V H X : Type) where
  slot : Option (Fin n)
  node : TrieNode n V H
  extra : X

/-- What the frame beneath `f` holds once `f` is discarded. -/
def Frame.absorb (p f : Frame n V H X) : Frame n V H X :=
  match f.slot with
  | none => p
  | some i => { p with node := p.node.writeChild i f.node }

/-- A frame stack, top first. -/
abbrev Frames (n : ℕ) (V H X : Type) := List (Frame n V H X)

namespace Frames

/-- A stack whose only frame is `root`. -/
def new (root : TrieNode n V H) (extra : X) : Frames n V H X :=
  [{ slot := none, node := root, extra }]

/-- The top frame's node and data. -/
def top (fs : Frames n V H X) : Checked (TrieNode n V H × X) := do
  let f ← expect fs.head? "a stack is never empty"
  return (f.node, f.extra)

/-- Assign to the top node through the reference `top` hands out. -/
def setTop (fs : Frames n V H X) (nd : TrieNode n V H) :
    Frames n V H X :=
  match fs with
  | [] => []
  | f :: rest => { f with node := nd } :: rest

/-- Assign to the top frame's data through `top_extra`. -/
def setTopExtra (fs : Frames n V H X) (extra : X) :
    Checked (Frames n V H X) :=
  match fs with
  | [] => .error ⟨"a stack is never empty"⟩
  | f :: rest => .ok ({ f with extra } :: rest)

/-- Push a child of the top node.  `derive` receives the top node and returns
the slot and node of the child with its data; on an error nothing is
pushed. -/
def tryPushChild (fs : Frames n V H X) (s : σ)
    (derive : TrieNode n V H → σ →
      Checked (Except ε (Fin n × TrieNode n V H × X) ×
        TrieNode n V H × σ)) :
    Checked (Except ε Unit × Frames n V H X × σ) :=
  match fs with
  | [] => .error ⟨"a stack is never empty"⟩
  | f :: rest => do
      let (r, nd, s) ← derive f.node s
      match r with
      | .error x => return (.error x, { f with node := nd } :: rest, s)
      | .ok (i, child, extra) =>
          return (.ok (), { slot := some i, node := child, extra } ::
            { f with node := nd } :: rest, s)

/-- Give the top node one last time, then discard its frame, the root frame
included.  Returns the final node beside the result. -/
def popWith {R : Type} (fs : Frames n V H X)
    (f : TrieNode n V H → X → Checked (R × TrieNode n V H)) :
    Checked (R × TrieNode n V H × Frames n V H X) :=
  match fs with
  | [] => .error ⟨"a stack is never empty"⟩
  | [g] => do
      let (r, nd) ← f g.node g.extra
      return (r, nd, [])
  | g :: p :: rest => do
      let (r, nd) ← f g.node g.extra
      return (r, nd, p.absorb { g with node := nd } :: rest)

/-- Discard the top frame and return its data; `none` if only the root frame
remains. -/
def pop : Frames n V H X → Option (X × Frames n V H X)
  | [] => none
  | [_] => none
  | f :: p :: rest => some (f.extra, p.absorb f :: rest)

/-- The root once every frame above it is discarded. -/
def close (f : Frame n V H X) : Frames n V H X → TrieNode n V H
  | [] => f.node
  | p :: rest => close (p.absorb f) rest

/-- The trie a stack stands for. -/
def trie : Frames n V H X → Trie n V H
  | [] => none
  | f :: rest => some (close f rest)

@[simp] theorem top_cons (f : Frame n V H X) (rest : Frames n V H X) :
    top (f :: rest) = .ok (f.node, f.extra) := rfl

@[simp] theorem setTop_cons (f : Frame n V H X) (rest : Frames n V H X)
    (nd : TrieNode n V H) :
    setTop (f :: rest) nd = { f with node := nd } :: rest := rfl

@[simp] theorem setTopExtra_cons (f : Frame n V H X)
    (rest : Frames n V H X) (extra : X) :
    setTopExtra (f :: rest) extra = .ok ({ f with extra } :: rest) := rfl

@[simp] theorem pop_singleton (f : Frame n V H X) : pop [f] = none := rfl

@[simp] theorem pop_cons_cons (f p : Frame n V H X)
    (rest : Frames n V H X) :
    pop (f :: p :: rest) = some (f.extra, p.absorb f :: rest) := rfl

@[simp] theorem popWith_singleton {R : Type} (g : Frame n V H X)
    (f : TrieNode n V H → X → Checked (R × TrieNode n V H)) :
    popWith [g] f = do
      let (r, nd) ← f g.node g.extra
      return (r, nd, []) := rfl

@[simp] theorem popWith_cons_cons {R : Type} (g p : Frame n V H X)
    (rest : Frames n V H X)
    (f : TrieNode n V H → X → Checked (R × TrieNode n V H)) :
    popWith (g :: p :: rest) f = do
      let (r, nd) ← f g.node g.extra
      return (r, nd, p.absorb { g with node := nd } :: rest) := rfl

@[simp] theorem close_nil (f : Frame n V H X) : close f [] = f.node := rfl

@[simp] theorem trie_cons (f : Frame n V H X) (rest : Frames n V H X) :
    trie (f :: rest) = some (close f rest) := rfl

end Frames

theorem Node.writeChild_of_get {nd : TrieNode n V H} {i : Fin n}
    {e : Edge n V H} (he : nd.children.get i = some e)
    (m : TrieNode n V H) :
    nd.writeChild i m = nd.setChild i (.mk m e.hash) := by
  simp [writeChild, he]

@[simp] theorem Node.writeChild_setChild (nd : TrieNode n V H) (i : Fin n)
    (e : Edge n V H) (m : TrieNode n V H) :
    (nd.setChild i e).writeChild i m = nd.setChild i (.mk m e.hash) := by
  simp [writeChild]

/-- A child frame derived from an edge just written into its parent leaves
the parent with the child's node behind that edge. -/
@[simp] theorem Frame.absorb_setChild (slot : Option (Fin n))
    (nd : TrieNode n V H) (i : Fin n) (e : Edge n V H) (x y : X)
    (m : TrieNode n V H) :
    Frame.absorb { slot, node := nd.setChild i e, extra := x }
        { slot := some i, node := m, extra := y } =
      { slot, node := nd.setChild i (.mk m e.hash), extra := x } := by
  simp [Frame.absorb]

/-! ## Pending work as a variant -/

/-- The work a frame stands for: itself, and every node behind the slots its
data marks as pending. -/
def Frame.work (pending : X → Bitmap n) (f : Frame n V H X) : ℕ :=
  1 + 2 * ∑ i ∈ pending f.extra, slotSize (f.node.children.get i)

theorem Frame.work_pos (pending : X → Bitmap n) (f : Frame n V H X) :
    0 < f.work pending := by
  unfold work
  omega

/-- The pending slots of a frame hold at most its node's subtrees. -/
theorem Frame.work_lt (pending : X → Bitmap n) (f : Frame n V H X) :
    f.work pending < 2 * f.node.size := by
  have hle : ∑ i ∈ pending f.extra, slotSize (f.node.children.get i) ≤
      ∑ i, slotSize (f.node.children.get i) :=
    Finset.sum_le_sum_of_subset (Finset.subset_univ _)
  have hsize := f.node.size_eq
  unfold work
  omega

namespace Frames

/-- The work beneath a frame, as its discarding leaves it. -/
def workBelow (pending : X → Bitmap n) (f : Frame n V H X) :
    Frames n V H X → ℕ
  | [] => 0
  | p :: rest =>
      (p.absorb f).work pending + workBelow pending (p.absorb f) rest

/-- The work a stack stands for. -/
def work (pending : X → Bitmap n) : Frames n V H X → ℕ
  | [] => 0
  | f :: rest => f.work pending + workBelow pending f rest

end Frames

/-- Two nodes with subtrees of equal sizes at every slot. -/
def Node.SameSizes (nd nd' : TrieNode n V H) : Prop :=
  ∀ i, slotSize (nd.children.get i) = slotSize (nd'.children.get i)

namespace Node.SameSizes

theorem refl (nd : TrieNode n V H) : nd.SameSizes nd := fun _ => rfl

theorem trans {nd nd' nd'' : TrieNode n V H} (h : nd.SameSizes nd')
    (h' : nd'.SameSizes nd'') : nd.SameSizes nd'' :=
  fun i => (h i).trans (h' i)

theorem size_eq {nd nd' : TrieNode n V H} (h : nd.SameSizes nd') :
    nd.size = nd'.size := by
  rw [Node.size_eq, Node.size_eq]
  simp only [h _]

theorem setChild {nd : TrieNode n V H} {i : Fin n} {e e' : Edge n V H}
    (he : nd.children.get i = some e)
    (hsize : e'.node.size = e.node.size) :
    (nd.setChild i e').SameSizes nd := by
  intro j
  by_cases hj : j = i
  · subst j
    simp [he, hsize]
  · simp [ChildMap.get_set_of_ne _ hj]

theorem writeChild (nd : TrieNode n V H) (i : Fin n)
    {m m' : TrieNode n V H} (hsize : m.size = m'.size) :
    (nd.writeChild i m).SameSizes (nd.writeChild i m') := by
  intro j
  unfold Node.writeChild
  cases he : nd.children.get i with
  | none => rfl
  | some e =>
      by_cases hj : j = i
      · subst j
        simp [hsize]
      · simp [ChildMap.get_set_of_ne _ hj]

theorem work_eq {f g : Frame n V H X} {pending : X → Bitmap n}
    (h : f.node.SameSizes g.node) (hx : pending f.extra = pending g.extra) :
    f.work pending = g.work pending := by
  simp only [Frame.work, hx, h _]

end Node.SameSizes

namespace Frames

/-- The work beneath a frame depends on the slot and the size of its node. -/
theorem workBelow_congr {pending : X → Bitmap n} {f g : Frame n V H X}
    (hslot : f.slot = g.slot) (hsize : f.node.size = g.node.size)
    (rest : Frames n V H X) :
    workBelow pending f rest = workBelow pending g rest := by
  induction rest generalizing f g with
  | nil => rfl
  | cons p rest ih =>
      have hsame : (p.absorb f).node.SameSizes (p.absorb g).node := by
        unfold Frame.absorb
        rw [hslot]
        cases g.slot with
        | none => exact Node.SameSizes.refl _
        | some i => exact Node.SameSizes.writeChild _ i hsize
      have hextra : (p.absorb f).extra = (p.absorb g).extra := by
        unfold Frame.absorb
        rw [hslot]
        cases g.slot <;> rfl
      have hslots : (p.absorb f).slot = (p.absorb g).slot := by
        unfold Frame.absorb
        rw [hslot]
        cases g.slot <;> rfl
      rw [workBelow, workBelow, ih hslots hsame.size_eq,
        hsame.work_eq (congrArg pending hextra)]

theorem work_cons (pending : X → Bitmap n) (f : Frame n V H X)
    (rest : Frames n V H X) :
    work pending (f :: rest) = f.work pending + workBelow pending f rest :=
  rfl

/-- Pushing the child at a pending slot, which stops being pending, decreases
the work. -/
theorem work_push {pending : X → Bitmap n} {p p' f : Frame n V H X}
    {i : Fin n} {e : Edge n V H} (rest : Frames n V H X)
    (hslot : p'.slot = p.slot) (hsame : p'.node.SameSizes p.node)
    (hpending : pending p'.extra = (pending p.extra).erase i)
    (hi : i ∈ pending p.extra) (hf : f.slot = some i)
    (he : p'.node.children.get i = some e)
    (hsize : f.node.size = e.node.size) :
    work pending (f :: p' :: rest) < work pending (p :: rest) := by
  have habsorb : p'.absorb f =
      { p' with node := p'.node.setChild i (.mk f.node e.hash) } := by
    simp [Frame.absorb, hf, Node.writeChild_of_get he]
  have hsame' : (p'.absorb f).node.SameSizes p.node := by
    rw [habsorb]
    have hset : (p'.node.setChild i (.mk f.node e.hash)).SameSizes p'.node :=
      Node.SameSizes.setChild he hsize
    exact hset.trans hsame
  have hbelow : workBelow pending (p'.absorb f) rest =
      workBelow pending p rest := by
    refine workBelow_congr ?_ hsame'.size_eq rest
    rw [habsorb]
    exact hslot
  have hparent : (p'.absorb f).work pending + 2 * e.node.size =
      p.work pending := by
    have hsum := Finset.add_sum_erase (pending p.extra)
      (fun j => slotSize (p.node.children.get j)) hi
    have hslotSize : slotSize (p.node.children.get i) = e.node.size := by
      rw [← hsame i, he, slotSize_some]
    have hextra : pending (p'.absorb f).extra = (pending p.extra).erase i := by
      rw [habsorb]
      exact hpending
    simp only [Frame.work, hextra, hsame' _]
    rw [← hsum, hslotSize]
    omega
  have hchild := Frame.work_lt pending f
  rw [work_cons, work_cons]
  simp only [workBelow, hbelow]
  omega

/-- Discarding the top frame decreases the work, also when both its node and
the parent it leaves are then replaced by nodes of the same sizes. -/
theorem work_absorb {pending : X → Bitmap n} {f f' p p' : Frame n V H X}
    (rest : Frames n V H X) (hslot : f'.slot = f.slot)
    (hsize : f'.node.size = f.node.size)
    (hslot' : p'.slot = (p.absorb f').slot)
    (hsame : p'.node.SameSizes (p.absorb f').node)
    (hextra : p'.extra = (p.absorb f').extra) :
    work pending (p' :: rest) < work pending (f :: p :: rest) := by
  have hpos := f.work_pos pending
  have htop : p'.work pending = (p.absorb f').work pending :=
    hsame.work_eq (congrArg pending hextra)
  have hbelow : workBelow pending p' rest =
      workBelow pending (p.absorb f') rest :=
    workBelow_congr hslot' hsame.size_eq rest
  have habsorb : workBelow pending f' (p :: rest) =
      workBelow pending f (p :: rest) :=
    workBelow_congr hslot hsize (p :: rest)
  simp only [workBelow] at habsorb
  rw [work_cons, work_cons, htop, hbelow, habsorb]
  simp only [workBelow]
  omega

/-- Discarding the top frame decreases the work. -/
theorem work_pop {pending : X → Bitmap n} {fs fs' : Frames n V H X} {x : X}
    (hpop : pop fs = some (x, fs')) : work pending fs' < work pending fs := by
  match fs, hpop with
  | f :: p :: rest, hpop =>
      obtain ⟨-, rfl⟩ := Prod.mk.inj (Option.some.inj hpop)
      exact work_absorb rest rfl rfl rfl (Node.SameSizes.refl _) rfl

end Frames

end ArityTries
