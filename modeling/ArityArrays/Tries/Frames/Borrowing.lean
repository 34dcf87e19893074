import ArityArrays.Tries.Frames.Pointers

/-!
# Every client of the frame stack keeps its borrows in order

A stack of pointers stands for a stack of nodes: the tree is what the nodes
leave once every frame is discarded, and the borrows of the frames have not
ended.  Each operation keeps this, so a client does the same on both.
-/

namespace ArityTries

open Checked Borrows

variable {n : ℕ} {V H X R : Type}

theorem Frame.absorb_slot (p f : Frame n V H X) :
    (p.absorb f).slot = p.slot := by
  unfold absorb
  cases f.slot <;> rfl

theorem Frame.absorb_extra (p f : Frame n V H X) :
    (p.absorb f).extra = p.extra := by
  unfold absorb
  cases f.slot <;> rfl

theorem Frame.absorb_node {p f : Frame n V H X} {i : Fin n}
    (hslot : f.slot = some i) :
    (p.absorb f).node = p.node.writeChild i f.node := by
  simp only [absorb, hslot]

namespace Frames

/-- The slots from the root to the top node, last taken first. -/
def path (fs : Frames n V H X) : Path n := fs.filterMap Frame.slot

/-- The position of every frame's node, top first. -/
def positions : Frames n V H X → List (Path n)
  | [] => []
  | f :: rest => path (f :: rest) :: positions rest

/-- Every frame but the root's is derived from an edge of the node beneath. -/
def Derives : Frames n V H X → Prop
  | [] => True
  | [f] => f.slot = none
  | f :: p :: rest =>
      (∃ i e, f.slot = some i ∧ p.node.children.get i = some e) ∧
        Derives (p :: rest)

theorem Derives.of_cons {f : Frame n V H X} {rest : Frames n V H X}
    (h : Derives (f :: rest)) : Derives rest := by
  cases rest with
  | nil => exact True.intro
  | cons p rest => exact h.2

/-- The top frame may be replaced by one derived from the same edge. -/
theorem Derives.replace {f g : Frame n V H X} {rest : Frames n V H X}
    (h : Derives (f :: rest)) (hslot : g.slot = f.slot) :
    Derives (g :: rest) := by
  cases rest with
  | nil => rw [Derives, hslot]; exact h
  | cons p rest => rw [Derives, hslot]; exact h

theorem path_replace {f g : Frame n V H X} (rest : Frames n V H X)
    (hslot : g.slot = f.slot) : path (g :: rest) = path (f :: rest) := by
  simp only [path, List.filterMap_cons, hslot]

theorem path_cons {f : Frame n V H X} {i : Fin n} (rest : Frames n V H X)
    (hslot : f.slot = some i) : path (f :: rest) = i :: path rest := by
  simp only [path, List.filterMap_cons, hslot]

theorem path_root {f : Frame n V H X} (h : Derives [f]) : path [f] = [] := by
  have hslot : f.slot = none := h
  simp only [path, List.filterMap_cons, List.filterMap_nil, hslot]

/-- The top node is where its position says in the tree a stack stands for. -/
theorem nodeAt_close {f : Frame n V H X} {rest : Frames n V H X}
    (h : Derives (f :: rest)) :
    nodeAt (close f rest) (path (f :: rest)) = some f.node := by
  induction rest generalizing f with
  | nil =>
      rw [path_root h, nodeAt_nil, close_nil]
  | cons p rest ih =>
      obtain ⟨⟨i, e, hslot, he⟩, hrest⟩ := h
      have hp := ih (hrest.replace (Frame.absorb_slot p f))
      rw [path_replace rest (Frame.absorb_slot p f)] at hp
      rw [path_cons _ hslot, close, nodeAt_cons hp, Frame.absorb_node hslot]
      exact Slots.get_set f.node (Option.map_eq_some_iff.mpr ⟨e, he, rfl⟩)

/-- Writing the top node's position writes the top node. -/
theorem writeAt_close {f : Frame n V H X} {rest : Frames n V H X}
    (h : Derives (f :: rest)) (nd : TrieNode n V H) :
    writeAt (close f rest) (path (f :: rest)) nd =
      close { f with node := nd } rest := by
  induction rest generalizing f nd with
  | nil =>
      rw [path_root h, writeAt_nil, close_nil]
  | cons p rest ih =>
      obtain ⟨⟨i, e, hslot, he⟩, hrest⟩ := h
      have hp' := hrest.replace (Frame.absorb_slot p f)
      have hp := nodeAt_close hp'
      rw [path_replace rest (Frame.absorb_slot p f)] at hp
      have hwrite := ih hp' (Slots.set (p.absorb f).node i nd)
      rw [path_replace rest (Frame.absorb_slot p f)] at hwrite
      rw [path_cons _ hslot, close, writeAt_cons hp, hwrite, close]
      congr 1
      rw [Frame.absorb_node hslot]
      have hset := Slots.set_set p.node i f.node nd
      simp only [Frame.absorb, hslot]
      exact congrArg (fun m => Frame.mk p.slot m p.extra) hset

/-- What a stack leaves does not depend on the data of its frames. -/
theorem close_congr {f g : Frame n V H X} (rest : Frames n V H X)
    (hslot : g.slot = f.slot) (hnode : g.node = f.node) :
    close g rest = close f rest := by
  cases rest with
  | nil => exact hnode
  | cons p rest =>
      have habsorb : p.absorb g = p.absorb f := by
        simp only [Frame.absorb, hslot, hnode]
      rw [close, close, habsorb]

/-- The tree a stack stands for, `t` once it is empty. -/
def tree (fs : Frames n V H X) (t : Trie n V H) : Trie n V H :=
  match fs with
  | [] => t
  | f :: rest => some (close f rest)

theorem tree_none (fs : Frames n V H X) : fs.tree none = fs.trie := by
  cases fs <;> rfl

end Frames

namespace Raw

/-- A stack of pointers that stands for the stack `fs` of nodes, or for the
root `t` once it is empty. -/
structure Frames.StandsFor (pfs : Frames n V H X)
    (fs : ArityTries.Frames n V H X) (t : Trie n V H) : Prop where
  granted : Granted (pfs.frames.map Prod.fst) pfs.memory
  positions : pfs.frames.map (fun px => px.1.position) = fs.positions
  extras : pfs.frames.map Prod.snd = fs.map Frame.extra
  root : some pfs.memory.root = fs.tree t
  derives : fs.Derives

namespace Frames.StandsFor

theorem new (root : TrieNode n V H) (extra : X) :
    StandsFor (Frames.new root extra) (ArityTries.Frames.new root extra)
      none where
  granted := List.Sublist.refl _
  positions := rfl
  extras := rfl
  root := rfl
  derives := rfl

section Operations

variable {pfs : Frames n V H X} {fs : ArityTries.Frames n V H X}
  {t : Trie n V H}

theorem nil (h : StandsFor pfs [] t) : pfs.frames = [] := by
  have hextras := h.extras
  exact List.map_eq_nil_iff.mp hextras

/-- The top pointer of a stack points at the top node. -/
theorem cons {f : Frame n V H X} {rest : ArityTries.Frames n V H X}
    (h : StandsFor pfs (f :: rest) t) :
    ∃ p prest, pfs.frames = (p, f.extra) :: prest ∧
      Granted (p :: prest.map Prod.fst) pfs.memory ∧
      p.position = ArityTries.Frames.path (f :: rest) ∧
      nodeAt pfs.memory.root p.position = some f.node ∧
      pfs.memory.root = ArityTries.Frames.close f rest ∧
      prest.map (fun px => px.1.position) = rest.positions ∧
      prest.map Prod.snd = rest.map Frame.extra := by
  obtain ⟨⟨p, extra⟩, prest, hframes, rfl, hextras⟩ :=
    List.map_eq_cons_iff.mp h.extras
  have hgranted := h.granted
  have hpositions := h.positions
  rw [hframes] at hgranted hpositions
  obtain ⟨hp, hpositions⟩ := List.cons.inj hpositions
  have hroot : pfs.memory.root = ArityTries.Frames.close f rest :=
    Option.some.inj h.root
  refine ⟨p, prest, hframes, hgranted, hp, ?_, hroot, hpositions, hextras⟩
  dsimp only at hp
  rw [hroot, hp]
  exact ArityTries.Frames.nodeAt_close h.derives

/-- Reading the top node. -/
theorem top {f : Frame n V H X} {rest : ArityTries.Frames n V H X}
    (h : StandsFor pfs (f :: rest) t) :
    ∃ pfs', pfs.top = .ok (f.node, f.extra, pfs') ∧
      StandsFor pfs' (f :: rest) t := by
  obtain ⟨p, prest, hframes, hgranted, hp, hnode, -⟩ := h.cons
  obtain ⟨m', haccess, hroot, hgranted'⟩ := hgranted.access hnode
  refine ⟨{ pfs with memory := m' }, ?_, ⟨?_, h.positions, h.extras, ?_,
    h.derives⟩⟩
  · simp [Frames.top, hframes, haccess]
  · rw [hframes]
    exact hgranted'
  · rw [hroot]
    exact h.root

/-- Writing the top node. -/
theorem setTop {f : Frame n V H X} {rest : ArityTries.Frames n V H X}
    (h : StandsFor pfs (f :: rest) t) (nd : TrieNode n V H) :
    ∃ pfs', pfs.setTop nd = .ok pfs' ∧
      StandsFor pfs' ({ f with node := nd } :: rest) t := by
  obtain ⟨p, prest, hframes, hgranted, hp, hnode, hclose, hpositions,
    hextras⟩ := h.cons
  obtain ⟨m', hwrite, hroot, hgranted'⟩ := hgranted.write hnode nd
  refine ⟨{ pfs with memory := m' }, ?_, ⟨?_, ?_, h.extras, ?_,
    h.derives.replace rfl⟩⟩
  · simp [Frames.setTop, hframes, hwrite]
  · rw [hframes]
    exact hgranted'
  · exact h.positions
  · rw [hroot, hp, hclose, ArityTries.Frames.writeAt_close h.derives]
    rfl

theorem setTopExtra {f : Frame n V H X} {rest : ArityTries.Frames n V H X}
    (h : StandsFor pfs (f :: rest) t) (extra : X) :
    ∃ pfs', pfs.setTopExtra extra = .ok pfs' ∧
      StandsFor pfs' ({ f with extra } :: rest) t := by
  obtain ⟨p, prest, hframes, hgranted, hp, hnode, hclose, hpositions,
    hextras⟩ := h.cons
  refine ⟨{ pfs with frames := (p, extra) :: prest }, ?_, ⟨hgranted, ?_, ?_,
    ?_, h.derives.replace rfl⟩⟩
  · simp [Frames.setTopExtra, hframes]
  · rw [List.map_cons, hpositions]
    exact congrArg (· :: rest.positions) hp
  · rw [List.map_cons, hextras]
    rfl
  · have hsame : ArityTries.Frames.close { f with extra } rest =
        ArityTries.Frames.close f rest :=
      ArityTries.Frames.close_congr rest rfl rfl
    rw [hclose, ← hsame]
    rfl

/-- Discarding the top frame. -/
theorem pop {f g : Frame n V H X} {rest : ArityTries.Frames n V H X}
    (h : StandsFor pfs (f :: g :: rest) t) :
    ∃ pfs', pfs.pop = some (f.extra, pfs') ∧
      StandsFor pfs' (g.absorb f :: rest) t := by
  obtain ⟨p, prest, hframes, hgranted, -, -, hclose, hpositions, hextras⟩ :=
    h.cons
  obtain ⟨⟨q, y⟩, prest', rfl, rfl, -⟩ := List.map_eq_cons_iff.mp hextras
  refine ⟨{ pfs with frames := (q, g.extra) :: prest' }, ?_,
    ⟨hgranted.of_cons, ?_, ?_, ?_, h.derives.of_cons.replace ?_⟩⟩
  · simp [Frames.pop, hframes]
  · rw [hpositions]
    exact congrArg (· :: rest.positions)
      (ArityTries.Frames.path_replace rest
        (Frame.absorb_slot g f)).symm
  · rw [hextras, List.map_cons, List.map_cons,
      Frame.absorb_extra]
  · rw [hclose]
    rfl
  · exact Frame.absorb_slot g f

/-- The root's frame is never popped. -/
theorem pop_none {f : Frame n V H X} (h : StandsFor pfs [f] t) :
    pfs.pop = none := by
  obtain ⟨p, prest, hframes, -, -, -, -, -, hextras⟩ := h.cons
  obtain rfl : prest = [] := List.map_eq_nil_iff.mp hextras
  simp [Frames.pop, hframes]

/-- A closure writes the top node, and the child it derives is pushed. -/
theorem tryPushChild {f : Frame n V H X} {rest : ArityTries.Frames n V H X}
    (h : StandsFor pfs (f :: rest) t) {A : Type}
    {derive : TrieNode n V H →
      Checked (A × (TrieNode n V H ⊕ Derived n V H X))} {a : A}
    {fs' : ArityTries.Frames n V H X}
    (hpush : ArityTries.Frames.pushDerived (f :: rest) derive =
      .ok (a, fs')) :
    ∃ pfs', pfs.tryPushChild derive = .ok (a, pfs') ∧
      StandsFor pfs' fs' t := by
  obtain ⟨p, prest, hframes, hgranted, hp, hnode, hclose, hpositions,
    hextras⟩ := h.cons
  obtain ⟨m₁, haccess, hroot₁, hgranted₁⟩ := hgranted.access hnode
  obtain ⟨⟨a', d⟩, hderive, hpush⟩ := bind_eq_ok.mp hpush
  have hnode₁ : nodeAt m₁.root p.position = some f.node := by
    rw [hroot₁, hnode]
  have hwritten : ∀ nd, writeAt m₁.root p.position nd =
      ArityTries.Frames.close { f with node := nd } rest := by
    intro nd
    rw [hroot₁, hp, hclose, ArityTries.Frames.writeAt_close h.derives]
  rcases d with nd | c
  · cases hpush
    obtain ⟨m₂, hwrite, hroot₂, hgranted₂⟩ := hgranted₁.write hnode₁ nd
    refine ⟨{ pfs with memory := m₂ }, ?_, ⟨?_, h.positions, h.extras, ?_,
      h.derives.replace rfl⟩⟩
    · simp [Frames.tryPushChild, hframes, haccess, hderive, hwrite]
    · rw [hframes]
      exact hgranted₂
    · rw [hroot₂, hwritten]
      rfl
  · cases hpush
    obtain ⟨e, he⟩ := Option.isSome_iff_exists.mp c.occupied
    obtain ⟨m₂, hwrite, hroot₂, hgranted₂⟩ :=
      hgranted₁.write hnode₁ (c.parent.writeChild c.slot c.child)
    have hslot : Slots.get (c.parent.writeChild c.slot c.child) c.slot =
        some c.child :=
      Slots.get_set c.child (Option.map_eq_some_iff.mpr ⟨e, he, rfl⟩)
    have hparent : nodeAt m₂.root p.position =
        some (c.parent.writeChild c.slot c.child) := by
      rw [hroot₂, hwritten, hp]
      exact ArityTries.Frames.nodeAt_close (h.derives.replace rfl)
    obtain ⟨q, m₃, hreborrow, hq, hroot₃, hgranted₃⟩ :=
      hgranted₂.reborrow hparent hslot
    refine ⟨{ frames := (q, c.extra) :: pfs.frames, memory := m₃ }, ?_,
      ⟨?_, ?_, ?_, ?_, ⟨⟨c.slot, e, rfl, he⟩, h.derives.replace rfl⟩⟩⟩
    · simp [Frames.tryPushChild, hframes, haccess, hderive, hwrite,
        hreborrow]
    · rw [hframes]
      exact hgranted₃
    · rw [List.map_cons, h.positions, hq, hp]
      rfl
    · rw [List.map_cons, h.extras]
      rfl
    · rw [hroot₃, hroot₂, hwritten]
      rfl

/-- Giving the top node one last time. -/
theorem popWith {f : Frame n V H X} {rest : ArityTries.Frames n V H X}
    (h : StandsFor pfs (f :: rest) t) {A : Type}
    {finish : TrieNode n V H → X → Checked (A × TrieNode n V H)} {a : A}
    {nd : TrieNode n V H} {fs' : ArityTries.Frames n V H X}
    (hpop : ArityTries.Frames.popWith (f :: rest) finish =
      .ok (a, nd, fs')) :
    ∃ pfs', pfs.popWith finish = .ok (a, pfs') ∧
      StandsFor pfs' fs' (if fs'.isEmpty then some nd else t) := by
  obtain ⟨p, prest, hframes, hgranted, hp, hnode, hclose, hpositions,
    hextras⟩ := h.cons
  obtain ⟨m₁, haccess, hroot₁, hgranted₁⟩ := hgranted.access hnode
  have hnode₁ : nodeAt m₁.root p.position = some f.node := by
    rw [hroot₁, hnode]
  have hwritten : ∀ nd, writeAt m₁.root p.position nd =
      ArityTries.Frames.close { f with node := nd } rest := by
    intro nd
    rw [hroot₁, hp, hclose, ArityTries.Frames.writeAt_close h.derives]
  have hderives := h.derives
  cases rest with
  | nil =>
      obtain ⟨⟨a', nd'⟩, hfinish, hpop⟩ := bind_eq_ok.mp hpop
      cases hpop
      obtain ⟨m₂, hwrite, hroot₂, hgranted₂⟩ := hgranted₁.write hnode₁ nd
      refine ⟨{ frames := prest, memory := m₂ }, ?_,
        ⟨hgranted₂.of_cons, hpositions, hextras, ?_, True.intro⟩⟩
      · simp [Frames.popWith, hframes, haccess, hfinish, hwrite]
      · rw [hroot₂, hwritten]
        rfl
  | cons g rest =>
      obtain ⟨⟨a', nd'⟩, hfinish, hpop⟩ := bind_eq_ok.mp hpop
      cases hpop
      obtain ⟨m₂, hwrite, hroot₂, hgranted₂⟩ := hgranted₁.write hnode₁ nd
      have hslot := Frame.absorb_slot g { f with node := nd }
      refine ⟨{ frames := prest, memory := m₂ }, ?_,
        ⟨hgranted₂.of_cons, ?_, ?_, ?_, hderives.of_cons.replace hslot⟩⟩
      · simp [Frames.popWith, hframes, haccess, hfinish, hwrite]
      · rw [hpositions]
        exact congrArg (· :: ArityTries.Frames.positions rest)
          (ArityTries.Frames.path_replace rest hslot).symm
      · rw [hextras, List.map_cons, List.map_cons,
          Frame.absorb_extra]
      · rw [hroot₂, hwritten]
        rfl

/-- A closure that panics does so on pointers too. -/
theorem tryPushChild_error {f : Frame n V H X}
    {rest : ArityTries.Frames n V H X} (h : StandsFor pfs (f :: rest) t)
    {A : Type} {derive : TrieNode n V H →
      Checked (A × (TrieNode n V H ⊕ Derived n V H X))} {e : Panic}
    (hpush : ArityTries.Frames.pushDerived (f :: rest) derive = .error e) :
    pfs.tryPushChild derive = .error e := by
  obtain ⟨p, prest, hframes, hgranted, -, hnode, -⟩ := h.cons
  obtain ⟨m₁, haccess, -, -⟩ := hgranted.access hnode
  have hderive : derive f.node = .error e := by
    rcases bind_eq_error.mp hpush with hderive | ⟨⟨a, nd | c⟩, -, hd⟩
    · exact hderive
    · cases hd
    · cases hd
  simp only [Frames.tryPushChild, hframes, List.head?_cons, expect_some,
    ok_bind, haccess, hderive]
  rfl

theorem popWith_error {f : Frame n V H X}
    {rest : ArityTries.Frames n V H X} (h : StandsFor pfs (f :: rest) t)
    {A : Type} {finish : TrieNode n V H → X → Checked (A × TrieNode n V H)}
    {e : Panic}
    (hpop : ArityTries.Frames.popWith (f :: rest) finish = .error e) :
    pfs.popWith finish = .error e := by
  obtain ⟨p, prest, hframes, hgranted, -, hnode, -⟩ := h.cons
  obtain ⟨m₁, haccess, -, -⟩ := hgranted.access hnode
  have hfinish : finish f.node f.extra = .error e := by
    cases rest with
    | nil =>
        rcases bind_eq_error.mp hpop with hfinish | ⟨a, -, ha⟩
        · exact hfinish
        · cases ha
    | cons g rest =>
        rcases bind_eq_error.mp hpop with hfinish | ⟨a, -, ha⟩
        · exact hfinish
        · cases ha
  simp only [Frames.popWith, hframes, haccess, ok_bind, hfinish]
  rfl

end Operations

end Frames.StandsFor

/-! ## Clients -/

/-- A client ends alike on nodes and on pointers. -/
inductive Agrees : Checked (R × ArityTries.Frames n V H X × Trie n V H) →
    Checked (R × Frames n V H X) → Prop
  | ok {r : R} {fs : ArityTries.Frames n V H X} {t : Trie n V H}
      {pfs : Frames n V H X} (h : pfs.StandsFor fs t) :
      Agrees (.ok (r, fs, t)) (.ok (r, pfs))
  | error (p : Panic) : Agrees (.error p) (.error p)

/-- A client that runs on stacks that stand for one another. -/
theorem Frames.StandsFor.client {pfs : Frames n V H X}
    {fs : ArityTries.Frames n V H X} {t : Trie n V H}
    (h : pfs.StandsFor fs t) (c : Client n V H X R) :
    Agrees (c.onNodes fs t) (c.onPointers pfs) := by
  induction c generalizing pfs fs t with
  | done r => exact .ok h
  | panic p => exact .error p
  | top next ih =>
      cases fs with
      | nil =>
          simp only [Client.onPointers, Frames.top, h.nil]
          exact .error _
      | cons f rest =>
          obtain ⟨pfs', htop, h'⟩ := h.top
          simp only [Client.onNodes, Client.onPointers, htop, ok_bind,
            ArityTries.Frames.top_cons]
          exact ih f.node f.extra h'
  | setTop nd next ih =>
      cases fs with
      | nil =>
          simp only [Client.onPointers, Frames.setTop, h.nil]
          exact .error _
      | cons f rest =>
          obtain ⟨pfs', hset, h'⟩ := h.setTop nd
          simp only [Client.onNodes, Client.onPointers, hset, ok_bind,
            ArityTries.Frames.top_cons, ArityTries.Frames.setTop_cons]
          exact ih h'
  | setTopExtra extra next ih =>
      cases fs with
      | nil =>
          simp only [Client.onPointers, Frames.setTopExtra, h.nil]
          exact .error _
      | cons f rest =>
          obtain ⟨pfs', hset, h'⟩ := h.setTopExtra extra
          simp only [Client.onNodes, Client.onPointers, hset, ok_bind,
            ArityTries.Frames.setTopExtra_cons]
          exact ih h'
  | tryPushChild derive next ih =>
      cases fs with
      | nil =>
          simp only [Client.onPointers, Frames.tryPushChild, h.nil]
          exact .error _
      | cons f rest =>
          cases hpush : ArityTries.Frames.pushDerived (f :: rest) derive with
          | error p =>
              simp only [Client.onNodes, Client.onPointers, hpush,
                h.tryPushChild_error hpush]
              exact .error p
          | ok out =>
              obtain ⟨a, fs'⟩ := out
              obtain ⟨pfs', hpush', h'⟩ := h.tryPushChild hpush
              simp only [Client.onNodes, Client.onPointers, hpush, hpush',
                ok_bind]
              exact ih a h'
  | popWith finish next ih =>
      cases fs with
      | nil =>
          simp only [Client.onPointers, Frames.popWith, h.nil]
          exact .error _
      | cons f rest =>
          cases hpop : ArityTries.Frames.popWith (f :: rest) finish with
          | error p =>
              simp only [Client.onNodes, Client.onPointers, hpop,
                h.popWith_error hpop]
              exact .error p
          | ok out =>
              obtain ⟨a, nd, fs'⟩ := out
              obtain ⟨pfs', hpop', h'⟩ := h.popWith hpop
              simp only [Client.onNodes, Client.onPointers, hpop, hpop',
                ok_bind]
              exact ih a h'
  | pop next ih =>
      match fs, h with
      | [], h =>
          simp only [Client.onPointers, Frames.pop, h.nil]
          exact ih none h
      | [f], h =>
          simp only [Client.onPointers, h.pop_none]
          exact ih none h
      | f :: g :: rest, h =>
          obtain ⟨pfs', hpop, h'⟩ := h.pop
          simp only [Client.onNodes, Client.onPointers, hpop,
            ArityTries.Frames.pop_cons_cons]
          exact ih (some f.extra) h'

theorem Frames.StandsFor.client_ok {pfs : Frames n V H X}
    {fs fs' : ArityTries.Frames n V H X} {t t' : Trie n V H}
    (h : pfs.StandsFor fs t) {c : Client n V H X R} {r : R}
    (hc : c.onNodes fs t = .ok (r, fs', t')) :
    ∃ pfs', c.onPointers pfs = .ok (r, pfs') ∧ pfs'.StandsFor fs' t' := by
  have hagrees := h.client c
  rw [hc] at hagrees
  generalize c.onPointers pfs = out at hagrees
  cases hagrees with
  | ok h' => exact ⟨_, rfl, h'⟩

/-- Whatever a client does with the stack, it does alike on nodes and on
pointers: the same result, or the same panic.  A stack it leaves holds pointers
that may all still be used, into the tree the nodes make up. -/
theorem client_on_pointers (root : TrieNode n V H) (extra : X)
    (c : Client n V H X R) :
    Agrees (c.onNodes (ArityTries.Frames.new root extra) none)
      (c.onPointers (Frames.new root extra)) :=
  (Frames.StandsFor.new root extra).client c

end Raw

end ArityTries
