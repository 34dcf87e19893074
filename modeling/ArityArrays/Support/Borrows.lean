import Mathlib.Data.List.Basic
import ArityArrays.Support.Checked

/-!
# Pointers into a tree, under a borrow stack

A node holds other nodes in slots.  A pointer names a node by the slots that
lead to it and carries the tag of the borrow it was made by.  The tags in use
form a stack: an access through a pointer ends every borrow made since its own,
and one through a pointer whose borrow has ended is a failure.  So a
computation that returns has kept to the discipline of Stacked Borrows.

Nothing here refers to a particular program.
-/

namespace Borrows

open Checked

/-- A type whose values hold others in slots. -/
class Slots (N : Type) (I : outParam Type) where
  get : N → I → Option N
  /-- Replace what an occupied slot holds. -/
  set : N → I → N → N
  get_set : ∀ {nd m : N} {i : I} (m' : N), get nd i = some m →
    get (set nd i m') i = some m'
  set_get : ∀ {nd m : N} {i : I}, get nd i = some m → set nd i m = nd
  set_set : ∀ (nd : N) (i : I) (m m' : N),
    set (set nd i m) i m' = set nd i m'

variable {N I : Type} [Slots N I]

/-- The node at a position; the slot taken last comes first. -/
def nodeAt (root : N) : List I → Option N
  | [] => some root
  | i :: pos => (nodeAt root pos).bind fun p => Slots.get p i

/-- The root after the node at a position is overwritten. -/
def writeAt (root : N) : List I → N → N
  | [], nd => nd
  | i :: pos, nd =>
      match nodeAt root pos with
      | none => root
      | some p => writeAt root pos (Slots.set p i nd)

@[simp] theorem nodeAt_nil (root : N) : nodeAt root [] = some root := rfl

theorem nodeAt_cons {root p : N} {i : I} {pos : List I}
    (hp : nodeAt root pos = some p) :
    nodeAt root (i :: pos) = Slots.get p i := by
  rw [nodeAt, hp, Option.bind_some]

@[simp] theorem writeAt_nil (root nd : N) :
    writeAt root ([] : List I) nd = nd := rfl

theorem writeAt_cons {root p : N} {i : I} {pos : List I}
    (hp : nodeAt root pos = some p) (nd : N) :
    writeAt root (i :: pos) nd = writeAt root pos (Slots.set p i nd) := by
  simp only [writeAt, hp]

/-- A pointer to the node at a position. -/
structure Pointer (I : Type) where
  position : List I
  tag : ℕ

/-- The tree, the tags of the borrows that have not ended, latest first, and
the next tag. -/
structure Memory (N : Type) where
  root : N
  tags : List ℕ
  next : ℕ

namespace Memory

/-- A pointer to the root, from the borrow of it that everything else here is
made from. -/
def new (root : N) : Pointer I × Memory N :=
  ({ position := [], tag := 0 }, { root, tags := [0], next := 1 })

/-- Read through a pointer; the borrows made since its own end. -/
def access (m : Memory N) (p : Pointer I) : Checked (N × Memory N) :=
  match m.tags.dropWhile (· ≠ p.tag) with
  | [] => .error ⟨"the borrow of the pointer has ended"⟩
  | tags => do
      let nd ← expect (nodeAt m.root p.position) "dangling pointer"
      return (nd, { m with tags })

/-- Write through a pointer. -/
def write (m : Memory N) (p : Pointer I) (nd : N) : Checked (Memory N) := do
  let (_, m) ← m.access p
  return { m with root := writeAt m.root p.position nd }

/-- A pointer to what a slot of the node behind `p` holds, made from `p`. -/
def reborrow (m : Memory N) (p : Pointer I) (i : I) :
    Checked (Pointer I × Memory N) := do
  let (nd, m) ← m.access p
  let _ ← expect (Slots.get nd i) "empty slot"
  return ({ position := i :: p.position, tag := m.next },
    { m with tags := m.next :: m.tags, next := m.next + 1 })

/-- Another pointer to the node behind `p`, made from `p`. -/
def renew (m : Memory N) (p : Pointer I) :
    Checked (Pointer I × Memory N) := do
  let (_, m) ← m.access p
  return ({ position := p.position, tag := m.next },
    { m with tags := m.next :: m.tags, next := m.next + 1 })

end Memory

/-- The tags of a stack of pointers, each made from the one beneath it, are
still in use, in order. -/
def Granted (ps : List (Pointer I)) (m : Memory N) : Prop :=
  (ps.map Pointer.tag).Sublist m.tags

theorem dropWhile_of_sublist {t : ℕ} {ts tags : List ℕ}
    (h : (t :: ts).Sublist tags) :
    ∃ tags', tags.dropWhile (· ≠ t) = t :: tags' ∧ ts.Sublist tags' := by
  induction tags with
  | nil => cases h
  | cons a tags ih =>
      by_cases ha : a = t
      · subst a
        refine ⟨tags, by simp, ?_⟩
        exact List.cons_sublist_cons.mp h
      · have hrest : (t :: ts).Sublist tags := by
          cases h with
          | cons _ h => exact h
          | cons_cons _ h => exact absurd rfl ha
        obtain ⟨tags', hdrop, hsub⟩ := ih hrest
        refine ⟨tags', ?_, hsub⟩
        rw [List.dropWhile_cons_of_pos (by simpa using ha), hdrop]

section Access

variable {m : Memory N} {p : Pointer I} {ps : List (Pointer I)} {nd : N}

/-- The top pointer of a stack can be read, and the stack stays in use. -/
theorem Granted.access (h : Granted (p :: ps) m)
    (hnd : nodeAt m.root p.position = some nd) :
    ∃ m', m.access p = .ok (nd, m') ∧ m'.root = m.root ∧
      Granted (p :: ps) m' := by
  obtain ⟨tags', hdrop, hsub⟩ := dropWhile_of_sublist h
  refine ⟨{ m with tags := p.tag :: tags' }, ?_, rfl, ?_⟩
  · simp only [Memory.access, hdrop, hnd, expect_some, ok_bind, pure_eq_ok]
  · exact List.cons_sublist_cons.mpr hsub

theorem Granted.write (h : Granted (p :: ps) m)
    (hnd : nodeAt m.root p.position = some nd) (nd' : N) :
    ∃ m', m.write p nd' = .ok m' ∧
      m'.root = writeAt m.root p.position nd' ∧ Granted (p :: ps) m' := by
  obtain ⟨m', haccess, hroot, hgranted⟩ := h.access hnd
  refine ⟨{ m' with root := writeAt m'.root p.position nd' }, ?_, ?_,
    hgranted⟩
  · simp [Memory.write, haccess]
  · rw [hroot]

/-- A pointer made from the top one may be pushed on the stack. -/
theorem Granted.reborrow (h : Granted (p :: ps) m)
    (hnd : nodeAt m.root p.position = some nd) {i : I} {child : N}
    (hchild : Slots.get nd i = some child) :
    ∃ q m', m.reborrow p i = .ok (q, m') ∧ q.position = i :: p.position ∧
      m'.root = m.root ∧ Granted (q :: p :: ps) m' := by
  obtain ⟨m', haccess, hroot, hgranted⟩ := h.access hnd
  refine ⟨{ position := i :: p.position, tag := m'.next },
    { m' with tags := m'.next :: m'.tags, next := m'.next + 1 }, ?_, rfl,
    hroot, ?_⟩
  · simp [Memory.reborrow, haccess, hchild]
  · exact List.cons_sublist_cons.mpr hgranted

omit [Slots N I] in
/-- Discarding the top pointer of a stack touches no memory. -/
theorem Granted.of_cons (h : Granted (p :: ps) m) : Granted ps m :=
  (List.sublist_cons_self p.tag _).trans h

end Access

/-! ## A tree within a tree -/

section Positions

variable {whole p nd : N} {base pos : List I}

theorem exists_of_nodeAt_cons {i : I} (h : nodeAt whole (i :: pos) = some nd) :
    ∃ p, nodeAt whole pos = some p ∧ Slots.get p i = some nd :=
  Option.bind_eq_some_iff.mp h

theorem writeAt_self (h : nodeAt whole base = some nd) :
    writeAt whole base nd = whole := by
  induction base generalizing nd with
  | nil =>
      cases h
      rfl
  | cons i base ih =>
      obtain ⟨p, hp, hget⟩ := exists_of_nodeAt_cons h
      rw [writeAt_cons hp, Slots.set_get hget, ih hp]

theorem nodeAt_writeAt (h : nodeAt whole base = some nd) (nd' : N) :
    nodeAt (writeAt whole base nd') base = some nd' := by
  induction base generalizing nd nd' with
  | nil => rfl
  | cons i base ih =>
      obtain ⟨p, hp, hget⟩ := exists_of_nodeAt_cons h
      rw [writeAt_cons hp, nodeAt_cons (ih hp _), Slots.get_set nd' hget]

theorem writeAt_writeAt (h : nodeAt whole base = some nd) (nd' nd'' : N) :
    writeAt (writeAt whole base nd') base nd'' = writeAt whole base nd'' := by
  induction base generalizing nd nd' nd'' with
  | nil => rfl
  | cons i base ih =>
      obtain ⟨p, hp, -⟩ := exists_of_nodeAt_cons h
      rw [writeAt_cons hp, writeAt_cons (nodeAt_writeAt hp _), ih hp,
        Slots.set_set, writeAt_cons hp]

theorem nodeAt_append (h : nodeAt whole base = some p) :
    nodeAt whole (pos ++ base) = nodeAt p pos := by
  induction pos with
  | nil => exact h
  | cons i pos ih => rw [List.cons_append, nodeAt, nodeAt, ih]

theorem writeAt_append (h : nodeAt whole base = some p)
    (hnd : nodeAt p pos = some nd) (nd' : N) :
    writeAt whole (pos ++ base) nd' =
      writeAt whole base (writeAt p pos nd') := by
  induction pos generalizing nd nd' with
  | nil => rfl
  | cons i pos ih =>
      obtain ⟨q, hq, -⟩ := exists_of_nodeAt_cons hnd
      rw [List.cons_append, writeAt_cons ((nodeAt_append h).trans hq), ih hq,
        writeAt_cons hq]

end Positions

/-- The pointer, where its tree stands at `base` of a larger one and its tag
is counted from `k` on. -/
def Pointer.within (base : List I) (k : ℕ) (p : Pointer I) : Pointer I where
  position := p.position ++ base
  tag := p.tag + k

/-- The tree of `m` stands at `base` of a larger one, which is `whole` but for
it, and all its borrows were made after those in `outer`. -/
structure Memory.Within (whole : N) (base : List I) (k : ℕ) (outer : List ℕ)
    (m m' : Memory N) : Prop where
  occupied : ∃ nd, nodeAt whole base = some nd
  root : m'.root = writeAt whole base m.root
  tags : m'.tags = m.tags.map (· + k) ++ outer
  next : m'.next = m.next + k

namespace Memory.Within

variable {whole : N} {base : List I} {k : ℕ} {outer : List ℕ}
variable {m m₁ m' : Memory N} {p q : Pointer I} {nd : N} {i : I}

theorem nodeAt_root (h : Within whole base k outer m m') :
    nodeAt m'.root base = some m.root := by
  obtain ⟨nd, hnd⟩ := h.occupied
  rw [h.root]
  exact nodeAt_writeAt hnd m.root

theorem access (h : Within whole base k outer m m')
    (hm : m.access p = .ok (nd, m₁)) :
    ∃ m₁', m'.access (p.within base k) = .ok (nd, m₁') ∧
      Within whole base k outer m₁ m₁' ∧ m₁.root = m.root ∧
      nodeAt m.root p.position = some nd := by
  unfold Memory.access at hm
  have htags : m'.tags.dropWhile (· ≠ (p.within base k).tag) =
      if (m.tags.dropWhile (· ≠ p.tag)).isEmpty
      then outer.dropWhile (· ≠ (p.within base k).tag)
      else (m.tags.dropWhile (· ≠ p.tag)).map (· + k) ++ outer := by
    have hshift : ((fun t => decide (t ≠ p.tag + k)) ∘ fun t => t + k) =
        fun t => decide (t ≠ p.tag) := by
      funext t
      simp
    rw [h.tags, List.dropWhile_append, Pointer.within, List.dropWhile_map,
      hshift, List.isEmpty_map]
  cases hdrop : m.tags.dropWhile (· ≠ p.tag) with
  | nil =>
      rw [hdrop] at hm
      cases hm
  | cons t ts =>
      rw [hdrop] at hm htags
      obtain ⟨nd', hnd, hm⟩ := bind_eq_ok.mp hm
      cases hm
      rw [expect_eq_ok] at hnd
      refine ⟨{ m' with tags := (t :: ts).map (· + k) ++ outer }, ?_,
        ⟨h.occupied, h.root, rfl, h.next⟩, rfl, hnd⟩
      have hnode : nodeAt m'.root (p.within base k).position = some nd :=
        (nodeAt_append h.nodeAt_root).trans hnd
      simp only [Memory.access, htags, List.isEmpty_cons, Bool.false_eq_true,
        if_false, List.map_cons, List.cons_append, hnode, expect_some, ok_bind,
        pure_eq_ok]

theorem write (h : Within whole base k outer m m') {nd' : N}
    (hm : m.write p nd' = .ok m₁) :
    ∃ m₁', m'.write (p.within base k) nd' = .ok m₁' ∧
      Within whole base k outer m₁ m₁' := by
  obtain ⟨⟨nd, m₂⟩, haccess, hm⟩ := bind_eq_ok.mp hm
  cases hm
  obtain ⟨m₂', haccess', h', hroot, hnode⟩ := h.access haccess
  obtain ⟨old, hold⟩ := h.occupied
  refine ⟨{ m₂' with
    root := writeAt m₂'.root (p.within base k).position nd' }, ?_,
    ⟨h.occupied, ?_, h'.tags, h'.next⟩⟩
  · simp only [Memory.write, haccess', ok_bind, pure_eq_ok]
  · rw [← hroot] at hnode
    calc writeAt m₂'.root (p.within base k).position nd'
        = writeAt m₂'.root base (writeAt m₂.root p.position nd') :=
          writeAt_append h'.nodeAt_root hnode nd'
      _ = writeAt whole base (writeAt m₂.root p.position nd') := by
          rw [h'.root, writeAt_writeAt hold]

theorem reborrow (h : Within whole base k outer m m')
    (hm : m.reborrow p i = .ok (q, m₁)) :
    ∃ m₁', m'.reborrow (p.within base k) i = .ok (q.within base k, m₁') ∧
      Within whole base k outer m₁ m₁' := by
  obtain ⟨⟨nd, m₂⟩, haccess, hm⟩ := bind_eq_ok.mp hm
  obtain ⟨child, hchild, hm⟩ := bind_eq_ok.mp hm
  cases hm
  rw [expect_eq_ok] at hchild
  obtain ⟨m₂', haccess', h', -, -⟩ := h.access haccess
  refine ⟨{ m₂' with tags := m₂'.next :: m₂'.tags, next := m₂'.next + 1 }, ?_,
    ⟨h'.occupied, h'.root, ?_, ?_⟩⟩
  · rw [Memory.reborrow, haccess', ok_bind]
    simp only [hchild, expect_some, ok_bind, pure_eq_ok, Pointer.within,
      h'.next, List.cons_append]
  · simp only [h'.tags, h'.next, List.map_cons, List.cons_append]
  · simp only [h'.next]
    omega

/-- The pointers outside stay in use. -/
theorem granted (h : Within whole base k outer m m') {ps : List (Pointer I)}
    (hps : (ps.map Pointer.tag).Sublist outer) : Granted ps m' := by
  rw [Granted, h.tags]
  exact hps.trans (List.sublist_append_right _ _)

end Memory.Within

/-- The pointer made from the top one of a stack, to the same node, borrows the
node as a tree of its own. -/
theorem Granted.renew {m : Memory N} {p : Pointer I} {ps : List (Pointer I)}
    {nd : N} (h : Granted (p :: ps) m)
    (hnd : nodeAt m.root p.position = some nd) :
    ∃ m' k outer, m.renew p =
        .ok ((Memory.new nd).1.within p.position k, m') ∧
      Memory.Within m.root p.position k outer (Memory.new (I := I) nd).2 m' ∧
      ((p :: ps).map Pointer.tag).Sublist outer := by
  obtain ⟨m₁, haccess, hroot, hgranted⟩ := h.access hnd
  refine ⟨{ m₁ with tags := m₁.next :: m₁.tags, next := m₁.next + 1 },
    m₁.next, m₁.tags, ?_, ⟨⟨nd, hnd⟩, ?_, ?_, ?_⟩, hgranted⟩
  · simp [Memory.renew, haccess, Memory.new, Pointer.within]
  · rw [hroot]
    exact (writeAt_self hnd).symm
  · simp [Memory.new]
  · exact Nat.add_comm _ _

end Borrows
