import Mathlib.Data.List.Basic
import ArityArrays.Support.Checked
import ArityArrays.Support.Unwind

/-!
# Handles that borrow from one another

A handle dereferences to a value and borrows what another pointer points at,
which must not be released before it.  A chain is a stack of handles, each of
which borrows from the one beneath it.  Reading through a released handle,
releasing a handle twice and releasing one that a live handle still borrows
from are failures, so a computation that returns has done none of these.

Nothing here refers to a particular program.
-/

namespace Handles

open Checked Loop Routine

/-- A pointer to the root, or to what a handle dereferences to. -/
inductive Pointer where
  | root
  | handle (k : ℕ)
  deriving DecidableEq

structure Handle (α : Type) where
  /-- What the handle borrows from. -/
  owner : Pointer
  target : α
  live : Bool

/-- A stack of handles, last pushed first, and the memory they point into: the
root, and every handle acquired so far by its number. -/
structure Chain (α : Type) where
  root : Option α
  acquired : List (Handle α)
  handles : List ℕ

namespace Chain

variable {α : Type}

def new (root : Option α) : Chain α where
  root := root
  acquired := []
  handles := []

/-- Read through a pointer. -/
def deref (c : Chain α) : Pointer → Checked α
  | .root => expect c.root "no root"
  | .handle k =>
      match c.acquired[k]? with
      | none => .error ⟨"dangling pointer"⟩
      | some h =>
          if h.live then .ok h.target else .error ⟨"use after release"⟩

/-- A new handle to `target` that borrows from `owner`, by its number. -/
def acquire (c : Chain α) (owner : Pointer) (target : α) :
    Checked (ℕ × Chain α) := do
  let _ ← c.deref owner
  return (c.acquired.length,
    { c with acquired := c.acquired ++ [{ owner, target, live := true }] })

/-- What the last of some handles dereferences to. -/
def lastOf : List ℕ → Pointer
  | [] => .root
  | k :: _ => .handle k

/-- Push a handle, which has to borrow from the last one, and point at what it
dereferences to. -/
def push (c : Chain α) (k : ℕ) : Checked (Pointer × Chain α) :=
  match c.acquired[k]? with
  | none => .error ⟨"dangling handle"⟩
  | some h =>
      if h.owner = lastOf c.handles then
        .ok (.handle k, { c with handles := k :: c.handles })
      else .error ⟨"not borrowed from the last handle"⟩

/-- Whether a live handle borrows from handle `k`. -/
def borrowed (c : Chain α) (k : ℕ) : Bool :=
  c.acquired.any fun h => h.live && decide (h.owner = .handle k)

/-- Release handle `k`. -/
def release (c : Chain α) (k : ℕ) : Checked (Chain α) :=
  match c.acquired[k]? with
  | none => .error ⟨"dangling handle"⟩
  | some h =>
      if !h.live then .error ⟨"released twice"⟩
      else if c.borrowed k then .error ⟨"released under a borrower"⟩
      else .ok { c with acquired := c.acquired.set k { h with live := false } }

/-- Remove the last handle and run its destructor. -/
def pop (d : Destructor ℕ) : Routine (Chain α) ℕ := fun c =>
  match c.handles with
  | [] => .ok ⟨c, [], .returns⟩
  | k :: rest => do
      let c ← { c with handles := rest }.release k
      return ⟨c, d.drops [k], if d.fails k then .unwinds else .returns⟩

/-- One pass of popping until the chain is empty. -/
def popBody (d : Destructor ℕ) : Chain α × List (Event ℕ) →
    Checked (Pass (Chain α × List (Event ℕ)) (Outcome (Chain α) ℕ))
  | (c, es) =>
      match c.handles with
      | [] => .ok (.leave ⟨c, es, .returns⟩)
      | _ :: _ => do
          let out ← pop d c
          match out.exit with
          | .returns => return .again (out.state, es ++ out.events)
          | .unwinds => return .leave ⟨out.state, es ++ out.events, .unwinds⟩
          | .aborts => return .leave ⟨out.state, es ++ out.events, .aborts⟩

theorem release_handles {c c' : Chain α} {k : ℕ}
    (h : c.release k = .ok c') : c'.handles = c.handles := by
  unfold release at h
  split at h
  · cases h
  · split at h
    · cases h
    · split at h
      · cases h
      · cases h
        rfl

theorem popBody_decreases (d : Destructor ℕ) :
    Decreases (popBody (α := α) d) fun st => st.1.handles.length := by
  rintro ⟨c, es⟩ ⟨c', es'⟩ h
  cases hhandles : c.handles with
  | nil => simp [popBody, hhandles] at h
  | cons k rest =>
      simp only [popBody, hhandles, pop] at h
      obtain ⟨out, hpop, h⟩ := bind_eq_ok.mp h
      obtain ⟨c₁, hrelease, hout⟩ := bind_eq_ok.mp hpop
      have hlen : out.state.handles = rest := by
        cases hout
        exact release_handles hrelease
      split at h
      · cases h
        simp [hlen, hhandles]
      · cases h
      · cases h

/-- A handle just acquired and pushed dereferences to its target. -/
theorem deref_of_push {c c₁ c' : Chain α} {owner p : Pointer} {t : α}
    {k : ℕ} (hacquire : c.acquire owner t = .ok (k, c₁))
    (hpush : c₁.push k = .ok (p, c')) : c'.deref p = .ok t := by
  obtain ⟨t₀, -, h⟩ := bind_eq_ok.mp hacquire
  cases h
  unfold push at hpush
  rw [List.getElem?_concat_length] at hpush
  dsimp only at hpush
  split at hpush
  · cases hpush
    simp [deref]
  · cases hpush

/-- Pop until the chain is empty, or a destructor panics. -/
def popAll (d : Destructor ℕ) : Routine (Chain α) ℕ := fun c =>
  run (popBody d) _ (popBody_decreases d) (c, [])

/-- Free the buffer of a chain, which has to be empty by then. -/
def freeBuffer (cap : Option ℕ) : Routine (Chain α) ℕ := fun c =>
  if c.handles.isEmpty then
    .ok ⟨c, (cap.map Event.freed).toList, .returns⟩
  else .error ⟨"handles left in the buffer"⟩

/-- Release every handle, last first, and free the buffer.  A guard finishes
both when a destructor panics. -/
def drop (d : Destructor ℕ) (cap : Option ℕ) : Routine (Chain α) ℕ :=
  deferred (popAll d) ((popAll d).andThen (freeBuffer cap))

/-! ## Stacked chains -/

/-- Each of some handles is live and borrows from the one beneath it. -/
def Linked (acquired : List (Handle α)) : List ℕ → Prop
  | [] => True
  | k :: ks =>
      (∃ target, acquired[k]? =
        some { owner := lastOf ks, target, live := true }) ∧
      Linked acquired ks

/-- The live handles are those of the chain, and each borrows from the one
beneath it. -/
structure Stacked (c : Chain α) : Prop where
  linked : Linked c.acquired c.handles
  live : ∀ k h, c.acquired[k]? = some h → h.live = true → k ∈ c.handles
  descending : c.handles.Pairwise (· > ·)

/-- What can be read while a chain holds some handles. -/
def pointers (ks : List ℕ) : List Pointer := ks.map .handle ++ [.root]

/-- Nothing is seen to change through any of the pointers `ps`. -/
def Keeps (c c' : Chain α) (ps : List Pointer) : Prop :=
  ∀ p ∈ ps, c'.deref p = c.deref p

theorem pointers_cons (k : ℕ) (ks : List ℕ) :
    pointers (k :: ks) = .handle k :: pointers ks := rfl

theorem pointers_eq_cons (ks : List ℕ) :
    ∃ ps, pointers ks = lastOf ks :: ps := by
  cases ks with
  | nil => exact ⟨[], rfl⟩
  | cons k ks => exact ⟨pointers ks, rfl⟩

theorem handle_mem_pointers {k : ℕ} {ks : List ℕ} :
    .handle k ∈ pointers ks ↔ k ∈ ks := by
  simp [pointers]

theorem Linked.congr {hs hs' : List (Handle α)} {ks : List ℕ}
    (h : Linked hs ks) (heq : ∀ k ∈ ks, hs'[k]? = hs[k]?) :
    Linked hs' ks := by
  induction ks with
  | nil => exact True.intro
  | cons k ks ih =>
      obtain ⟨⟨target, hk⟩, hks⟩ := h
      refine ⟨⟨target, ?_⟩, ih hks ?_⟩
      · rw [heq k List.mem_cons_self, hk]
      · intro j hj
        exact heq j (List.mem_cons_of_mem k hj)

theorem Linked.lt_length {hs : List (Handle α)} {ks : List ℕ}
    (h : Linked hs ks) {k : ℕ} (hk : k ∈ ks) : k < hs.length := by
  induction ks with
  | nil => cases hk
  | cons j ks ih =>
      rcases List.mem_cons.mp hk with rfl | hk
      · obtain ⟨⟨target, hj⟩, -⟩ := h
        exact (List.getElem?_eq_some_iff.mp hj).1
      · exact ih h.2 hk

/-- A handle of a linked stack borrows from no handle above its own. -/
theorem Linked.owner_ne {hs : List (Handle α)} {k : ℕ} {ks : List ℕ}
    (h : Linked hs ks) (hk : k ∉ ks) {j : ℕ} (hj : j ∈ ks) {g : Handle α}
    (hg : hs[j]? = some g) : g.owner ≠ .handle k := by
  induction ks with
  | nil => cases hj
  | cons i ks ih =>
      rw [List.mem_cons, not_or] at hk
      rcases List.mem_cons.mp hj with rfl | hj
      · obtain ⟨⟨target, hi⟩, -⟩ := h
        rw [hi] at hg
        cases hg
        cases ks with
        | nil => simp [lastOf]
        | cons l ks =>
            rintro ⟨⟩
            exact hk.2 List.mem_cons_self
      · exact ih h.2 hk.2 hj

theorem Keeps.refl (c : Chain α) (ps : List Pointer) : Keeps c c ps :=
  fun _ _ => rfl

theorem Keeps.trans {c c' c'' : Chain α} {ps ps' : List Pointer}
    (h : Keeps c c' ps) (h' : Keeps c' c'' ps') (hsub : ps' ⊆ ps) :
    Keeps c c'' ps' := by
  intro p hp
  rw [h' p hp, h p (hsub hp)]

theorem Stacked.new (root : Option α) : Stacked (Chain.new root) where
  linked := True.intro
  live := by simp [Chain.new]
  descending := List.Pairwise.nil

/-! ### Pushing and popping -/

section Pushing

variable {c : Chain α}

/-- A handle of a stacked chain can be read. -/
theorem Stacked.deref (hc : Stacked c) {k : ℕ} (hk : k ∈ c.handles) :
    ∃ t, c.deref (.handle k) = .ok t := by
  have hlinked := hc.linked
  generalize c.handles = ks at hk hlinked
  induction ks with
  | nil => cases hk
  | cons j ks ih =>
      rcases List.mem_cons.mp hk with rfl | hk
      · obtain ⟨⟨target, hj⟩, -⟩ := hlinked
        exact ⟨target, by simp [Chain.deref, hj]⟩
      · exact ih hk hlinked.2

/-- A handle acquired from what the last one points at is pushed on top, and
everything held so far stays where it is. -/
theorem Stacked.push (hc : Stacked c) {t₀ : α}
    (hlast : c.deref (lastOf c.handles) = .ok t₀) (t : α) :
    ∃ k c₁ c', c.acquire (lastOf c.handles) t = .ok (k, c₁) ∧
      c₁.push k = .ok (.handle k, c') ∧ Stacked c' ∧ c'.root = c.root ∧
      c'.handles = k :: c.handles ∧ c'.deref (.handle k) = .ok t ∧
      Keeps c c' (pointers c.handles) := by
  have hold : ∀ k ∈ c.handles, (c.acquired ++
      [{ owner := lastOf c.handles, target := t, live := true }])[k]? =
        c.acquired[k]? := by
    intro k hk
    exact List.getElem?_append_left (hc.linked.lt_length hk)
  refine ⟨c.acquired.length,
    { c with acquired := c.acquired ++
        [{ owner := lastOf c.handles, target := t, live := true }] },
    { c with
      acquired := c.acquired ++
        [{ owner := lastOf c.handles, target := t, live := true }]
      handles := c.acquired.length :: c.handles },
    ?_, ?_, ⟨?_, ?_, ?_⟩, rfl, rfl, ?_, ?_⟩
  · simp [Chain.acquire, hlast]
  · simp [Chain.push]
  · exact ⟨⟨t, by simp⟩, hc.linked.congr hold⟩
  · intro j h hj hlive
    dsimp only at hj
    rcases lt_or_ge j c.acquired.length with hlt | hge
    · rw [List.getElem?_append_left hlt] at hj
      exact List.mem_cons_of_mem _ (hc.live j h hj hlive)
    · have hlen := (List.getElem?_eq_some_iff.mp hj).1
      simp only [List.length_append, List.length_cons, List.length_nil]
        at hlen
      obtain rfl : j = c.acquired.length := by omega
      exact List.mem_cons_self
  · refine List.pairwise_cons.mpr ⟨?_, hc.descending⟩
    intro j hj
    exact hc.linked.lt_length hj
  · simp [Chain.deref]
  · rintro (- | k) hp
    · rfl
    · have hk := handle_mem_pointers.mp hp
      simp only [Chain.deref, hold k hk]

/-- A handle just acquired is the next by number. -/
theorem acquired_of_push {c c₁ c' : Chain α} {owner p : Pointer} {t : α}
    {k : ℕ} (hacquire : c.acquire owner t = .ok (k, c₁))
    (hpush : c₁.push k = .ok (p, c')) :
    k = c.acquired.length ∧ c'.acquired.map Handle.target =
      c.acquired.map Handle.target ++ [t] := by
  obtain ⟨t₀, -, h⟩ := bind_eq_ok.mp hacquire
  cases h
  unfold push at hpush
  rw [List.getElem?_concat_length] at hpush
  dsimp only at hpush
  split at hpush
  · cases hpush
    exact ⟨rfl, by rw [List.map_append]; rfl⟩
  · cases hpush

/-- The handles of the chain are all that were ever acquired, one for each of
the values `ts` in turn. -/
structure Holding (c : Chain α) (ts : List α) : Prop where
  acquired : c.acquired.map Handle.target = ts
  handles : c.handles = (List.range ts.length).reverse
  deref : c.handles.map (fun k => c.deref (.handle k)) =
    ts.reverse.map Except.ok

theorem Holding.new (root : Option α) : Holding (Chain.new root) [] :=
  ⟨rfl, rfl, rfl⟩

theorem Holding.push {ts : List α} (h : Holding c ts) (hc : Stacked c)
    {t₀ : α} (hlast : c.deref (lastOf c.handles) = .ok t₀) (t : α) :
    ∃ k c₁ c', c.acquire (lastOf c.handles) t = .ok (k, c₁) ∧
      c₁.push k = .ok (.handle k, c') ∧ Stacked c' ∧
      c'.handles = k :: c.handles ∧ c'.deref (.handle k) = .ok t ∧
      Holding c' (ts ++ [t]) := by
  obtain ⟨k, c₁, c', hacquire, hpush, hc', -, hhandles, hderef, hkeeps⟩ :=
    hc.push hlast t
  obtain ⟨hk, hacquired⟩ := acquired_of_push hacquire hpush
  have hlen := congrArg List.length h.acquired
  rw [List.length_map] at hlen
  refine ⟨k, c₁, c', hacquire, hpush, hc', hhandles, hderef, ?_, ?_, ?_⟩
  · rw [hacquired, h.acquired]
  · rw [hhandles, h.handles, hk, hlen, List.length_append,
      List.length_singleton, List.range_succ, List.reverse_append]
    rfl
  · rw [hhandles, List.map_cons, hderef, List.reverse_append, List.map_append,
      ← h.deref]
    refine congrArg _ (List.map_congr_left ?_)
    intro j hj
    exact hkeeps _ (handle_mem_pointers.mpr hj)

/-- The last handle can be released: no live handle borrows from it. -/
theorem Stacked.pop (hc : Stacked c) (d : Destructor ℕ) {k : ℕ}
    {ks : List ℕ} (hks : c.handles = k :: ks) :
    ∃ c', Chain.pop d c = .ok ⟨c', d.drops [k],
        if d.fails k then .unwinds else .returns⟩ ∧
      Stacked c' ∧ c'.root = c.root ∧ c'.handles = ks ∧
      Keeps c c' (pointers ks) := by
  have hlinked := hc.linked
  have hdesc := hc.descending
  rw [hks] at hlinked hdesc
  obtain ⟨⟨target, hk⟩, hbelow⟩ := hlinked
  obtain ⟨habove, hdesc⟩ := List.pairwise_cons.mp hdesc
  have hnotin : k ∉ ks := fun hmem => lt_irrefl k (habove k hmem)
  have hborrowed : ({ c with handles := ks } : Chain α).borrowed k =
      false := by
    refine List.any_eq_false.mpr ?_
    intro g hg
    obtain ⟨j, hj⟩ := List.mem_iff_getElem?.mp hg
    simp only [Bool.and_eq_true, decide_eq_true_eq, not_and]
    intro hlive
    have hmem := hc.live j g hj hlive
    rw [hks] at hmem
    rcases List.mem_cons.mp hmem with rfl | hmem
    · -- A handle borrows from the one beneath it, not from itself.
      rw [hk] at hj
      cases hj
      cases ks with
      | nil => simp [lastOf]
      | cons l ks =>
          rintro ⟨⟩
          exact hnotin List.mem_cons_self
    · exact hbelow.owner_ne hnotin hmem hj
  have hset : ∀ j ∈ ks, (c.acquired.set k
      { owner := lastOf ks, target, live := false })[j]? =
        c.acquired[j]? := by
    intro j hj
    refine List.getElem?_set_ne ?_
    rintro rfl
    exact hnotin hj
  refine ⟨{ c with
    acquired := c.acquired.set k { owner := lastOf ks, target, live := false }
    handles := ks }, ?_, ⟨?_, ?_, hdesc⟩, rfl, rfl, ?_⟩
  · simp [Chain.pop, Chain.release, hks, hk, hborrowed]
  · exact hbelow.congr hset
  · intro j h hj hlive
    dsimp only at hj
    by_cases hjk : j = k
    · subst hjk
      rw [List.getElem?_set_self (List.getElem?_eq_some_iff.mp hk).1] at hj
      cases hj
      cases hlive
    · rw [List.getElem?_set_ne (Ne.symm hjk)] at hj
      have hmem := hc.live j h hj hlive
      rw [hks] at hmem
      exact (List.mem_cons.mp hmem).resolve_left hjk
  · rintro (- | j) hp
    · rfl
    · have hj := handle_mem_pointers.mp hp
      simp only [Chain.deref, hset j hj]

end Pushing

/-! ### Releasing a chain -/

section Releasing

variable {d : Destructor ℕ} {c : Chain α}

/-- How popping all of a chain that holds `ks` ends: the handles in `pre` are
released, and the others are left only when a destructor has panicked. -/
structure Popped (d : Destructor ℕ) (root : Option α) (ks : List ℕ)
    (es : List (Event ℕ)) (pre post : List ℕ)
    (out : Outcome (Chain α) ℕ) : Prop where
  split : ks = pre ++ post
  stacked : Stacked out.state
  root : out.state.root = root
  handles : out.state.handles = post
  events : out.events = es ++ d.drops pre
  exit : (out.exit = .returns ∧ post = [] ∧ pre.any d.fails = false) ∨
    (out.exit = .unwinds ∧ pre.any d.fails = true)

theorem Stacked.popRun (hc : Stacked c) (es : List (Event ℕ)) :
    ∃ pre post out, run (popBody d) _ (popBody_decreases d) (c, es) =
        .ok out ∧ Popped d c.root c.handles es pre post out := by
  induction hks : c.handles generalizing c es with
  | nil =>
      refine ⟨[], [], ⟨c, es, .returns⟩, ?_, ⟨rfl, hc, rfl, hks, ?_, ?_⟩⟩
      · exact run_of_leave (by simp [popBody, hks])
      · simp
      · exact Or.inl ⟨rfl, rfl, rfl⟩
  | cons k ks ih =>
      obtain ⟨c', hpop, hc', hroot, hks', -⟩ := hc.pop d hks
      cases hfails : d.fails k with
      | true =>
          rw [hfails, if_pos rfl] at hpop
          refine ⟨[k], ks, ⟨c', es ++ d.drops [k], .unwinds⟩, ?_,
            ⟨rfl, hc', hroot, hks', rfl, Or.inr ⟨rfl, ?_⟩⟩⟩
          · exact run_of_leave (by simp [popBody, hks, hpop])
          · simp [hfails]
      | false =>
          rw [hfails, if_neg Bool.false_ne_true] at hpop
          obtain ⟨pre, post, out, hrun, hout⟩ :=
            ih hc' (es ++ d.drops [k]) hks'
          refine ⟨k :: pre, post, out, ?_, ⟨?_, hout.stacked, ?_,
            hout.handles, ?_, ?_⟩⟩
          · rw [← hrun]
            exact run_of_again (by simp [popBody, hks, hpop])
          · rw [hout.split, List.cons_append]
          · rw [hout.root, hroot]
          · rw [hout.events, List.append_assoc, ← d.drops_append]
            rfl
          · simpa [hfails] using hout.exit

/-- Every handle of a chain is released once, last first, and its buffer is
freed after that; only a second panic aborts. -/
structure Dropped (d : Destructor ℕ) (cap : Option ℕ) (c : Chain α)
    (out : Outcome (Chain α) ℕ) : Prop where
  released : Released d c.handles cap (out.events, out.exit)
  live : out.exit ≠ .aborts → ∀ h ∈ out.state.acquired, h.live = false

/-- Dropping a stacked chain releases it, whichever destructors panic. -/
theorem Stacked.drop (hc : Stacked c) (d : Destructor ℕ)
    (cap : Option ℕ) :
    ∃ out, Chain.drop d cap c = .ok out ∧ Dropped d cap c out := by
  have hquiet : ∀ {c : Chain α}, Stacked c → c.handles = [] →
      ∀ h ∈ c.acquired, h.live = false := by
    intro c hc hnil h hmem
    obtain ⟨k, hk⟩ := List.mem_iff_getElem?.mp hmem
    by_contra hlive
    have hin := hc.live k h hk (by simpa using hlive)
    rw [hnil] at hin
    cases hin
  have hfree : ∀ {c : Chain α}, c.handles = [] → freeBuffer cap c =
      .ok ⟨c, (cap.map Event.freed).toList, .returns⟩ := by
    intro c hnil
    simp [freeBuffer, hnil]
  obtain ⟨pre, post, out, hrun, hout⟩ := hc.popRun (d := d) []
  obtain ⟨pre', post', out', hrun', hout'⟩ :=
    hout.stacked.popRun (d := d) []
  have hall : popAll d c = .ok out := hrun
  have hrest : popAll d out.state = .ok out' := hrun'
  have hevents := hout.events
  have hevents' := hout'.events
  rw [List.nil_append] at hevents hevents'
  have hsplit : post = pre' ++ post' := by
    rw [← hout.handles]
    exact hout'.split
  rcases hout'.exit with ⟨hx', rfl, hcalm'⟩ | ⟨hx', hany'⟩
  · -- The guard empties the chain and frees the buffer.
    have hcleanup : ((popAll d).andThen (freeBuffer cap)) out.state =
        .ok ⟨out'.state, out'.events ++ (cap.map Event.freed).toList,
          .returns⟩ := by
      simp [andThen, hrest, hx', hfree hout'.handles]
    have hne : out.exit ≠ .aborts := by
      rcases hout.exit with ⟨hx, -⟩ | ⟨hx, -⟩ <;> simp [hx]
    have hks : c.handles = pre ++ pre' := by
      rw [hout.split, hsplit, List.append_nil]
    refine ⟨_, deferred_of_returns hall hne hcleanup, ⟨?_, ?_⟩, ?_⟩
    · intro _
      dsimp only
      rw [hevents, hevents', hks, d.drops_append, List.append_assoc]
    · intro _
      dsimp only
      rw [Destructor.exit, hks, List.any_append, hcalm', Bool.or_false]
      rcases hout.exit with ⟨hx, -, hcalm⟩ | ⟨hx, hany⟩
      · simp [hx, hcalm]
      · simp [hx, hany]
    · intro _
      exact hquiet hout'.stacked hout'.handles
  · -- A second destructor panics while the first panic unwinds.
    rcases hout.exit with ⟨-, rfl, -⟩ | ⟨hx, hany⟩
    · obtain ⟨rfl, rfl⟩ := List.append_eq_nil_iff.mp hsplit.symm
      cases hany'
    · have hcleanup : ((popAll d).andThen (freeBuffer cap)) out.state =
          .ok out' := by
        simp [andThen, hrest, hx']
      refine ⟨⟨out'.state, out.events ++ out'.events, .aborts⟩, ?_,
        ⟨?_, ?_⟩, ?_⟩
      · simp [Chain.drop, deferred, hall, hx, hcleanup, hx']
      · simp
      · intro hone
        rw [hout.split, hsplit, Destructor.AtMostOne,
          List.pairwise_append] at hone
        obtain ⟨j, hj, hjf⟩ := List.any_eq_true.mp hany
        obtain ⟨i, hi, hif⟩ := List.any_eq_true.mp hany'
        exact absurd ⟨hjf, hif⟩
          (hone.2.2 j hj i (List.mem_append_left post' hi))
      · simp

end Releasing

end Chain

end Handles
