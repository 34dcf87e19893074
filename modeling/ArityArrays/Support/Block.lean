import Mathlib.Data.List.Nodup
import Mathlib.Logic.Function.Basic
import Mathlib.Order.Basic
import ArityArrays.Support.Checked

/-!
# Blocks of memory slots

A block is one allocation: a number of slots, each initialised with a value or
not.  Every access is checked.  Reading a slot that holds nothing, writing over
a value that nobody took out, and freeing a block that still holds one are
failures, so a computation over blocks that returns uses no uninitialised slot
and neither loses nor duplicates a value.

Nothing here refers to a particular program.
-/

/-- An allocation of `cap` slots; `none` is an uninitialised slot. -/
structure Block (T : Type*) where
  cap : ℕ
  slot : ℕ → Option T

namespace Block

open Checked Function

variable {T : Type*}

/-- A fresh block, with no slot initialised. -/
def alloc (cap : ℕ) : Block T := ⟨cap, fun _ => none⟩

/-- Look at the value in slot `p`. -/
def get (b : Block T) (p : ℕ) : Checked T :=
  expect (b.slot p) "use of an uninitialised slot"

/-- Move the value out of slot `p`. -/
def read (b : Block T) (p : ℕ) : Checked (T × Block T) := do
  let v ← b.get p
  return (v, { b with slot := update b.slot p none })

/-- Move `v` into slot `p`. -/
def write (b : Block T) (p : ℕ) (v : T) : Checked (Block T) :=
  if p < b.cap ∧ (b.slot p).isNone then
    .ok { b with slot := update b.slot p (some v) }
  else .error ⟨"write outside the block or over a value"⟩

/-- Swap `v` for the value in slot `p`. -/
def replace (b : Block T) (p : ℕ) (v : T) : Checked (T × Block T) := do
  let old ← b.get p
  return (old, { b with slot := update b.slot p (some v) })

/-- The block after `n` slots from `src` on moved to `dst` on. -/
def slide (b : Block T) (src dst n : ℕ) : Block T :=
  { b with
    slot := fun p =>
      if dst ≤ p ∧ p < dst + n then b.slot (src + (p - dst))
      else if src ≤ p ∧ p < src + n then none
      else b.slot p }

/-- Move `n` slots from `src` on to `dst` on, within a block. -/
def moveWithin (b : Block T) (src dst n : ℕ) : Checked (Block T) :=
  if dst + n ≤ b.cap ∧ (∀ k < n, (b.slot (src + k)).isSome) ∧
      ∀ k < n, (src ≤ dst + k ∧ dst + k < src + n) ∨
        (b.slot (dst + k)).isNone then
    .ok (b.slide src dst n)
  else .error ⟨"invalid move within a block"⟩

/-- The block after the values in `n` slots from `src` on moved away. -/
def without (b : Block T) (src n : ℕ) : Block T :=
  { b with
    slot := fun p => if src ≤ p ∧ p < src + n then none else b.slot p }

/-- The block after the values in `n` slots of `b` from `src` on moved to its
slots from `dst` on. -/
def receive (c : Block T) (b : Block T) (src dst n : ℕ) : Block T :=
  { c with
    slot := fun p =>
      if dst ≤ p ∧ p < dst + n then b.slot (src + (p - dst)) else c.slot p }

/-- Move `n` slots from `src` on to slots `dst` on of another block. -/
def moveTo (b : Block T) (src : ℕ) (c : Block T) (dst n : ℕ) :
    Checked (Block T × Block T) :=
  if dst + n ≤ c.cap ∧ (∀ k < n, (b.slot (src + k)).isSome) ∧
      ∀ k < n, (c.slot (dst + k)).isNone then
    .ok (b.without src n, c.receive b src dst n)
  else .error ⟨"invalid move between blocks"⟩

/-- Free a block of `cap` slots whose values have all been moved out. -/
def dealloc (b : Block T) (cap : ℕ) : Checked Unit :=
  if b.cap = cap ∧ ∀ p < cap, (b.slot p).isNone then .ok ()
  else .error ⟨"free with another layout or with a value inside"⟩

@[simp] theorem alloc_cap (cap : ℕ) : (alloc cap : Block T).cap = cap := rfl

@[simp] theorem alloc_slot (cap p : ℕ) :
    (alloc cap : Block T).slot p = none := rfl

section Access

variable {b : Block T} {p : ℕ} {v : T}

theorem get_eq_ok : b.get p = .ok v ↔ b.slot p = some v := expect_eq_ok

theorem get_of_slot (h : b.slot p = some v) : b.get p = .ok v :=
  get_eq_ok.mpr h

theorem read_of_slot (h : b.slot p = some v) :
    b.read p = .ok (v, { b with slot := update b.slot p none }) := by
  simp only [read, get_of_slot h, ok_bind, pure_eq_ok]

theorem replace_of_slot (h : b.slot p = some v) (w : T) :
    b.replace p w = .ok (v, { b with slot := update b.slot p (some w) }) := by
  simp only [replace, get_of_slot h, ok_bind, pure_eq_ok]

theorem write_of_free (hp : p < b.cap) (h : b.slot p = none) (v : T) :
    b.write p v = .ok { b with slot := update b.slot p (some v) } := by
  simp [write, hp, h]

theorem slot_without (b : Block T) (src n p : ℕ) :
    (b.without src n).slot p =
      if src ≤ p ∧ p < src + n then none else b.slot p := rfl

theorem slot_receive (c b : Block T) (src dst n p : ℕ) :
    (c.receive b src dst n).slot p =
      if dst ≤ p ∧ p < dst + n then b.slot (src + (p - dst))
      else c.slot p := rfl

@[simp] theorem receive_cap (c b : Block T) (src dst n : ℕ) :
    (c.receive b src dst n).cap = c.cap := rfl

@[simp] theorem without_cap (b : Block T) (src n : ℕ) :
    (b.without src n).cap = b.cap := rfl

theorem moveTo_of_slots {c : Block T} {src dst n : ℕ} (hcap : dst + n ≤ c.cap)
    (hsrc : ∀ q, src ≤ q → q < src + n → (b.slot q).isSome)
    (hdst : ∀ q, dst ≤ q → q < dst + n → c.slot q = none) :
    b.moveTo src c dst n = .ok (b.without src n, c.receive b src dst n) := by
  rw [moveTo, if_pos]
  refine ⟨hcap, ?_, ?_⟩
  · intro k hk
    exact hsrc (src + k) (by omega) (by omega)
  · intro k hk
    simp [hdst (dst + k) (by omega) (by omega)]

/-- Moving one value between blocks. -/
theorem moveTo_one {c : Block T} {q : ℕ} (h : b.slot p = some v)
    (hq : q < c.cap) (hfree : c.slot q = none) :
    b.moveTo p c q 1 = .ok ({ b with slot := update b.slot p none },
      { c with slot := update c.slot q (some v) }) := by
  rw [moveTo, if_pos ⟨hq, by simp [h], by simp [hfree]⟩]
  have hb : (b.without p 1).slot = update b.slot p none := by
    funext r
    rw [slot_without, update_apply]
    exact if_congr (by omega) rfl rfl
  have hc : (c.receive b p q 1).slot = update c.slot q (some v) := by
    funext r
    rw [slot_receive, update_apply]
    by_cases hr : r = q
    · subst r
      simp [h]
    · rw [if_neg (by omega), if_neg hr]
  rw [← hb, ← hc]
  rfl

theorem dealloc_of_empty {cap : ℕ} (hcap : b.cap = cap)
    (h : ∀ q, b.slot q = none) : b.dealloc cap = .ok () := by
  simp [dealloc, hcap, h]

end Access

/-! ## Filling a block -/

/-- Write every value to its slot, in order. -/
def writeAll (xs : List (ℕ × T)) (b : Block T) : Checked (Block T) :=
  xs.foldlM (fun b x => b.write x.1 x.2) b

@[simp] theorem writeAll_nil (b : Block T) : writeAll [] b = .ok b := rfl

theorem writeAll_cons (x : ℕ × T) (xs : List (ℕ × T)) (b : Block T) :
    writeAll (x :: xs) b = b.write x.1 x.2 >>= writeAll xs := by
  rw [writeAll, List.foldlM_cons]
  rfl

/-- Values written to different free slots are all there afterwards, and no
other slot changes. -/
theorem writeAll_spec {xs : List (ℕ × T)} {b : Block T}
    (hnodup : (xs.map Prod.fst).Nodup) (hcap : ∀ x ∈ xs, x.1 < b.cap)
    (hfree : ∀ x ∈ xs, b.slot x.1 = none) :
    ∃ b', writeAll xs b = .ok b' ∧ b'.cap = b.cap ∧
      (∀ x ∈ xs, b'.slot x.1 = some x.2) ∧
      ∀ p ∉ xs.map Prod.fst, b'.slot p = b.slot p := by
  induction xs generalizing b with
  | nil => exact ⟨b, rfl, rfl, by simp, fun _ _ => rfl⟩
  | cons x xs ih =>
      rw [List.map_cons, List.nodup_cons] at hnodup
      have hwrite := write_of_free (hcap x (by simp)) (hfree x (by simp)) x.2
      have hne : ∀ y ∈ xs, y.1 ≠ x.1 := by
        intro y hy hyx
        exact hnodup.1 (hyx ▸ List.mem_map_of_mem hy)
      obtain ⟨b', hall, hcap', hslots, hframe⟩ :=
        ih (b := { b with slot := update b.slot x.1 (some x.2) }) hnodup.2
          (fun y hy => hcap y (List.mem_cons_of_mem x hy))
          (fun y hy => by
            rw [← hfree y (List.mem_cons_of_mem x hy)]
            exact update_of_ne (hne y hy) _ _)
      refine ⟨b', ?_, hcap', ?_, ?_⟩
      · rw [writeAll_cons, hwrite, ok_bind, hall]
      · intro y hy
        rcases List.mem_cons.mp hy with rfl | hy
        · rw [hframe _ hnodup.1]
          exact update_self _ _ _
        · exact hslots y hy
      · intro p hp
        rw [List.map_cons, List.mem_cons, not_or] at hp
        rw [hframe p hp.2]
        exact update_of_ne hp.1 _ _

/-- The block has `cap` slots and holds just the values `vs`, in the slots that
`slot` gives to their positions. -/
structure Filled (b : Block T) (cap : ℕ) (slot : ℕ → ℕ) (vs : List T) :
    Prop where
  cap : b.cap = cap
  slots : ((List.range vs.length).map slot).map b.slot = vs.map some
  free : ∀ p ∉ (List.range vs.length).map slot, b.slot p = none

/-- The positions of `n` values get different slots of a block. -/
structure Fits (cap : ℕ) (slot : ℕ → ℕ) (n : ℕ) : Prop where
  mono : ∀ r s, r < s → s < n → slot r < slot s
  lt : ∀ r < n, slot r < cap

theorem Fits.of_le {cap : ℕ} {slot : ℕ → ℕ} {k n : ℕ} (h : Fits cap slot n)
    (hk : k ≤ n) : Fits cap slot k where
  mono r s hrs hs := h.mono r s hrs (Nat.lt_of_lt_of_le hs hk)
  lt r hr := h.lt r (Nat.lt_of_lt_of_le hr hk)

theorem Fits.nodup {cap : ℕ} {slot : ℕ → ℕ} {n : ℕ} (h : Fits cap slot n) :
    ((List.range n).map slot).Nodup := by
  refine List.Nodup.map_on ?_ List.nodup_range
  intro r hr s hs heq
  rw [List.mem_range] at hr hs
  rcases Nat.lt_trichotomy r s with hrs | hrs | hsr
  · exact absurd heq (Nat.ne_of_lt (h.mono r s hrs hs))
  · exact hrs
  · exact absurd heq (Nat.ne_of_gt (h.mono s r hsr hr))

/-- Filling a fresh block. -/
theorem fill_spec (vs : List T) {slot : ℕ → ℕ} {cap : ℕ}
    (hfits : Fits cap slot vs.length) :
    ∃ b, writeAll (vs.zipIdx.map fun v => (slot v.2, v.1)) (alloc cap) = .ok b ∧
      Filled b cap slot vs := by
  have hslots : (vs.zipIdx.map fun v => (slot v.2, v.1)).map Prod.fst =
      (List.range vs.length).map slot := by
    rw [List.map_map, List.range_eq_range', ← List.zipIdx_map_snd, List.map_map]
    rfl
  have hmem : ∀ x ∈ vs.zipIdx.map fun v => (slot v.2, v.1),
      ∃ r < vs.length, x.1 = slot r := by
    intro x hx
    have := List.mem_map_of_mem (f := Prod.fst) hx
    rw [hslots] at this
    obtain ⟨r, hr, hxr⟩ := List.mem_map.mp this
    exact ⟨r, List.mem_range.mp hr, hxr.symm⟩
  have hnodup : ((vs.zipIdx.map fun v => (slot v.2, v.1)).map
      Prod.fst).Nodup := hslots ▸ hfits.nodup
  have hlt : ∀ x ∈ vs.zipIdx.map fun v => (slot v.2, v.1),
      x.1 < (alloc cap : Block T).cap := by
    intro x hx
    obtain ⟨r, hr, hxr⟩ := hmem x hx
    rw [hxr]
    exact hfits.lt r hr
  obtain ⟨b, hb, hbcap, hvalue, hframe⟩ :=
    writeAll_spec hnodup hlt fun _ _ => rfl
  refine ⟨b, hb, hbcap, ?_, fun p hp => hframe p (by rwa [hslots])⟩
  refine List.ext_getElem (by simp) fun r hr _ => ?_
  have hr' : r < vs.length := by simpa using hr
  have hin : (slot r, vs[r]) ∈ vs.zipIdx.map fun v => (slot v.2, v.1) := by
    refine List.mem_map.mpr ⟨(vs[r], r), ?_, rfl⟩
    rw [List.mem_zipIdx_iff_getElem?]
    exact List.getElem?_eq_getElem hr'
  simpa using hvalue _ hin

end Block
