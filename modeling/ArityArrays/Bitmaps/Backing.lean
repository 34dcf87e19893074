import ArityArrays.Arrays.Positions

/-!
# Bitmap backings and their contract

A backing is a word type with the scanning operations of `Raw` and the
bitmap operations that are written for it by hand.  `Raw` is an unsafe trait:
an implementation comes with the contract that the operations agree with the
set of positions a word denotes.  The default methods of `Bitmap` and the
set-bit iterator are generic, and rely on that contract alone.
-/

namespace ArityBitmaps

open Checked Loop ArityArrays ArityTries

/-- The operations of a word type with `w` bits. -/
structure Backing (w : ℕ) where
  Word : Type
  ZERO : Word
  rawIsZero : Word → Bool
  rawPopcount : Word → ℕ
  rawLowestPos : Word → Checked ℕ
  rawHighestPos : Word → Checked ℕ
  rawClearLowest : Word → Checked Word
  rawClearHighest : Word → Checked Word
  rawSelect : Word → ℕ → Checked (Option ℕ)
  rawNearestClearAtOrBelow : Word → ℕ → Checked (Option ℕ)
  rawNearestClearIn : Word → ℕ → ℕ → Checked (Option ℕ)
  isZero : Word → Bool
  countOnes : Word → ℕ
  test : Word → Fin w → Checked Bool
  withBit : Word → Fin w → Checked Word
  rank : Word → Fin w → Checked ℕ
  withoutBit : Word → Fin w → Checked Word

namespace Backing

variable {w : ℕ}

/-- The member of a set that is nearest to one end. -/
def Extreme : End → Set (Fin w) → Fin w → Prop
  | .front, s, p => IsLeast s p
  | .back, s, p => IsGreatest s p

/-- The position of the set bit nearest to one end. -/
def rawPos (B : Backing w) : End → B.Word → Checked ℕ
  | .front => B.rawLowestPos
  | .back => B.rawHighestPos

/-- The word without the set bit nearest to one end. -/
def rawClear (B : Backing w) : End → B.Word → Checked B.Word
  | .front => B.rawClearLowest
  | .back => B.rawClearHighest

/-- The contract of `Raw` and `Bitmap` for the set a word denotes. -/
structure Contract (B : Backing w) (view : B.Word → Bitmap w) : Prop where
  view_injective : Function.Injective view
  view_ZERO : view B.ZERO = ∅
  rawIsZero : ∀ x, B.rawIsZero x = decide (view x = ∅)
  rawPopcount : ∀ x, B.rawPopcount x = Bitmap.countOnes (view x)
  rawPos : ∀ {e x p}, Extreme e (view x : Set (Fin w)) p →
    B.rawPos e x = .ok p.val
  rawClear : ∀ {e x p}, Extreme e (view x : Set (Fin w)) p →
    ∃ y, B.rawClear e x = .ok y ∧ view y = Bitmap.withoutBit (view x) p
  rawClear_zero : ∀ {x}, view x = ∅ → ∀ e, B.rawClear e x = .ok x
  rawSelect : ∀ x k,
    B.rawSelect x k = .ok ((Bitmap.select (view x) k).map Fin.val)
  rawNearestClearAtOrBelow : ∀ x {start}, start < w →
    (∃ p : Fin w, B.rawNearestClearAtOrBelow x start = .ok (some p.val) ∧
      IsGreatest {q : Fin w | q.val ≤ start ∧ q ∉ view x} p) ∨
    B.rawNearestClearAtOrBelow x start = .ok none ∧
      ∀ q : Fin w, q.val ≤ start → q ∈ view x
  rawNearestClearIn : ∀ x {start limit}, start ≤ limit → limit ≤ w →
    (∃ p : Fin w, B.rawNearestClearIn x start limit = .ok (some p.val) ∧
      IsLeast {q : Fin w | start ≤ q.val ∧ q.val < limit ∧ q ∉ view x} p) ∨
    B.rawNearestClearIn x start limit = .ok none ∧
      ∀ q : Fin w, start ≤ q.val → q.val < limit → q ∈ view x
  isZero : ∀ x, B.isZero x = decide (view x = ∅)
  countOnes : ∀ x, B.countOnes x = Bitmap.countOnes (view x)
  test : ∀ x i, B.test x i = .ok (Bitmap.test (view x) i)
  withBit : ∀ x i,
    ∃ y, B.withBit x i = .ok y ∧ view y = Bitmap.withBit (view x) i
  rank : ∀ x i, B.rank x i = .ok (Bitmap.rank (view x) i)
  withoutBit : ∀ x i,
    ∃ y, B.withoutBit x i = .ok y ∧ view y = Bitmap.withoutBit (view x) i

end Backing

/-- A backing that keeps the contract for the sets its words denote. -/
structure Raw (w : ℕ) extends Backing w where
  view : Word → Bitmap w
  contract : toBacking.Contract view

/-! ## The default methods of `Bitmap` -/

namespace Raw

variable {w : ℕ}

/-- The index at a position that a scan returned. -/
def indexAt (pos : Option ℕ) (message : String) :
    Checked (Option (Fin w)) :=
  match pos with
  | none => .ok none
  | some pos => do
      let i ← expect (tryFromUsize pos) message
      return some i

def select (R : Raw w) (x : R.Word) (k : ℕ) : Checked (Option (Fin w)) := do
  let pos ← R.rawSelect x k
  indexAt pos "raw_select yields a position < WIDTH == Index::COUNT"

def nearestClearAtOrBelow (R : Raw w) (x : R.Word) (start : ℕ) :
    Checked (Option (Fin w)) := do
  let pos ← R.rawNearestClearAtOrBelow x start
  indexAt pos "clear-bit position < WIDTH == Index::COUNT"

def nearestClearIn (R : Raw w) (x : R.Word) (start limit : ℕ) :
    Checked (Option (Fin w)) := do
  let pos ← R.rawNearestClearIn x start limit
  indexAt pos "clear-bit position < WIDTH == Index::COUNT"

@[simp] theorem indexAt_none (message : String) :
    indexAt none message = .ok (none : Option (Fin w)) := rfl

@[simp] theorem indexAt_some (p : Fin w) (message : String) :
    indexAt (some p.val) message = .ok (some p) := by
  simp [indexAt, tryFromUsize_of_lt p.isLt]

theorem select_eq (R : Raw w) (x : R.Word) (k : ℕ) :
    R.select x k = .ok (Bitmap.select (R.view x) k) := by
  rw [select, R.contract.rawSelect, ok_bind]
  rcases Bitmap.select (R.view x) k with _ | p
  · rfl
  · exact indexAt_some p _

theorem nearestClearAtOrBelow_spec (R : Raw w) (x : R.Word) {start : ℕ}
    (hstart : start < w) :
    (∃ p, R.nearestClearAtOrBelow x start = .ok (some p) ∧
      IsGreatest {q : Fin w | q.val ≤ start ∧ q ∉ R.view x} p) ∨
    R.nearestClearAtOrBelow x start = .ok none ∧
      ∀ q : Fin w, q.val ≤ start → q ∈ R.view x := by
  rcases R.contract.rawNearestClearAtOrBelow x hstart with
    ⟨p, hraw, hp⟩ | ⟨hraw, hall⟩
  · refine Or.inl ⟨p, ?_, hp⟩
    rw [nearestClearAtOrBelow, hraw, ok_bind, indexAt_some]
  · refine Or.inr ⟨?_, hall⟩
    rw [nearestClearAtOrBelow, hraw, ok_bind, indexAt_none]

theorem nearestClearIn_spec (R : Raw w) (x : R.Word) {start limit : ℕ}
    (hstart : start ≤ limit) (hlimit : limit ≤ w) :
    (∃ p, R.nearestClearIn x start limit = .ok (some p) ∧
      IsLeast {q : Fin w | start ≤ q.val ∧ q.val < limit ∧ q ∉ R.view x}
        p) ∨
    R.nearestClearIn x start limit = .ok none ∧
      ∀ q : Fin w, start ≤ q.val → q.val < limit → q ∈ R.view x := by
  rcases R.contract.rawNearestClearIn x hstart hlimit with
    ⟨p, hraw, hp⟩ | ⟨hraw, hall⟩
  · refine Or.inl ⟨p, ?_, hp⟩
    rw [nearestClearIn, hraw, ok_bind, indexAt_some]
  · refine Or.inr ⟨?_, hall⟩
    rw [nearestClearIn, hraw, ok_bind, indexAt_none]

/-! ## The set-bit iterator -/

/-- The word whose bits are not yet yielded. -/
structure BitIter (R : Raw w) where
  remaining : R.Word

namespace BitIter

variable {R : Raw w}

/-- Take the set bit nearest to one end. -/
def pull (e : End) (it : BitIter R) : Checked (Option (Fin w) × BitIter R) :=
  if R.rawIsZero it.remaining then .ok (none, it)
  else do
    let pos ← R.rawPos e it.remaining
    let remaining ← R.rawClear e it.remaining
    let i ← expect (tryFromUsize pos) "set-bit position < WIDTH"
    return (some i, ⟨remaining⟩)

def next (it : BitIter R) : Checked (Option (Fin w) × BitIter R) :=
  it.pull .front

def nextBack (it : BitIter R) : Checked (Option (Fin w) × BitIter R) :=
  it.pull .back

def len (it : BitIter R) : Checked ℕ :=
  .ok (R.rawPopcount it.remaining)

/-- One pass of the folding loop. -/
def foldBody {β : Type} (e : End) (f : β → Fin w → Checked β) :
    β × BitIter R → Checked (Pass (β × BitIter R) β)
  | (acc, it) =>
      if R.rawIsZero it.remaining then .ok (.leave acc)
      else do
        let pos ← R.rawPos e it.remaining
        let remaining ← R.rawClear e it.remaining
        let i ← expect (tryFromUsize pos) "set-bit position < WIDTH"
        let acc ← f acc i
        return .again (acc, ⟨remaining⟩)

/-- The iterator over positions that the word denotes. -/
def view (it : BitIter R) : ArityArrays.BitIter w := ⟨R.view it.remaining⟩

theorem pull_of_empty {it : BitIter R} (h : R.view it.remaining = ∅)
    (e : End) : it.pull e = .ok (none, it) := by
  rw [pull, R.contract.rawIsZero, if_pos (decide_eq_true h)]

theorem pull_of_extreme {it : BitIter R} {e : End} {p : Fin w}
    (h : Backing.Extreme e (R.view it.remaining : Set (Fin w)) p) :
    ∃ it' : BitIter R, it.pull e = .ok (some p, it') ∧
      R.view it'.remaining = Bitmap.withoutBit (R.view it.remaining) p := by
  have hne : R.view it.remaining ≠ ∅ := by
    intro hempty
    rw [hempty] at h
    rcases e
    · simpa using h.1
    · simpa using h.1
  obtain ⟨y, hclear, hy⟩ := R.contract.rawClear h
  refine ⟨⟨y⟩, ?_, hy⟩
  simp only [pull, R.contract.rawIsZero, decide_eq_false hne,
    Bool.false_eq_true, if_false, R.contract.rawPos h, hclear, ok_bind,
    tryFromUsize_of_lt p.isLt, expect_some, pure_eq_ok]

/-- A call does to the word what it should do to the positions. -/
theorem pull_view (e : End) (it : BitIter R) :
    ∃ o it', it.pull e = .ok (o, it') ∧
      ArityArrays.BitIter.iterator.pull e it.view = .ok (o, it'.view) := by
  by_cases hempty : R.view it.remaining = ∅
  · refine ⟨none, it, pull_of_empty hempty e, ?_⟩
    have hbits : Bitmap.bits (R.view it.remaining) = [] :=
      Bitmap.bits_eq_nil.mpr hempty
    rcases e
    · simp [ArityArrays.BitIter.iterator, ArityArrays.BitIter.next, view,
        hbits]
    · simp [ArityArrays.BitIter.iterator, ArityArrays.BitIter.nextBack, view,
        hbits]
  · have hbits : Bitmap.bits (R.view it.remaining) ≠ [] := by
      rw [ne_eq, Bitmap.bits_eq_nil]
      exact hempty
    rcases e
    · obtain ⟨p, hp⟩ := Option.isSome_iff_exists.mp
        (List.isSome_head?.mpr hbits)
      obtain ⟨it', hpull, hview⟩ := pull_of_extreme (e := .front)
        (Bitmap.isLeast_of_head? hp)
      refine ⟨some p, it', hpull, ?_⟩
      simp only [ArityArrays.BitIter.iterator, ArityArrays.BitIter.next, hp,
        view, hview]
    · obtain ⟨p, hp⟩ := Option.isSome_iff_exists.mp
        (List.getLast?_isSome.mpr hbits)
      obtain ⟨it', hpull, hview⟩ := pull_of_extreme (e := .back)
        (Bitmap.isGreatest_of_getLast? hp)
      refine ⟨some p, it', hpull, ?_⟩
      simp only [ArityArrays.BitIter.iterator, ArityArrays.BitIter.nextBack,
        hp, view, hview]

/-- The iterator over the set bits of a word. -/
def iterator (R : Raw w) : DoubleEnded (BitIter R) (Fin w) where
  pull := pull
  size it := Bitmap.countOnes (R.view it.remaining)
  size_pull := by
    intro e it o it' h
    obtain ⟨o', it'', hpull, hview⟩ := pull_view e it
    rw [hpull] at h
    cases h
    exact ArityArrays.BitIter.iterator.size_pull hview

theorem foldBody_eq (e : End) {β : Type} (f : β → Fin w → Checked β) :
    foldBody e f = (iterator R).visit e f := by
  funext ⟨acc, it⟩
  simp only [foldBody, DoubleEnded.visit, iterator, pull]
  by_cases hzero : R.rawIsZero it.remaining = true
  · rw [if_pos hzero, if_pos hzero]
    rfl
  · rw [if_neg hzero, if_neg hzero]
    simp only [bind_assoc, pure_eq_ok, ok_bind]

/-- Fold the remaining set bits from one end. -/
def foldFrom {β : Type} (e : End) (f : β → Fin w → Checked β) (init : β)
    (it : BitIter R) : Checked β :=
  run (foldBody e f) (fun acc => (iterator R).size acc.2)
    (by rw [foldBody_eq]; exact (iterator R).visit_decreases e f) (init, it)

def fold {β : Type} (f : β → Fin w → Checked β) (init : β)
    (it : BitIter R) : Checked β :=
  foldFrom .front f init it

def rfold {β : Type} (f : β → Fin w → Checked β) (init : β)
    (it : BitIter R) : Checked β :=
  foldFrom .back f init it

theorem foldFrom_eq (e : End) {β : Type} (f : β → Fin w → Checked β)
    (init : β) (it : BitIter R) :
    foldFrom e f init it = (iterator R).foldFrom e f init it := by
  unfold foldFrom DoubleEnded.foldFrom
  congr 1
  exact foldBody_eq e f

theorem refines : (iterator R).Refines fun it is => it.view.Left is :=
  ArityArrays.BitIter.refines.comap view pull_view

/-- The iterator over a word acts as the deque of its positions, ascending. -/
theorem actsAs (x : R.Word) :
    (iterator R).ActsAs len (fun _ e f init it => foldFrom e f init it)
      ⟨x⟩ (Bitmap.bits (R.view x)) := by
  refine refines.actsAs ?_ ?_ rfl
  · intro it is h
    rw [← ArityArrays.BitIter.len_of_left h, len, R.contract.rawPopcount,
      ArityArrays.BitIter.len, view]
  · intro it is _ β e f b
    exact foldFrom_eq e f b it

end BitIter

end Raw

end ArityBitmaps
