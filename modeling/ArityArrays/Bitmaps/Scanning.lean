import ArityArrays.Bitmaps.Backing
import ArityArrays.Support.Words

/-!
# The selecting search and the search for holes

Selection halves a word around the bit that is sought, guided by the
population count of the lower half.  Both backings run this search over their
own words, and both find a clear bit as a set bit of a masked complement.
-/

namespace ArityBitmaps

open Checked Loop ArityArrays ArityTries Words

variable {w : ℕ}

/-! ## Selection -/

/-- What the search for the set bit of rank `n` still has to do: it is among
the low `2 * size` bits of `x`, which stand at `pos`. -/
structure Search (C : Type) where
  n : ℕ
  x : C
  pos : ℕ
  size : ℕ
  size_pos : 0 < size

/-- The search among half as many bits. -/
def Search.halved {C : Type} (s : Search C) (hone : s.size ≠ 1) (n : ℕ)
    (x : C) (pos : ℕ) : Search C where
  n := n
  x := x
  pos := pos
  size := s.size / 2
  size_pos := by
    have := s.size_pos
    omega

section Select

variable {C : Type} (lowMask : ℕ → Checked C) (lowCount : C → C → ℕ)
  (shr : C → ℕ → Checked C)

/-- Skip the low `size` bits if the bit that is sought is above them. -/
def skip (s : Search C) : Checked (ℕ × C × ℕ) := do
  let loMask ← lowMask s.size
  let loCount := lowCount s.x loMask
  if loCount ≤ s.n then do
    let n ← usizeSub s.n loCount
    let x ← shr s.x s.size
    return (n, x, s.pos + s.size)
  else return (s.n, s.x, s.pos)

def selectBody (s : Search C) : Checked (Pass (Search C) ℕ) := do
  let (n, x, pos) ← skip lowMask lowCount shr s
  if hone : s.size = 1 then return .leave pos
  else return .again (s.halved hone n x pos)

theorem selectBody_decreases :
    Decreases (selectBody lowMask lowCount shr) Search.size := by
  intro s s' h
  obtain ⟨⟨n, x, pos⟩, -, h⟩ := bind_eq_ok.mp h
  have hsize := s.size_pos
  by_cases hone : s.size = 1
  · simp [hone] at h
  · simp only [hone, dite_false] at h
    cases h
    exact Nat.div_lt_self hsize (by decide)

/-- Run the search to the position of the bit. -/
def search (s : Search C) : Checked ℕ :=
  run (selectBody lowMask lowCount shr) Search.size
    (selectBody_decreases lowMask lowCount shr) s

variable {lowMask lowCount shr}

/-- What the search needs of the words it runs over. -/
structure Searchable (lowMask : ℕ → Checked C) (lowCount : C → C → ℕ)
    (shr : C → ℕ → Checked C) (bits : C → BitVec w) : Prop where
  lowMask : ∀ {k}, k < w →
    ∃ m, lowMask k = .ok m ∧ bits m = 1#w <<< k - 1#w
  lowCount : ∀ x m, lowCount x m = (bits x &&& bits m).cpop.toNat
  shr : ∀ x {k}, k < w → ∃ y, shr x k = .ok y ∧ bits y = bits x >>> k

/-- The set bit of rank `k` is among the low `room` bits of `x`, the word
shifted down to `pos`, where it has rank `n`. -/
structure Ahead (b : BitVec w) (k : ℕ) (n : ℕ) (x : BitVec w)
    (pos room : ℕ) : Prop where
  within : pos + room ≤ w
  shifted : x = b >>> pos
  rank : countBelow b pos + n = k
  found : k < countBelow b (pos + room)

variable {bits : C → BitVec w} {b : BitVec w} {k : ℕ}

/-- Skipping halves the bits the search is among. -/
theorem skip_ahead (h : Searchable lowMask lowCount shr bits)
    {s : Search C} (hs : Ahead b k s.n (bits s.x) s.pos (2 * s.size)) :
    ∃ n x pos, skip lowMask lowCount shr s = .ok (n, x, pos) ∧
      Ahead b k n (bits x) pos s.size := by
  obtain ⟨hwithin, hshifted, hrank, hfound⟩ := hs
  have hpos := s.size_pos
  have hsize : s.size < w := by omega
  obtain ⟨m, hmask, hm⟩ := h.lowMask hsize
  obtain ⟨y, hshr, hy⟩ := h.shr s.x hsize
  have hcount := countBelow_range b s.pos hsize
  have hlow : lowCount s.x m =
      ((b >>> s.pos) &&& (1#w <<< s.size - 1#w)).cpop.toNat := by
    rw [h.lowCount, hshifted, hm]
  rw [← hlow] at hcount
  by_cases hskip : lowCount s.x m ≤ s.n
  · refine ⟨s.n - lowCount s.x m, y, s.pos + s.size, ?_, ?_, ?_, ?_, ?_⟩
    · simp only [skip, hmask, ok_bind, if_pos hskip, usizeSub_of_le hskip,
        hshr, pure_eq_ok]
    · omega
    · rw [hy, hshifted, BitVec.shiftRight_add]
    · omega
    · have hsum : s.pos + s.size + s.size = s.pos + 2 * s.size := by omega
      rw [hsum]
      exact hfound
  · refine ⟨s.n, s.x, s.pos, ?_, ?_, hshifted, hrank, ?_⟩
    · simp only [skip, hmask, ok_bind, if_neg hskip, pure_eq_ok]
    · omega
    · omega

/-- The search finds the set bit of rank `k`. -/
theorem search_spec (h : Searchable lowMask lowCount shr bits)
    {s : Search C} (hlevel : ∃ j, s.size = 2 ^ j)
    (hs : Ahead b k s.n (bits s.x) s.pos (2 * s.size)) :
    ∃ p : Fin w, search lowMask lowCount shr s = .ok p.val ∧
      b.getLsbD p = true ∧ countBelow b p = k := by
  have hrun : ∃ p, search lowMask lowCount shr s = .ok p ∧
      ∃ n x, Ahead b k n x p 1 := by
    refine run_of_invariant
      (I := fun s => (∃ j, s.size = 2 ^ j) ∧
        Ahead b k s.n (bits s.x) s.pos (2 * s.size)) ?_ s ⟨hlevel, hs⟩
    rintro s ⟨⟨j, hj⟩, hs⟩
    obtain ⟨n, x, pos, hskip, hahead⟩ := skip_ahead h hs
    by_cases hone : s.size = 1
    · refine Or.inr ⟨pos, ?_, n, bits x, ?_⟩
      · simp only [selectBody, hskip, ok_bind, dif_pos hone, pure_eq_ok]
      · rw [hone] at hahead
        exact hahead
    · obtain ⟨i, hi⟩ : ∃ i, s.size = 2 * 2 ^ i := by
        rcases j with _ | i
        · exact absurd hj hone
        · exact ⟨i, by rw [hj, Nat.pow_succ, Nat.mul_comm]⟩
      have hhalf : s.size / 2 = 2 ^ i := by omega
      refine Or.inl ⟨s.halved hone n x pos, ?_, ⟨i, hhalf⟩, ?_⟩
      · simp only [selectBody, hskip, ok_bind, dif_neg hone, pure_eq_ok]
      · have hhalved : (s.halved hone n x pos).size = s.size / 2 := rfl
        have hsize : 2 * (s.halved hone n x pos).size = s.size := by omega
        rw [hsize]
        exact hahead
  obtain ⟨p, hsearch, n, x, hp⟩ := hrun
  have hrank := hp.rank
  have hfound := hp.found
  have hset := getLsbD_of_countBelow_lt (x := b) (p := p) (by omega)
  have hstep : countBelow b (p + 1) = countBelow b p + 1 := by
    rw [countBelow, countBelow, Nat.count_succ, if_pos hset]
  refine ⟨⟨p, BitVec.lt_of_getLsbD hset⟩, hsearch, hset, ?_⟩
  dsimp only
  omega

/-- Selection in a word of a power-of-two width, starting at half of it. -/
theorem search_select (h : Searchable lowMask lowCount shr bits)
    {x : C} {k size : ℕ} (hpos : 0 < size) (hlevel : ∃ j, size = 2 ^ j)
    (hwidth : 2 * size = w) (hk : k < Bitmap.countOnes (members (bits x))) :
    ∃ p : Fin w,
      search lowMask lowCount shr ⟨k, x, 0, size, hpos⟩ = .ok p.val ∧
        Bitmap.select (members (bits x)) k = some p := by
  have hahead : Ahead (bits x) k k (bits x) 0 (2 * size) := by
    refine ⟨by omega, ?_, ?_, ?_⟩
    · simp
    · simp
    · rw [Nat.zero_add, hwidth, countBelow_width]
      exact hk
  obtain ⟨p, hsearch, hset, hcount⟩ :=
    search_spec (s := ⟨k, x, 0, size, hpos⟩) h hlevel hahead
  refine ⟨p, hsearch, ?_⟩
  rw [Bitmap.select_eq_some, mem_members]
  refine ⟨hset, ?_⟩
  rw [← hcount, countBelow_eq_card _ p.isLt.le]
  rfl

end Select

/-! ## Holes -/

/-- A scan of a word from one end that reports zero apart finds the member of
the set it denotes that is nearest to that end. -/
theorem scan_spec {e : End} {x : BitVec w} {s : Set (Fin w)}
    (hs : ∀ q, q ∈ members x ↔ q ∈ s) {r : Checked (Option ℕ)}
    (hzero : x = 0#w → r = .ok none)
    (hscan : x ≠ 0#w → ∀ p,
      Backing.Extreme e (members x : Set (Fin w)) p →
      r = .ok (some p.val)) :
    (∃ p : Fin w, r = .ok (some p.val) ∧ Backing.Extreme e s p) ∨
      r = .ok none ∧ ∀ q, q ∉ s := by
  have hset : (members x : Set (Fin w)) = s := Set.ext hs
  by_cases hx : x = 0#w
  · refine Or.inr ⟨hzero hx, ?_⟩
    intro q hq
    exact ne_zero_of_mem ((hs q).mpr hq) hx
  · have hextreme : ∃ p, Backing.Extreme e (members x : Set (Fin w)) p := by
      rcases e
      · obtain ⟨p, -, hp⟩ := ctz_isLeast hx
        exact ⟨p, hp⟩
      · obtain ⟨p, -, hp⟩ := log2_isGreatest hx
        exact ⟨p, hp⟩
    obtain ⟨p, hp⟩ := hextreme
    exact Or.inl ⟨p, hscan hx p hp, hset ▸ hp⟩

end ArityBitmaps
