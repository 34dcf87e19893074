import ArityArrays.Arrays.Positions

/-!
# Ranges of indices and slices

The iterator over all indices of an arity, as a range with a flag that says it
is exhausted, and the iterator over a slice, as the part of the slice that is
left.
-/

namespace ArityArrays

open ArityTries Checked

/-- The slice iterator: what is left of the slice. -/
def sliceIter {α : Type} : DoubleEnded (List α) α where
  pull e xs := .ok (Deque.pull e xs)
  size := List.length
  size_pull := by
    intro e xs o xs' h
    cases e with
    | front =>
        cases h
        cases xs <;> simp
    | back =>
        cases h
        rcases List.eq_nil_or_concat xs with rfl | ⟨ys, y, rfl⟩
        · simp
        · simp

theorem sliceIter_refines {α : Type} : (sliceIter (α := α)).Refines Eq where
  nil := by
    rintro e xs rfl
    exact ⟨[], by simp [sliceIter], rfl⟩
  front := by
    rintro xs x ys rfl
    exact ⟨ys, by simp [sliceIter], rfl⟩
  back := by
    rintro xs ys y rfl
    exact ⟨ys, by simp [sliceIter], rfl⟩

/-- An inclusive range of indices; `done` once it is used up. -/
structure NicheRangeInclusive (n : ℕ) where
  lo : ℕ
  hi : ℕ
  done : Bool

namespace NicheRangeInclusive

variable {n : ℕ}

/-- All indices. -/
def full (n : ℕ) : NicheRangeInclusive n := ⟨0, n - 1, false⟩

def next (s : NicheRangeInclusive n) :
    Checked (Option (Fin n) × NicheRangeInclusive n) := do
  if s.done then return (none, s)
  let v ← expect (tryFromUsize s.lo) "cursor out of range"
  if s.lo = s.hi then return (some v, { s with done := true })
  return (some v, { s with lo := s.lo + 1 })

def nextBack (s : NicheRangeInclusive n) :
    Checked (Option (Fin n) × NicheRangeInclusive n) := do
  if s.done then return (none, s)
  let v ← expect (tryFromUsize s.hi) "cursor out of range"
  if s.lo = s.hi then return (some v, { s with done := true })
  let hi ← usizeSub s.hi 1
  return (some v, { s with hi := hi })

def len (s : NicheRangeInclusive n) : Checked ℕ :=
  if s.done then .ok 0 else do
    let k ← usizeSub s.hi s.lo
    return k + 1

/-- A bound on the indices left, in any state. -/
def size (s : NicheRangeInclusive n) : ℕ :=
  if s.done then 0 else 1 + (n - s.lo) + s.hi

theorem size_next {s : NicheRangeInclusive n} {o : Option (Fin n)}
    {s' : NicheRangeInclusive n} (h : s.next = .ok (o, s')) :
    s'.size + o.toList.length ≤ s.size := by
  unfold next at h
  cases hdone : s.done with
  | true =>
      simp only [hdone, if_true, pure_eq_ok] at h
      cases h
      simp
  | false =>
      simp only [hdone, Bool.false_eq_true, if_false] at h
      obtain ⟨v, hv, h⟩ := bind_eq_ok.mp h
      have hlt : s.lo < n := by
        by_contra hlt
        simp [tryFromUsize, hlt, expect] at hv
      split at h
      · cases h
        simp [size, hdone]
        omega
      · cases h
        simp [size, hdone]
        omega

theorem size_nextBack {s : NicheRangeInclusive n} {o : Option (Fin n)}
    {s' : NicheRangeInclusive n} (h : s.nextBack = .ok (o, s')) :
    s'.size + o.toList.length ≤ s.size := by
  unfold nextBack at h
  cases hdone : s.done with
  | true =>
      simp only [hdone, if_true, pure_eq_ok] at h
      cases h
      simp
  | false =>
      simp only [hdone, Bool.false_eq_true, if_false] at h
      obtain ⟨v, -, h⟩ := bind_eq_ok.mp h
      split at h
      · cases h
        simp [size, hdone]
        omega
      · obtain ⟨hi, hhi, h⟩ := bind_eq_ok.mp h
        cases h
        unfold usizeSub at hhi
        split at hhi
        · cases hhi
          simp [size, hdone]
          omega
        · cases hhi

/-- The iterator over a range of indices. -/
def iterator : DoubleEnded (NicheRangeInclusive n) (Fin n) where
  pull
    | .front, s => s.next
    | .back, s => s.nextBack
  size := size
  size_pull := by
    intro e s o s' h
    cases e with
    | front => exact size_next h
    | back => exact size_nextBack h

/-- The indices a range has left. -/
def Left (s : NicheRangeInclusive n) (is : List (Fin n)) : Prop :=
  (s.done = true ∧ is = []) ∨
    (s.done = false ∧ s.lo ≤ s.hi ∧ s.hi < n ∧
      is.map Fin.val = List.range' s.lo (s.hi + 1 - s.lo))

theorem left_full (n : ℕ) [NeZero n] :
    (full n).Left (List.finRange n) := by
  have hn := Nat.pos_of_neZero n
  refine Or.inr ⟨rfl, Nat.zero_le _, by simp [full]; omega, ?_⟩
  rw [List.map_coe_finRange_eq_range, List.range_eq_range']
  simp only [full]
  congr 1
  omega

theorem refines : (iterator (n := n)).Refines Left where
  nil := by
    rintro e s (⟨hdone, -⟩ | ⟨-, hle, -, hmap⟩)
    · refine ⟨s, ?_, Or.inl ⟨hdone, rfl⟩⟩
      cases e <;> simp [iterator, next, nextBack, hdone]
    · have := congrArg List.length hmap
      simp at this
      omega
  front := by
    rintro s i is (⟨-, hnil⟩ | ⟨hdone, hle, hhi, hmap⟩)
    · cases hnil
    · have hlen : s.hi + 1 - s.lo = (s.hi - s.lo) + 1 := by omega
      rw [hlen, List.range'_succ, List.map_cons, List.cons.injEq] at hmap
      obtain ⟨hi, his⟩ := hmap
      have htry : (tryFromUsize s.lo : Option (Fin n)) = some i := by
        simp [tryFromUsize, ← hi]
      by_cases hend : s.lo = s.hi
      · refine ⟨{ s with done := true }, ?_, Or.inl ⟨rfl, ?_⟩⟩
        · simp [iterator, next, hdone, hend ▸ htry, hend]
        · simpa [hend] using his
      · refine ⟨{ s with lo := s.lo + 1 }, ?_,
          Or.inr ⟨hdone, by simp only []; omega, hhi, ?_⟩⟩
        · simp [iterator, next, hdone, htry, hend]
        · rw [his]
          congr 1
          simp only []
          omega
  back := by
    rintro s is i (⟨-, hnil⟩ | ⟨hdone, hle, hhi, hmap⟩)
    · simp at hnil
    · have hlen : s.hi + 1 - s.lo = (s.hi - s.lo) + 1 := by omega
      rw [hlen, List.range'_concat, List.map_append] at hmap
      obtain ⟨his, hi⟩ := List.append_inj' hmap rfl
      have hi : i.val = s.hi := by
        simp at hi
        omega
      have htry : (tryFromUsize s.hi : Option (Fin n)) = some i := by
        simp [tryFromUsize, ← hi]
      by_cases hend : s.lo = s.hi
      · refine ⟨{ s with done := true }, ?_, Or.inl ⟨rfl, ?_⟩⟩
        · simp [iterator, nextBack, hdone, htry, hend]
        · simpa [hend] using his
      · refine ⟨{ s with hi := s.hi - 1 }, ?_,
          Or.inr ⟨hdone, by simp only []; omega, by simp only []; omega, ?_⟩⟩
        · simp [iterator, nextBack, hdone, htry, hend,
            usizeSub_of_le (show 1 ≤ s.hi by omega)]
        · rw [his]
          congr 1
          simp only []
          omega

theorem len_of_left {s : NicheRangeInclusive n} {is : List (Fin n)}
    (h : s.Left is) : s.len = .ok is.length := by
  rcases h with ⟨hdone, rfl⟩ | ⟨hdone, hle, -, hmap⟩
  · simp [len, hdone]
  · have hlen := congrArg List.length hmap
    simp only [List.length_map, List.length_range'] at hlen
    simp only [len, hdone, Bool.false_eq_true, if_false, usizeSub_of_le hle,
      ok_bind, pure_eq_ok, hlen]
    congr 1
    omega

end NicheRangeInclusive

end ArityArrays
