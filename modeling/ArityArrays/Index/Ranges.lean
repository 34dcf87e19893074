import ArityArrays.Arrays.Slots

/-!
# Ranges of indices

The two range iterators over a niche type with `n` values.  Their cursors are
`usize` values with checked arithmetic, and an item is made from a cursor
without looking whether the cursor is in the domain; that it always is follows
from what the iterators have left.  The arrays iterate the same ranges over
domains so small that their additions need no check.
-/

namespace ArityIndex

open ArityArrays Checked

/-- `a + b`. -/
def usizeAdd (a b : ℕ) : Checked ℕ :=
  if a + b ≤ usizeMax then .ok (a + b)
  else .error ⟨"attempt to add with overflow"⟩

theorem usizeAdd_of_le {a b : ℕ} (h : a + b ≤ usizeMax) :
    usizeAdd a b = .ok (a + b) :=
  if_pos h

theorem usizeAdd_eq_ok {a b c : ℕ} (h : usizeAdd a b = .ok c) :
    c = a + b := by
  unfold usizeAdd at h
  split at h
  · exact (Except.ok.inj h).symm
  · cases h

/-- `N::try_from_usize(cursor).unwrap_unchecked()`: a cursor outside the domain
is undefined behaviour. -/
def fromCursor {n : ℕ} (cursor : ℕ) : Checked (Fin n) :=
  expect (tryFromUsize cursor) "unwrap_unchecked on None"

theorem fromCursor_of_lt {n cursor : ℕ} (h : cursor < n) :
    (fromCursor cursor : Checked (Fin n)) = .ok ⟨cursor, h⟩ := by
  rw [fromCursor, tryFromUsize_of_lt h, expect_some]

theorem fromCursor_eq_ok {n cursor : ℕ} {v : Fin n}
    (h : fromCursor cursor = .ok v) : tryFromUsize cursor = some v :=
  expect_eq_ok.mp h

/-! ## The half-open range -/

/-- A half-open range `[lo, hi)`. -/
structure NicheRange (n : ℕ) where
  lo : ℕ
  hi : ℕ

namespace NicheRange

variable {n : ℕ}

def new (start stop : Fin n) : NicheRange n := ⟨start, stop⟩

def next (s : NicheRange n) : Checked (Option (Fin n) × NicheRange n) := do
  if s.lo ≥ s.hi then return (none, s)
  let v ← fromCursor s.lo
  let lo ← usizeAdd s.lo 1
  return (some v, { s with lo := lo })

def nextBack (s : NicheRange n) : Checked (Option (Fin n) × NicheRange n) := do
  if s.lo ≥ s.hi then return (none, s)
  let hi ← usizeSub s.hi 1
  let v ← fromCursor hi
  return (some v, { s with hi := hi })

def len (s : NicheRange n) : Checked ℕ := .ok (s.hi - s.lo)

theorem next_of_le {s : NicheRange n} (h : s.hi ≤ s.lo) :
    s.next = .ok (none, s) := by
  rw [next, if_pos h, pure_eq_ok]

theorem nextBack_of_le {s : NicheRange n} (h : s.hi ≤ s.lo) :
    s.nextBack = .ok (none, s) := by
  rw [nextBack, if_pos h, pure_eq_ok]

/-- Whatever the cursors, an item brings them closer. -/
theorem size_next {s s' : NicheRange n} {o : Option (Fin n)}
    (h : s.next = .ok (o, s')) :
    s'.hi - s'.lo + o.toList.length ≤ s.hi - s.lo := by
  by_cases hle : s.hi ≤ s.lo
  · rw [next_of_le hle] at h
    cases h
    exact le_rfl
  · rw [next, if_neg (by omega)] at h
    obtain ⟨v, -, h⟩ := bind_eq_ok.mp h
    obtain ⟨lo, hlo, h⟩ := bind_eq_ok.mp h
    cases h
    rw [usizeAdd_eq_ok hlo, Option.toList_some, List.length_singleton]
    dsimp only
    omega

theorem size_nextBack {s s' : NicheRange n} {o : Option (Fin n)}
    (h : s.nextBack = .ok (o, s')) :
    s'.hi - s'.lo + o.toList.length ≤ s.hi - s.lo := by
  by_cases hle : s.hi ≤ s.lo
  · rw [nextBack_of_le hle] at h
    cases h
    exact le_rfl
  · rw [nextBack, if_neg (by omega), usizeSub_of_le (by omega), ok_bind] at h
    obtain ⟨v, -, h⟩ := bind_eq_ok.mp h
    cases h
    rw [Option.toList_some, List.length_singleton]
    dsimp only
    omega

def iterator : DoubleEnded (NicheRange n) (Fin n) where
  pull
    | .front, s => s.next
    | .back, s => s.nextBack
  size s := s.hi - s.lo
  size_pull := by
    intro e s o s' h
    rcases e with _ | _
    · exact size_next h
    · exact size_nextBack h

/-- The cursors are in the domain. -/
def InDomain (s : NicheRange n) : Prop := s.lo < n ∧ s.hi < n

/-- The indices a range has left. -/
def Left (s : NicheRange n) (is : List (Fin n)) : Prop :=
  s.InDomain ∧ is.map Fin.val = List.range' s.lo (s.hi - s.lo)

theorem refines (hmax : n ≤ usizeMax) :
    (iterator (n := n)).Refines Left where
  nil := by
    rintro e s ⟨hdomain, hmap⟩
    have hle : s.hi ≤ s.lo := by
      have hlength := congrArg List.length hmap
      rw [List.map_nil, List.length_nil, List.length_range'] at hlength
      omega
    refine ⟨s, ?_, hdomain, hmap⟩
    rcases e with _ | _
    · exact next_of_le hle
    · exact nextBack_of_le hle
  front := by
    rintro s i is ⟨⟨hlo, hhi⟩, hmap⟩
    have hlt : s.lo < s.hi := by
      have hlength := congrArg List.length hmap
      rw [List.map_cons, List.length_cons, List.length_range'] at hlength
      omega
    obtain ⟨k, hk⟩ := Nat.exists_eq_add_of_lt hlt
    rw [show s.hi - s.lo = k + 1 by omega, List.range'_succ, List.map_cons,
      List.cons.injEq] at hmap
    obtain ⟨hi, his⟩ := hmap
    obtain rfl : i = ⟨s.lo, hlo⟩ := Fin.ext hi
    refine ⟨{ s with lo := s.lo + 1 }, ?_, ⟨?_, hhi⟩, ?_⟩
    · change s.next = _
      rw [next, if_neg (by omega), fromCursor_of_lt hlo, ok_bind,
        usizeAdd_of_le (by omega), ok_bind, pure_eq_ok]
    · change s.lo + 1 < n
      omega
    · rw [his]
      congr 1
      change k = s.hi - (s.lo + 1)
      omega
  back := by
    rintro s is i ⟨⟨hlo, hhi⟩, hmap⟩
    have hlt : s.lo < s.hi := by
      have hlength := congrArg List.length hmap
      rw [List.length_map, List.length_append, List.length_singleton,
        List.length_range'] at hlength
      omega
    obtain ⟨k, hk⟩ := Nat.exists_eq_add_of_lt hlt
    rw [show s.hi - s.lo = k + 1 by omega, List.range'_concat,
      List.map_append] at hmap
    obtain ⟨his, hlast⟩ := List.append_inj' hmap rfl
    have hi : i.val = s.hi - 1 := by
      have hval := List.singleton_inj.mp hlast
      omega
    have hcursor : s.hi - 1 < n := by omega
    obtain rfl : i = ⟨s.hi - 1, hcursor⟩ := Fin.ext hi
    refine ⟨{ s with hi := s.hi - 1 }, ?_, ⟨hlo, hcursor⟩, ?_⟩
    · change s.nextBack = _
      rw [nextBack, if_neg (by omega), usizeSub_of_le (by omega), ok_bind,
        fromCursor_of_lt hcursor, ok_bind, pure_eq_ok]
    · rw [his]
      congr 1
      change k = s.hi - 1 - s.lo
      omega

theorem len_of_left {s : NicheRange n} {is : List (Fin n)} (h : s.Left is) :
    s.len = .ok is.length := by
  have hlength := congrArg List.length h.2
  rw [List.length_map, List.length_range'] at hlength
  rw [len, hlength]

end NicheRange

/-! ## The closed range -/

/-- A closed range `[lo, hi]`; `done` once it is used up. -/
structure NicheRangeInclusive (n : ℕ) where
  lo : ℕ
  hi : ℕ
  done : Bool

namespace NicheRangeInclusive

variable {n : ℕ}

def new (start stop : Fin n) : NicheRangeInclusive n :=
  ⟨start, stop, decide (start.val > stop.val)⟩

/-- The whole domain. -/
def full (n : ℕ) : Checked (NicheRangeInclusive n) := do
  let hi ← usizeSub n 1
  return ⟨0, hi, false⟩

def next (s : NicheRangeInclusive n) :
    Checked (Option (Fin n) × NicheRangeInclusive n) := do
  if s.done then return (none, s)
  let v ← fromCursor s.lo
  if s.lo = s.hi then return (some v, { s with done := true })
  let lo ← usizeAdd s.lo 1
  return (some v, { s with lo := lo })

def nextBack (s : NicheRangeInclusive n) :
    Checked (Option (Fin n) × NicheRangeInclusive n) := do
  if s.done then return (none, s)
  let v ← fromCursor s.hi
  if s.lo = s.hi then return (some v, { s with done := true })
  let hi ← usizeSub s.hi 1
  return (some v, { s with hi := hi })

def len (s : NicheRangeInclusive n) : Checked ℕ :=
  if s.done then .ok 0 else do
    let k ← usizeSub s.hi s.lo
    usizeAdd k 1

/-- The range as the arrays iterate it. -/
def view (s : NicheRangeInclusive n) : ArityArrays.NicheRangeInclusive n :=
  ⟨s.lo, s.hi, s.done⟩

/-- The cursors are in the domain, and `done` is set when they have passed. -/
def InDomain (s : NicheRangeInclusive n) : Prop :=
  s.lo < n ∧ s.hi < n ∧ (s.done = false → s.lo ≤ s.hi)

theorem next_of_done {s : NicheRangeInclusive n} (h : s.done = true) :
    s.next = .ok (none, s) := by
  rw [next, h]
  rfl

theorem nextBack_of_done {s : NicheRangeInclusive n} (h : s.done = true) :
    s.nextBack = .ok (none, s) := by
  rw [nextBack, h]
  rfl

/-- A call that succeeds is the call of the arrays' range. -/
theorem view_next {s s' : NicheRangeInclusive n} {o : Option (Fin n)}
    (h : s.next = .ok (o, s')) : s.view.next = .ok (o, s'.view) := by
  rcases hdone : s.done with _ | _
  · rw [next, hdone, if_neg Bool.false_ne_true] at h
    obtain ⟨v, hv, h⟩ := bind_eq_ok.mp h
    have hcursor := fromCursor_eq_ok hv
    by_cases hend : s.lo = s.hi
    · rw [if_pos hend] at h
      cases h
      simp [ArityArrays.NicheRangeInclusive.next, view, hdone, ← hend, hcursor]
    · rw [if_neg hend] at h
      obtain ⟨lo, hlo, h⟩ := bind_eq_ok.mp h
      cases h
      obtain rfl := usizeAdd_eq_ok hlo
      simp [ArityArrays.NicheRangeInclusive.next, view, hdone, hcursor, hend]
  · rw [next_of_done hdone] at h
    cases h
    simp [ArityArrays.NicheRangeInclusive.next, view, hdone]

theorem view_nextBack {s s' : NicheRangeInclusive n} {o : Option (Fin n)}
    (h : s.nextBack = .ok (o, s')) : s.view.nextBack = .ok (o, s'.view) := by
  rcases hdone : s.done with _ | _
  · rw [nextBack, hdone, if_neg Bool.false_ne_true] at h
    obtain ⟨v, hv, h⟩ := bind_eq_ok.mp h
    have hcursor := fromCursor_eq_ok hv
    by_cases hend : s.lo = s.hi
    · rw [if_pos hend] at h
      cases h
      simp [ArityArrays.NicheRangeInclusive.nextBack, view, hdone, hcursor,
        hend]
    · rw [if_neg hend] at h
      obtain ⟨hi, hhi, h⟩ := bind_eq_ok.mp h
      cases h
      simp [ArityArrays.NicheRangeInclusive.nextBack, view, hdone, hcursor,
        hend, hhi]
  · rw [nextBack_of_done hdone] at h
    cases h
    simp [ArityArrays.NicheRangeInclusive.nextBack, view, hdone]

def iterator : DoubleEnded (NicheRangeInclusive n) (Fin n) where
  pull
    | .front, s => s.next
    | .back, s => s.nextBack
  size s := s.view.size
  size_pull := by
    intro e s o s' h
    rcases e with _ | _
    · exact ArityArrays.NicheRangeInclusive.size_next (view_next h)
    · exact ArityArrays.NicheRangeInclusive.size_nextBack (view_nextBack h)

theorem view_pull {e : End} {s s' : NicheRangeInclusive n}
    {o : Option (Fin n)} (h : iterator.pull e s = .ok (o, s')) :
    ArityArrays.NicheRangeInclusive.iterator.pull e s.view =
      .ok (o, s'.view) := by
  rcases e with _ | _
  · exact view_next h
  · exact view_nextBack h

/-- From a state in the domain no call fails. -/
theorem InDomain.pull (hmax : n ≤ usizeMax) {s : NicheRangeInclusive n}
    (h : s.InDomain) (e : End) :
    ∃ o s', iterator.pull e s = .ok (o, s') ∧ s'.InDomain := by
  obtain ⟨hlo, hhi, hle⟩ := h
  rcases hdone : s.done with _ | _
  · have hle := hle hdone
    by_cases hend : s.lo = s.hi
    · have hclosed : ({ s with done := true } :
          NicheRangeInclusive n).InDomain := ⟨hlo, hhi, by simp⟩
      rcases e with _ | _
      · refine ⟨some ⟨s.lo, hlo⟩, _, ?_, hclosed⟩
        change s.next = _
        rw [next, hdone, if_neg Bool.false_ne_true, fromCursor_of_lt hlo,
          ok_bind, if_pos hend, pure_eq_ok]
      · refine ⟨some ⟨s.hi, hhi⟩, _, ?_, hclosed⟩
        change s.nextBack = _
        rw [nextBack, hdone, if_neg Bool.false_ne_true, fromCursor_of_lt hhi,
          ok_bind, if_pos hend, pure_eq_ok]
    · rcases e with _ | _
      · refine ⟨some ⟨s.lo, hlo⟩, { s with lo := s.lo + 1 }, ?_, ?_⟩
        · change s.next = _
          rw [next, hdone, if_neg Bool.false_ne_true, fromCursor_of_lt hlo,
            ok_bind, if_neg hend, usizeAdd_of_le (by omega), ok_bind,
            pure_eq_ok]
        · refine ⟨?_, hhi, fun _ => ?_⟩
          · dsimp only
            omega
          · dsimp only
            omega
      · refine ⟨some ⟨s.hi, hhi⟩, { s with hi := s.hi - 1 }, ?_, ?_⟩
        · change s.nextBack = _
          rw [nextBack, hdone, if_neg Bool.false_ne_true,
            fromCursor_of_lt hhi, ok_bind, if_neg hend,
            usizeSub_of_le (by omega), ok_bind, pure_eq_ok]
        · refine ⟨hlo, ?_, fun _ => ?_⟩
          · dsimp only
            omega
          · dsimp only
            omega
  · refine ⟨none, s, ?_, hlo, hhi, hle⟩
    rcases e with _ | _
    · exact next_of_done hdone
    · exact nextBack_of_done hdone

/-- The indices a range has left. -/
def Left (s : NicheRangeInclusive n) (is : List (Fin n)) : Prop :=
  s.InDomain ∧ s.view.Left is

theorem refines (hmax : n ≤ usizeMax) :
    (iterator (n := n)).Refines Left := by
  apply ArityArrays.NicheRangeInclusive.refines.comapOn view
  intro e s is h _
  obtain ⟨o, s', hpull, h'⟩ := h.pull hmax e
  exact ⟨o, s', hpull, view_pull hpull, h'⟩

theorem len_of_left (hmax : n ≤ usizeMax) {s : NicheRangeInclusive n}
    {is : List (Fin n)} (h : s.Left is) : s.len = .ok is.length := by
  obtain ⟨⟨hlo, hhi, hle⟩, hleft⟩ := h
  have hlen := ArityArrays.NicheRangeInclusive.len_of_left hleft
  rcases hdone : s.done with _ | _
  · have hle := hle hdone
    rw [← hlen, len, hdone, if_neg Bool.false_ne_true, usizeSub_of_le hle,
      ok_bind, usizeAdd_of_le (by omega)]
    simp [ArityArrays.NicheRangeInclusive.len, view, hdone,
      usizeSub_of_le hle]
  · rw [← hlen, len, hdone, if_pos rfl]
    simp [ArityArrays.NicheRangeInclusive.len, view, hdone]

end NicheRangeInclusive

/-! ## Where they start -/

section Start

variable {n : ℕ}

/-- The values `start..stop`. -/
def rangeItems (start stop : Fin n) : List (Fin n) :=
  (List.finRange n).filter fun i => start ≤ i ∧ i < stop

/-- The values `start..=stop`. -/
def rangeInclusiveItems (start stop : Fin n) : List (Fin n) :=
  (List.finRange n).filter fun i => start ≤ i ∧ i ≤ stop

/-- The values of the domain in `[lo, lo + k)` are consecutive. -/
theorem map_val_filter {p : Fin n → Bool} (lo k : ℕ) (hle : lo + k ≤ n)
    (hp : ∀ i : Fin n, p i = true ↔ lo ≤ i.val ∧ i.val < lo + k) :
    ((List.finRange n).filter p).map Fin.val = List.range' lo k := by
  apply ArityTries.Bitmap.eq_of_pairwise_lt
  · rw [List.pairwise_map]
    exact (List.pairwise_lt_finRange n).filter p
  · exact List.pairwise_lt_range'
  · intro j
    rw [List.mem_range'_1, List.mem_map]
    simp only [List.mem_filter, List.mem_finRange, true_and, hp]
    constructor
    · rintro ⟨i, hi, rfl⟩
      exact hi
    · intro hj
      exact ⟨⟨j, by omega⟩, hj, rfl⟩

theorem NicheRange.left_new (start stop : Fin n) :
    (NicheRange.new start stop).Left (rangeItems start stop) := by
  refine ⟨⟨start.isLt, stop.isLt⟩,
    map_val_filter start.val (stop.val - start.val) (by omega) fun i => ?_⟩
  rw [decide_eq_true_eq, Fin.le_def, Fin.lt_def]
  omega

theorem NicheRangeInclusive.left_new (start stop : Fin n) :
    (NicheRangeInclusive.new start stop).Left
      (rangeInclusiveItems start stop) := by
  by_cases hle : start.val ≤ stop.val
  · have hdone : decide (start.val > stop.val) = false :=
      decide_eq_false (by omega)
    refine ⟨⟨start.isLt, stop.isLt, fun _ => hle⟩, Or.inr ⟨hdone, hle,
      stop.isLt, map_val_filter start.val (stop.val + 1 - start.val) (by omega)
        fun i => ?_⟩⟩
    rw [decide_eq_true_eq, Fin.le_def, Fin.le_def]
    omega
  · have hdone : decide (start.val > stop.val) = true :=
      decide_eq_true (by omega)
    refine ⟨⟨start.isLt, stop.isLt, fun hnot => ?_⟩, Or.inl ⟨hdone, ?_⟩⟩
    · change decide (start.val > stop.val) = false at hnot
      rw [hdone] at hnot
      cases hnot
    · rw [rangeInclusiveItems, List.filter_eq_nil_iff]
      intro i _
      rw [decide_eq_true_eq, Fin.le_def, Fin.le_def]
      omega

theorem NicheRangeInclusive.left_full (hn : 0 < n) :
    ∃ s, NicheRangeInclusive.full n = .ok s ∧ s.Left (List.finRange n) := by
  have : NeZero n := ⟨hn.ne'⟩
  refine ⟨⟨0, n - 1, false⟩, ?_, ⟨hn, by dsimp only; omega, by simp⟩,
    ArityArrays.NicheRangeInclusive.left_full n⟩
  rw [NicheRangeInclusive.full, usizeSub_of_le hn]
  rfl

end Start

/-! ## Every interleaving -/

/-- After any calls, which return what the deque `xs` returns, the cursors are
in the domain, the length is the number of items left, and an exhausted range
yields nothing more. -/
def RunsAs {σ : Type} {n : ℕ} (it : DoubleEnded σ (Fin n))
    (len : σ → Checked ℕ) (InDomain : σ → Prop) (s : σ) (xs : List (Fin n)) :
    Prop :=
  ∀ es : List End, ∃ s', it.pulls es s = .ok ((Deque.pulls es xs).1, s') ∧
    InDomain s' ∧ len s' = .ok (Deque.pulls es xs).2.length ∧
    ((Deque.pulls es xs).2 = [] → ∀ e, ∃ s'', it.pull e s' = .ok (none, s''))

theorem runsAs_of_refines {σ : Type} {n : ℕ} {it : DoubleEnded σ (Fin n)}
    {R : σ → List (Fin n) → Prop} {len : σ → Checked ℕ} {InDomain : σ → Prop}
    (h : it.Refines R) (hdomain : ∀ {s xs}, R s xs → InDomain s)
    (hlen : ∀ {s xs}, R s xs → len s = .ok xs.length) {s : σ}
    {xs : List (Fin n)} (hs : R s xs) : RunsAs it len InDomain s xs := by
  intro es
  obtain ⟨s', hrun, hs'⟩ := h.pulls hs es
  refine ⟨s', hrun, hdomain hs', hlen hs', ?_⟩
  intro hnil e
  rw [hnil] at hs'
  obtain ⟨s'', hpull, -⟩ := h.nil (e := e) hs'
  exact ⟨s'', hpull⟩

/-- Over a domain whose size is a positive `usize`, the ranges do what the
deques of their values do, and neither leave the domain nor overflow. -/
theorem ranges_stay_in_domain {n : ℕ} (hn : 0 < n) (hmax : n ≤ usizeMax) :
    (∀ start stop : Fin n, RunsAs NicheRange.iterator NicheRange.len
      NicheRange.InDomain (.new start stop) (rangeItems start stop)) ∧
    (∀ start stop : Fin n, RunsAs NicheRangeInclusive.iterator
      NicheRangeInclusive.len NicheRangeInclusive.InDomain (.new start stop)
      (rangeInclusiveItems start stop)) ∧
    ∃ all, NicheRangeInclusive.full n = .ok all ∧
      RunsAs NicheRangeInclusive.iterator NicheRangeInclusive.len
        NicheRangeInclusive.InDomain all (List.finRange n) := by
  refine ⟨?_, ?_, ?_⟩
  · intro start stop
    exact runsAs_of_refines (NicheRange.refines hmax) And.left
      NicheRange.len_of_left (NicheRange.left_new start stop)
  · intro start stop
    exact runsAs_of_refines (NicheRangeInclusive.refines hmax) And.left
      (NicheRangeInclusive.len_of_left hmax)
      (NicheRangeInclusive.left_new start stop)
  · obtain ⟨all, hfull, hleft⟩ := NicheRangeInclusive.left_full hn
    exact ⟨all, hfull, runsAs_of_refines (NicheRangeInclusive.refines hmax)
      And.left (NicheRangeInclusive.len_of_left hmax) hleft⟩

/-- The closed range up to the greatest of eight values, from both ends. -/
theorem ranges_stay_in_domain_eight :
    ∃ s', NicheRangeInclusive.iterator.pulls
        [.back, .front, .front, .back]
        (NicheRangeInclusive.new (6 : Fin 8) 7) =
      .ok ([some 7, some 6, none, none], s') ∧ s'.InDomain := by
  obtain ⟨-, hclosed, -⟩ :=
    ranges_stay_in_domain (show 0 < 8 by decide) (show 8 ≤ usizeMax by decide)
  obtain ⟨s', hrun, hdomain, -⟩ := hclosed 6 7 [.back, .front, .front, .back]
  exact ⟨s', hrun, hdomain⟩

end ArityIndex
