import ArityArrays.Bitmaps.Scanning

/-!
# Native words as bitmaps

The implementations for `u8` to `u128`, for any power-of-two width.  A shift
by the width or more, a subtraction below zero and the logarithm of zero are
failures.
-/

namespace ArityBitmaps

open Checked Loop ArityArrays ArityTries Words

/-- A power-of-two width of at least two bits. -/
structure Width where
  width : ℕ
  log : ℕ
  width_eq : width = 2 ^ (log + 1)

namespace Native

section Operators

variable {w : ℕ}

/-- `x << k`. -/
def shl (x : BitVec w) (k : ℕ) : Checked (BitVec w) :=
  if k < w then .ok (x <<< k)
  else .error ⟨"attempt to shift left with overflow"⟩

/-- `x >> k`. -/
def shr (x : BitVec w) (k : ℕ) : Checked (BitVec w) :=
  if k < w then .ok (x >>> k)
  else .error ⟨"attempt to shift right with overflow"⟩

/-- `x - y`. -/
def sub (x y : BitVec w) : Checked (BitVec w) :=
  if y ≤ x then .ok (x - y)
  else .error ⟨"attempt to subtract with overflow"⟩

def wrappingSub (x y : BitVec w) : BitVec w := x - y

def countOnes (x : BitVec w) : ℕ := x.cpop.toNat

def trailingZeros (x : BitVec w) : ℕ := x.ctz.toNat

def ilog2 (x : BitVec w) : Checked ℕ :=
  if x = 0#w then
    .error ⟨"argument of integer logarithm must be positive"⟩
  else .ok x.toNat.log2

theorem shl_of_lt {k : ℕ} (hk : k < w) (x : BitVec w) :
    shl x k = .ok (x <<< k) :=
  if_pos hk

theorem shr_of_lt {k : ℕ} (hk : k < w) (x : BitVec w) :
    shr x k = .ok (x >>> k) :=
  if_pos hk

theorem sub_of_le {x y : BitVec w} (hyx : y ≤ x) :
    sub x y = .ok (x - y) :=
  if_pos hyx

theorem ilog2_of_ne_zero {x : BitVec w} (hx : x ≠ 0#w) :
    ilog2 x = .ok x.toNat.log2 :=
  if_neg hx

theorem ilog2_eq {x : BitVec w} {p : Fin w}
    (hp : IsGreatest (members x : Set (Fin w)) p) : ilog2 x = .ok p.val := by
  rw [ilog2_of_ne_zero (ne_zero_of_mem hp.1), log2_eq hp]

end Operators

section Methods

variable {w : ℕ}

def rawIsZero (x : BitVec w) : Bool := decide (x = 0#w)

def rawPopcount (x : BitVec w) : ℕ := countOnes x

def rawLowestPos (x : BitVec w) : Checked ℕ := .ok (trailingZeros x)

def rawHighestPos (x : BitVec w) : Checked ℕ := ilog2 x

def rawClearLowest (x : BitVec w) : Checked (BitVec w) :=
  .ok (x &&& wrappingSub x 1#w)

def rawClearHighest (x : BitVec w) : Checked (BitVec w) :=
  if x = 0#w then .ok 0#w
  else do
    let k ← ilog2 x
    let bit ← shl 1#w k
    return x &&& ~~~bit

/-- `((1 as $ty) << k).wrapping_sub(1)`. -/
def lowMask (k : ℕ) : Checked (BitVec w) := do
  let bit ← shl 1#w k
  return wrappingSub bit 1#w

/-- The mask of the bits below a bound that can equal the width. -/
def saturatingMask (k : ℕ) : Checked (BitVec w) :=
  if w ≤ k then .ok (~~~0#w) else lowMask k

def rawNearestClearAtOrBelow (x : BitVec w) (start : ℕ) :
    Checked (Option ℕ) := do
  debugAssert (start < w) "assertion failed: from < $width"
  let mask ← saturatingMask (start + 1)
  let holes := ~~~x &&& mask
  if holes = 0#w then return none
  else do
    let pos ← ilog2 holes
    return some pos

def rawNearestClearIn (x : BitVec w) (start limit : ℕ) :
    Checked (Option ℕ) := do
  debugAssert (start ≤ limit ∧ limit ≤ w)
    "assertion failed: from <= limit && limit <= $width"
  let lowLimit ← saturatingMask limit
  let lowFrom ← saturatingMask start
  let holes := ~~~x &&& lowLimit &&& ~~~lowFrom
  if holes = 0#w then return none
  else return some (trailingZeros holes)

def isZero (x : BitVec w) : Bool := decide (x = 0#w)

def test (x : BitVec w) (i : Fin w) : Checked Bool := do
  let bit ← shl 1#w i.val
  return decide (x &&& bit ≠ 0#w)

def withBit (x : BitVec w) (i : Fin w) : Checked (BitVec w) := do
  let bit ← shl 1#w i.val
  return x ||| bit

def rank (x : BitVec w) (i : Fin w) : Checked ℕ := do
  let bit ← shl 1#w i.val
  let below ← sub bit 1#w
  return countOnes (x &&& below)

def withoutBit (x : BitVec w) (i : Fin w) : Checked (BitVec w) := do
  let bit ← shl 1#w i.val
  return x &&& ~~~bit

end Methods

/-- Selection starts at half the width, so no shift reaches the width. -/
def rawSelect (W : Width) (x : BitVec W.width) (k : ℕ) :
    Checked (Option ℕ) :=
  if rawPopcount x ≤ k then .ok none
  else do
    let pos ← search lowMask (fun x m => countOnes (x &&& m)) shr {
      n := k
      x
      pos := 0
      size := W.width / 2
      size_pos := by
        have := Nat.two_pow_pos W.log
        rw [W.width_eq, Nat.pow_succ]
        omega }
    return some pos

/-- `impl_native_bitmap!`. -/
def backing (W : Width) : Backing W.width where
  Word := BitVec W.width
  ZERO := 0#W.width
  rawIsZero := rawIsZero
  rawPopcount := rawPopcount
  rawLowestPos := rawLowestPos
  rawHighestPos := rawHighestPos
  rawClearLowest := rawClearLowest
  rawClearHighest := rawClearHighest
  rawSelect := rawSelect W
  rawNearestClearAtOrBelow := rawNearestClearAtOrBelow
  rawNearestClearIn := rawNearestClearIn
  isZero := isZero
  countOnes := countOnes
  test := test
  withBit := withBit
  rank := rank
  withoutBit := withoutBit

/-! ## The contract -/

section Contract

variable {w : ℕ}

theorem shl_one (i : Fin w) : shl 1#w i.val = .ok (1#w <<< i.val) :=
  shl_of_lt i.isLt _

theorem lowMask_of_lt {k : ℕ} (hk : k < w) :
    lowMask k = .ok (1#w <<< k - 1#w) := by
  rw [lowMask, shl_of_lt hk, ok_bind]
  rfl

theorem saturatingMask_spec (w k : ℕ) :
    ∃ m : BitVec w, saturatingMask k = .ok m ∧
      ∀ i : Fin w, i ∈ members m ↔ i.val < k := by
  by_cases hk : w ≤ k
  · refine ⟨~~~0#w, if_pos hk, ?_⟩
    intro i
    have hi := i.isLt
    simp
    omega
  · refine ⟨1#w <<< k - 1#w, ?_, mem_lowMask (not_le.mp hk)⟩
    rw [saturatingMask, if_neg hk, lowMask_of_lt (not_le.mp hk)]

theorem rawNearestClearAtOrBelow_spec (x : BitVec w) {start : ℕ}
    (hstart : start < w) :
    (∃ p : Fin w, rawNearestClearAtOrBelow x start = .ok (some p.val) ∧
      IsGreatest {q : Fin w | q.val ≤ start ∧ q ∉ members x} p) ∨
    rawNearestClearAtOrBelow x start = .ok none ∧
      ∀ q : Fin w, q ∉ {q : Fin w | q.val ≤ start ∧ q ∉ members x} := by
  obtain ⟨m, hmask, hm⟩ := saturatingMask_spec w (start + 1)
  have hassert := debugAssert_of hstart "assertion failed: from < $width"
  refine scan_spec (e := .back) (x := ~~~x &&& m) ?_ ?_ ?_
  · intro q
    rw [members_and, members_not, Finset.mem_inter, Finset.mem_compl, hm,
      Nat.lt_succ_iff, and_comm]
    rfl
  · intro hzero
    simp only [rawNearestClearAtOrBelow, hassert, hmask, ok_bind,
      if_pos hzero, pure_eq_ok]
  · intro hne p hp
    simp only [rawNearestClearAtOrBelow, hassert, hmask, ok_bind,
      if_neg hne, ilog2_eq hp, pure_eq_ok]

theorem rawNearestClearIn_spec (x : BitVec w) {start limit : ℕ}
    (hstart : start ≤ limit) (hlimit : limit ≤ w) :
    (∃ p : Fin w, rawNearestClearIn x start limit = .ok (some p.val) ∧
      IsLeast {q : Fin w | start ≤ q.val ∧ q.val < limit ∧ q ∉ members x}
        p) ∨
    rawNearestClearIn x start limit = .ok none ∧ ∀ q : Fin w,
      q ∉ {q : Fin w | start ≤ q.val ∧ q.val < limit ∧ q ∉ members x} := by
  obtain ⟨m, hmask, hm⟩ := saturatingMask_spec w limit
  obtain ⟨m', hmask', hm'⟩ := saturatingMask_spec w start
  have hbounds : start ≤ limit ∧ limit ≤ w := ⟨hstart, hlimit⟩
  have hassert := debugAssert_of hbounds
    "assertion failed: from <= limit && limit <= $width"
  refine scan_spec (e := .front) (x := ~~~x &&& m &&& ~~~m') ?_ ?_ ?_
  · intro q
    simp only [members_and, members_not, Finset.mem_inter,
      Finset.mem_compl, hm, hm', not_lt, Set.mem_ofPred_eq]
    tauto
  · intro hzero
    simp only [rawNearestClearIn, hassert, hmask, hmask', ok_bind,
      if_pos hzero, pure_eq_ok]
  · intro hne p hp
    simp only [rawNearestClearIn, hassert, hmask, hmask', ok_bind,
      if_neg hne, trailingZeros, ctz_eq hp, pure_eq_ok]

theorem rawClearHighest_zero (w : ℕ) :
    rawClearHighest 0#w = .ok 0#w :=
  if_pos rfl

theorem rawClearHighest_eq {x : BitVec w} {p : Fin w}
    (hp : IsGreatest (members x : Set (Fin w)) p) :
    rawClearHighest x = .ok (x &&& ~~~(1#w <<< p.val)) := by
  rw [rawClearHighest, if_neg (ne_zero_of_mem hp.1), ilog2_eq hp, ok_bind,
    shl_one, ok_bind, pure_eq_ok]

theorem members_clear (x : BitVec w) (p : Fin w) :
    members (x &&& ~~~(1#w <<< p.val)) =
      Bitmap.withoutBit (members x) p := by
  ext j
  rw [members_and, members_not, members_single, Bitmap.withoutBit,
    Finset.mem_inter, Finset.mem_compl, Finset.mem_singleton,
    Finset.mem_erase, and_comm]

theorem test_eq (x : BitVec w) (i : Fin w) :
    test x i = .ok (Bitmap.test (members x) i) := by
  have hiff : x &&& 1#w <<< i.val ≠ 0#w ↔ i ∈ members x := by
    rw [ne_eq, ← members_eq_empty, members_and, members_single,
      Finset.inter_singleton]
    by_cases hi : i ∈ members x
    · rw [if_pos hi]
      simp [hi]
    · rw [if_neg hi]
      simp [hi]
  rw [test, shl_one, ok_bind, pure_eq_ok, Bitmap.test,
    decide_eq_decide.mpr hiff]

theorem withBit_spec (x : BitVec w) (i : Fin w) :
    ∃ y, withBit x i = .ok y ∧ members y = Bitmap.withBit (members x) i := by
  refine ⟨x ||| 1#w <<< i.val, ?_, ?_⟩
  · rw [withBit, shl_one, ok_bind, pure_eq_ok]
  · rw [members_or, members_single, Finset.union_comm, Bitmap.withBit,
      Finset.insert_eq]

theorem withoutBit_spec (x : BitVec w) (i : Fin w) :
    ∃ y, withoutBit x i = .ok y ∧
      members y = Bitmap.withoutBit (members x) i := by
  refine ⟨x &&& ~~~(1#w <<< i.val), ?_, members_clear x i⟩
  rw [withoutBit, shl_one, ok_bind, pure_eq_ok]

theorem rank_eq (x : BitVec w) (i : Fin w) :
    rank x i = .ok (Bitmap.rank (members x) i) := by
  have hbelow : members (x &&& (1#w <<< i.val - 1#w)) =
      (members x).filter (· < i) := by
    ext j
    rw [members_and, Finset.mem_inter, mem_lowMask i.isLt, Finset.mem_filter]
    rfl
  rw [rank, shl_one, ok_bind, sub_of_le (one_le_one_shiftLeft i.isLt),
    ok_bind, pure_eq_ok, countOnes, toNat_cpop, hbelow, Bitmap.rank]

theorem searchable :
    Searchable lowMask (fun x m => countOnes (x &&& m)) shr
      (id : BitVec w → BitVec w) where
  lowMask hk := ⟨_, lowMask_of_lt hk, rfl⟩
  lowCount _ _ := rfl
  shr x _ hk := ⟨_, shr_of_lt hk x, rfl⟩

theorem rawSelect_eq (W : Width) (x : BitVec W.width) (k : ℕ) :
    rawSelect W x k =
      .ok ((Bitmap.select (members x) k).map Fin.val) := by
  have hcount : rawPopcount x = Bitmap.countOnes (members x) := toNat_cpop x
  by_cases hk : rawPopcount x ≤ k
  · rw [rawSelect, if_pos hk, Bitmap.select_of_le (hcount ▸ hk)]
    rfl
  · have hwidth : W.width / 2 = 2 ^ W.log := by
      rw [W.width_eq, Nat.pow_succ]
      omega
    have hdouble : 2 * (W.width / 2) = W.width := by
      rw [hwidth, W.width_eq, Nat.pow_succ, Nat.mul_comm]
    obtain ⟨p, hsearch, hselect⟩ := search_select searchable (x := x)
      (hwidth ▸ Nat.two_pow_pos W.log) ⟨W.log, hwidth⟩ hdouble
      (hcount ▸ not_le.mp hk)
    rw [rawSelect, if_neg hk, hsearch, ok_bind, pure_eq_ok]
    rw [id_eq] at hselect
    rw [hselect, Option.map_some]

end Contract

theorem contract (W : Width) : (backing W).Contract members where
  view_injective := members_injective
  view_ZERO := members_zero
  rawIsZero x := (decide_eq_decide.mpr members_eq_empty).symm
  rawPopcount x := toNat_cpop x
  rawPos := by
    intro e x p hp
    rcases e
    · exact congrArg Except.ok (ctz_eq hp)
    · exact ilog2_eq hp
  rawClear := by
    intro e x p hp
    rcases e
    · exact ⟨_, rfl, members_and_sub_one hp⟩
    · exact ⟨_, rawClearHighest_eq hp, members_clear x p⟩
  rawClear_zero := by
    intro x hx e
    obtain rfl := members_eq_empty.mp hx
    rcases e
    · exact congrArg Except.ok BitVec.zero_and
    · exact rawClearHighest_zero W.width
  rawSelect := rawSelect_eq W
  rawNearestClearAtOrBelow := by
    intro x start hstart
    refine (rawNearestClearAtOrBelow_spec x hstart).imp_right ?_
    rintro ⟨hnone, hall⟩
    exact ⟨hnone, fun q hq => by_contra fun hclear => hall q ⟨hq, hclear⟩⟩
  rawNearestClearIn := by
    intro x start limit hstart hlimit
    refine (rawNearestClearIn_spec x hstart hlimit).imp_right ?_
    rintro ⟨hnone, hall⟩
    exact ⟨hnone, fun q hq hq' =>
      by_contra fun hclear => hall q ⟨hq, hq', hclear⟩⟩
  isZero x := (decide_eq_decide.mpr members_eq_empty).symm
  countOnes x := toNat_cpop x
  test := test_eq
  withBit := withBit_spec
  rank := rank_eq
  withoutBit := withoutBit_spec

end Native

/-- The bitmap over a native word. -/
def native (W : Width) : Raw W.width where
  toBacking := Native.backing W
  view := members
  contract := Native.contract W

def u8 : Raw 8 := native ⟨8, 2, rfl⟩

def u16 : Raw 16 := native ⟨16, 3, rfl⟩

def u32 : Raw 32 := native ⟨32, 4, rfl⟩

def u64 : Raw 64 := native ⟨64, 5, rfl⟩

def u128 : Raw 128 := native ⟨128, 6, rfl⟩

end ArityBitmaps
