import ArityArrays.Bitmaps.Native

/-!
# The 256-bit bitmap

The implementation for the 256-bit integers of `ethnum`, which are taken to be
a type whose operations are those of 256-bit unsigned arithmetic as long as
they stay in range: a shift by less than 256, a difference that is not
negative.
-/

namespace ArityBitmaps

open Checked Loop ArityArrays ArityTries Words

/-- The 256-bit unsigned integers the bitmap is built on. -/
structure Ethnum where
  U256 : Type
  /-- The binary digits of a number. -/
  bits : U256 → BitVec 256
  bits_injective : Function.Injective bits
  ZERO : U256
  ONE : U256
  eq : U256 → U256 → Bool
  not : U256 → U256
  and : U256 → U256 → U256
  or : U256 → U256 → U256
  shl : U256 → ℕ → Checked U256
  shr : U256 → ℕ → Checked U256
  sub : U256 → U256 → Checked U256
  countOnes : U256 → ℕ
  trailingZeros : U256 → ℕ
  leadingZeros : U256 → ℕ
  bits_ZERO : bits ZERO = 0#256
  bits_ONE : bits ONE = 1#256
  eq_iff : ∀ x y, eq x y = true ↔ bits x = bits y
  bits_not : ∀ x, bits (not x) = ~~~bits x
  bits_and : ∀ x y, bits (and x y) = bits x &&& bits y
  bits_or : ∀ x y, bits (or x y) = bits x ||| bits y
  shl_of_lt : ∀ x k, k < 256 →
    ∃ y, shl x k = .ok y ∧ bits y = bits x <<< k
  shr_of_lt : ∀ x k, k < 256 →
    ∃ y, shr x k = .ok y ∧ bits y = bits x >>> k
  sub_of_le : ∀ x y, bits y ≤ bits x →
    ∃ z, sub x y = .ok z ∧ bits z = bits x - bits y
  countOnes_eq : ∀ x, countOnes x = (bits x).cpop.toNat
  trailingZeros_eq : ∀ x, trailingZeros x = (bits x).ctz.toNat
  leadingZeros_eq : ∀ x, leadingZeros x = (bits x).clz.toNat

namespace Ethnum

variable (E : Ethnum)

/-- Mask of the bits below `k`, which is at most 256. -/
def lowMask (k : ℕ) : Checked E.U256 :=
  if 256 ≤ k then .ok (E.not E.ZERO)
  else do
    let k ← expect (u32TryFrom k) "k < 256 fits u32"
    let bit ← E.shl E.ONE k
    E.sub bit E.ONE

def rawIsZero (x : E.U256) : Bool := E.eq x E.ZERO

def rawPopcount (x : E.U256) : ℕ := E.countOnes x

def rawLowestPos (x : E.U256) : Checked ℕ := .ok (E.trailingZeros x)

def rawHighestPos (x : E.U256) : Checked ℕ :=
  usizeSub 255 (E.leadingZeros x)

def rawClearLowest (x : E.U256) : Checked E.U256 :=
  if E.eq x E.ZERO then .ok x
  else do
    let y ← E.sub x E.ONE
    return E.and x y

def rawClearHighest (x : E.U256) : Checked E.U256 :=
  if E.eq x E.ZERO then .ok x
  else do
    let k ← usizeSub 255 (E.leadingZeros x)
    let bit ← E.shl E.ONE k
    return E.and x (E.not bit)

/-- The mask of the selecting search. -/
def selectMask (size : ℕ) : Checked E.U256 := do
  let bit ← E.shl E.ONE size
  E.sub bit E.ONE

def rawSelect (x : E.U256) (k : ℕ) : Checked (Option ℕ) :=
  if E.countOnes x ≤ k then .ok none
  else do
    let pos ← search E.selectMask (fun x m => E.countOnes (E.and x m)) E.shr {
      n := k
      x
      pos := 0
      size := 128
      size_pos := by decide }
    return some pos

def rawNearestClearAtOrBelow (x : E.U256) (start : ℕ) :
    Checked (Option ℕ) := do
  debugAssert (start < 256) "assertion failed: from < 256"
  let mask ← E.lowMask (start + 1)
  let holes := E.and (E.not x) mask
  if E.eq holes E.ZERO then return none
  else do
    let pos ← usizeSub 255 (E.leadingZeros holes)
    return some pos

def rawNearestClearIn (x : E.U256) (start limit : ℕ) :
    Checked (Option ℕ) := do
  debugAssert (start ≤ limit ∧ limit ≤ 256)
    "assertion failed: from <= limit && limit <= 256"
  let lowLimit ← E.lowMask limit
  let lowFrom ← E.lowMask start
  let holes := E.and (E.and (E.not x) lowLimit) (E.not lowFrom)
  if E.eq holes E.ZERO then return none
  else return some (E.trailingZeros holes)

def isZero (x : E.U256) : Bool := E.eq x E.ZERO

def test (x : E.U256) (i : Fin 256) : Checked Bool := do
  let y ← E.shr x i.val
  return !E.eq (E.and y E.ONE) E.ZERO

def withBit (x : E.U256) (i : Fin 256) : Checked E.U256 := do
  let bit ← E.shl E.ONE i.val
  return E.or x bit

def rank (x : E.U256) (i : Fin 256) : Checked ℕ :=
  if i = 0 then .ok 0
  else do
    let bit ← E.shl E.ONE i.val
    let below ← E.sub bit E.ONE
    return E.countOnes (E.and x below)

def withoutBit (x : E.U256) (i : Fin 256) : Checked E.U256 := do
  let bit ← E.shl E.ONE i.val
  return E.and x (E.not bit)

def backing : Backing 256 where
  Word := E.U256
  ZERO := E.ZERO
  rawIsZero := E.rawIsZero
  rawPopcount := E.rawPopcount
  rawLowestPos := E.rawLowestPos
  rawHighestPos := E.rawHighestPos
  rawClearLowest := E.rawClearLowest
  rawClearHighest := E.rawClearHighest
  rawSelect := E.rawSelect
  rawNearestClearAtOrBelow := E.rawNearestClearAtOrBelow
  rawNearestClearIn := E.rawNearestClearIn
  isZero := E.isZero
  countOnes := E.countOnes
  test := E.test
  withBit := E.withBit
  rank := E.rank
  withoutBit := E.withoutBit

/-- The positions of the set bits of a number. -/
def positions (x : E.U256) : Bitmap 256 := members (E.bits x)

/-! ## The contract -/

section Contract

variable {E}

theorem mem_positions {x : E.U256} {i : Fin 256} :
    i ∈ E.positions x ↔ (E.bits x).getLsbD i = true :=
  mem_members

theorem positions_ZERO : E.positions E.ZERO = ∅ := by
  rw [positions, E.bits_ZERO, members_zero]

theorem eq_ZERO {x : E.U256} : E.eq x E.ZERO = true ↔ E.bits x = 0#256 := by
  rw [E.eq_iff, E.bits_ZERO]

theorem rawIsZero_eq (x : E.U256) :
    E.rawIsZero x = decide (E.positions x = ∅) := by
  rw [Bool.eq_iff_iff, decide_eq_true_iff, rawIsZero, eq_ZERO, positions,
    members_eq_empty]

theorem countOnes_card (x : E.U256) :
    E.countOnes x = Bitmap.countOnes (E.positions x) := by
  rw [E.countOnes_eq, toNat_cpop]
  rfl

theorem highest_eq {x : E.U256} {p : Fin 256}
    (hp : IsGreatest (E.positions x : Set (Fin 256)) p) :
    usizeSub 255 (E.leadingZeros x) = .ok p.val := by
  have hclz := clz_add_eq hp
  rw [E.leadingZeros_eq, usizeSub_of_le (by omega)]
  congr 1
  omega

theorem shl_ONE {k : ℕ} (hk : k < 256) :
    ∃ y, E.shl E.ONE k = .ok y ∧ E.bits y = 1#256 <<< k := by
  obtain ⟨y, hshl, hy⟩ := E.shl_of_lt E.ONE k hk
  rw [E.bits_ONE] at hy
  exact ⟨y, hshl, hy⟩

theorem selectMask_spec {k : ℕ} (hk : k < 256) :
    ∃ m, E.selectMask k = .ok m ∧ E.bits m = 1#256 <<< k - 1#256 := by
  obtain ⟨y, hshl, hy⟩ := E.shl_ONE hk
  have hle : E.bits E.ONE ≤ E.bits y := by
    rw [E.bits_ONE, hy]
    exact one_le_one_shiftLeft hk
  obtain ⟨z, hsub, hz⟩ := E.sub_of_le y E.ONE hle
  refine ⟨z, ?_, ?_⟩
  · rw [selectMask, hshl, ok_bind, hsub]
  · rw [hz, hy, E.bits_ONE]

theorem lowMask_spec (k : ℕ) :
    ∃ m, E.lowMask k = .ok m ∧ ∀ i, i ∈ E.positions m ↔ i.val < k := by
  by_cases hk : 256 ≤ k
  · refine ⟨E.not E.ZERO, if_pos hk, ?_⟩
    intro i
    have hi := i.isLt
    rw [positions, E.bits_not, E.bits_ZERO, members_not, members_zero]
    simp
    omega
  · have hlt : k < 256 := not_le.mp hk
    obtain ⟨m, hmask, hm⟩ := E.selectMask_spec hlt
    refine ⟨m, ?_, ?_⟩
    · rw [lowMask, if_neg hk, u32TryFrom_of_lt (by omega), expect_some,
        ok_bind]
      exact hmask
    · intro i
      rw [positions, hm, mem_lowMask hlt]

theorem positions_clear {x y : E.U256} {p : Fin 256}
    (hy : E.bits y = 1#256 <<< p.val) :
    E.positions (E.and x (E.not y)) =
      Bitmap.withoutBit (E.positions x) p := by
  rw [positions, E.bits_and, E.bits_not, hy]
  exact Native.members_clear (E.bits x) p

theorem not_eq_ZERO {x : E.U256} {p : Fin 256} (hp : p ∈ E.positions x) :
    ¬E.eq x E.ZERO = true := by
  rw [eq_ZERO]
  exact ne_zero_of_mem hp

theorem rawClearLowest_spec {x : E.U256} {p : Fin 256}
    (hp : IsLeast (E.positions x : Set (Fin 256)) p) :
    ∃ y, E.rawClearLowest x = .ok y ∧
      E.positions y = Bitmap.withoutBit (E.positions x) p := by
  have hle : E.bits E.ONE ≤ E.bits x := by
    rw [E.bits_ONE]
    exact one_le_of_mem hp.1
  obtain ⟨z, hsub, hz⟩ := E.sub_of_le x E.ONE hle
  refine ⟨E.and x z, ?_, ?_⟩
  · rw [rawClearLowest, if_neg (not_eq_ZERO hp.1), hsub, ok_bind, pure_eq_ok]
  · rw [positions, E.bits_and, hz, E.bits_ONE]
    exact members_and_sub_one hp

theorem rawClearHighest_spec {x : E.U256} {p : Fin 256}
    (hp : IsGreatest (E.positions x : Set (Fin 256)) p) :
    ∃ y, E.rawClearHighest x = .ok y ∧
      E.positions y = Bitmap.withoutBit (E.positions x) p := by
  obtain ⟨bit, hshl, hbit⟩ := E.shl_ONE p.isLt
  refine ⟨E.and x (E.not bit), ?_, positions_clear hbit⟩
  rw [rawClearHighest, if_neg (not_eq_ZERO hp.1), highest_eq hp, ok_bind,
    hshl, ok_bind, pure_eq_ok]

theorem searchable :
    Searchable E.selectMask (fun x m => E.countOnes (E.and x m)) E.shr
      E.bits where
  lowMask := selectMask_spec
  lowCount x m := by rw [E.countOnes_eq, E.bits_and]
  shr x _ hk := E.shr_of_lt x _ hk

theorem rawSelect_eq (x : E.U256) (k : ℕ) :
    E.rawSelect x k =
      .ok ((Bitmap.select (E.positions x) k).map Fin.val) := by
  by_cases hk : E.countOnes x ≤ k
  · rw [rawSelect, if_pos hk, Bitmap.select_of_le (countOnes_card x ▸ hk)]
    rfl
  · obtain ⟨p, hsearch, hselect⟩ := search_select E.searchable (x := x)
      (by decide : 0 < 128) ⟨7, rfl⟩ rfl (countOnes_card x ▸ not_le.mp hk)
    rw [rawSelect, if_neg hk, hsearch, ok_bind, pure_eq_ok, positions,
      hselect, Option.map_some]

theorem rawNearestClearAtOrBelow_spec (x : E.U256) {start : ℕ}
    (hstart : start < 256) :
    (∃ p : Fin 256, E.rawNearestClearAtOrBelow x start = .ok (some p.val) ∧
      IsGreatest {q : Fin 256 | q.val ≤ start ∧ q ∉ E.positions x} p) ∨
    E.rawNearestClearAtOrBelow x start = .ok none ∧
      ∀ q : Fin 256, q ∉ {q : Fin 256 | q.val ≤ start ∧
        q ∉ E.positions x} := by
  obtain ⟨m, hmask, hm⟩ := E.lowMask_spec (start + 1)
  have hassert := debugAssert_of hstart "assertion failed: from < 256"
  refine scan_spec (e := .back) (x := E.bits (E.and (E.not x) m)) ?_ ?_ ?_
  · intro q
    rw [E.bits_and, E.bits_not, members_and, members_not, Finset.mem_inter,
      Finset.mem_compl, ← positions, ← positions, hm, Nat.lt_succ_iff,
      and_comm]
    rfl
  · intro hzero
    simp only [rawNearestClearAtOrBelow, hassert, hmask, ok_bind,
      if_pos (eq_ZERO.mpr hzero), pure_eq_ok]
  · intro hne p hp
    simp only [rawNearestClearAtOrBelow, hassert, hmask, ok_bind,
      if_neg (mt eq_ZERO.mp hne), highest_eq hp, pure_eq_ok]

theorem rawNearestClearIn_spec (x : E.U256) {start limit : ℕ}
    (hstart : start ≤ limit) (hlimit : limit ≤ 256) :
    (∃ p : Fin 256, E.rawNearestClearIn x start limit = .ok (some p.val) ∧
      IsLeast {q : Fin 256 | start ≤ q.val ∧ q.val < limit ∧
        q ∉ E.positions x} p) ∨
    E.rawNearestClearIn x start limit = .ok none ∧ ∀ q : Fin 256,
      q ∉ {q : Fin 256 | start ≤ q.val ∧ q.val < limit ∧
        q ∉ E.positions x} := by
  obtain ⟨m, hmask, hm⟩ := E.lowMask_spec limit
  obtain ⟨m', hmask', hm'⟩ := E.lowMask_spec start
  have hbounds : start ≤ limit ∧ limit ≤ 256 := ⟨hstart, hlimit⟩
  have hassert := debugAssert_of hbounds
    "assertion failed: from <= limit && limit <= 256"
  refine scan_spec (e := .front)
    (x := E.bits (E.and (E.and (E.not x) m) (E.not m'))) ?_ ?_ ?_
  · intro q
    have hmq : q ∈ members (E.bits m) ↔ q.val < limit := hm q
    have hmq' : q ∈ members (E.bits m') ↔ q.val < start := hm' q
    simp only [E.bits_and, E.bits_not, members_and, members_not,
      Finset.mem_inter, Finset.mem_compl, hmq, hmq', not_lt, positions,
      Set.mem_ofPred_eq]
    tauto
  · intro hzero
    simp only [rawNearestClearIn, hassert, hmask, hmask', ok_bind,
      if_pos (eq_ZERO.mpr hzero), pure_eq_ok]
  · intro hne p hp
    simp only [rawNearestClearIn, hassert, hmask, hmask', ok_bind,
      if_neg (mt eq_ZERO.mp hne), E.trailingZeros_eq, ctz_eq hp, pure_eq_ok]

theorem test_eq (x : E.U256) (i : Fin 256) :
    E.test x i = .ok (Bitmap.test (E.positions x) i) := by
  obtain ⟨y, hshr, hy⟩ := E.shr_of_lt x i.val i.isLt
  have hiff : E.eq (E.and y E.ONE) E.ZERO = true ↔ i ∉ E.positions x := by
    rw [eq_ZERO, E.bits_and, E.bits_ONE, hy, shiftRight_and_one,
      ← mem_positions]
  have htest : (!E.eq (E.and y E.ONE) E.ZERO) =
      decide (i ∈ E.positions x) := by
    by_cases hi : i ∈ E.positions x
    · simp [hi, mt hiff.mp (not_not.mpr hi)]
    · simp [hi, hiff.mpr hi]
  rw [test, hshr, ok_bind, pure_eq_ok, htest]
  rfl

theorem withBit_spec (x : E.U256) (i : Fin 256) :
    ∃ y, E.withBit x i = .ok y ∧
      E.positions y = Bitmap.withBit (E.positions x) i := by
  obtain ⟨bit, hshl, hbit⟩ := E.shl_ONE i.isLt
  refine ⟨E.or x bit, ?_, ?_⟩
  · rw [withBit, hshl, ok_bind, pure_eq_ok]
  · rw [positions, E.bits_or, hbit, members_or, members_single,
      Finset.union_comm, Bitmap.withBit, Finset.insert_eq, positions]

theorem withoutBit_spec (x : E.U256) (i : Fin 256) :
    ∃ y, E.withoutBit x i = .ok y ∧
      E.positions y = Bitmap.withoutBit (E.positions x) i := by
  obtain ⟨bit, hshl, hbit⟩ := E.shl_ONE i.isLt
  refine ⟨E.and x (E.not bit), ?_, positions_clear hbit⟩
  rw [withoutBit, hshl, ok_bind, pure_eq_ok]

theorem rank_eq (x : E.U256) (i : Fin 256) :
    E.rank x i = .ok (Bitmap.rank (E.positions x) i) := by
  by_cases hi : i = 0
  · have hnone : (E.positions x).filter (· < i) = ∅ := by
      rw [Finset.filter_eq_empty_iff, hi]
      intro j _
      exact not_lt.mpr (Fin.zero_le j)
    rw [rank, if_pos hi, Bitmap.rank, hnone, Finset.card_empty]
  · obtain ⟨m, hmask, hm⟩ := E.selectMask_spec i.isLt
    have hbelow : E.positions (E.and x m) =
        (E.positions x).filter (· < i) := by
      ext j
      rw [positions, E.bits_and, members_and, Finset.mem_inter, hm,
        mem_lowMask i.isLt, Finset.mem_filter]
      rfl
    have hrank : E.rank x i = (E.selectMask i.val >>= fun below =>
        pure (E.countOnes (E.and x below))) := by
      rw [rank, if_neg hi, selectMask, bind_assoc]
    rw [hrank, hmask, ok_bind, pure_eq_ok, countOnes_card, hbelow,
      Bitmap.rank]
    rfl

end Contract

theorem contract : E.backing.Contract E.positions where
  view_injective := members_injective.comp E.bits_injective
  view_ZERO := positions_ZERO
  rawIsZero := rawIsZero_eq
  rawPopcount := countOnes_card
  rawPos := by
    intro e x p hp
    rcases e
    · exact congrArg Except.ok ((E.trailingZeros_eq x).trans (ctz_eq hp))
    · exact highest_eq hp
  rawClear := by
    intro e x p hp
    rcases e
    · exact rawClearLowest_spec hp
    · exact rawClearHighest_spec hp
  rawClear_zero := by
    intro x hx e
    have hzero := eq_ZERO.mpr (members_eq_empty.mp hx)
    rcases e
    · exact if_pos hzero
    · exact if_pos hzero
  rawSelect := rawSelect_eq
  rawNearestClearAtOrBelow := by
    intro x start hstart
    refine (rawNearestClearAtOrBelow_spec x hstart).imp_right ?_
    rintro ⟨hnone, hall⟩
    exact ⟨hnone, fun q hq => by_contra fun hclear => hall q ⟨hq, hclear⟩⟩
  rawNearestClearIn := by
    intro x start limit hstart hlimit
    refine (rawNearestClearIn_spec x hstart hlimit).imp_right ?_
    rintro ⟨hnone, hall⟩
    exact ⟨hnone, fun q hq hq' =>
      by_contra fun hclear => hall q ⟨hq, hq', hclear⟩⟩
  isZero := rawIsZero_eq
  countOnes := countOnes_card
  test := test_eq
  withBit := withBit_spec
  rank := rank_eq
  withoutBit := withoutBit_spec

end Ethnum

/-- The bitmap over a 256-bit integer. -/
def u256 (E : Ethnum) : Raw 256 where
  toBacking := E.backing
  view := E.positions
  contract := E.contract

/-- Bit vectors with checked operators are such integers. -/
instance : Inhabited Ethnum where
  default := {
    U256 := BitVec 256
    bits := id
    bits_injective := Function.injective_id
    ZERO := 0#256
    ONE := 1#256
    eq x y := decide (x = y)
    not x := ~~~x
    and x y := x &&& y
    or x y := x ||| y
    shl := Native.shl
    shr := Native.shr
    sub := Native.sub
    countOnes := Native.countOnes
    trailingZeros := Native.trailingZeros
    leadingZeros x := x.clz.toNat
    bits_ZERO := rfl
    bits_ONE := rfl
    eq_iff _ _ := decide_eq_true_iff
    bits_not _ := rfl
    bits_and _ _ := rfl
    bits_or _ _ := rfl
    shl_of_lt x _ hk := ⟨_, Native.shl_of_lt hk x, rfl⟩
    shr_of_lt x _ hk := ⟨_, Native.shr_of_lt hk x, rfl⟩
    sub_of_le _ _ hyx := ⟨_, Native.sub_of_le hyx, rfl⟩
    countOnes_eq _ := rfl
    trailingZeros_eq _ := rfl
    leadingZeros_eq _ := rfl }

end ArityBitmaps
