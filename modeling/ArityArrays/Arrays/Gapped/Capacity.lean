import ArityArrays.Arrays.Gapped.Placing
import ArityArrays.Arrays.Gapped.Rebuilding

/-!
# Insertion and capacity

What an insertion, a reservation, a shrink and a clear do to the map and to the
block.  A block is given up only by an insertion that finds it full, by a
reservation it is too small for, and by a shrink it is too large for.
-/

namespace ArityTries.ChildMap

variable {n : ℕ} {T : Type}

theorem count_lt_of_none {m : ChildMap n T} {i : Fin n} (hi : m.get i = none) :
    m.count < n := by
  have hcard := Finset.card_lt_card (Finset.ssubset_univ_iff.mpr
    (ne_of_mem_of_not_mem' (Finset.mem_univ i)
      (notMem_present.mpr hi)).symm)
  rw [Finset.card_univ, Fintype.card_fin] at hcard
  rwa [count_eq_card]

theorem count_le (m : ChildMap n T) : m.count ≤ n := by
  rw [← countOnes_present]
  exact Bitmap.countOnes_le m.present

end ArityTries.ChildMap

namespace ArityArrays

open ArityTries Checked

/-- `cap` is the least power of two which is at least `count`, or `0` if that
is `0`. -/
def LeastCapacity (count cap : ℕ) : Prop :=
  (count = 0 ∧ cap = 0) ∨
    (count ≠ 0 ∧ (∃ k, cap = 2 ^ k) ∧ count ≤ cap ∧
      ∀ k, count ≤ 2 ^ k → cap ≤ 2 ^ k)

theorem pow2CapFor_least (A : Arity) {count : ℕ} (hcount : count ≤ A.LEN) :
    ∃ cap, pow2CapFor A count = .ok cap ∧ LeastCapacity count cap ∧
      cap ≤ A.LEN := by
  by_cases hzero : count = 0
  · exact ⟨0, by simp [pow2CapFor, hzero], Or.inl ⟨hzero, rfl⟩, Nat.zero_le _⟩
  · obtain ⟨cap, hcap, ⟨k, hk, hle⟩, hmin, hleast⟩ := pow2CapFor_spec A hzero
    refine ⟨cap, hcap, Or.inr ⟨hzero, ⟨k, hk⟩, by omega, ?_⟩, hle⟩
    intro j hj
    by_cases hjle : 2 ^ j ≤ A.LEN
    · exact hleast _ ⟨j, rfl, hjle⟩ (by omega)
    · omega

namespace GappedArray

variable {T : Type} {A : Arity}

section Bounds

variable {g : GappedArray T A} {m : ChildMap A.LEN T} {inner : Inner T A}
variable {pos : A.Index → ℕ}

theorem Laid.isCapacity (h : Laid inner m pos) :
    A.IsCapacity inner.capacity :=
  ⟨inner.capExp, rfl, h.le⟩

theorem Laid.count_le (h : Laid inner m pos) : m.count ≤ inner.capacity := by
  have hrun := Finset.card_le_card_of_injOn (s := m.present)
    (t := Finset.range inner.capacity) pos
    (fun i hi => Finset.mem_coe.mpr (Finset.mem_range.mpr (h.pos_lt hi)))
    (fun i hi j hj hpos => h.placed.injective hi hj hpos)
  rwa [Finset.card_range, ← ChildMap.count_eq_card] at hrun

theorem Holds.count_le_capacity (h : g.Holds m) : m.count ≤ g.capacity := by
  unfold capacity
  cases hinner : g.inner with
  | none => simp [h.of_none hinner]
  | some inner =>
      obtain ⟨pos, hlaid⟩ := h.of_some hinner
      exact hlaid.count_le

end Bounds

/-! ## Insertion -/

section Insert

variable {g : GappedArray T A} {m : ChildMap A.LEN T} {i : A.Index}

/-- Doubling is the rounding of one more than a full capacity. -/
theorem pow2CapFor_full {cap : ℕ} (hcap : A.IsCapacity cap)
    (hlt : cap < A.LEN) :
    pow2CapFor A (cap + 1) = .ok (2 * cap) ∧ A.IsCapacity (2 * cap) := by
  obtain ⟨k, rfl, -⟩ := hcap
  have hdouble : A.IsCapacity (2 * 2 ^ k) := by
    obtain ⟨e, -, -, he⟩ := A.LEN_eq_two_pow
    have hke : k < e := (Nat.pow_lt_pow_iff_right (by omega)).mp (he ▸ hlt)
    refine ⟨k + 1, by rw [Nat.pow_succ, Nat.mul_comm], ?_⟩
    calc 2 * 2 ^ k = 2 ^ (k + 1) := by rw [Nat.pow_succ, Nat.mul_comm]
      _ ≤ 2 ^ e := Nat.pow_le_pow_right (by omega) hke
      _ = A.LEN := he.symm
  obtain ⟨cap', hcap', ⟨j, rfl, hjle⟩, hmin, hleast⟩ :=
    pow2CapFor_spec A (Nat.succ_ne_zero (2 ^ k))
  refine ⟨?_, hdouble⟩
  have hroom : min (2 ^ k + 1) A.LEN = 2 ^ k + 1 := by omega
  have hpos := Nat.two_pow_pos k
  rw [Nat.succ_eq_add_one, hroom] at hmin
  have hle : 2 ^ j ≤ 2 * 2 ^ k := hleast _ hdouble (by omega)
  have hkj : k < j := by
    by_contra hjk
    have := Nat.pow_le_pow_right (show 0 < 2 by omega) (not_lt.mp hjk)
    omega
  have hge : 2 ^ (k + 1) ≤ 2 ^ j := Nat.pow_le_pow_right (by omega) hkj
  rw [Nat.pow_succ] at hge
  rw [hcap']
  congr 1
  omega

/-- How an insertion affects the block: it keeps it unless there is none or the
new element finds it full. -/
inductive InsertCapacity (g g' : GappedArray T A) (m : ChildMap A.LEN T)
    (i : A.Index) : Prop where
  | keeps (room : m.get i ≠ none ∨ m.count < g.capacity)
      (keeps : KeepsBlock g g')
  | first (absent : m.get i = none) (none : g.inner = none)
      (capacity : g'.capacity = 1)
  | doubles (absent : m.get i = none) (full : m.count = g.capacity)
      (pos : 0 < g.capacity) (lt : g.capacity < A.LEN)
      (capacity : g'.capacity = 2 * g.capacity)

/-- The first insertion allocates a single slot. -/
theorem laid_first (i : A.Index) (v : T) (first : A.Index)
    (hfirst : first.val = 0) :
    Laid ⟨Bitmap.withBit Bitmap.ZERO i, Bitmap.withBit Bitmap.ZERO first, 0,
      ⟨1, Function.update (Block.alloc 1).slot 0 (some v)⟩, 0⟩
      (ChildMap.empty.set i v) (Function.update (fun _ => 0) i 0) := by
  refine ⟨?_, fun p => ?_, ?_, rfl, A.LEN_pos⟩
  · rw [ChildMap.present_set, ChildMap.present_empty]
    rfl
  · rw [Bitmap.mem_withBit, Fin.ext_iff, hfirst]
    by_cases hp : p.val = 0
    · simp [hp]
    · simp [hp]
  · exact (Placed.alloc 1 fun _ => 0).insert (by simp) (by simp)
      (by simp) (by simp) v

theorem insert_spec (h : g.Holds m) (i : A.Index) (v : T) :
    ∃ g', g.insert i v = .ok (m.get i, g') ∧ g'.Holds (m.set i v) ∧
      InsertCapacity g g' m i := by
  cases hinner : g.inner with
  | none =>
      obtain rfl := h.of_none hinner
      have hwrite := Block.write_of_free (b := (Block.alloc 1 : Block T))
        (p := 0) (by simp) rfl v
      simp only [insert, hinner, tryFromUsize_of_lt A.LEN_pos, expect_some,
        hwrite, ok_bind, pure_eq_ok]
      exact ⟨_, rfl, Or.inr ⟨_, rfl, _, laid_first i v _ rfl⟩,
        .first (ChildMap.get_empty i) hinner rfl⟩
  | some inner =>
      obtain ⟨pos, hlaid⟩ := h.of_some hinner
      have hg : g = ⟨some inner⟩ := by
        cases g
        cases hinner
        rfl
      have hcapacity : g.capacity = inner.capacity := by
        simp [capacity, hinner]
      cases hv : m.get i with
      | some w =>
          obtain ⟨p, hp, hpos⟩ := hlaid.slotOf_eq
            (ChildMap.mem_present.mpr ⟨w, hv⟩) "present ⇒ rank < count"
          have hslot := Block.replace_of_slot (hlaid.placed.slot_of_get hv) v
          simp only [insert, hinner, hlaid.test_eq, hv, Option.isSome_some,
            if_true, hp, hpos, hslot, ok_bind, pure_eq_ok]
          exact ⟨_, rfl, Or.inr ⟨_, rfl, pos, hlaid.overwrite hv v⟩,
            .keeps (Or.inl (by simp [hv]))
              (keepsBlock_of_some hinner rfl rfl)⟩
      | none =>
          have hlt := ChildMap.count_lt_of_none hv
          by_cases hfull : m.count = inner.capacity
          · obtain ⟨hround, hdouble⟩ := pow2CapFor_full hlaid.isCapacity
              (by omega)
            obtain ⟨inner', hrebuild, hlaid', hcap, -⟩ :=
              hlaid.rebuildWithInsert hv hdouble (by
                have := hlaid.isCapacity.pos
                omega) v
            refine ⟨⟨some inner'⟩, ?_, Or.inr ⟨_, rfl, _, hlaid'⟩,
              .doubles hv (by omega) ?_ (by omega) ?_⟩
            · simp only [insert, hg, hlaid.test_eq, hv, Option.isSome_none,
                Bool.false_eq_true, if_false, hlaid.countOnes_occupancy,
                hfull, if_true, hround, hrebuild, ok_bind, pure_eq_ok]
            · rw [hcapacity]
              exact hlaid.isCapacity.pos
            · rw [hcapacity]
              exact hcap
          · have hroom : m.count < inner.capacity :=
              lt_of_le_of_ne hlaid.count_le hfull
            obtain ⟨inner', pos', lo, hi, hplace, hlaid', hcap, hblock, -⟩ :=
              hlaid.placeAbsent hv hroom v
            refine ⟨⟨some inner'⟩, ?_, Or.inr ⟨_, rfl, _, hlaid'⟩,
              .keeps (Or.inr (by omega)) (keepsBlock_of_some hinner hcap hblock)⟩
            simp only [insert, hg, hlaid.test_eq, hv, Option.isSome_none,
              Bool.false_eq_true, if_false, hlaid.countOnes_occupancy, hfull,
              hplace, ok_bind, pure_eq_ok]

end Insert

/-! ## Reservation and shrinking -/

section Capacity

variable {g : GappedArray T A} {m : ChildMap A.LEN T}

theorem laid_fresh {cap k : ℕ} (hcap : cap = 2 ^ k) (hle : cap ≤ A.LEN)
    (block : ℕ) :
    Laid (⟨Bitmap.ZERO, Bitmap.ZERO, k, Block.alloc cap, block⟩ : Inner T A)
      ChildMap.empty fun _ => 0 := by
  refine ⟨?_, fun p => by simp, Placed.alloc cap _, hcap, ?_⟩
  · rw [ChildMap.present_empty]
    rfl
  · subst hcap
    exact hle

/-- A fresh array holds nothing and has room for what was asked, up to the
arity. -/
theorem withCapacity_spec (T : Type) (A : Arity) (n : ℕ) :
    ∃ g, withCapacity T A n = .ok g ∧ g.Holds ChildMap.empty ∧
      pow2CapFor A n = .ok g.capacity := by
  by_cases hn : n = 0
  · exact ⟨new, by simp [withCapacity, pow2CapFor, hn], holds_new,
      by simp [pow2CapFor, hn, capacity, new]⟩
  · obtain ⟨cap, hcap, hlegal, -⟩ := pow2CapFor_spec A hn
    obtain ⟨k, rfl, hle⟩ := hlegal
    have hpos : 2 ^ k ≠ 0 := (Nat.two_pow_pos k).ne'
    simp only [withCapacity, hcap, hpos, if_false, capExpOf_two_pow, ok_bind,
      pure_eq_ok]
    exact ⟨_, rfl, Or.inr ⟨_, rfl, _, laid_fresh rfl hle 0⟩, rfl⟩

/-- A reservation keeps the map, never lowers the capacity, and makes room. -/
theorem reserve_spec (h : g.Holds m) (n : ℕ) :
    ∃ g', g.reserve n = .ok g' ∧ g'.Holds m ∧ g.capacity ≤ g'.capacity ∧
      min (m.count + n) A.LEN ≤ g'.capacity ∧
      (g'.capacity = g.capacity → g' = g) := by
  have hlen := A.LEN_le
  have hmax : A.LEN ≤ usizeMax := by
    unfold usizeMax
    omega
  by_cases hzero : saturatingAdd m.count n = 0
  · have hround : pow2CapFor A 0 = .ok 0 := by simp [pow2CapFor]
    refine ⟨g, ?_, h, le_rfl, ?_, fun _ => rfl⟩
    · simp [reserve, h.count_eq, hzero, hround]
    · unfold saturatingAdd usizeMax at hzero
      omega
  · obtain ⟨cap, hcap, hlegal, hmin, -⟩ := pow2CapFor_spec A hzero
    have hwant : min (m.count + n) A.LEN ≤ cap := by
      unfold saturatingAdd at hmin
      omega
    by_cases hle : cap ≤ g.capacity
    · exact ⟨g, by simp [reserve, h.count_eq, hcap, hle], h, le_rfl,
        by omega, fun _ => rfl⟩
    · have hcount := h.count_le_capacity
      cases hinner : g.inner with
      | none =>
          obtain ⟨g', hfresh, hg', hcapacity⟩ :=
            withCapacity_spec T A (saturatingAdd m.count n)
          rw [hcap] at hcapacity
          have hg'cap : g'.capacity = cap := (Except.ok.inj hcapacity).symm
          refine ⟨g', ?_, by rwa [h.of_none hinner], by omega, by omega,
            by omega⟩
          simp [reserve, h.count_eq, hcap, hle, hinner, hfresh]
      | some inner =>
          obtain ⟨pos, hlaid⟩ := h.of_some hinner
          obtain ⟨inner', hrebuild, hlaid', hcapacity, -⟩ :=
            hlaid.rebuildTo hlegal (by omega)
          have hg : g = ⟨some inner⟩ := by
            cases g
            cases hinner
            rfl
          have hg'cap : (⟨some inner'⟩ : GappedArray T A).capacity = cap :=
            hcapacity
          refine ⟨⟨some inner'⟩, ?_, Or.inr ⟨_, rfl, _, hlaid'⟩, by omega,
            by omega, by omega⟩
          rw [← hg] at hrebuild
          simp [reserve, h.count_eq, hcap, hle, hinner, hrebuild]

/-- A shrink keeps the map and leaves the least capacity that fits it. -/
theorem shrinkToFit_spec (h : g.Holds m) :
    ∃ g', g.shrinkToFit = .ok g' ∧ g'.Holds m ∧
      LeastCapacity m.count g'.capacity ∧ (m.count = 0 → g' = new) ∧
      (g'.capacity = g.capacity → m.count ≠ 0 → g' = g) := by
  obtain ⟨cap, hcap, hleast, hlen⟩ := pow2CapFor_least A m.count_le
  by_cases hzero : m.count = 0
  · obtain rfl := ChildMap.eq_empty_of_count hzero
    have hdrop : g.dropEmpty = .ok () := by
      unfold dropEmpty
      cases hinner : g.inner with
      | none => rfl
      | some inner =>
          obtain ⟨pos, hlaid⟩ := h.of_some hinner
          exact hlaid.placed.dealloc hlaid.cap
    exact ⟨new, by simp [shrinkToFit, h.count_eq, hdrop], holds_new,
      Or.inl ⟨hzero, rfl⟩, fun _ => rfl, fun _ hne => absurd hzero hne⟩
  · rcases hleast with ⟨hz, -⟩ | hleast
    · exact absurd hz hzero
    obtain ⟨-, ⟨k, rfl⟩, hle, hmin⟩ := hleast
    have hcount := h.count_le_capacity
    cases hinner : g.inner with
    | none =>
        simp only [capacity, hinner] at hcount
        omega
    | some inner =>
        obtain ⟨pos, hlaid⟩ := h.of_some hinner
        have hg : g = ⟨some inner⟩ := by
          cases g
          cases hinner
          rfl
        have hcapacity : g.capacity = inner.capacity := by
          simp [capacity, hinner]
        by_cases hlt : 2 ^ k < g.capacity
        · obtain ⟨inner', hrebuild, hlaid', hcap', -⟩ :=
            hlaid.rebuildTo ⟨k, rfl, hlen⟩ hle
          have hg' : (⟨some inner'⟩ : GappedArray T A).capacity = 2 ^ k := hcap'
          refine ⟨⟨some inner'⟩, ?_, Or.inr ⟨_, rfl, _, hlaid'⟩, ?_,
            fun hz => absurd hz hzero, fun hsame => by omega⟩
          · rw [← hg] at hrebuild
            simp [shrinkToFit, h.count_eq, hzero, hcap, hlt, hrebuild]
          · rw [hg']
            exact Or.inr ⟨hzero, ⟨k, rfl⟩, hle, hmin⟩
        · have heq : g.capacity = 2 ^ k := by
            refine le_antisymm (not_lt.mp hlt) ?_
            rw [hcapacity]
            exact hmin inner.capExp hlaid.count_le
          refine ⟨g, by simp [shrinkToFit, h.count_eq, hzero, hcap, hlt], h, ?_,
            fun hz => absurd hz hzero, fun _ _ => rfl⟩
          rw [heq]
          exact Or.inr ⟨hzero, ⟨k, rfl⟩, hle, hmin⟩

end Capacity

/-! ## Clearing -/

section Clear

variable {inner : Inner T A} {m : ChildMap A.LEN T} {pos : A.Index → ℕ}

/-- The recursion of the drop loop runs through the set bits in order. -/
theorem dropLiveElems_eq {n : ℕ} (d : Destructor T) (hd : d.needsDrop = true)
    (remaining : Bitmap n) :
    dropLiveElems d remaining =
      Block.dropEach d ((Bitmap.bits remaining).map Fin.val) := by
  induction hlen : (Bitmap.bits remaining) generalizing remaining with
  | nil =>
      have hnext : (⟨remaining⟩ : BitIter n).next.1 = none := by
        rw [BitIter.next_fst, Bitmap.select, hlen]
        rfl
      rw [dropLiveElems, if_neg (by simp [hd])]
      split
      · rfl
      · next i hi =>
          rw [hnext] at hi
          cases hi
  | cons i is ih =>
      have hnext : (⟨remaining⟩ : BitIter n).next.1 = some i := by
        rw [BitIter.next_fst, Bitmap.select, hlen]
        rfl
      have hrest := ih (Bitmap.withoutBit remaining i)
        (Bitmap.bits_eq_cons hlen)
      rw [dropLiveElems, if_neg (by simp [hd])]
      split
      · next hi =>
          rw [hnext] at hi
          cases hi
      · next j hj =>
          rw [hnext] at hj
          cases hj
          simp only [hrest, List.map_cons, Block.dropEach]

/-- However many destructors panic: unless the process aborts, every live
element is dropped once, and only a second panic aborts it. -/
theorem dropLiveElems_total {n : ℕ} (d : Destructor T) (remaining : Bitmap n)
    {b : Block T} {vs : List T}
    (h : ((Bitmap.bits remaining).map Fin.val).map b.slot = vs.map some) :
    ∃ out, dropLiveElems d remaining b = .ok out ∧
      (out.exit = .returns ↔ vs.any d.fails = false) ∧
      (out.exit ≠ .aborts →
        out.state = b.vacate ((Bitmap.bits remaining).map Fin.val) ∧
          out.events = d.drops vs) ∧
      (d.AtMostOne vs → out.exit ≠ .aborts) := by
  cases hd : d.needsDrop with
  | true =>
      rw [dropLiveElems_eq d hd]
      obtain ⟨out, hout, -, hexit, hall, hsafe⟩ := Block.dropEach_total d
        ((Bitmap.bits_nodup remaining).map Fin.val_injective) h
      exact ⟨out, hout, hexit, hall, hsafe⟩
  | false =>
      rw [dropLiveElems, if_pos hd]
      refine ⟨_, rfl, ?_, fun _ => ⟨rfl, ?_⟩, by simp⟩
      · simp [Destructor.fails, hd]
      · simp [Destructor.drops, hd]

/-- Whatever the live set, every live element is dropped once, in slot order,
even if one of the destructors panics. -/
theorem dropLiveElems_spec {n : ℕ} (d : Destructor T) (remaining : Bitmap n)
    {b : Block T} {vs : List T}
    (h : ((Bitmap.bits remaining).map Fin.val).map b.slot = vs.map some)
    (hone : d.AtMostOne vs) :
    dropLiveElems d remaining b =
      .ok ⟨b.vacate ((Bitmap.bits remaining).map Fin.val), d.drops vs,
        d.exit vs⟩ := by
  obtain ⟨out, hdrop, hexit, hall, hsafe⟩ := dropLiveElems_total d remaining h
  obtain ⟨hstate, hevents⟩ := hall (hsafe hone)
  rw [hdrop, ← hstate, ← hevents, ← Destructor.exit_eq hexit (hsafe hone)]

theorem Laid.map_slot (h : Laid inner m pos) :
    (slots inner.live).map inner.data.slot = m.values.map some := by
  rw [h.slots_live]
  exact h.placed.map_slot

/-- Nothing is left in the block when its live slots are vacated. -/
theorem Laid.vacate (h : Laid inner m pos) :
    Placed (ChildMap.empty : ChildMap A.LEN T)
      (inner.data.vacate (slots inner.live)) pos := by
  refine ⟨by simp, by simp, by simp, fun p _ => ?_⟩
  rw [Block.slot_vacate]
  split
  · rfl
  · next hp =>
      refine h.placed.free p fun i hi hpos => hp ?_
      rw [h.slots_live, List.mem_map]
      exact ⟨i, Bitmap.mem_bits.mpr hi, hpos⟩

theorem Laid.clear (h : Laid inner m pos) :
    Laid { inner with
      occupancy := Bitmap.ZERO
      live := Bitmap.ZERO
      data := inner.data.vacate (slots inner.live) } ChildMap.empty pos := by
  refine ⟨?_, fun p => ?_, h.vacate, h.cap, h.le⟩
  · rw [ChildMap.present_empty]
    rfl
  · simp [h.vacate.slot_eq_none]

/-- However many destructors panic: unless the process aborts, clearing drops
every element once and leaves an empty array with the same block. -/
theorem clear_total {g : GappedArray T A} (h : g.Holds m) (d : Destructor T) :
    ∃ out, g.clear d = .ok out ∧
      (out.exit = .returns ↔ m.values.any d.fails = false) ∧
      (out.exit ≠ .aborts → out.state.Holds ChildMap.empty ∧
        KeepsBlock g out.state ∧ out.events = d.drops m.values) ∧
      (d.AtMostOne m.values → out.exit ≠ .aborts) := by
  cases hinner : g.inner with
  | none =>
      obtain rfl := h.of_none hinner
      exact ⟨⟨g, [], .returns⟩, by simp [clear, hinner], by simp, fun _ =>
        ⟨h, .refl g, by simp⟩, by simp⟩
  | some inner =>
      obtain ⟨pos, hlaid⟩ := h.of_some hinner
      obtain ⟨out, hdrop, hreturns, hall, hsafe⟩ :=
        dropLiveElems_total d inner.live hlaid.map_slot
      simp only [clear, hinner, hdrop, ok_bind, pure_eq_ok]
      refine ⟨_, rfl, hreturns, fun hexit => ?_, hsafe⟩
      obtain ⟨hstate, hevents⟩ := hall hexit
      rw [hstate]
      exact ⟨Or.inr ⟨_, rfl, pos, hlaid.clear⟩,
        keepsBlock_of_some hinner rfl rfl, hevents⟩

/-- Clearing drops every element once and leaves an empty array with the same
block, also when a destructor panics. -/
theorem clear_spec {g : GappedArray T A} (h : g.Holds m) (d : Destructor T)
    (hone : d.AtMostOne m.values) :
    ∃ g', g.clear d = .ok ⟨g', d.drops m.values, d.exit m.values⟩ ∧
      g'.Holds ChildMap.empty ∧ KeepsBlock g g' := by
  obtain ⟨out, hclear, hexit, hall, hsafe⟩ := clear_total h d
  obtain ⟨hholds, hkeeps, hevents⟩ := hall (hsafe hone)
  refine ⟨out.state, ?_, hholds, hkeeps⟩
  rw [hclear, ← hevents, ← Destructor.exit_eq hexit (hsafe hone)]

end Clear

end GappedArray

end ArityArrays
