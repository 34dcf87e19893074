import ArityArrays.Arrays.Invariants
import Mathlib.Data.ENat.Lattice
import Mathlib.Order.Interval.Finset.Nat

/-!
# How far elements move

An insertion into a block with room to spare moves as few elements as the gaps
allow, each of them by one slot, and a removal moves none.  The cost of a
placement is the number of elements between the new one and the nearest hole.
-/

namespace ArityTries.Bitmap

open ArityArrays

variable {n : ℕ}

/-! ## Runs of set positions -/

/-- A run of set positions has as many set positions as it is long. -/
theorem card_filter_run {b : Bitmap n} {s t : ℕ} (ht : t ≤ n)
    (hrun : ∀ q : Fin n, s ≤ q.val → q.val < t → q ∈ b) :
    (b.filter fun q => s ≤ q.val ∧ q.val < t).card = t - s := by
  have himage : (b.filter fun q => s ≤ q.val ∧ q.val < t).map Fin.valEmbedding =
      Finset.Ico s t := by
    ext p
    simp only [Finset.mem_map, Finset.mem_filter, Fin.valEmbedding_apply,
      Finset.mem_Ico]
    constructor
    · rintro ⟨q, ⟨-, hq⟩, rfl⟩
      exact hq
    · rintro ⟨hs, hp⟩
      exact ⟨⟨p, by omega⟩, ⟨hrun _ hs hp, hs, hp⟩, rfl⟩
  rw [← Finset.card_map Fin.valEmbedding, himage, Nat.card_Ico]

/-- The clear positions below `hi`. -/
def holesBelow (b : Bitmap n) (hi : ℕ) : Finset (Fin n) :=
  Finset.univ.filter fun q => q.val < hi ∧ q ∉ b

/-- The clear positions in `[hi, cap)`. -/
def holesAbove (b : Bitmap n) (hi cap : ℕ) : Finset (Fin n) :=
  Finset.univ.filter fun q => hi ≤ q.val ∧ q.val < cap ∧ q ∉ b

/-- The number of set positions between the nearest hole below `hi` and `hi`,
infinite if there is no hole. -/
def crossedBelow (b : Bitmap n) (hi : ℕ) : ℕ∞ :=
  if h : (holesBelow b hi).Nonempty then
    ((b.filter fun p => (holesBelow b hi).max' h < p ∧ p.val < hi).card : ℕ∞)
  else ⊤

/-- The number of set positions between `hi` and the nearest hole in
`[hi, cap)`, infinite if there is no hole. -/
def crossedAbove (b : Bitmap n) (hi cap : ℕ) : ℕ∞ :=
  if h : (holesAbove b hi cap).Nonempty then
    ((b.filter fun p => hi ≤ p.val ∧ p < (holesAbove b hi cap).min' h).card :
      ℕ∞)
  else ⊤

/-- The greatest clear position below `hi`. -/
structure NearestBelow (b : Bitmap n) (hi : ℕ) (hole : Fin n) : Prop where
  clear : hole ∉ b
  lt : hole.val < hi
  run : ∀ q : Fin n, hole < q → q.val < hi → q ∈ b

/-- The least clear position in `[hi, cap)`. -/
structure NearestAbove (b : Bitmap n) (hi cap : ℕ) (hole : Fin n) : Prop where
  clear : hole ∉ b
  le : hi ≤ hole.val
  lt : hole.val < cap
  run : ∀ q : Fin n, hi ≤ q.val → q < hole → q ∈ b

section Crossed

variable {b : Bitmap n} {hi cap : ℕ} {hole : Fin n}

theorem nearestBelow_max' (h : (holesBelow b hi).Nonempty) :
    NearestBelow b hi ((holesBelow b hi).max' h) := by
  obtain ⟨-, hlt, hclear⟩ := Finset.mem_filter.mp (Finset.max'_mem _ h)
  refine ⟨hclear, hlt, fun q hq hqhi => ?_⟩
  by_contra hqb
  exact absurd hq (not_lt.mpr (Finset.le_max' _ q
    (Finset.mem_filter.mpr ⟨Finset.mem_univ q, hqhi, hqb⟩)))

theorem nearestAbove_min' (h : (holesAbove b hi cap).Nonempty) :
    NearestAbove b hi cap ((holesAbove b hi cap).min' h) := by
  obtain ⟨-, hle, hlt, hclear⟩ := Finset.mem_filter.mp (Finset.min'_mem _ h)
  refine ⟨hclear, hle, hlt, fun q hq hqhole => ?_⟩
  by_contra hqb
  exact absurd hqhole (not_lt.mpr (Finset.min'_le _ q (Finset.mem_filter.mpr
    ⟨Finset.mem_univ q, hq, lt_trans hqhole hlt, hqb⟩)))

theorem NearestBelow.unique (h : NearestBelow b hi hole) {hole' : Fin n}
    (h' : NearestBelow b hi hole') : hole = hole' := by
  rcases lt_trichotomy hole hole' with hlt | heq | hlt
  · exact absurd (h.run hole' hlt h'.lt) h'.clear
  · exact heq
  · exact absurd (h'.run hole hlt h.lt) h.clear

theorem NearestAbove.unique (h : NearestAbove b hi cap hole) {hole' : Fin n}
    (h' : NearestAbove b hi cap hole') : hole = hole' := by
  rcases lt_trichotomy hole hole' with hlt | heq | hlt
  · exact absurd (h'.run hole h.le hlt) h.clear
  · exact heq
  · exact absurd (h.run hole' h'.le hlt) h'.clear

theorem NearestBelow.crossed (h : NearestBelow b hi hole) :
    crossedBelow b hi =
      ((b.filter fun p => hole < p ∧ p.val < hi).card : ℕ∞) := by
  have hne : (holesBelow b hi).Nonempty :=
    ⟨hole, Finset.mem_filter.mpr ⟨Finset.mem_univ hole, h.lt, h.clear⟩⟩
  rw [crossedBelow, dif_pos hne, h.unique (nearestBelow_max' hne)]

theorem NearestAbove.crossed (h : NearestAbove b hi cap hole) :
    crossedAbove b hi cap =
      ((b.filter fun p => hi ≤ p.val ∧ p < hole).card : ℕ∞) := by
  have hne : (holesAbove b hi cap).Nonempty :=
    ⟨hole, Finset.mem_filter.mpr ⟨Finset.mem_univ hole, h.le, h.lt, h.clear⟩⟩
  rw [crossedAbove, dif_pos hne, h.unique (nearestAbove_min' hne)]

/-- The distance is the number of elements crossed. -/
theorem NearestBelow.card_crossed (h : NearestBelow b hi hole) (hhi : hi ≤ n) :
    (b.filter fun p => hole < p ∧ p.val < hi).card = hi - 1 - hole := by
  have hcard := card_filter_run hhi h.run
  rw [show hi - 1 - hole.val = hi - (hole.val + 1) by omega]
  exact hcard

theorem NearestAbove.card_crossed (h : NearestAbove b hi cap hole) :
    (b.filter fun p => hi ≤ p.val ∧ p < hole).card = hole - hi :=
  card_filter_run hole.isLt.le h.run

/-- Every hole below `hi` is farther away than `k`. -/
theorem lt_crossedBelow {k : ℕ} (hhi : hi ≤ n)
    (h : ∀ q : Fin n, q.val < hi → q ∉ b → k < hi - 1 - q) :
    (k : ℕ∞) < crossedBelow b hi := by
  by_cases hne : (holesBelow b hi).Nonempty
  · have hnear := nearestBelow_max' hne
    rw [hnear.crossed, hnear.card_crossed hhi, Nat.cast_lt]
    exact h _ hnear.lt hnear.clear
  · rw [crossedBelow, dif_neg hne]
    exact ENat.natCast_lt_top k

/-- Every hole from `hi` on is at least `k` away. -/
theorem le_crossedAbove {k : ℕ}
    (h : ∀ q : Fin n, hi ≤ q.val → q.val < cap → q ∉ b → k ≤ q - hi) :
    (k : ℕ∞) ≤ crossedAbove b hi cap := by
  by_cases hne : (holesAbove b hi cap).Nonempty
  · have hnear := nearestAbove_min' hne
    rw [hnear.crossed, hnear.card_crossed, Nat.cast_le]
    exact h _ hnear.le hnear.lt hnear.clear
  · rw [crossedAbove, dif_neg hne]
    exact le_top

end Crossed

end ArityTries.Bitmap

namespace ArityArrays.GappedArray

open ArityTries Checked Function

variable {T : Type} {A : Arity}

/-! ## Placements -/

/-- The indices whose element stands in another slot afterwards. -/
def displaced (m : ChildMap A.LEN T) (inner inner' : Inner T A) :
    Finset A.Index :=
  m.present.filter fun j => slotAt inner' j ≠ slotAt inner j

/-- Where the elements are after a new one was placed at `i`, between the slots
`lo` and `hi` of its neighbours.  With a free slot between these it goes to the
least one.  Otherwise the elements up to the nearer of the two nearest holes
move toward it by one slot, those on the left on ties. -/
structure Cheapest (m : ChildMap A.LEN T) (inner inner' : Inner T A)
    (i : A.Index) (lo : ℤ) (hi : ℕ) : Prop where
  between : (∃ q : A.Index, lo < q ∧ q.val < hi ∧ q ∉ inner.live) →
    displaced m inner inner' = ∅ ∧ ∃ hole : A.Index,
      slotAt inner' i = hole ∧ hole ∉ inner.live ∧ lo < hole ∧ hole.val < hi ∧
      ∀ q : A.Index, lo < q → q < hole → q ∈ inner.live
  cost : (∀ q : A.Index, lo < q → q.val < hi → q ∈ inner.live) →
    ((displaced m inner inner').card : ℕ∞) =
      min (Bitmap.crossedBelow inner.live hi)
        (Bitmap.crossedAbove inner.live hi inner.capacity)
  left : (∀ q : A.Index, lo < q → q.val < hi → q ∈ inner.live) →
    Bitmap.crossedBelow inner.live hi ≤
        Bitmap.crossedAbove inner.live hi inner.capacity →
      ∃ hole, Bitmap.NearestBelow inner.live hi hole ∧
        slotAt inner' i + 1 = hi ∧
        ∀ j ∈ m.present,
          if hole < slotAt inner j ∧ slotAt inner j < hi then
            slotAt inner' j + 1 = slotAt inner j
          else slotAt inner' j = slotAt inner j
  right : (∀ q : A.Index, lo < q → q.val < hi → q ∈ inner.live) →
    Bitmap.crossedAbove inner.live hi inner.capacity <
        Bitmap.crossedBelow inner.live hi →
      ∃ hole, Bitmap.NearestAbove inner.live hi inner.capacity hole ∧
        slotAt inner' i = hi ∧
        ∀ j ∈ m.present,
          if hi ≤ slotAt inner j ∧ slotAt inner j < hole then
            slotAt inner' j = slotAt inner j + 1
          else slotAt inner' j = slotAt inner j

section Placement

variable {inner inner' : Inner T A} {m : ChildMap A.LEN T}
variable {pos pos' : A.Index → ℕ} {i : A.Index} {v : T}

/-- As many present indices as live slots have a property of their slots. -/
theorem Laid.card_filter (h : Laid inner m pos) (P : ℕ → Prop)
    [DecidablePred P] :
    (m.present.filter fun j => P (pos j)).card =
      (inner.live.filter fun p => P p.val).card := by
  have himage : (m.present.filter fun j => P (pos j)).image pos =
      (inner.live.filter fun p => P p.val).image Fin.val := by
    ext p
    simp only [Finset.mem_image, Finset.mem_filter]
    constructor
    · rintro ⟨j, ⟨hj, hP⟩, rfl⟩
      exact ⟨⟨pos j, h.pos_lt_LEN hj⟩, ⟨h.mem_live.mpr ⟨j, hj, rfl⟩, hP⟩, rfl⟩
    · rintro ⟨q, ⟨hq, hP⟩, rfl⟩
      obtain ⟨j, hj, hpos⟩ := h.mem_live.mp hq
      exact ⟨j, ⟨hj, hpos ▸ hP⟩, hpos⟩
  have hinj : Set.InjOn pos (m.present.filter fun j => P (pos j)) := by
    intro j hj k hk hjk
    rw [Finset.mem_coe, Finset.mem_filter] at hj hk
    exact h.placed.injective hj.1 hk.1 hjk
  rw [← Finset.card_image_of_injOn hinj, himage,
    Finset.card_image_of_injective _ Fin.val_injective]

theorem Laid.card_displaced (h : Laid inner m (slotAt inner)) (P : ℕ → Prop)
    [DecidablePred P] (hP : ∀ j ∈ m.present,
      slotAt inner' j ≠ slotAt inner j ↔ P (slotAt inner j)) :
    (displaced m inner inner').card =
      (inner.live.filter fun p => P p.val).card := by
  rw [displaced, Finset.filter_congr hP, h.card_filter P]

/-- The slots after a new element was placed and the others settled in
`pos`. -/
theorem Laid.slotAt_update {p : ℕ} (h : Laid inner' (m.set i v) (update pos i p))
    (hi : m.get i = none) :
    slotAt inner' i = p ∧ ∀ j ∈ m.present, slotAt inner' j = pos j := by
  refine ⟨?_, fun j hj => ?_⟩
  · rw [h.slotAt_eq (by simp), update_self]
  · have hne : j ≠ i := by
      rintro rfl
      rw [← ChildMap.notMem_present] at hi
      exact hi hj
    have hmem : j ∈ (m.set i v).present := by
      rw [ChildMap.present_set]
      exact Finset.mem_insert_of_mem hj
    rw [h.slotAt_eq hmem, update_of_ne hne]

theorem shiftedLeft_spec (pos : A.Index → ℕ) {hole hi : ℕ} (hlt : hole < hi)
    (j : A.Index) :
    if hole < pos j ∧ pos j < hi then shiftedLeft hole hi pos j + 1 = pos j
    else shiftedLeft hole hi pos j = pos j := by
  unfold shiftedLeft Placed.moved
  split_ifs <;> omega

theorem shiftedRight_spec (pos : A.Index → ℕ) {hole hi : ℕ} (hle : hi ≤ hole)
    (j : A.Index) :
    if hi ≤ pos j ∧ pos j < hole then shiftedRight hi hole pos j = pos j + 1
    else shiftedRight hi hole pos j = pos j := by
  unfold shiftedRight Placed.moved
  split_ifs <;> omega

variable {lo : ℤ} {hi : ℕ}

/-- What was chosen is the cheapest placement. -/
theorem Laid.cheapest (h : Laid inner m (slotAt inner))
    (h' : Laid inner' (m.set i v) pos') (hi' : m.get i = none)
    (hb : Between m (slotAt inner) inner.capacity i lo hi)
    (hc : Choice inner.live inner.capacity (slotAt inner) i lo hi pos') :
    Cheapest m inner inner' i lo hi := by
  have hcap := hb.hi_le.trans h.le
  cases hc with
  | between hole free above below least =>
      obtain ⟨hself, hothers⟩ := h'.slotAt_update hi'
      refine ⟨fun _ => ⟨?_, hole, hself, free, above, by omega, least⟩,
        fun hrun => ?_, fun hrun => ?_, fun hrun => ?_⟩
      · exact Finset.filter_eq_empty_iff.mpr fun j hj => by simp [hothers j hj]
      all_goals exact absurd (hrun hole above (by omega)) free
  | left hole free below adjacent run cost =>
      obtain ⟨hself, hothers⟩ := h'.slotAt_update hi'
      have hnear : Bitmap.NearestBelow inner.live hi hole := ⟨free, below, run⟩
      have hle : Bitmap.crossedBelow inner.live hi ≤
          Bitmap.crossedAbove inner.live hi inner.capacity := by
        rw [hnear.crossed, hnear.card_crossed hcap]
        exact Bitmap.le_crossedAbove cost
      refine ⟨?_, fun _ => ?_, fun _ _ => ⟨hole, hnear, by omega, ?_⟩,
        fun _ hlt => absurd hlt (not_lt.mpr hle)⟩
      · rintro ⟨q, hq, hqhi, -⟩
        omega
      · rw [min_eq_left hle, hnear.crossed, h.card_displaced
          (fun p => hole.val < p ∧ p < hi) fun j hj => ?_]
        · rfl
        · have hspec := shiftedLeft_spec (slotAt inner) below j
          rw [hothers j hj]
          split_ifs at hspec <;> omega
      · intro j hj
        rw [hothers j hj]
        exact shiftedLeft_spec _ below j
  | right hole free above inside adjacent run cost =>
      obtain ⟨hself, hothers⟩ := h'.slotAt_update hi'
      have hnear : Bitmap.NearestAbove inner.live hi inner.capacity hole :=
        ⟨free, above, inside, run⟩
      have hlt : Bitmap.crossedAbove inner.live hi inner.capacity <
          Bitmap.crossedBelow inner.live hi := by
        rw [hnear.crossed, hnear.card_crossed]
        exact Bitmap.lt_crossedBelow hcap cost
      refine ⟨?_, fun _ => ?_, fun _ hle => absurd hlt (not_lt.mpr hle),
        fun _ _ => ⟨hole, hnear, hself, ?_⟩⟩
      · rintro ⟨q, hq, hqhi, -⟩
        omega
      · rw [min_eq_right hlt.le, hnear.crossed, h.card_displaced
          (fun p => hi ≤ p ∧ p < hole.val) fun j hj => ?_]
        · rfl
        · have hspec := shiftedRight_spec (slotAt inner) above j
          rw [hothers j hj]
          split_ifs at hspec <;> omega
      · intro j hj
        rw [hothers j hj]
        exact shiftedRight_spec _ above j

theorem insert_of_absent (hocc : Bitmap.test inner.occupancy i = false)
    (hroom : Bitmap.countOnes inner.occupancy ≠ inner.capacity) :
    insert ⟨some inner⟩ i v = placeAbsent ⟨some inner⟩ i v >>= fun g =>
      .ok (none, g) := by
  simp [insert, hocc, hroom]

end Placement

/-- An insertion of an absent index into a valid block that is not full keeps
the block and takes the cheapest placement, so no element is ever spread anew.
A removal keeps the block and moves no element. -/
theorem placement_cheapest {inner : Inner T A} {m : ChildMap A.LEN T}
    (h : Valid inner m) :
    (∀ i v, m.get i = none → m.count < inner.capacity →
      ∃ inner' lo hi,
        insert ⟨some inner⟩ i v = .ok (none, ⟨some inner'⟩) ∧
        Valid inner' (m.set i v) ∧ KeepsBlock ⟨some inner⟩ ⟨some inner'⟩ ∧
        Between m (slotAt inner) inner.capacity i lo hi ∧
        Cheapest m inner inner' i lo hi) ∧
    ∀ i, ∃ inner', remove ⟨some inner⟩ i = .ok (m.get i, ⟨some inner'⟩) ∧
      Valid inner' (m.erase i) ∧ KeepsBlock ⟨some inner⟩ ⟨some inner'⟩ ∧
      ∀ j ∈ (m.erase i).present, slotAt inner' j = slotAt inner j := by
  have hlaid := h.laid
  refine ⟨fun i v hi hroom => ?_, fun i => ?_⟩
  · obtain ⟨inner', pos', lo, hi', hplace, hlaid', hcap, hblock, hb, hc⟩ :=
      hlaid.placeAbsent hi hroom v
    have hcount : Bitmap.countOnes inner.occupancy = m.count := by
      rw [h.occupancy_eq, ChildMap.countOnes_present]
    refine ⟨inner', lo, hi', ?_, hlaid'.valid, keepsBlock_of_some rfl hcap hblock,
      hb, hlaid.cheapest hlaid' hi hb hc⟩
    rw [insert_of_absent (by rw [hlaid.test_eq, hi]; rfl) (by omega), hplace]
    rfl
  · obtain ⟨inner', hremove, hlaid', hcap, hblock⟩ :=
      remove_of_laid (g := ⟨some inner⟩) rfl hlaid i
    exact ⟨inner', hremove, hlaid'.valid, keepsBlock_of_some rfl hcap hblock,
      fun j hj => hlaid'.slotAt_eq hj⟩

/-- Two elements in the first two of four slots. -/
def crowded : Inner ℕ .arity8 :=
  ⟨{1, 4}, {0, 1}, 2, ⟨4, fun p =>
    if p = 0 then some 5 else if p = 1 then some 6 else none⟩, 0⟩

/-- An element between two adjacent ones, with holes above these only. -/
theorem placement_cheapest_crowded :
    ∃ inner', insert ⟨some crowded⟩ 2 7 = .ok (none, ⟨some inner'⟩) ∧
      slotAt inner' 1 = 0 ∧ slotAt inner' 2 = 1 ∧ slotAt inner' 4 = 2 := by
  have hlaid : Laid crowded (ChildMap.ofEntries [(1, 5), (4, 6)])
      fun i => if i = 1 then 0 else 1 := by
    refine ⟨by decide, by decide, ⟨by decide, by decide, by decide, ?_⟩, rfl,
      by decide⟩
    intro p hp
    have h0 := hp 1 (by decide)
    have h1 := hp 4 (by decide)
    simp at h0 h1
    simp [crowded, Ne.symm h0, Ne.symm h1]
  obtain ⟨inner', lo, hi, hinsert, -, -, hb, hc⟩ :=
    (placement_cheapest hlaid.valid).1 2 7 (by decide) (by decide)
  have hlo : lo = 0 := by
    have hle : (0 : ℤ) ≤ lo := hb.lower 1 (by decide) (by decide)
    have hslot : ∀ j ∈ (ChildMap.ofEntries [(1, 5), (4, 6)]).present, j < 2 →
        slotAt crowded j = 0 := by decide
    rcases hb.lo_eq with hneg | ⟨j, hj, hlt, hlo⟩
    · omega
    · rw [← hlo, hslot j hj hlt]
      rfl
  have hhi : hi = 1 := by
    have hle : hi ≤ 1 := hb.upper 4 (by decide) (by decide)
    have hlt := hb.lo_lt
    omega
  subst hlo hhi
  have habove : Bitmap.NearestAbove crowded.live 1 crowded.capacity 2 :=
    ⟨by decide, by decide, by decide, by decide⟩
  have hbelow : Bitmap.crossedBelow crowded.live 1 = ⊤ := dif_neg (by decide)
  obtain ⟨hole, hnear, hself, hothers⟩ := hc.right (by decide) (by
    rw [hbelow, habove.crossed]
    exact ENat.natCast_lt_top _)
  obtain rfl := hnear.unique habove
  exact ⟨inner', hinsert, hothers 1 (by decide), hself, hothers 4 (by decide)⟩

end ArityArrays.GappedArray
