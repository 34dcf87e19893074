import ArityArrays.Arrays.Gapped.Layout

/-!
# Placing a new element

With a spare slot in the block, a new element goes between the slots of its
neighbours by rank.  If those are adjacent, the elements up to the nearest hole
on one side move by one slot.  The rebuilding arm of the code is never reached.
-/

namespace ArityArrays.GappedArray

open ArityTries Checked Function

variable {T : Type} {A : Arity}

/-! ## Neighbours -/

/-- The slots around a new element: those of its neighbours by rank, or the
sentinels `-1` and `cap`. -/
structure Between (m : ChildMap A.LEN T) (pos : A.Index → ℕ) (cap : ℕ)
    (i : A.Index) (lo : ℤ) (hi : ℕ) : Prop where
  lower : ∀ j ∈ m.present, j < i → (pos j : ℤ) ≤ lo
  upper : ∀ j ∈ m.present, i < j → hi ≤ pos j
  lo_eq : lo = -1 ∨ ∃ j ∈ m.present, j < i ∧ (pos j : ℤ) = lo
  hi_eq : hi = cap ∨ ∃ j ∈ m.present, i < j ∧ pos j = hi
  lo_lt : lo < hi
  hi_le : hi ≤ cap

section Neighbours

variable {inner : Inner T A} {m : ChildMap A.LEN T} {pos : A.Index → ℕ}
variable {i : A.Index}

/-- The predecessor by rank of an absent index. -/
theorem select_pred {b : Bitmap A.LEN} (hr : Bitmap.rank b i ≠ 0) :
    ∃ j, Bitmap.select b (Bitmap.rank b i - 1) = some j ∧ j ∈ b ∧ j < i ∧
      ∀ k ∈ b, k < i → k ≤ j := by
  have hle := Bitmap.rank_le_countOnes b i
  obtain ⟨j, hj⟩ := Bitmap.exists_select (b := b)
    (k := Bitmap.rank b i - 1) (by omega)
  obtain ⟨hjb, hrank⟩ := Bitmap.select_eq_some.mp hj
  refine ⟨j, hj, hjb, Bitmap.lt_of_rank_lt (b := b) (by omega), ?_⟩
  intro k hk hki
  have hlt := Bitmap.rank_lt_rank hk hki
  by_contra hjk
  have := Bitmap.rank_lt_rank hjb (not_le.mp hjk)
  omega

/-- The successor by rank of an absent index. -/
theorem select_succ {b : Bitmap A.LEN} (hi : i ∉ b)
    (hr : Bitmap.rank b i ≠ Bitmap.countOnes b) :
    ∃ j, Bitmap.select b (Bitmap.rank b i) = some j ∧ j ∈ b ∧ i < j ∧
      ∀ k ∈ b, i < k → j ≤ k := by
  have hle := Bitmap.rank_le_countOnes b i
  obtain ⟨j, hj⟩ := Bitmap.exists_select (b := b) (k := Bitmap.rank b i)
    (by omega)
  obtain ⟨hjb, hrank⟩ := Bitmap.select_eq_some.mp hj
  have hne : j ≠ i := by
    rintro rfl
    exact hi hjb
  refine ⟨j, hj, hjb, ?_, ?_⟩
  · by_contra hij
    have := Bitmap.rank_lt_rank hjb (lt_of_le_of_ne (not_lt.mp hij) hne)
    omega
  · intro k hk hik
    have := Bitmap.rank_mono b hik.le
    by_contra hjk
    have := Bitmap.rank_lt_rank hk (not_le.mp hjk)
    omega

theorem rank_eq_zero {b : Bitmap A.LEN} (hr : Bitmap.rank b i = 0)
    {j : A.Index} (hj : j ∈ b) : ¬j < i := by
  intro hji
  have := Bitmap.rank_lt_rank hj hji
  omega

theorem rank_eq_countOnes {b : Bitmap A.LEN}
    (hr : Bitmap.rank b i = Bitmap.countOnes b) {j : A.Index} (hj : j ∈ b) :
    ¬i < j := by
  intro hij
  have hle := Bitmap.rank_mono b hij.le
  have := Bitmap.rank_lt_countOnes hj
  omega

theorem u32TryFrom_rank (b : Bitmap A.LEN) (i : A.Index) {k : ℕ}
    (hk : k ≤ Bitmap.rank b i) : u32TryFrom k = some k := by
  have hrank := Bitmap.rank_le_countOnes b i
  have hcount := Bitmap.countOnes_le b
  have hlen := A.LEN_le
  exact u32TryFrom_of_lt (by omega)

theorem Laid.lowerNeighbor_eq (h : Laid inner m pos) (i : A.Index) :
    ∃ lo, lowerNeighbor inner.occupancy inner.live i = .ok lo ∧
      (∀ j ∈ m.present, j < i → (pos j : ℤ) ≤ lo) ∧
      (lo = -1 ∨ ∃ j ∈ m.present, j < i ∧ (pos j : ℤ) = lo) := by
  unfold lowerNeighbor
  rw [h.occupancy]
  by_cases hr : Bitmap.rank m.present i = 0
  · exact ⟨-1, by simp [hr], fun j hj hji => absurd hji (rank_eq_zero hr hj),
      Or.inl rfl⟩
  · obtain ⟨j, hj, hjm, hji, hmax⟩ := select_pred hr
    obtain ⟨p, hp, hpos⟩ := h.exists_select hj
    refine ⟨p, ?_, ?_, Or.inr ⟨j, hjm, hji, by rw [hpos]⟩⟩
    · simp [hr, hp, u32TryFrom_rank m.present i (Nat.sub_le _ 1)]
    · intro k hk hki
      rw [hpos]
      rcases (hmax k hk hki).lt_or_eq with hkj | rfl
      · exact_mod_cast (h.placed.mono k hk j hjm hkj).le
      · exact le_rfl

theorem Laid.upperNeighbor_eq (h : Laid inner m pos) (hi : i ∉ m.present) :
    ∃ hi, upperNeighbor inner.occupancy inner.live inner.capacity
        (Bitmap.countOnes inner.occupancy) i = .ok hi ∧
      (∀ j ∈ m.present, i < j → hi ≤ pos j) ∧
      (hi = inner.capacity ∨ ∃ j ∈ m.present, i < j ∧ pos j = hi) := by
  unfold upperNeighbor
  rw [h.occupancy]
  by_cases hr : Bitmap.rank m.present i = Bitmap.countOnes m.present
  · exact ⟨_, by simp [hr],
      fun j hj hij => absurd hij (rank_eq_countOnes hr hj), Or.inl rfl⟩
  · obtain ⟨j, hj, hjm, hij, hmin⟩ := select_succ hi hr
    obtain ⟨p, hp, hpos⟩ := h.exists_select hj
    refine ⟨p, ?_, ?_, Or.inr ⟨j, hjm, hij, hpos.symm⟩⟩
    · simp [hr, hp, u32TryFrom_rank m.present i le_rfl]
    · intro k hk hik
      rw [hpos]
      rcases (hmin k hk hik).lt_or_eq with hjk | rfl
      · exact (h.placed.mono j hjm k hk hjk).le
      · exact le_rfl

/-- The bounds the code computes are the slots of the neighbours. -/
theorem Laid.neighborBounds_eq (h : Laid inner m pos) (hi : i ∉ m.present) :
    ∃ lo hi, neighborBounds inner.occupancy inner.live inner.capacity
        (Bitmap.countOnes inner.occupancy) i = .ok (lo, hi) ∧
      Between m pos inner.capacity i lo hi := by
  obtain ⟨lo, hlo, hlower, hloeq⟩ := h.lowerNeighbor_eq i
  obtain ⟨hi', hhi, hupper, hhieq⟩ := h.upperNeighbor_eq hi
  have hcap : ∀ j ∈ m.present, pos j < inner.capacity := fun j => h.pos_lt
  refine ⟨lo, hi', ?_, hlower, hupper, hloeq, hhieq, ?_, ?_⟩
  · simp [neighborBounds, hlo, hhi]
  · rcases hloeq with rfl | ⟨j, hj, hji, rfl⟩
    · omega
    · rcases hhieq with rfl | ⟨k, hk, hik, rfl⟩
      · exact_mod_cast hcap j hj
      · exact_mod_cast h.placed.mono j hj k hk (hji.trans hik)
  · rcases hhieq with rfl | ⟨k, hk, -, rfl⟩
    · exact le_rfl
    · exact (hcap k hk).le

/-- Nothing is live strictly between the neighbours. -/
theorem Between.not_live {lo : ℤ} {hi : ℕ}
    (hb : Between m pos inner.capacity i lo hi) (h : Laid inner m pos)
    (hi' : i ∉ m.present) {p : A.Index} (hlo : lo < p) (hhi : p < hi) :
    p ∉ inner.live := by
  intro hp
  obtain ⟨j, hj, hpos⟩ := h.mem_live.mp hp
  rcases lt_trichotomy j i with hji | rfl | hij
  · have := hb.lower j hj hji
    omega
  · exact hi' hj
  · have := hb.upper j hj hij
    omega

end Neighbours

/-! ## The three placements -/

section Place

variable {inner : Inner T A} {m : ChildMap A.LEN T} {pos : A.Index → ℕ}
variable {i : A.Index}

/-- Writing the new element to a free slot between the slots of its
neighbours, after the others settled in `pos`. -/
theorem laid_of_write {data : Block T} {live : Bitmap A.LEN} (hole : ℕ)
    {filled : A.Index} (hocc : inner.occupancy = m.present)
    (hplaced : Placed m data pos) (hi : i ∉ m.present)
    (hcap : data.cap = inner.capacity) (hle : inner.capacity ≤ A.LEN)
    (hhole : hole < inner.capacity)
    (hlower : ∀ j ∈ m.present, j < i → pos j < hole)
    (hupper : ∀ j ∈ m.present, i < j → hole < pos j)
    (hlive : ∀ p : A.Index, p ∈ Bitmap.withBit live filled ↔
      p.val = hole ∨ (data.slot p).isSome) (v : T) :
    data.write hole v = .ok { data with
      slot := update data.slot hole (some v) } ∧
    Laid { inner with
      occupancy := Bitmap.withBit inner.occupancy i
      live := Bitmap.withBit live filled
      data := { data with slot := update data.slot hole (some v) } }
      (m.set i v) (update pos i hole) := by
  have hfree : data.slot hole = none := by
    refine hplaced.free hole fun j hj hpos => ?_
    rcases lt_trichotomy j i with hji | rfl | hij
    · exact absurd (hlower j hj hji) (by omega)
    · exact hi hj
    · exact absurd (hupper j hj hij) (by omega)
  refine ⟨Block.write_of_free (by omega) hfree v, ?_, ?_,
    hplaced.insert hi (by omega) hlower hupper v, hcap, hle⟩
  · rw [ChildMap.present_set, hocc]
    rfl
  · intro p
    rw [hlive]
    by_cases hp : p.val = hole
    · simp [hp]
    · simp [hp]

theorem Laid.writeIntoHole (h : Laid inner m pos) (hi : i ∉ m.present)
    {hole : A.Index} (hfree : hole ∉ inner.live)
    (hcap : hole < inner.capacity)
    (hlower : ∀ j ∈ m.present, j < i → pos j < hole)
    (hupper : ∀ j ∈ m.present, i < j → hole < pos j) (v : T) :
    ∃ inner', GappedArray.writeIntoHole inner i hole v = .ok inner' ∧
      Laid inner' (m.set i v) (update pos i hole) ∧
      inner'.capExp = inner.capExp ∧ inner'.block = inner.block := by
  have hlive : ∀ p : A.Index, p ∈ Bitmap.withBit inner.live hole ↔
      p.val = hole.val ∨ (inner.data.slot p).isSome := by
    intro p
    rw [Bitmap.mem_withBit, h.live, Fin.ext_iff]
  obtain ⟨hwrite, hlaid⟩ := laid_of_write hole h.occupancy h.placed hi
    h.cap h.le hcap hlower hupper hlive v
  have hassert : ¬Bitmap.test inner.live hole = true := by
    simpa [Bitmap.test] using hfree
  simp only [GappedArray.writeIntoHole, tryFromUsize_of_lt hole.isLt, Fin.eta,
    expect_some, ok_bind, debugAssert_of hassert, hwrite, pure_eq_ok]
  exact ⟨_, rfl, hlaid, rfl, rfl⟩

section Shift

variable {hole : A.Index} {hi' : ℕ}

/-- Where the others go when the run `(hole, hi')` shifts down. -/
abbrev shiftedLeft (hole hi' : ℕ) (pos : A.Index → ℕ) : A.Index → ℕ :=
  Placed.moved (hole + 1) hole (hi' - hole - 1) pos

/-- Where the others go when the run `[hi', hole)` shifts up. -/
abbrev shiftedRight (hi' hole : ℕ) (pos : A.Index → ℕ) : A.Index → ℕ :=
  Placed.moved hi' (hi' + 1) (hole - hi') pos

theorem Laid.pos_ne_hole (h : Laid inner m pos) (hfree : hole ∉ inner.live)
    {j : A.Index} (hj : j ∈ m.present) : pos j ≠ hole :=
  fun hpos => hfree (h.mem_live.mpr ⟨j, hj, hpos⟩)

/-- A full run of `k` slots with the hole at one end slides onto the hole, which
frees `target` at the run's other end. -/
theorem Laid.slideRun (h : Laid inner m pos) (hfree : hole ∉ inner.live)
    {src dst k target : ℕ}
    (hends : src = hole + 1 ∧ dst = hole ∧ target = hole + k ∨
      src = target ∧ dst = target + 1 ∧ hole.val = target + k)
    (hcap : hole < inner.capacity) (htarget : target < inner.capacity)
    (hrun : ∀ q : A.Index, src ≤ q → q < src + k → q ∈ inner.live) :
    inner.data.moveWithin src dst k = .ok (inner.data.slide src dst k) ∧
    Placed m (inner.data.slide src dst k) (Placed.moved src dst k pos) ∧
    ∀ p : A.Index, p ∈ Bitmap.withBit inner.live hole ↔
      p.val = target ∨ ((inner.data.slide src dst k).slot p).isSome := by
  have hholefree : inner.data.slot hole = none := by
    rw [← Option.not_isSome_iff_eq_none, ← h.live]
    exact hfree
  have hsome : ∀ q, src ≤ q → q < src + k →
      (inner.data.slot q).isSome := by
    intro q hlo hhi
    have hle := h.le
    exact (h.live ⟨q, by omega⟩).mp (hrun ⟨q, by omega⟩ hlo hhi)
  obtain ⟨hmove, hplaced⟩ := h.placed.moveWithin src dst k
    (by rw [h.cap]; omega) hsome
    (fun q hlo hhi hout => by
      obtain rfl : q = hole := by omega
      exact hholefree)
    (fun i hi j hj hij => by
      have hpos := h.placed.mono i hi j hj hij
      have hine := h.pos_ne_hole hfree hi
      have hjne := h.pos_ne_hole hfree hj
      unfold Placed.moved
      split_ifs <;> omega)
  refine ⟨hmove, hplaced, fun p => ?_⟩
  rw [Bitmap.mem_withBit, h.live, Fin.ext_iff]
  simp only [Block.slide]
  by_cases hin : p.val = hole ∨ src ≤ p ∧ p < src + k
  · -- live with the hole counted in, and after the slide all but `target`
    have hbefore : p.val = hole.val ∨ (inner.data.slot p).isSome :=
      hin.imp_right fun hp => hsome p hp.1 hp.2
    refine iff_of_true hbefore ?_
    by_cases hp : p.val = target
    · exact Or.inl hp
    · rw [if_pos (by omega)]
      exact Or.inr (hsome _ (by omega) (by omega))
  · rw [if_neg (by omega), if_neg (by omega)]
    have hne : p.val ≠ hole.val := by omega
    have hne' : p.val ≠ target := by omega
    simp [hne, hne']

theorem Laid.shiftLeft (h : Laid inner m pos) (hi : i ∉ m.present)
    (hfree : hole ∉ inner.live) (hlt : hole < hi')
    (hcap : hi' ≤ inner.capacity)
    (hrun : ∀ q : A.Index, hole < q → q.val < hi' → q ∈ inner.live)
    (hlower : ∀ j ∈ m.present, j < i → pos j < hi')
    (hupper : ∀ j ∈ m.present, i < j → hi' ≤ pos j) (v : T) :
    ∃ inner', shiftLeftAndWrite inner i hole hi' v = .ok inner' ∧
      Laid inner' (m.set i v)
        (update (shiftedLeft hole hi' pos) i (hi' - 1)) ∧
      inner'.capExp = inner.capExp ∧ inner'.block = inner.block := by
  obtain ⟨hmove, hplaced, hlive⟩ := h.slideRun hfree
    (Or.inl ⟨rfl, rfl, (show hi' - 1 = hole + (hi' - hole - 1) by omega)⟩)
    (by omega) (by omega)
    (fun q hlo hhi => hrun q (Nat.lt_of_succ_le hlo) (by omega))
  obtain ⟨hwrite, hlaid⟩ := laid_of_write (hi' - 1) h.occupancy hplaced
    hi h.cap h.le (by omega)
    (fun j hj hji => by
      have := hlower j hj hji
      have := h.pos_ne_hole hfree hj
      unfold Placed.moved
      split_ifs <;> omega)
    (fun j hj hij => by
      have := hupper j hj hij
      unfold Placed.moved
      split_ifs <;> omega)
    hlive v
  simp only [shiftLeftAndWrite, usizeSub_of_le hlt.le,
    usizeSub_of_le (show 1 ≤ hi' - hole.val by omega),
    usizeSub_of_le (show 1 ≤ hi' by omega), hmove, hwrite,
    tryFromUsize_of_lt hole.isLt, Fin.eta, expect_some, ok_bind, pure_eq_ok]
  exact ⟨_, rfl, hlaid, rfl, rfl⟩

theorem Laid.shiftRight (h : Laid inner m pos) (hi : i ∉ m.present)
    (hfree : hole ∉ inner.live) (hle' : hi' ≤ hole)
    (hcap : hole < inner.capacity)
    (hrun : ∀ q : A.Index, hi' ≤ q → q < hole → q ∈ inner.live)
    (hlower : ∀ j ∈ m.present, j < i → pos j < hi')
    (hupper : ∀ j ∈ m.present, i < j → hi' ≤ pos j) (v : T) :
    ∃ inner', shiftRightAndWrite inner i hi' hole v = .ok inner' ∧
      Laid inner' (m.set i v)
        (update (shiftedRight hi' hole pos) i hi') ∧
      inner'.capExp = inner.capExp ∧ inner'.block = inner.block := by
  obtain ⟨hmove, hplaced, hlive⟩ := h.slideRun hfree
    (Or.inr ⟨rfl, rfl, (show hole.val = hi' + (hole - hi') by omega)⟩)
    hcap (by omega)
    (fun q hlo hhi => hrun q hlo (Fin.lt_def.mpr (by omega)))
  obtain ⟨hwrite, hlaid⟩ := laid_of_write hi' h.occupancy hplaced
    hi h.cap h.le (by omega)
    (fun j hj hji => by
      have := hlower j hj hji
      unfold Placed.moved
      split_ifs <;> omega)
    (fun j hj hij => by
      have := hupper j hj hij
      have := h.pos_ne_hole hfree hj
      unfold Placed.moved
      split_ifs <;> omega)
    hlive v
  simp only [shiftRightAndWrite, usizeSub_of_le hle', hmove, hwrite,
    tryFromUsize_of_lt hole.isLt, Fin.eta, expect_some, ok_bind, pure_eq_ok]
  exact ⟨_, rfl, hlaid, rfl, rfl⟩

end Shift

end Place

/-! ## Holes -/

section Holes

/-- A run of set positions is no longer than the bitmap's count. -/
theorem run_le_countOnes {n : ℕ} {b : Bitmap n} {s k : ℕ} (hs : s + k ≤ n)
    (hrun : ∀ q : Fin n, s ≤ q.val → q.val < s + k → q ∈ b) :
    k ≤ Bitmap.countOnes b := by
  have hcard := Finset.card_le_card_of_injOn
    (s := (Finset.univ : Finset (Fin k))) (t := b)
    (fun q => (⟨s + q.val, by omega⟩ : Fin n))
    (fun q _ => hrun _ (Nat.le_add_right _ _) (by simp))
    (fun p _ q _ hpq => Fin.ext (by simpa using hpq))
  simpa [Bitmap.countOnes] using hcard

variable (live : Bitmap A.LEN)

theorem nearestHoleLeft_spec (lo : ℤ) (hlo : lo < A.LEN) :
    (∃ hole : A.Index,
        nearestHoleLeft live lo = .ok (some (hole.val, lo.toNat - hole)) ∧
        hole ∉ live ∧ (hole : ℤ) ≤ lo ∧
        ∀ q : A.Index, hole < q → (q : ℤ) ≤ lo → q ∈ live) ∨
      nearestHoleLeft live lo = .ok none ∧
        ∀ q : A.Index, (q : ℤ) ≤ lo → q ∈ live := by
  by_cases hneg : lo < 0
  · exact Or.inr ⟨by simp [nearestHoleLeft, hneg], fun q hq => by omega⟩
  · rcases Bitmap.nearestClearAtOrBelow_spec live lo.toNat
      (by omega) with
      ⟨hole, heq, hle, hfree, hrun⟩ | ⟨heq, hrun⟩
    · refine Or.inl ⟨hole, ?_, hfree, by omega, fun q hq hqlo =>
        hrun q hq (by omega)⟩
      simp [nearestHoleLeft, hneg, heq, usizeSub_of_le hle]
    · exact Or.inr ⟨by simp [nearestHoleLeft, hneg, heq],
        fun q hq => hrun q (by omega)⟩

theorem nearestHoleRight_spec {hi cap : ℕ} (hhi : hi ≤ cap)
    (hcap : cap ≤ A.LEN) :
    (∃ hole : A.Index,
        nearestHoleRight live hi cap = .ok (some (hole.val, hole - hi)) ∧
        hole ∉ live ∧ hi ≤ hole ∧ hole < cap ∧
        ∀ q : A.Index, hi ≤ q → q < hole → q ∈ live) ∨
      nearestHoleRight live hi cap = .ok none ∧
        ∀ q : A.Index, hi ≤ q → q < cap → q ∈ live := by
  rcases Bitmap.nearestClearIn_spec live hi cap hhi hcap with
    ⟨hole, heq, hle, hlt, hfree, hrun⟩ | ⟨heq, hrun⟩
  · refine Or.inl ⟨hole, ?_, hfree, hle, hlt, fun q hq hqh => hrun q hq hqh⟩
    simp [nearestHoleRight, heq, usizeSub_of_le hle]
  · exact Or.inr ⟨by simp [nearestHoleRight, heq], hrun⟩

end Holes

/-! ## The choice -/

/-- The slots after placing the new element `i` between `lo` and `hi`: it goes
to the least hole between its neighbours, and if there is none the nearer of
the two runs next to it moves toward its hole, the left one on ties. -/
inductive Choice (live : Bitmap A.LEN) (cap : ℕ) (pos : A.Index → ℕ)
    (i : A.Index) (lo : ℤ) (hi : ℕ) : (A.Index → ℕ) → Prop where
  | between (hole : A.Index) (free : hole ∉ live) (above : lo < hole)
      (below : hole < hi)
      (least : ∀ q : A.Index, lo < q → q < hole → q ∈ live) :
      Choice live cap pos i lo hi (update pos i hole)
  | left (hole : A.Index) (free : hole ∉ live) (below : hole < hi)
      (adjacent : (hi : ℤ) = lo + 1)
      (run : ∀ q : A.Index, hole < q → q.val < hi → q ∈ live)
      (cost : ∀ q : A.Index, hi ≤ q → q < cap → q ∉ live →
        hi - 1 - hole ≤ q - hi) :
      Choice live cap pos i lo hi (update (shiftedLeft hole hi pos) i (hi - 1))
  | right (hole : A.Index) (free : hole ∉ live) (above : hi ≤ hole)
      (inside : hole < cap) (adjacent : (hi : ℤ) = lo + 1)
      (run : ∀ q : A.Index, hi ≤ q → q < hole → q ∈ live)
      (cost : ∀ q : A.Index, q.val < hi → q ∉ live →
        hole - hi < hi - 1 - q) :
      Choice live cap pos i lo hi (update (shiftedRight hi hole pos) i hi)

section Choose

variable {inner : Inner T A} {m : ChildMap A.LEN T} {pos : A.Index → ℕ}
variable {i : A.Index}

/-- With adjacent neighbours the nearer run shifts; rebuilding never wins. -/
theorem Laid.placeAdjacent (h : Laid inner m pos) (hi' : i ∉ m.present)
    (hroom : m.count < inner.capacity) {lo : ℤ} {hi : ℕ}
    (hb : Between m pos inner.capacity i lo hi) (hadj : (hi : ℤ) = lo + 1)
    (g : GappedArray T A) (v : T) :
    ∃ inner' pos', g.placeAdjacent inner i v lo hi = .ok ⟨some inner'⟩ ∧
      Laid inner' (m.set i v) pos' ∧ inner'.capExp = inner.capExp ∧
      inner'.block = inner.block ∧
      Choice inner.live inner.capacity pos i lo hi pos' := by
  have hle := h.le
  have hlen := A.LEN_le
  have hhi := hb.hi_le
  have hcount := h.countOnes_live
  have hlower : ∀ j ∈ m.present, j < i → pos j < hi := by
    intro j hj hji
    have := hb.lower j hj hji
    omega
  rcases nearestHoleLeft_spec inner.live lo (by omega) with
    ⟨l, hl, hlfree, hlle, hlrun⟩ | ⟨hl, hlrun⟩
  · have hlrun' : ∀ q : A.Index, l < q → q.val < hi → q ∈ inner.live :=
      fun q hq hqhi => hlrun q hq (by omega)
    -- A shift crosses live elements only, so it costs at most `count`.
    have hlcost : lo.toNat - l ≤ Bitmap.countOnes inner.occupancy := by
      rw [← hcount]
      exact run_le_countOnes (s := l + 1) (by omega)
        fun q hq hqlo => hlrun q hq (by omega)
    obtain ⟨innerL, hshiftL, hlaidL, hcapL, hblockL⟩ := h.shiftLeft hi' hlfree
      (by omega) hhi hlrun' hlower hb.upper v
    rcases nearestHoleRight_spec inner.live hhi hle with
      ⟨r, hr, hrfree, hrle, hrlt, hrrun⟩ | ⟨hr, hrrun⟩
    · by_cases hcost : lo.toNat - l ≤ r - hi
      · refine ⟨innerL, _, ?_, hlaidL, hcapL, hblockL,
          .left l hlfree (by omega) hadj hlrun' ?_⟩
        · simp [GappedArray.placeAdjacent, hl, hr, hcost, hlcost, hshiftL]
        · intro q hq hqcap hqfree
          have hqr : ¬q < r := fun hqr => hqfree (hrrun q hq hqr)
          rw [Fin.lt_def] at hqr
          omega
      · have hrcost : r - hi ≤ Bitmap.countOnes inner.occupancy := by
          rw [← hcount]
          exact run_le_countOnes (s := hi) (by omega) fun q hq hqr =>
            hrrun q hq (Fin.lt_def.mpr (by omega))
        obtain ⟨innerR, hshiftR, hlaidR, hcapR, hblockR⟩ := h.shiftRight hi'
          hrfree hrle hrlt hrrun hlower hb.upper v
        refine ⟨innerR, _, ?_, hlaidR, hcapR, hblockR,
          .right r hrfree hrle hrlt hadj hrrun ?_⟩
        · simp [GappedArray.placeAdjacent, hl, hr, hcost, hrcost, hshiftR]
        · intro q hq hqfree
          have hlq : ¬l < q := fun hlq => hqfree (hlrun' q hlq hq)
          rw [Fin.lt_def] at hlq
          omega
    · have hmax : lo.toNat - l ≤ usizeMax := by
        unfold usizeMax
        omega
      refine ⟨innerL, _, ?_, hlaidL, hcapL, hblockL,
        .left l hlfree (by omega) hadj hlrun'
          fun q hq hqcap hqfree => absurd (hrrun q hq hqcap) hqfree⟩
      simp [GappedArray.placeAdjacent, hl, hr, hmax, hlcost, hshiftL]
  · rcases nearestHoleRight_spec inner.live hhi hle with
      ⟨r, hr, hrfree, hrle, hrlt, hrrun⟩ | ⟨hr, hrrun⟩
    · have hrcost : r - hi ≤ Bitmap.countOnes inner.occupancy := by
        rw [← hcount]
        exact run_le_countOnes (s := hi) (by omega) fun q hq hqr =>
          hrrun q hq (Fin.lt_def.mpr (by omega))
      have hmax : ¬usizeMax ≤ r - hi := by
        unfold usizeMax
        omega
      obtain ⟨innerR, hshiftR, hlaidR, hcapR, hblockR⟩ := h.shiftRight hi'
        hrfree hrle hrlt hrrun hlower hb.upper v
      refine ⟨innerR, _, ?_, hlaidR, hcapR, hblockR,
        .right r hrfree hrle hrlt hadj hrrun
          fun q hq hqfree => absurd (hlrun q (by omega)) hqfree⟩
      simp [GappedArray.placeAdjacent, hl, hr, hmax, hrcost, hshiftR]
    · -- Without a hole on either side the block would be full.
      have hfull := run_le_countOnes (b := inner.live) (s := 0)
        (k := inner.capacity) (by omega) fun q _ hq => by
          by_cases hqlo : (q : ℤ) ≤ lo
          · exact hlrun q hqlo
          · exact hrrun q (by omega) (by omega)
      rw [hcount, h.countOnes_occupancy] at hfull
      omega

/-- With room to spare, placing keeps the block and takes the cheapest of the
three placements. -/
theorem Laid.placeAbsent (h : Laid inner m pos) (hi : m.get i = none)
    (hroom : m.count < inner.capacity) (v : T) :
    ∃ inner' pos' lo hi, GappedArray.placeAbsent ⟨some inner⟩ i v =
        .ok ⟨some inner'⟩ ∧
      Laid inner' (m.set i v) pos' ∧ inner'.capExp = inner.capExp ∧
      inner'.block = inner.block ∧
      Between m pos inner.capacity i lo hi ∧
      Choice inner.live inner.capacity pos i lo hi pos' := by
  have hi' := ChildMap.notMem_present.mpr hi
  have hle := h.le
  obtain ⟨lo, hi, hbounds, hb⟩ := h.neighborBounds_eq hi'
  have hlo := hb.lo_lt
  have hhi := hb.hi_le
  have hsentinel : -1 ≤ lo := by
    rcases hb.lo_eq with rfl | ⟨j, -, -, rfl⟩ <;> omega
  rcases Bitmap.nearestClearIn_spec inner.live (lo + 1).toNat hi
    (by omega) (by omega) with
    ⟨hole, hbetween, habove, hbelow, hfree, hleast⟩ | ⟨hbetween, hfull⟩
  · obtain ⟨inner', hwrite, hlaid, hcap, hblock⟩ := h.writeIntoHole hi' hfree
      (by omega) (fun j hj hji => by
        have := hb.lower j hj hji
        omega)
      (fun j hj hij => by
        have := hb.upper j hj hij
        omega) v
    refine ⟨inner', _, lo, hi, ?_, hlaid, hcap, hblock, hb,
      .between hole hfree (by omega) hbelow
        fun q hq hqh => hleast q (by omega) hqh⟩
    simp [GappedArray.placeAbsent, hbounds, hbetween, hwrite]
  · have hadj : (hi : ℤ) = lo + 1 := by
      by_contra hne
      have hq : (lo + 1).toNat < A.LEN := by omega
      exact hb.not_live h hi' (p := ⟨(lo + 1).toNat, hq⟩)
        (by simp only []; omega) (by simp only []; omega)
        (hfull ⟨(lo + 1).toNat, hq⟩ le_rfl (by simp only []; omega))
    obtain ⟨inner', pos', hplace, hlaid, hcap, hblock, hchoice⟩ :=
      h.placeAdjacent hi' hroom hb hadj ⟨some inner⟩ v
    refine ⟨inner', pos', lo, hi, ?_, hlaid, hcap, hblock, hb, hchoice⟩
    simp [GappedArray.placeAbsent, hbounds, hbetween, hplace]

end Choose

end ArityArrays.GappedArray
