import ArityArrays.Arrays.Gapped.Layout

/-!
# Rebuilding a block

A rebuilt block spreads its elements evenly, in rank order.  One rebuild moves
the elements of the old block over, the other adds a new element on the way.
-/

namespace ArityArrays.GappedArray

open ArityTries Checked Function

variable {T : Type} {A : Arity}

/-! ## Spread positions -/

/-- The slot of an index when `m` is spread over `cap` slots. -/
def spread {n : ℕ} (m : ChildMap n T) (cap : ℕ) (i : Fin n) : ℕ :=
  Bitmap.rank m.present i * cap / m.count

section Spread

variable {n : ℕ} {m : ChildMap n T} {cap : ℕ} {i j : Fin n}

theorem rank_lt_count (hi : i ∈ m.present) :
    Bitmap.rank m.present i < m.count := by
  rw [← ChildMap.countOnes_present]
  exact Bitmap.rank_lt_countOnes hi

theorem spread_mono (hcap : m.count ≤ cap) :
    ∀ i ∈ m.present, ∀ j ∈ m.present, i < j → spread m cap i < spread m cap j :=
  fun _ hi _ hj hij =>
    spread_lt_spread hcap (Bitmap.rank_lt_rank hi hij) (rank_lt_count hj)

theorem spread_lt_cap (hcap : m.count ≤ cap) :
    ∀ i ∈ m.present, spread m cap i < cap := by
  intro i hi
  have := rank_lt_count hi
  exact spread_lt this (by omega)

end Spread

/-- The live bitmap has the spread slots of the first `count` ranks. -/
theorem spreadLive_eq {count cap : ℕ} (hcount : count ≤ cap)
    (hcap : cap ≤ A.LEN) (message : String) :
    ∃ live, spreadLive A count cap message = .ok live ∧
      ∀ p : A.Index, p ∈ live ↔ ∃ r < count, r * cap / count = p := by
  have hprefix : ∀ k ≤ count, ∃ live,
      (List.range k).foldlM (fun live r => do
        let p ← spreadPos r count cap
        let pIdx ← expect (tryFromUsize p) message
        return Bitmap.withBit live pIdx) (Bitmap.ZERO : Bitmap A.LEN) =
          (.ok live : Checked (Bitmap A.LEN)) ∧
        ∀ p : A.Index, p ∈ live ↔ ∃ r < k, r * cap / count = p := by
    intro k hk
    induction k with
    | zero => exact ⟨Bitmap.ZERO, rfl, by simp⟩
    | succ k ih =>
        obtain ⟨live, hlive, hmem⟩ := ih (by omega)
        have hlt := spread_lt hk (show 0 < cap by omega)
        refine ⟨Bitmap.withBit live ⟨k * cap / count, by omega⟩, ?_, ?_⟩
        · rw [List.range_succ, List.foldlM_append, hlive]
          simp [spreadPos_eq hcount hcap hk,
            tryFromUsize_of_lt (hlt.trans_le hcap)]
        · intro p
          rw [Bitmap.mem_withBit, hmem, Fin.ext_iff]
          constructor
          · rintro (hp | ⟨r, hr, hp⟩)
            · exact ⟨k, by omega, hp.symm⟩
            · exact ⟨r, by omega, hp⟩
          · rintro ⟨r, hr, hp⟩
            rcases Nat.lt_succ_iff_lt_or_eq.mp hr with hr | rfl
            · exact Or.inr ⟨r, hr, hp⟩
            · exact Or.inl hp.symm
  exact hprefix count le_rfl

/-- The slots of that bitmap are the spread slots of a map's indices. -/
theorem exists_spread_iff (m : ChildMap A.LEN T) (cap p : ℕ) :
    (∃ r < m.count, r * cap / m.count = p) ↔
      ∃ i ∈ m.present, spread m cap i = p := by
  constructor
  · rintro ⟨r, hr, hp⟩
    rw [← ChildMap.countOnes_present] at hr
    obtain ⟨i, hi⟩ := Bitmap.exists_select hr
    obtain ⟨hmem, rfl⟩ := Bitmap.select_eq_some.mp hi
    exact ⟨i, hmem, hp⟩
  · rintro ⟨i, hi, hp⟩
    exact ⟨_, rank_lt_count hi, hp⟩

theorem slots_spread {m : ChildMap A.LEN T} {cap : ℕ} {live : Bitmap A.LEN}
    (hcount : m.count ≤ cap) (hcap : cap ≤ A.LEN)
    (hlive : ∀ p : A.Index, p ∈ live ↔
      ∃ r < m.count, r * cap / m.count = p) :
    slots live = (Bitmap.bits m.present).map (spread m cap) := by
  refine Bitmap.map_bits_of_image (spread_mono hcount) fun p => ?_
  rw [← exists_spread_iff]
  constructor
  · rintro ⟨q, hq, rfl⟩
    exact (hlive q).mp hq
  · intro hp
    obtain ⟨i, hi, rfl⟩ := (exists_spread_iff m cap p).mp hp
    have hlt := spread_lt_cap hcount i hi
    exact ⟨⟨spread m cap i, hlt.trans_le hcap⟩, (hlive _).mpr hp, rfl⟩

/-- A block filled at the spread slots has the layout of the map. -/
theorem laid_of_spread {m : ChildMap A.LEN T} {k : ℕ} {occ live : Bitmap A.LEN}
    {data : Block T} {block : ℕ} (hocc : occ = m.present)
    (hcap : 2 ^ k ≤ A.LEN) (hdata : data.cap = 2 ^ k)
    (hlive : ∀ p : A.Index, p ∈ live ↔
      ∃ r < m.count, r * 2 ^ k / m.count = p)
    (hplaced : Placed m data (spread m (2 ^ k))) :
    Laid ⟨occ, live, k, data, block⟩ m (spread m (2 ^ k)) := by
  refine ⟨hocc, fun p => ?_, hplaced, hdata, hcap⟩
  rw [hlive, exists_spread_iff, hplaced.isSome_slot]

/-! ## Moving the elements over -/

section Rebuild

variable {inner : Inner T A} {m : ChildMap A.LEN T} {pos : A.Index → ℕ}

/-- A rebuild keeps the map and spreads it over the new capacity. -/
theorem Laid.rebuildTo (h : Laid inner m pos) {cap : ℕ}
    (hcap : A.IsCapacity cap) (hcount : m.count ≤ cap) :
    ∃ inner', GappedArray.rebuildTo ⟨some inner⟩ cap = .ok ⟨some inner'⟩ ∧
      Laid inner' m (spread m cap) ∧ inner'.capacity = cap ∧
      inner'.block = inner.block + 1 := by
  obtain ⟨k, rfl, hle⟩ := hcap
  obtain ⟨live, hlive, hmem⟩ := spreadLive_eq (A := A) hcount hle
    "p < new_cap <= N"
  obtain ⟨b', c', htransfer, hb'cap, hc'cap, hb', hc'⟩ :=
    h.placed.transfer (spread_mono hcount) (spread_lt_cap hcount)
  have hzip : (slots inner.live).zip (slots live) =
      (Bitmap.bits m.present).map fun i => (pos i, spread m (2 ^ k) i) := by
    rw [h.slots_live, slots_spread hcount hle hmem, List.zip_map']
  have hassert : m.count ≤ 2 ^ k ∧ 2 ^ k = 2 ^ (2 ^ k).log2 :=
    ⟨hcount, by rw [Nat.log2_two_pow]⟩
  have hfree := hb'.dealloc (hb'cap.trans h.cap)
  simp only [GappedArray.rebuildTo, h.countOnes_occupancy,
    debugAssert_of hassert, capExpOf_two_pow, hlive, hzip, htransfer, hfree,
    ok_bind, pure_eq_ok]
  exact ⟨_, rfl, laid_of_spread h.occupancy hle hc'cap hmem hc', rfl, rfl⟩

end Rebuild

/-! ## Adding an element on the way -/

section Refill

variable {m : ChildMap A.LEN T} {pos pos' : A.Index → ℕ} {i : A.Index} {v : T}

/-- The rank of the inserted index is its place among the new slots. -/
theorem length_eq_rank_iff {b : Bitmap A.LEN} (hi : i ∈ b) {j : A.Index}
    {js is : List A.Index} (hbits : Bitmap.bits b = js ++ j :: is) :
    js.length = Bitmap.rank b i ↔ j = i := by
  have hj : Bitmap.select b js.length = some j := by
    simp [Bitmap.select, hbits]
  constructor
  · intro hlen
    rw [hlen, Bitmap.select_rank hi, Option.some.injEq] at hj
    exact hj.symm
  · rintro rfl
    exact (Bitmap.select_eq_some.mp hj).2.symm

/-- What the fill loop has left to do when the ranks of `js` are filled. -/
theorem refill_from (hi : i ∈ m.present) (hv : m.get i = some v)
    (js : List A.Index) {is : List A.Index} {src dst : Block T}
    (hbits : Bitmap.bits m.present = js ++ is)
    (hsrc : Placed (m.only (is.filter fun j => decide (j ≠ i))) src pos)
    (hdst : Placed (m.only js) dst pos')
    (hmono : ∀ i ∈ m.present, ∀ j ∈ m.present, i < j → pos' i < pos' j)
    (hcap : ∀ i ∈ m.present, pos' i < dst.cap) :
    ∃ filled, ((is.map pos').zipIdx js.length).foldlM
        (fun s slot => refill (Bitmap.rank m.present i) s slot.1 slot.2)
        { src := src
          dst := dst
          value := if i ∈ is then some v else none
          oldSlots := (is.filter fun j => decide (j ≠ i)).map pos } =
          .ok filled ∧
      filled.src.cap = src.cap ∧ filled.dst.cap = dst.cap ∧
      Placed (ChildMap.empty : ChildMap A.LEN T) filled.src pos ∧
      Placed m filled.dst pos' := by
  induction is generalizing js src dst with
  | nil =>
      refine ⟨_, rfl, rfl, rfl, ?_, ?_⟩
      · simpa [ChildMap.only_nil] using hsrc
      · rw [List.append_nil] at hbits
        rwa [← hbits, ChildMap.only_bits] at hdst
  | cons j is ih =>
      have hsorted := Bitmap.bits_pairwise m.present
      have hnodup := Bitmap.bits_nodup m.present
      rw [hbits, List.pairwise_append, List.pairwise_cons] at hsorted
      rw [hbits, List.nodup_append, List.nodup_cons] at hnodup
      have hmem : ∀ k, k ∈ js ++ j :: is → k ∈ m.present := by
        intro k hk
        rw [← hbits] at hk
        exact Bitmap.mem_bits.mp hk
      have hj := hmem j (by simp)
      have hlt : ∀ k ∈ js, k < j ∧ pos' k < pos' j := by
        intro k hk
        have hkj := hsorted.2.2 k hk j (by simp)
        exact ⟨hkj, hmono k (hmem k (by simp [hk])) j hj hkj⟩
      have hjjs : j ∉ js := fun hjs => (hlt j hjs).1.ne rfl
      have hrank := length_eq_rank_iff hi hbits
      have hnext : Bitmap.bits m.present = (js ++ [j]) ++ is := by
        simpa using hbits
      by_cases hji : j = i
      · subst j
        have hiis := hnodup.2.1.1
        have hfilter : (i :: is).filter (fun j => decide (j ≠ i)) =
            is.filter fun j => decide (j ≠ i) := by simp
        rw [hfilter] at hsrc ⊢
        have hmemc : ∀ k ∈ (m.only js).present, k ∈ js := by
          intro k hk
          obtain ⟨w, hw⟩ := ChildMap.mem_present.mp hk
          by_contra hkjs
          simp [ChildMap.get_only, hkjs] at hw
        have hnot : i ∉ (m.only js).present := fun h => hjjs (hmemc i h)
        have hfree : dst.slot (pos' i) = none := by
          refine hdst.free _ fun k hk hpos => ?_
          have := (hlt k (hmemc k hk)).2
          omega
        have hdst' : Placed (m.only (js ++ [i])) { dst with
            slot := update dst.slot (pos' i) (some v) } pos' := by
          rw [← ChildMap.set_only hv]
          refine (hdst.insert hnot (hcap i hj)
            (fun k hk _ => (hlt k (hmemc k hk)).2)
            (fun k hk hik => absurd hik (hlt k (hmemc k hk)).1.asymm)
            v).congr ?_
          intro k _
          by_cases hki : k = i
          · subst hki
            simp
          · simp [hki]
        obtain ⟨filled, hrest, hfilled⟩ :=
          ih (js ++ [i]) hnext hsrc hdst' hcap
        refine ⟨filled, ?_, hfilled⟩
        rw [if_neg hiis, List.length_append] at hrest
        rw [if_pos (List.mem_cons_self ..), List.map_cons, List.zipIdx_cons,
          List.foldlM_cons]
        simpa [refill, hrank, Block.write_of_free (hcap i hj) hfree] using hrest
      · have hfilter : (j :: is).filter (fun j => decide (j ≠ i)) =
            j :: is.filter fun j => decide (j ≠ i) := by simp [hji]
        rw [hfilter] at hsrc ⊢
        obtain ⟨src', dst', hmove, hsrccap, hdstcap, hsrc', hdst'⟩ :=
          hsrc.moveTo_one hdst hj
            (fun h => hnodup.2.1.1 (List.mem_filter.mp h).1) hjjs (hcap j hj)
            hlt
        obtain ⟨filled, hrest, hfs, hfd, hfilled⟩ :=
          ih (js ++ [j]) hnext hsrc' hdst' (by rwa [hdstcap])
        refine ⟨filled, ?_, hfs.trans hsrccap, hfd.trans hdstcap, hfilled⟩
        rw [List.length_append] at hrest
        have hor : (i ∈ j :: is) = (i ∈ is) := by simp [Ne.symm hji]
        simp only [hor, List.map_cons, List.zipIdx_cons, List.foldlM_cons]
        simpa [refill, hrank, hji, hmove] using hrest

end Refill

section RebuildInsert

variable {inner : Inner T A} {m : ChildMap A.LEN T} {pos : A.Index → ℕ}
variable {i : A.Index}

/-- A rebuild with a new element spreads the enlarged map. -/
theorem Laid.rebuildWithInsert (h : Laid inner m pos) (hi : m.get i = none)
    {cap : ℕ} (hcap : A.IsCapacity cap) (hcount : m.count + 1 ≤ cap) (v : T) :
    ∃ inner', GappedArray.rebuildWithInsert ⟨some inner⟩ i v cap =
        .ok ⟨some inner'⟩ ∧
      Laid inner' (m.set i v) (spread (m.set i v) cap) ∧
      inner'.capacity = cap ∧ inner'.block = inner.block + 1 := by
  obtain ⟨k, rfl, hle⟩ := hcap
  have hi' := ChildMap.notMem_present.mpr hi
  have hset := ChildMap.count_set_of_none hi v
  have hocc : Bitmap.withBit inner.occupancy i = (m.set i v).present := by
    rw [ChildMap.present_set, ← h.occupancy]
    rfl
  have hbits : (Bitmap.bits (m.set i v).present).filter
      (fun j => decide (j ≠ i)) = Bitmap.bits m.present := by
    rw [← Bitmap.bits_withoutBit, ChildMap.present_set, Bitmap.withoutBit,
      Finset.erase_insert hi']
  have honly : (m.set i v).only (Bitmap.bits m.present) = m := by
    refine ChildMap.ext_get fun j => ?_
    rw [ChildMap.get_only]
    split
    · next hj =>
        refine ChildMap.get_set_of_ne m ?_ v
        rintro rfl
        exact hi' (Bitmap.mem_bits.mp hj)
    · next hj =>
        rw [Bitmap.mem_bits, ChildMap.notMem_present] at hj
        exact hj.symm
  have hcount' : (m.set i v).count ≤ 2 ^ k := by omega
  obtain ⟨live, hlive, hmem⟩ := spreadLive_eq (A := A) hcount' hle
    "p < new_cap <= N"
  have hmemi : i ∈ (m.set i v).present := by
    rw [ChildMap.present_set]
    exact Finset.mem_insert_self i m.present
  have hbefore : Placed ((m.set i v).only
      ((Bitmap.bits (m.set i v).present).filter fun j => decide (j ≠ i)))
      inner.data pos := by
    rw [hbits, honly]
    exact h.placed
  have hfresh : Placed ((m.set i v).only []) (Block.alloc (2 ^ k))
      (spread (m.set i v) (2 ^ k)) := by
    rw [ChildMap.only_nil]
    exact Placed.alloc _ _
  have hall : Bitmap.bits (m.set i v).present =
      [] ++ Bitmap.bits (m.set i v).present := (List.nil_append _).symm
  obtain ⟨filled, hfill, hsrccap, hdstcap, hsrc, hdst⟩ :=
    refill_from hmemi (ChildMap.get_set_self m i v) [] hall hbefore hfresh
      (spread_mono hcount') (spread_lt_cap hcount')
  rw [if_pos (Bitmap.mem_bits.mpr hmemi), hbits, ← h.slots_live,
    ← slots_spread hcount' hle hmem] at hfill
  have htest : ¬Bitmap.test inner.occupancy i = true := by
    simp [h.test_eq, hi]
  have hassert : (m.set i v).count ≤ 2 ^ k ∧ 2 ^ k = 2 ^ (2 ^ k).log2 :=
    ⟨hcount', by rw [Nat.log2_two_pow]⟩
  have hfree := hsrc.dealloc (hsrccap.trans h.cap)
  simp only [List.length_nil] at hfill
  simp only [GappedArray.rebuildWithInsert, expect_some, debugAssert_of htest,
    hocc, ChildMap.countOnes_present, debugAssert_of hassert, capExpOf_two_pow,
    hlive, hfill, hfree, ok_bind, pure_eq_ok]
  exact ⟨_, rfl, laid_of_spread rfl hle hdstcap hmem hdst, rfl, rfl⟩

end RebuildInsert

end ArityArrays.GappedArray
