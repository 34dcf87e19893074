import ArityArrays.Arrays.Gapped.Conversions

/-!
# Even spread

The elements of a fresh block stand at the spread positions of their ranks.
Some of the loops that fill such a block compute the position of each rank
again, and others walk the bits of the live bitmap; the positions are strictly
increasing, so all of them fill the same slots.
-/

namespace ArityArrays.GappedArray

open ArityTries Checked

variable {T : Type} {A : Arity}

/-- The block has the entries of the map at the spread positions of their
ranks, and nothing else. -/
structure EvenlySpread (inner : Inner T A) (m : ChildMap A.LEN T) : Prop where
  occupancy : inner.occupancy = m.present
  count : Bitmap.countOnes inner.live = m.count
  select : ∀ r < m.count, (Bitmap.select inner.live r).map Fin.val =
    some (r * inner.capacity / m.count)
  slot : ∀ i v, m.get i = some v → inner.data.slot
    (Bitmap.rank m.present i * inner.capacity / m.count) = some v
  live : ∀ p, (inner.data.slot p).isSome ↔ p ∈ slots inner.live

section Spread

variable {inner inner' : Inner T A} {m m' : ChildMap A.LEN T}

theorem Laid.evenlySpread (h : Laid inner m (spread m inner.capacity)) :
    EvenlySpread inner m := by
  constructor
  · exact h.occupancy
  · rw [h.countOnes_live, h.countOnes_occupancy]
  · intro r hr
    rw [← ChildMap.countOnes_present] at hr
    obtain ⟨i, hi⟩ := Bitmap.exists_select hr
    obtain ⟨-, rfl⟩ := Bitmap.select_eq_some.mp hi
    rw [h.select_live, hi]
    rfl
  · intro i v hv
    exact h.placed.slot_of_get hv
  · intro p
    rw [← h.exists_live, slots, List.mem_map]
    simp only [Bitmap.mem_bits]

theorem mem_slots {live : Bitmap A.LEN} {p : A.Index} :
    p.val ∈ slots live ↔ p ∈ live := by
  rw [slots, List.mem_map_of_injective Fin.val_injective, Bitmap.mem_bits]

theorem EvenlySpread.slots_eq (h : EvenlySpread inner m) :
    slots inner.live =
      (List.range m.count).map fun r => r * inner.capacity / m.count := by
  have hlength : (slots inner.live).length = m.count := by
    rw [slots, List.length_map, Bitmap.length_bits, h.count]
  apply List.ext_getElem?
  intro r
  by_cases hr : r < m.count
  · have hselect := h.select r hr
    rw [Bitmap.select] at hselect
    rw [slots, List.getElem?_map, List.getElem?_map, hselect,
      List.getElem?_range hr, Option.map_some]
  · rw [List.getElem?_eq_none (by omega), List.getElem?_eq_none]
    rw [List.length_map, List.length_range]
    omega

/-- The entry of each filled slot. -/
theorem EvenlySpread.slot_cases (h : EvenlySpread inner m) (p : ℕ) :
    (∃ i v, m.get i = some v ∧
      p = Bitmap.rank m.present i * inner.capacity / m.count ∧
      inner.data.slot p = some v) ∨
    p ∉ slots inner.live ∧ inner.data.slot p = none := by
  by_cases hp : p ∈ slots inner.live
  · left
    have hrange := hp
    rw [h.slots_eq, List.mem_map] at hrange
    obtain ⟨r, hr, rfl⟩ := hrange
    rw [List.mem_range, ← ChildMap.countOnes_present] at hr
    obtain ⟨i, hi⟩ := Bitmap.exists_select hr
    obtain ⟨hmem, rfl⟩ := Bitmap.select_eq_some.mp hi
    obtain ⟨v, hv⟩ := ChildMap.mem_present.mp hmem
    exact ⟨i, v, hv, rfl, h.slot i v hv⟩
  · right
    refine ⟨hp, ?_⟩
    rw [← Option.not_isSome_iff_eq_none, h.live]
    exact hp

/-- The map and the capacity determine the live bitmap and the slots. -/
theorem EvenlySpread.unique (h : EvenlySpread inner m)
    (h' : EvenlySpread inner' m) (hcap : inner'.capacity = inner.capacity) :
    inner'.live = inner.live ∧ inner'.data.slot = inner.data.slot := by
  have hslots : slots inner'.live = slots inner.live := by
    rw [h.slots_eq, h'.slots_eq, hcap]
  constructor
  · ext p
    rw [← mem_slots, hslots, mem_slots]
  · funext p
    rcases h.slot_cases p with ⟨i, v, hv, rfl, hslot⟩ | ⟨hp, hnone⟩
    · rw [hslot, ← hcap]
      exact h'.slot i v hv
    · rw [hnone, ← Option.not_isSome_iff_eq_none, h'.live, hslots]
      exact hp

end Spread

/-! ## The loops -/

section Loops

/-- The live bitmap of a fresh block. -/
theorem spreadLive_select {count cap : ℕ} (hcount : count ≤ cap)
    (hcap : cap ≤ A.LEN) (message : String) :
    ∃ live, spreadLive A count cap message = .ok live ∧
      Bitmap.countOnes live = count ∧
      ∀ r < count, spreadPos r count cap = .ok (r * cap / count) ∧
        (Bitmap.select live r).map Fin.val = some (r * cap / count) := by
  obtain ⟨live, hlive, hmem⟩ := spreadLive_eq hcount hcap message
  have hslots : slots live =
      (List.range count).map fun r => r * cap / count := by
    apply Bitmap.eq_of_pairwise_lt
    · exact List.pairwise_map.mpr (Bitmap.bits_pairwise live)
    · apply List.pairwise_map.mpr
      apply List.pairwise_lt_range.imp_of_mem
      intro r s _ hs hrs
      exact spread_lt_spread hcount hrs (List.mem_range.mp hs)
    · intro p
      rw [slots, List.mem_map, List.mem_map]
      simp only [Bitmap.mem_bits, List.mem_range]
      constructor
      · rintro ⟨q, hq, rfl⟩
        exact (hmem q).mp hq
      · rintro ⟨r, hr, rfl⟩
        have hlt := spread_lt hr (show 0 < cap by omega)
        exact ⟨⟨r * cap / count, hlt.trans_le hcap⟩, (hmem _).mpr ⟨r, hr, rfl⟩,
          rfl⟩
  refine ⟨live, hlive, ?_, ?_⟩
  · have hlength := congrArg List.length hslots
    rwa [slots, List.length_map, Bitmap.length_bits, List.length_map,
      List.length_range] at hlength
  · intro r hr
    refine ⟨spreadPos_eq hcount hcap hr, ?_⟩
    rw [Bitmap.select, ← List.getElem?_map]
    change (slots live)[r]? = _
    rw [hslots, List.getElem?_map, List.getElem?_range hr]
    rfl

variable {m m' : ChildMap A.LEN T}

theorem spread_congr (h : m'.present = m.present) (cap : ℕ) :
    spread m' cap = spread m cap := by
  funext i
  rw [spread, spread, h, ← ChildMap.countOnes_present, h,
    ChildMap.countOnes_present]

/-- The clones are spread when there are all of them, and otherwise there is no
block. -/
theorem fromFixedRef_evenlySpread (d : Destructor T) (cloner : Cloner T)
    {src : FixedArray (Option T) A} (hcount : src.contents.count ≠ 0) :
    ∃ out, fromFixedRef d cloner src = .ok out ∧
      ((cloner.clones 0 src.contents.values).2 = true → ∃ inner m',
        out = ⟨some ⟨some inner⟩, [], .returns⟩ ∧
        m'.present = src.contents.present ∧
        m'.values = (cloner.clones 0 src.contents.values).1 ∧
        EvenlySpread inner m') ∧
      ((cloner.clones 0 src.contents.values).2 = false → out.state = none) := by
  obtain ⟨out, cap, hfrom, -, hclones⟩ := fromFixedRef_laid d cloner hcount
  refine ⟨out, hfrom, fun hdone => ?_, fun hpanic => ?_⟩
  · obtain ⟨g, m', rfl, ⟨inner, hinner, hlaid, rfl⟩, hpresent, hvalues⟩ :=
      hclones.done hdone
    obtain rfl : g = ⟨some inner⟩ := congrArg GappedArray.mk hinner
    rw [← spread_congr hpresent] at hlaid
    exact ⟨inner, m', rfl, hpresent, hvalues, hlaid.evenlySpread⟩
  · exact (hclones.panicked hpanic).1

end Loops

/-- The spread positions are a strictly increasing placement, the live bitmap
of a fresh block has exactly these slots in order, and every loop that fills
such a block puts the element of each rank in the slot of that rank. -/
theorem even_spread_placement (T : Type) (A : Arity) :
    (∀ count cap, 0 < count → count ≤ cap →
      (∀ r s, r < s → s < count → r * cap / count < s * cap / count) ∧
      0 * cap / count = 0 ∧ (∀ r < count, r * cap / count < cap) ∧
      ∀ r < count, r * cap ≤ usizeMax →
        spreadPos r count cap = .ok (r * cap / count)) ∧
    (∀ count cap message, count ≤ cap → cap ≤ A.LEN →
      ∃ live, spreadLive A count cap message = .ok live ∧
        Bitmap.countOnes live = count ∧
        ∀ r < count, spreadPos r count cap = .ok (r * cap / count) ∧
          (Bitmap.select live r).map Fin.val = some (r * cap / count)) ∧
    (∀ (inner : Inner T A) m pos cap, Laid inner m pos → A.IsCapacity cap →
      (m.count ≤ cap → ∃ inner', rebuildTo ⟨some inner⟩ cap =
        .ok ⟨some inner'⟩ ∧ inner'.capacity = cap ∧ EvenlySpread inner' m) ∧
      ∀ i v, m.get i = none → m.count + 1 ≤ cap →
        ∃ inner', rebuildWithInsert ⟨some inner⟩ i v cap =
          .ok ⟨some inner'⟩ ∧ inner'.capacity = cap ∧
          EvenlySpread inner' (m.set i v)) ∧
    (∀ src : FixedArray (Option T) A, src.contents.count ≠ 0 →
      (∃ inner, fromFixed src = .ok ⟨some inner⟩ ∧
        EvenlySpread inner src.contents) ∧
      ∀ (d : Destructor T) (cloner : Cloner T),
        ∃ out, fromFixedRef d cloner src = .ok out ∧
          ((cloner.clones 0 src.contents.values).2 = true → ∃ inner m',
            out = ⟨some ⟨some inner⟩, [], .returns⟩ ∧
            m'.present = src.contents.present ∧
            m'.values = (cloner.clones 0 src.contents.values).1 ∧
            EvenlySpread inner m') ∧
          ((cloner.clones 0 src.contents.values).2 = false →
            out.state = none)) ∧
    ∀ (inner inner' : Inner T A) m, EvenlySpread inner m →
      EvenlySpread inner' m → inner'.capacity = inner.capacity →
      inner'.live = inner.live ∧ inner'.data.slot = inner.data.slot := by
  refine ⟨?_, ?_, ?_, ?_, ?_⟩
  · intro count cap hpos hcount
    refine ⟨?_, ?_, ?_, ?_⟩
    · intro r s hrs hs
      exact spread_lt_spread hcount hrs hs
    · rw [Nat.zero_mul, Nat.zero_div]
    · intro r hr
      exact spread_lt hr (by omega)
    · intro r hr hmul
      rw [spreadPos, debugAssert_of ⟨hpos, hcount, hr⟩, usizeMul_of_le hmul]
      rfl
  · intro count cap message hcount hcap
    exact spreadLive_select hcount hcap message
  · intro inner m pos cap h hcap
    constructor
    · intro hcount
      obtain ⟨inner', hrun, hlaid, rfl, -⟩ := h.rebuildTo hcap hcount
      exact ⟨inner', hrun, rfl, hlaid.evenlySpread⟩
    · intro i v hi hcount
      obtain ⟨inner', hrun, hlaid, rfl, -⟩ :=
        h.rebuildWithInsert hi hcap hcount v
      exact ⟨inner', hrun, rfl, hlaid.evenlySpread⟩
  · intro src hcount
    constructor
    · obtain ⟨inner, hfrom, hlaid, -⟩ := fromFixed_laid hcount
      exact ⟨inner, hfrom, hlaid.evenlySpread⟩
    · intro d cloner
      exact fromFixedRef_evenlySpread d cloner hcount
  · intro inner inner' m h h' hcap
    exact h.unique h' hcap

/-- Three elements over eight slots. -/
theorem even_spread_placement_three :
    ∃ live, spreadLive .arity8 3 8 "p < new_cap <= N" = .ok live ∧
      (Bitmap.select live 2).map Fin.val = some 5 := by
  obtain ⟨-, hlive, -⟩ := even_spread_placement ℕ .arity8
  obtain ⟨live, hrun, -, hselect⟩ :=
    hlive 3 8 "p < new_cap <= N" (by decide) (by decide)
  exact ⟨live, hrun, (hselect 2 (by decide)).2⟩

end ArityArrays.GappedArray
