import ArityArrays.Arrays.Filling
import ArityArrays.Arrays.Packed.Iterators

/-!
# Conversions of the packed array

A packed array is built from a fixed array in two passes, and taken apart again
by reading its elements in rank order.  Cloning fills the new block under a
guard that gives up the clones made so far when a clone call panics.
-/

namespace ArityArrays

open ArityTries Checked

/-! ## Definitions -/

namespace PackedArray

variable {T : Type} {A : Arity}

/-- `From<FixedArray<Option<T>, A>>`. -/
def fromFixed (src : FixedArray (Option T) A) : Checked (PackedArray T A) := do
  let bitmap ← src.occupancy
  if Bitmap.isZero bitmap then
    return new
  let count := Bitmap.countOnes bitmap
  let filled ← src.moveInto (fun rank => .ok rank) (Block.alloc count)
  return ⟨some ⟨bitmap, filled.1⟩⟩

/-- `FromIterator`. -/
def fromIter (entries : List (A.Index × T)) : Checked (PackedArray T A) :=
  fromFixed (FixedArray.stage entries)

/-- Dropping a `FillGuard`: the initialised slots, then the block. -/
def fillGuardDrop (d : Destructor T) (capacity initialized : ℕ) :
    Routine (Block T) T :=
  (Block.dropSlice d 0 initialized).andThen (Block.free capacity)

/-- A fill loop under a `FillGuard`. -/
def fill (d : Destructor T) (cloner : Cloner T) (bitmap : Bitmap A.LEN)
    (steps : List (CloneStep T ℕ)) :
    Checked (Outcome (Option (PackedArray T A)) T) := do
  let count := Bitmap.countOnes bitmap
  let out ← guardedFill (cloneFill cloner 0 steps (Block.alloc count, 0))
    (fillGuardDrop d count)
  return ⟨out.state.map fun data => ⟨some ⟨bitmap, data⟩⟩, out.events, out.exit⟩

/-- `From<&FixedArray<Option<T>, A>>`. -/
def fromFixedRef (d : Destructor T) (cloner : Cloner T)
    (src : FixedArray (Option T) A) :
    Checked (Outcome (Option (PackedArray T A)) T) := do
  let bitmap ← src.occupancy
  if Bitmap.isZero bitmap then
    return ⟨some new, [], .returns⟩
  let entries ← FixedArray.presentIter.collect src.intoIter
  fill d cloner bitmap (entries.map fun entry initialized =>
    .ok (initialized, entry.2, initialized + 1))

def clone (d : Destructor T) (cloner : Cloner T) (a : PackedArray T A) :
    Checked (Outcome (Option (PackedArray T A)) T) :=
  match a.inner with
  | none => .ok ⟨some new, [], .returns⟩
  | some inner =>
      let count := Bitmap.countOnes inner.bitmap
      fill d cloner inner.bitmap ((List.range count).map fun i _ => do
        let v ← inner.data.get i
        return (i, v, i + 1))

end PackedArray

namespace FixedArray

variable {T : Type} {A : Arity}

/-- `From<PackedArray<T, A>>`. -/
def fromPacked (src : PackedArray T A) : Checked (FixedArray (Option T) A) :=
  match src.inner with
  | none => .ok new
  | some inner => do
      let count := Bitmap.countOnes inner.bitmap
      let moved ← moveOut (Bitmap.bits inner.bitmap).zipIdx inner.data
      moved.1.dealloc count
      return moved.2

/-- `From<&PackedArray<T, A>>`. -/
def fromPackedRef (f : T → T) (src : PackedArray T A) :
    Checked (FixedArray (Option T) A) := do
  let entries ← PackedArray.PresentIter.collect src.iterPresent
  return cloneEntries f entries

end FixedArray

/-! ## What they hold -/

namespace PackedArray

variable {T : Type} {A : Arity} {m : ChildMap A.LEN T}

theorem fits_rank (count : ℕ) : Block.Fits count (fun rank => rank) count where
  mono _ _ hrs _ := hrs
  lt _ hr := hr

theorem holds_of_filled {b : Block T} (hne : m.present ≠ ∅)
    (h : Block.Filled b m.count (fun rank => rank) m.values) :
    Holds ⟨some ⟨m.present, b⟩⟩ m := by
  refine Or.inr ⟨_, rfl, hne, rfl, h.cap, placed_of_filled h ?_ ?_ ?_⟩
  · intro i hi j _ hij
    exact Bitmap.rank_lt_rank hi hij
  · intro i hi
    rw [← ChildMap.countOnes_present]
    exact Bitmap.rank_lt_countOnes hi
  · exact fun _ _ => rfl

theorem fromFixed_spec (src : FixedArray (Option T) A) :
    ∃ a, fromFixed src = .ok a ∧ a.Holds src.contents := by
  by_cases hzero : src.contents.present = ∅
  · refine ⟨new, ?_, Or.inl ⟨rfl, ChildMap.present_eq_empty.mp hzero⟩⟩
    simp [fromFixed, src.occupancy_eq, Bitmap.isZero, hzero]
  · obtain ⟨b, hmove, hfilled⟩ := src.moveInto_spec (fun rank => rank)
      (fun _ _ => rfl) (fits_rank src.contents.count)
    refine ⟨_, ?_, holds_of_filled hzero hfilled⟩
    simp [fromFixed, src.occupancy_eq, Bitmap.isZero, hzero,
      ChildMap.countOnes_present, hmove]

theorem fromIter_spec (entries : List (A.Index × T)) :
    ∃ a, fromIter entries = .ok a ∧ a.Holds
      (ChildMap.ofEntries entries) := by
  rw [← FixedArray.contents_stage]
  exact fromFixed_spec (FixedArray.stage entries)

/-- A `FillGuard` releases what it guards. -/
theorem fillGuardDrop_spec (d : Destructor T) {b : Block T} {cap : ℕ}
    {ws : List T} (h : Block.Filled b cap (fun rank => rank) ws) :
    ∃ out, fillGuardDrop d cap ws.length b = .ok out ∧
      Releases d cap ws out := by
  have hrelease := releases_dropEach d h (by simpa using List.nodup_range)
  rwa [List.map_id', List.range_eq_range'] at hrelease

theorem fill_spec (d : Destructor T) (cloner : Cloner T)
    (steps : List (CloneStep T ℕ)) (hne : m.present ≠ ∅)
    (hlen : steps.length = m.count)
    (hsteps : ∀ (j : ℕ) (step : CloneStep T ℕ) (v : T),
      steps[j]? = some step → m.values[j]? = some v →
        step j = .ok (j, v, j + 1)) :
    ∃ out, fill d cloner m.present steps = .ok out ∧
      Clones Holds d cloner m.count m out := by
  have hfits := fits_rank m.count
  rw [← ChildMap.length_values] at hfits hlen
  obtain ⟨out, hfill, hdone, hpanic⟩ := guardedFill_spec d cloner
    (fun k => k) hfits hlen hsteps fun ws _ b hb => fillGuardDrop_spec d hb
  rw [ChildMap.length_values] at hfill hdone hpanic
  simp only [fill, ChildMap.countOnes_present, hfill, ok_bind, pure_eq_ok]
  refine ⟨_, rfl, fun hclones => ?_, fun hclones => ?_⟩
  · obtain ⟨b, rfl, hfilled⟩ := hdone hclones
    obtain ⟨m', hpresent, hvalues⟩ := ChildMap.exists_values m
      ((Cloner.length_clones hclones).trans m.length_values)
    have hcount : m'.count = m.count := by
      rw [← ChildMap.countOnes_present, hpresent, ChildMap.countOnes_present]
    rw [← hvalues, ← hcount] at hfilled
    refine ⟨_, m', rfl, ?_, hpresent, hvalues⟩
    rw [← hpresent] at hne ⊢
    exact holds_of_filled hne hfilled
  · obtain ⟨hstate, hevents⟩ := hpanic hclones
    exact ⟨by rw [hstate]; rfl, hevents⟩

theorem fromFixedRef_spec (d : Destructor T) (cloner : Cloner T)
    (src : FixedArray (Option T) A) :
    ∃ out, fromFixedRef d cloner src = .ok out ∧
      Clones Holds d cloner src.contents.count src.contents out := by
  by_cases hzero : src.contents.present = ∅
  · have hempty := ChildMap.present_eq_empty.mp hzero
    refine ⟨⟨some new, [], .returns⟩, ?_, ?_⟩
    · simp [fromFixedRef, src.occupancy_eq, Bitmap.isZero, hzero]
    · rw [hempty]
      exact Clones.of_empty d cloner _ holds_new
  · have hentries := FixedArray.presentIter_refines.collect
      src.filtered_intoIter
    have hsteps : ∀ (j : ℕ) (step : CloneStep T ℕ) (v : T),
        (src.contents.iterPresent.map fun entry initialized =>
          .ok (initialized, entry.2, initialized + 1))[j]? = some step →
        src.contents.values[j]? = some v → step j = .ok (j, v, j + 1) := by
      intro j step v hstep hv
      rw [List.getElem?_map] at hstep
      obtain ⟨entry, hentry, rfl⟩ := Option.map_eq_some_iff.mp hstep
      rw [ChildMap.values, List.getElem?_map, hentry] at hv
      cases hv
      rfl
    obtain ⟨out, hfill, hclones⟩ := fill_spec d cloner _ hzero
      (List.length_map _) hsteps
    refine ⟨out, ?_, hclones⟩
    simp [fromFixedRef, src.occupancy_eq, Bitmap.isZero, hzero, hentries, hfill]

theorem clone_spec {a : PackedArray T A} (h : a.Holds m) (d : Destructor T)
    (cloner : Cloner T) :
    ∃ out, a.clone d cloner = .ok out ∧
      Clones Holds d cloner m.count m out := by
  unfold clone
  cases hinner : a.inner with
  | none =>
      obtain rfl := h.of_none hinner
      exact ⟨_, rfl, Clones.of_empty d cloner _ holds_new⟩
  | some inner =>
      obtain ⟨hne, hbm, hdense⟩ := h.of_some hinner
      have hsteps : ∀ (j : ℕ) (step : CloneStep T ℕ) (v : T),
          ((List.range m.count).map fun i _ => do
            let v ← inner.data.get i
            return (i, v, i + 1))[j]? = some step →
          m.values[j]? = some v → step j = .ok (j, v, j + 1) := by
        intro j step v hstep hv
        rw [List.getElem?_map] at hstep
        obtain ⟨i, hi, rfl⟩ := Option.map_eq_some_iff.mp hstep
        obtain ⟨-, rfl⟩ := List.getElem?_eq_some_iff.mp hi
        simp [Block.get_of_slot (hdense.slot_of_values hv)]
      have hfill := fill_spec d cloner _ hne (by simp) hsteps
      simpa only [hbm, ChildMap.countOnes_present] using hfill

end PackedArray

namespace FixedArray

variable {T : Type} {A : Arity} {a : PackedArray T A} {m : ChildMap A.LEN T}

theorem fromPacked_spec (h : a.Holds m) :
    ∃ out, fromPacked a = .ok out ∧ out.contents = m := by
  unfold fromPacked
  cases hinner : a.inner with
  | none => exact ⟨new, rfl, (h.of_none hinner).symm⟩
  | some inner =>
      obtain ⟨-, hbm, hdense⟩ := h.of_some hinner
      obtain ⟨b', out, hmove, hcap, hb', hout⟩ := hdense.placed.moveOut
      have hzip : (Bitmap.bits m.present).zipIdx =
          (Bitmap.bits m.present).map fun i => (i, Bitmap.rank m.present i) := by
        rw [List.zipIdx_eq_zip_range', Bitmap.length_bits,
          ← List.range_eq_range', ← Bitmap.map_rank_bits, ← List.zip_map']
        simp
      have hfree := hb'.dealloc (hcap.trans hdense.cap)
      refine ⟨out, ?_, hout⟩
      simp only [hbm, hzip, hmove, ChildMap.countOnes_present, hfree, ok_bind,
        pure_eq_ok]

theorem fromPackedRef_spec (h : a.Holds m) (f : T → T) :
    ∃ out, fromPackedRef f a = .ok out ∧ out.contents = m.map fun _ => f := by
  refine ⟨_, ?_, contents_cloneEntries f m⟩
  simp only [fromPackedRef, h.collect_iterPresent, ok_bind, pure_eq_ok]

end FixedArray

end ArityArrays
