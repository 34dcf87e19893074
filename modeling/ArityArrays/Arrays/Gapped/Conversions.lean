import ArityArrays.Arrays.Gapped.Capacity
import ArityArrays.Arrays.Gapped.Iterators
import ArityArrays.Arrays.Packed.Conversions

/-!
# Conversions of the gapped array

A gapped array built from a fixed one spreads its elements over the least
capacity that holds them.  A clone keeps the slots of its source.  Both fill
their block under a guard that knows which slots are initialised, since these
are no prefix of the block.
-/

namespace ArityArrays

open ArityTries Checked

/-! ## Definitions -/

namespace GappedArray

variable {T : Type} {A : Arity}

/-- `From<FixedArray<Option<T>, A>>`. -/
def fromFixed (src : FixedArray (Option T) A) : Checked (GappedArray T A) := do
  let occupancy ← src.occupancy
  let count := Bitmap.countOnes occupancy
  if count = 0 then
    return new
  let cap ← pow2CapFor A count
  let capExp ← capExpOf cap
  let live ← spreadLive A count cap "spread position < cap <= N"
  let filled ← src.moveInto (fun r => spreadPos r count cap) (Block.alloc cap)
  return ⟨some ⟨occupancy, live, capExp, filled.1, 0⟩⟩

/-- `FromIterator`. -/
def fromIter (entries : List (A.Index × T)) : Checked (GappedArray T A) :=
  fromFixed (FixedArray.stage entries)

/-- Dropping a `GappedFillGuard`: the initialised slots one by one, then the
block. -/
def fillGuardDrop (d : Destructor T) (cap : ℕ) (initialized : Bitmap A.LEN) :
    Routine (Block T) T :=
  (Block.dropRun d (slots initialized)).andThen (Block.free cap)

/-- A fill loop under a `GappedFillGuard`. -/
def fill (d : Destructor T) (cloner : Cloner T) (occupancy live : Bitmap A.LEN)
    (capExp cap : ℕ) (steps : List (CloneStep T (Bitmap A.LEN))) :
    Checked (Outcome (Option (GappedArray T A)) T) := do
  let out ← guardedFill
    (cloneFill cloner 0 steps (Block.alloc cap, Bitmap.ZERO))
    (fillGuardDrop d cap)
  return ⟨out.state.map fun data => ⟨some ⟨occupancy, live, capExp, data, 0⟩⟩,
    out.events, out.exit⟩

/-- Clone the entry of a rank into its spread slot. -/
def spreadStep (count cap : ℕ) (entry : (A.Index × T) × ℕ) :
    CloneStep T (Bitmap A.LEN) := fun initialized => do
  let p ← spreadPos entry.2 count cap
  let pIdx ← expect (tryFromUsize p) "p < cap <= N"
  return (p, entry.1.2, Bitmap.withBit initialized pIdx)

/-- `From<&FixedArray<Option<T>, A>>`. -/
def fromFixedRef (d : Destructor T) (cloner : Cloner T)
    (src : FixedArray (Option T) A) :
    Checked (Outcome (Option (GappedArray T A)) T) := do
  let occupancy ← src.occupancy
  let count := Bitmap.countOnes occupancy
  if count = 0 then
    return ⟨some new, [], .returns⟩
  let cap ← pow2CapFor A count
  let capExp ← capExpOf cap
  let live ← spreadLive A count cap "p < cap <= N"
  let entries ← FixedArray.presentIter.collect src.intoIter
  fill d cloner occupancy live capExp cap
    (entries.zipIdx.map (spreadStep count cap))

def clone (d : Destructor T) (cloner : Cloner T) (g : GappedArray T A) :
    Checked (Outcome (Option (GappedArray T A)) T) :=
  match g.inner with
  | none => .ok ⟨some new, [], .returns⟩
  | some inner => do
      let cap := inner.capacity
      let capExp ← capExpOf cap
      fill d cloner inner.occupancy inner.live capExp cap
        ((Bitmap.bits inner.live).map fun (i : A.Index) initialized => do
          let v ← inner.data.get i
          return (i.val, v, Bitmap.withBit initialized i))

end GappedArray

namespace FixedArray

variable {T : Type} {A : Arity}

/-- `From<GappedArray<T, A>>`. -/
def fromGapped (src : GappedArray T A) : Checked (FixedArray (Option T) A) :=
  match src.inner with
  | none => .ok new
  | some inner => do
      let moved ← moveOut ((Bitmap.bits inner.occupancy).zip
        (GappedArray.slots inner.live)) inner.data
      moved.1.dealloc inner.capacity
      return moved.2

/-- `From<&GappedArray<T, A>>`. -/
def fromGappedRef (f : T → T) (src : GappedArray T A) :
    Checked (FixedArray (Option T) A) := do
  let entries ← GappedArray.PresentIter.collect src.iterPresent
  return cloneEntries f entries

end FixedArray

namespace GappedArray

variable {T : Type} {A : Arity}

/-- `From<PackedArray<T, A>>`. -/
def fromPacked (src : PackedArray T A) : Checked (GappedArray T A) := do
  let fixed ← FixedArray.fromPacked src
  fromFixed fixed

/-- `From<&PackedArray<T, A>>`. -/
def fromPackedRef (f : T → T) (src : PackedArray T A) :
    Checked (GappedArray T A) := do
  let fixed ← FixedArray.fromPackedRef f src
  fromFixed fixed

end GappedArray

namespace PackedArray

variable {T : Type} {A : Arity}

/-- `From<GappedArray<T, A>>`. -/
def fromGapped (src : GappedArray T A) : Checked (PackedArray T A) := do
  let fixed ← FixedArray.fromGapped src
  fromFixed fixed

/-- `From<&GappedArray<T, A>>`. -/
def fromGappedRef (f : T → T) (src : GappedArray T A) :
    Checked (PackedArray T A) := do
  let fixed ← FixedArray.fromGappedRef f src
  fromFixed fixed

end PackedArray

/-! ## What they hold -/

namespace GappedArray

variable {T : Type} {A : Arity} {m : ChildMap A.LEN T}

theorem fits_spread {count cap : ℕ} (hcount : count ≤ cap) :
    Block.Fits cap (fun r => r * cap / count) count where
  mono _ _ hrs hs := spread_lt_spread hcount hrs hs
  lt _ hr := spread_lt hr (by omega)

theorem Laid.holds {g : GappedArray T A} {inner : Inner T A}
    {pos : A.Index → ℕ} (h : Laid inner m pos) (hinner : g.inner = some inner) :
    g.Holds m ∧ g.capacity = inner.capacity := by
  constructor
  · exact Or.inr ⟨inner, hinner, pos, h⟩
  · rw [capacity, hinner]

/-- A fixed array with entries becomes an evenly spread block. -/
theorem fromFixed_laid {src : FixedArray (Option T) A}
    (hcount : src.contents.count ≠ 0) :
    ∃ inner, fromFixed src = .ok ⟨some inner⟩ ∧
      Laid inner src.contents (spread src.contents inner.capacity) ∧
      LeastCapacity src.contents.count inner.capacity := by
  obtain ⟨cap, hcap, hleast, hle⟩ := pow2CapFor_least A src.contents.count_le
  obtain ⟨-, ⟨k, rfl⟩, hfits, -⟩ := hleast.resolve_left (by simp [hcount])
  obtain ⟨live, hlive, hmem⟩ := spreadLive_eq hfits hle
    "spread position < cap <= N"
  obtain ⟨b, hmove, hfilled⟩ := src.moveInto_spec
    (fun r => r * 2 ^ k / src.contents.count)
    (fun r hr => spreadPos_eq hfits hle hr) (fits_spread hfits)
  have hlaid : Laid ⟨src.contents.present, live, k, b, 0⟩ src.contents
      (spread src.contents (2 ^ k)) :=
    laid_of_spread rfl hle hfilled.cap hmem (placed_of_filled hfilled
      (spread_mono hfits) (spread_lt_cap hfits) fun _ _ => rfl)
  refine ⟨_, ?_, hlaid, hleast⟩
  simp [fromFixed, src.occupancy_eq, ChildMap.countOnes_present, hcount, hcap,
    capExpOf_two_pow, hlive, hmove]

theorem fromFixed_spec (src : FixedArray (Option T) A) :
    ∃ g, fromFixed src = .ok g ∧ g.Holds src.contents ∧
      LeastCapacity src.contents.count g.capacity := by
  by_cases hzero : src.contents.count = 0
  · refine ⟨new, ?_, Or.inl ⟨rfl, ChildMap.eq_empty_of_count hzero⟩,
      Or.inl ⟨hzero, rfl⟩⟩
    simp [fromFixed, src.occupancy_eq, ChildMap.countOnes_present, hzero]
  · obtain ⟨inner, hfrom, hlaid, hleast⟩ := fromFixed_laid hzero
    obtain ⟨hholds, hcapacity⟩ := hlaid.holds (g := ⟨some inner⟩) rfl
    refine ⟨_, hfrom, hholds, ?_⟩
    rw [hcapacity]
    exact hleast

theorem fromIter_spec (entries : List (A.Index × T)) :
    ∃ g, fromIter entries = .ok g ∧ g.Holds (ChildMap.ofEntries entries) ∧
      LeastCapacity (ChildMap.ofEntries entries).count g.capacity := by
  rw [← FixedArray.contents_stage]
  exact fromFixed_spec (FixedArray.stage entries)

/-! ### Filling at the live slots -/

section Fill

variable {live : Bitmap A.LEN}

/-- The `j`-th live slot. -/
def liveSlot (live : Bitmap A.LEN) (j : ℕ) : ℕ := ((slots live)[j]?).getD 0

/-- The first `j` live slots. -/
def firstLive (live : Bitmap A.LEN) (j : ℕ) : Bitmap A.LEN :=
  ((Bitmap.bits live).take j).toFinset

theorem map_liveSlot {k : ℕ} (hk : k ≤ Bitmap.countOnes live) :
    (List.range k).map (liveSlot live) = slots (firstLive live k) := by
  rw [slots, firstLive, Bitmap.bits_toFinset
    ((Bitmap.bits_pairwise live).sublist (List.take_sublist k _))]
  rw [← Bitmap.length_bits] at hk
  refine List.ext_getElem (by simp [hk]) fun j hj _ => ?_
  have hj' : j < (Bitmap.bits live).length := by
    simp at hj
    omega
  simp [liveSlot, slots, List.getElem?_eq_getElem hj']

theorem firstLive_succ {j : ℕ} {p : A.Index}
    (hp : (Bitmap.bits live)[j]? = some p) :
    Bitmap.withBit (firstLive live j) p = firstLive live (j + 1) := by
  ext q
  simp [firstLive, List.take_add_one, hp]

theorem fits_liveSlot {cap : ℕ} (hcap : ∀ p ∈ live, p.val < cap) :
    Block.Fits cap (liveSlot live) (Bitmap.countOnes live) := by
  have hget : ∀ r (hr : r < (Bitmap.bits live).length),
      liveSlot live r = ((Bitmap.bits live)[r]).val := by
    intro r hr
    simp [liveSlot, slots, List.getElem?_eq_getElem hr]
  have hsorted := List.pairwise_iff_getElem.mp (Bitmap.bits_pairwise live)
  rw [← Bitmap.length_bits]
  refine ⟨fun r s hrs hs => ?_, fun r hr => ?_⟩
  · rw [hget r (hrs.trans hs), hget s hs]
    exact hsorted r s (hrs.trans hs) hs hrs
  · rw [hget r hr]
    exact hcap _ (Bitmap.mem_bits.mp (List.getElem_mem hr))

/-- A `GappedFillGuard` releases what it guards. -/
theorem fillGuardDrop_spec (d : Destructor T) {b : Block T} {cap : ℕ}
    {ws : List T} (hcap : ∀ p ∈ live, p.val < cap)
    (hws : ws.length ≤ Bitmap.countOnes live)
    (h : Block.Filled b cap (liveSlot live) ws) :
    ∃ out, fillGuardDrop d cap (firstLive live ws.length) b = .ok out ∧
      Releases d cap ws out := by
  have hrelease := releases_dropRun d h ((fits_liveSlot hcap).of_le hws).nodup
  rwa [map_liveSlot hws] at hrelease

variable {pos : A.Index → ℕ} {k : ℕ}

theorem fill_spec (d : Destructor T) (cloner : Cloner T)
    (steps : List (CloneStep T (Bitmap A.LEN))) (hle : 2 ^ k ≤ A.LEN)
    (hslots : slots live = (Bitmap.bits m.present).map pos)
    (hmono : ∀ i ∈ m.present, ∀ j ∈ m.present, i < j → pos i < pos j)
    (hbound : ∀ i ∈ m.present, pos i < 2 ^ k)
    (hlen : steps.length = m.count)
    (hsteps : ∀ (j : ℕ) (step : CloneStep T (Bitmap A.LEN)) (v : T),
      steps[j]? = some step → m.values[j]? = some v →
        step (firstLive live j) =
          .ok (liveSlot live j, v, firstLive live (j + 1))) :
    ∃ out, fill d cloner m.present live k (2 ^ k) steps = .ok out ∧
      Clones (fun g m => ∃ inner, g.inner = some inner ∧ Laid inner m pos ∧
        inner.capacity = 2 ^ k) d cloner (2 ^ k) m out := by
  have hcount : Bitmap.countOnes live = m.values.length := by
    have := congrArg List.length hslots
    simpa [slots, Bitmap.length_bits, ChildMap.countOnes_present,
      ChildMap.length_values] using this
  have hmem : ∀ p : A.Index, p ∈ live ↔ ∃ i ∈ m.present, pos i = p := by
    intro p
    have hp : p ∈ live ↔ p.val ∈ slots live := by
      simp [slots, Fin.val_inj]
    rw [hp, hslots]
    simp
  have hcap : ∀ p ∈ live, p.val < 2 ^ k := by
    intro p hp
    obtain ⟨i, hi, hpos⟩ := (hmem p).mp hp
    rw [← hpos]
    exact hbound i hi
  have hfits := fits_liveSlot hcap
  rw [hcount] at hfits
  rw [← ChildMap.length_values] at hlen
  obtain ⟨out, hfill, hdone, hpanic⟩ := guardedFill_spec d cloner
    (firstLive live) hfits hlen hsteps
    fun ws hws b hb => fillGuardDrop_spec d hcap (hws.trans_eq hcount.symm) hb
  have hfresh : firstLive live 0 = Bitmap.ZERO := rfl
  rw [hfresh] at hfill
  simp only [fill, hfill, ok_bind, pure_eq_ok]
  refine ⟨_, rfl, fun hclones => ?_, fun hclones => ?_⟩
  · obtain ⟨b, rfl, hfilled⟩ := hdone hclones
    obtain ⟨m', hpresent, hvalues⟩ := ChildMap.exists_values m
      ((Cloner.length_clones hclones).trans m.length_values)
    rw [← hvalues] at hfilled
    have hslot : ∀ i ∈ m'.present,
        liveSlot live (Bitmap.rank m'.present i) = pos i := by
      intro i hi
      have hselect := Bitmap.select_rank hi
      rw [Bitmap.select] at hselect
      simp [liveSlot, hslots, ← hpresent, hselect]
    have hplaced := placed_of_filled hfilled (by rwa [hpresent])
      (by rwa [hpresent]) hslot
    have hlaid : Laid ⟨m.present, live, k, b, 0⟩ m' pos := by
      refine ⟨hpresent.symm, fun p => ?_, hplaced, hfilled.cap, hle⟩
      rw [hmem, hplaced.isSome_slot, hpresent]
    exact ⟨_, m', rfl, ⟨_, rfl, hlaid, rfl⟩, hpresent, hvalues⟩
  · obtain ⟨hstate, hevents⟩ := hpanic hclones
    exact ⟨by rw [hstate]; rfl, hevents⟩

end Fill

/-- The slot computed for an entry is the live slot of its rank. -/
theorem spreadStep_eq {live : Bitmap A.LEN} {cap j : ℕ} {e : A.Index × T}
    {v : T} (hcount : m.count ≤ cap) (hle : cap ≤ A.LEN)
    (hslots : slots live = (Bitmap.bits m.present).map (spread m cap))
    (he : m.iterPresent[j]? = some e) (hv : m.values[j]? = some v) :
    spreadStep m.count cap (e, 0 + j) (firstLive live j) =
      .ok (liveSlot live j, v, firstLive live (j + 1)) := by
  rw [ChildMap.values, List.getElem?_map, he] at hv
  cases hv
  have hselect : Bitmap.select m.present j = some e.1 := by
    rw [Bitmap.select, ← m.map_fst_iterPresent, List.getElem?_map, he]
    rfl
  have hrank := (Bitmap.select_eq_some.mp hselect).2
  have hj : j < m.count := (List.getElem?_eq_some_iff.mp he).1
  have hslot : (slots live)[j]? = some (j * cap / m.count) := by
    rw [Bitmap.select] at hselect
    simp [hslots, hselect, spread, hrank]
  obtain ⟨p, hp, hpslot⟩ := Option.map_eq_some_iff.mp
    ((List.getElem?_map ..).symm.trans hslot)
  have hidx : (tryFromUsize (j * cap / m.count) : Option A.Index) = some p := by
    simp [tryFromUsize, ← hpslot]
  simp [spreadStep, spreadPos_eq hcount hle hj, hidx, liveSlot, hslot,
    firstLive_succ hp]

/-- A fixed array with entries is cloned into an evenly spread block. -/
theorem fromFixedRef_laid (d : Destructor T) (cloner : Cloner T)
    {src : FixedArray (Option T) A} (hcount : src.contents.count ≠ 0) :
    ∃ out cap, fromFixedRef d cloner src = .ok out ∧
      LeastCapacity src.contents.count cap ∧
      Clones (fun g m => ∃ inner, g.inner = some inner ∧
        Laid inner m (spread src.contents cap) ∧ inner.capacity = cap)
        d cloner cap src.contents out := by
  obtain ⟨cap, hcap, hleast, hle⟩ := pow2CapFor_least A src.contents.count_le
  obtain ⟨-, ⟨k, rfl⟩, hfits, -⟩ := hleast.resolve_left (by simp [hcount])
  obtain ⟨live, hlive, hmem⟩ := spreadLive_eq hfits hle "p < cap <= N"
  have hslots := slots_spread hfits hle hmem
  have hentries := FixedArray.presentIter_refines.collect
    src.filtered_intoIter
  have hsteps : ∀ (j : ℕ) (step : CloneStep T (Bitmap A.LEN)) (v : T),
      (src.contents.iterPresent.zipIdx.map
        (spreadStep src.contents.count (2 ^ k)))[j]? = some step →
      src.contents.values[j]? = some v → step (firstLive live j) =
        .ok (liveSlot live j, v, firstLive live (j + 1)) := by
    intro j step v hstep hv
    rw [List.getElem?_map, List.getElem?_zipIdx] at hstep
    obtain ⟨entry, hentry, rfl⟩ := Option.map_eq_some_iff.mp hstep
    obtain ⟨e, he, rfl⟩ := Option.map_eq_some_iff.mp hentry
    exact spreadStep_eq hfits hle hslots he hv
  obtain ⟨out, hfill, hclones⟩ := fill_spec d cloner _ hle hslots
    (spread_mono hfits) (spread_lt_cap hfits)
    (by rw [List.length_map, List.length_zipIdx]; rfl) hsteps
  refine ⟨out, 2 ^ k, ?_, hleast, hclones⟩
  simp [fromFixedRef, src.occupancy_eq, ChildMap.countOnes_present, hcount,
    hcap, capExpOf_two_pow, hlive, hentries, hfill]

theorem fromFixedRef_spec (d : Destructor T) (cloner : Cloner T)
    (src : FixedArray (Option T) A) :
    ∃ out cap, fromFixedRef d cloner src = .ok out ∧
      LeastCapacity src.contents.count cap ∧
      Clones (fun g m => g.Holds m ∧ g.capacity = cap) d cloner cap src.contents
        out := by
  by_cases hzero : src.contents.count = 0
  · refine ⟨⟨some new, [], .returns⟩, 0, ?_, Or.inl ⟨hzero, rfl⟩, ?_⟩
    · simp [fromFixedRef, src.occupancy_eq, ChildMap.countOnes_present, hzero]
    · rw [ChildMap.eq_empty_of_count hzero]
      exact Clones.of_empty d cloner 0 ⟨holds_new, rfl⟩
  · obtain ⟨out, cap, hfrom, hleast, hclones⟩ :=
      fromFixedRef_laid d cloner hzero
    refine ⟨out, cap, hfrom, hleast, hclones.mono ?_⟩
    rintro g m ⟨inner, hinner, hlaid, rfl⟩
    exact hlaid.holds hinner

/-- A clone has the slots of its source. -/
theorem clone_spec {g : GappedArray T A} (h : g.Holds m) (d : Destructor T)
    (cloner : Cloner T) :
    ∃ out, g.clone d cloner = .ok out ∧
      Clones (fun g' m => g'.Holds m ∧ g'.capacity = g.capacity) d cloner
        g.capacity m out := by
  unfold clone
  cases hinner : g.inner with
  | none =>
      obtain rfl := h.of_none hinner
      refine ⟨_, rfl, Clones.of_empty d cloner _ ⟨holds_new, ?_⟩⟩
      simp [capacity, hinner, new]
  | some inner =>
      obtain ⟨pos, hlaid⟩ := h.of_some hinner
      have hcapacity : g.capacity = 2 ^ inner.capExp := by
        simp [capacity, hinner, Inner.capacity]
      have hsteps : ∀ (j : ℕ) (step : CloneStep T (Bitmap A.LEN)) (v : T),
          ((Bitmap.bits inner.live).map fun (i : A.Index) initialized => do
            let v ← inner.data.get i
            return (i.val, v, Bitmap.withBit initialized i))[j]? = some step →
          m.values[j]? = some v → step (firstLive inner.live j) =
            .ok (liveSlot inner.live j, v, firstLive inner.live (j + 1)) := by
        intro j step v hstep hv
        rw [List.getElem?_map] at hstep
        obtain ⟨p, hp, rfl⟩ := Option.map_eq_some_iff.mp hstep
        have hslot := congrArg (·[j]?) hlaid.map_slot
        simp only [slots, List.getElem?_map, hp, hv, Option.map_some,
          Option.some.injEq] at hslot
        simp [Block.get_of_slot hslot, liveSlot, slots, hp, firstLive_succ hp]
      obtain ⟨out, hfill, hclones⟩ := fill_spec d cloner _ hlaid.le
        hlaid.slots_live hlaid.placed.mono (fun i hi => hlaid.pos_lt hi)
        (by
          rw [List.length_map, Bitmap.length_bits, hlaid.countOnes_live,
            hlaid.countOnes_occupancy]) hsteps
      rw [hcapacity]
      refine ⟨out, ?_, hclones.mono ?_⟩
      · simp only [Inner.capacity, capExpOf_two_pow, hlaid.occupancy, hfill,
          ok_bind]
      · rintro g' m' ⟨inner', hinner', hlaid', hcapacity'⟩
        rw [← hcapacity']
        exact hlaid'.holds hinner'

end GappedArray

namespace FixedArray

variable {T : Type} {A : Arity} {g : GappedArray T A} {m : ChildMap A.LEN T}

theorem fromGapped_spec (h : g.Holds m) :
    ∃ out, fromGapped g = .ok out ∧ out.contents = m := by
  unfold fromGapped
  cases hinner : g.inner with
  | none => exact ⟨new, rfl, (h.of_none hinner).symm⟩
  | some inner =>
      obtain ⟨pos, hlaid⟩ := h.of_some hinner
      obtain ⟨b', out, hmove, hcap, hb', hout⟩ := hlaid.placed.moveOut
      have hzip : (Bitmap.bits inner.occupancy).zip
          (GappedArray.slots inner.live) =
            (Bitmap.bits m.present).map fun i => (i, pos i) := by
        rw [hlaid.slots_live, hlaid.occupancy, ← List.zip_map', List.map_id']
      have hfree := hb'.dealloc (hcap.trans hlaid.cap)
      refine ⟨out, ?_, hout⟩
      simp only [hzip, hmove, hfree, ok_bind, pure_eq_ok]

theorem fromGappedRef_spec (h : g.Holds m) (f : T → T) :
    ∃ out, fromGappedRef f g = .ok out ∧ out.contents = m.map fun _ => f := by
  refine ⟨_, ?_, contents_cloneEntries f m⟩
  simp only [fromGappedRef, h.collect_iterPresent, ok_bind, pure_eq_ok]

end FixedArray

/-! ### Through a fixed array -/

section Between

variable {T : Type} {A : Arity} {m : ChildMap A.LEN T}

theorem GappedArray.fromPacked_spec {a : PackedArray T A} (h : a.Holds m) :
    ∃ g, fromPacked a = .ok g ∧ g.Holds m ∧
      LeastCapacity m.count g.capacity := by
  obtain ⟨fixed, hfixed, rfl⟩ := FixedArray.fromPacked_spec h
  obtain ⟨g, hg, hholds⟩ := fromFixed_spec fixed
  exact ⟨g, by rw [fromPacked, hfixed, ok_bind, hg], hholds⟩

theorem GappedArray.fromPackedRef_spec {a : PackedArray T A} (h : a.Holds m)
    (f : T → T) :
    ∃ g, fromPackedRef f a = .ok g ∧ g.Holds (m.map fun _ => f) ∧
      LeastCapacity m.count g.capacity := by
  obtain ⟨fixed, hfixed, hcontents⟩ := FixedArray.fromPackedRef_spec h f
  obtain ⟨g, hg, hholds⟩ := fromFixed_spec fixed
  rw [hcontents, ChildMap.count_map] at hholds
  exact ⟨g, by rw [fromPackedRef, hfixed, ok_bind, hg], hholds⟩

theorem PackedArray.fromGapped_spec {g : GappedArray T A} (h : g.Holds m) :
    ∃ a, fromGapped g = .ok a ∧ a.Holds m := by
  obtain ⟨fixed, hfixed, rfl⟩ := FixedArray.fromGapped_spec h
  obtain ⟨a, ha, hholds⟩ := fromFixed_spec fixed
  exact ⟨a, by rw [fromGapped, hfixed, ok_bind, ha], hholds⟩

theorem PackedArray.fromGappedRef_spec {g : GappedArray T A} (h : g.Holds m)
    (f : T → T) :
    ∃ a, fromGappedRef f g = .ok a ∧ a.Holds (m.map fun _ => f) := by
  obtain ⟨fixed, hfixed, hcontents⟩ := FixedArray.fromGappedRef_spec h f
  obtain ⟨a, ha, hholds⟩ := fromFixed_spec fixed
  rw [hcontents] at hholds
  exact ⟨a, by rw [fromGappedRef, hfixed, ok_bind, ha], hholds⟩

end Between

end ArityArrays
