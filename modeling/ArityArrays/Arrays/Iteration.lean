import ArityArrays.Arrays.Placement
import ArityArrays.Arrays.Slots

/-!
# Iterating a sparse array

A sparse array has two kinds of iterator: over its present entries, driven by
the set bits, and over all its indices, driven by a range.  Both draw the
elements from a stream that only knows the order of the elements, so pairing
every index with its own element is a matter of counting.
-/

namespace ArityTries.ChildMap

variable {n : ℕ} {T U : Type}

/-- The map with `f i v` for every value `v` at `i`. -/
def map (f : Fin n → T → U) (m : ChildMap n T) : ChildMap n U :=
  ⟨fun i => (m.get i).map (f i)⟩

section Map

variable (f : Fin n → T → U) (m : ChildMap n T)

theorem get_map (i : Fin n) : (m.map f).get i = (m.get i).map (f i) := rfl

@[simp] theorem present_map : (m.map f).present = m.present := by
  ext i
  simp [get_map]

theorem iterPresent_map : (m.map f).iterPresent =
    m.iterPresent.map fun e => (e.1, f e.1 e.2) := by
  rw [iterPresent, iterPresent, List.map_filterMap]
  refine List.filterMap_congr fun i _ => ?_
  simp [get_map, Function.comp_def]

theorem values_map : (m.map f).values =
    m.iterPresent.map fun e => f e.1 e.2 := by
  rw [values, iterPresent_map, List.map_map]
  rfl

theorem count_map : (m.map f).count = m.count := by
  rw [count_eq_card, count_eq_card, present_map]

theorem map_id : m.map (fun _ v => v) = m :=
  ext_get fun i => by simp [get_map]

end Map

/-! ### Entries stored in turn -/

/-- The map left behind when the entries are stored one after the other. -/
def ofEntries (entries : List (Fin n × T)) : ChildMap n T :=
  entries.foldl (fun m entry => m.set entry.1 entry.2) empty

theorem get_foldl_set {entries : List (Fin n × T)}
    (hkeys : entries.Pairwise fun e e' => e.1 ≠ e'.1) (m : ChildMap n T)
    (i : Fin n) :
    (∀ v, (i, v) ∈ entries →
        (entries.foldl (fun m entry => m.set entry.1 entry.2) m).get i =
          some v) ∧
      ((∀ v, (i, v) ∉ entries) →
        (entries.foldl (fun m entry => m.set entry.1 entry.2) m).get i =
          m.get i) := by
  induction entries generalizing m with
  | nil => simp
  | cons entry entries ih =>
      obtain ⟨hne, hkeys⟩ := List.pairwise_cons.mp hkeys
      obtain ⟨hin, hout⟩ := ih hkeys (m.set entry.1 entry.2)
      rw [List.foldl_cons]
      constructor
      · intro v hv
        rcases List.mem_cons.mp hv with rfl | hv
        · rw [hout fun w hw => hne (i, w) hw rfl, get_set_self]
        · exact hin v hv
      · intro hnone
        have hi : i ≠ entry.1 := by
          rintro rfl
          exact hnone entry.2 (by simp)
        rw [hout fun v hv => hnone v (List.mem_cons_of_mem entry hv),
          get_set_of_ne m hi]

/-- Storing the entries of a map gives the map back. -/
theorem ofEntries_iterPresent (m : ChildMap n T) :
    ofEntries m.iterPresent = m := by
  refine ext_get fun i => ?_
  obtain ⟨hin, hout⟩ := get_foldl_set
    (m.iterPresent_pairwise.imp fun h => h.ne) empty i
  unfold ofEntries
  cases hv : m.get i with
  | some v => exact hin v (mem_iterPresent.mpr hv)
  | none =>
      refine hout fun v hmem => ?_
      rw [mem_iterPresent, hv] at hmem
      cases hmem

end ArityTries.ChildMap

namespace ArityArrays

open ArityTries Checked DoubleEnded

/-- A mutable reference: the slot it points to and the value there. -/
structure Place (T : Type) where
  slot : ℕ
  value : T

/-- A mutable reference to the value in slot `p`. -/
def refMut {T : Type} (b : Block T) (p : ℕ) : Checked (Place T) := do
  let v ← b.get p
  return ⟨p, v⟩

theorem refMut_of_slot {T : Type} {b : Block T} {p : ℕ} {v : T}
    (h : b.slot p = some v) : refMut b p = .ok ⟨p, v⟩ := by
  simp only [refMut, Block.get_of_slot h, ok_bind, pure_eq_ok]

/-- References to the values of `m`, which stand in the slots `pos`. -/
def places {n : ℕ} {T : Type} (m : ChildMap n T) (pos : Fin n → ℕ) :
    ChildMap n (Place T) :=
  m.map fun i v => ⟨pos i, v⟩

section Places

variable {n : ℕ} {T : Type} {m : ChildMap n T} {b : Block T}
variable {pos : Fin n → ℕ}

theorem map_slot_places (m : ChildMap n T) (pos : Fin n → ℕ) :
    (places m pos).values.map Place.slot = (Bitmap.bits m.present).map pos := by
  rw [places, ChildMap.values_map, List.map_map, ← m.map_fst_iterPresent,
    List.map_map]
  rfl

theorem map_value_places (m : ChildMap n T) (pos : Fin n → ℕ) :
    (places m pos).values.map Place.value = m.values := by
  rw [places, ChildMap.values_map, List.map_map]
  rfl

@[simp] theorem places_empty (pos : Fin n → ℕ) :
    places (ChildMap.empty : ChildMap n T) pos = ChildMap.empty := rfl

/-- Every reference points to an initialised slot. -/
theorem Placed.slot_of_place (h : Placed m b pos) {z : Place T}
    (hz : z ∈ (places m pos).values) : b.slot z.slot = some z.value := by
  rw [places, ChildMap.values_map] at hz
  obtain ⟨⟨i, v⟩, hv, rfl⟩ := List.mem_map.mp hz
  exact h.slot_of_get (ChildMap.mem_iterPresent.mp hv)

end Places

theorem mapM_refMut {T : Type} {b : Block T} (zs : List (Place T))
    (h : ∀ z ∈ zs, b.slot z.slot = some z.value) :
    (zs.map Place.slot).mapM (refMut b) = .ok zs := by
  induction zs with
  | nil => rfl
  | cons z zs ih =>
      have hz := refMut_of_slot (h z (by simp))
      have hzs := ih fun y hy => h y (List.mem_cons_of_mem z hy)
      simp only [List.map_cons, List.mapM_cons, hz, hzs, ok_bind, pure_eq_ok]

section Drivers

variable {n : ℕ} {α γ : Type}

/-- The iterator over the present entries: the set bits paired with the
elements that `take` yields. -/
def ofPresent (take : End → γ → Checked (α × γ)) :
    DoubleEnded (BitIter n × γ) (Fin n × α) :=
  BitIter.iterator.attach (paired take)

/-- What an iterator over all slots keeps besides its range: a snapshot of the
bitmap and the stream of the elements. -/
structure Scattered (n : ℕ) (γ : Type) where
  bitmap : Bitmap n
  elems : γ

/-- Pair an index whose bit is set with the next element, and any other with
`none`. -/
def scatter (take : End → γ → Checked (α × γ)) (e : End) (i : Fin n)
    (s : Scattered n γ) : Checked ((Fin n × Option α) × Scattered n γ) :=
  if Bitmap.test s.bitmap i then do
    let out ← take e s.elems
    return ((i, some out.1), { s with elems := out.2 })
  else .ok ((i, none), s)

/-- The iterator over all slots. -/
def ofSlots (take : End → γ → Checked (α × γ)) :
    DoubleEnded (NicheRangeInclusive n × Scattered n γ) (Fin n × Option α) :=
  NicheRangeInclusive.iterator.attach (scatter take)

variable {take : End → γ → Checked (α × γ)} {S : γ → List α → Prop}

/-- The stream has the elements of the items that carry one, and these are the
items at the set bits. -/
def Scatters (S : γ → List α → Prop) (s : Scattered n γ)
    (zs : List (Fin n × Option α)) : Prop :=
  S s.elems (zs.filterMap Prod.snd) ∧
    ∀ z ∈ zs, Bitmap.test s.bitmap z.1 = z.2.isSome

theorem serves_scatter (h : Supplies take S) :
    Serves (scatter (n := n) take) Prod.fst (Scatters S) where
  front := by
    rintro s ⟨i, o⟩ zs ⟨hs, htest⟩
    have hi : Bitmap.test s.bitmap i = o.isSome := htest (i, o) (by simp)
    have hrest := fun z hz => htest z (List.mem_cons_of_mem _ hz)
    cases o with
    | none => exact ⟨s, by simp [scatter, hi], hs, hrest⟩
    | some x =>
        obtain ⟨r', htake, hr'⟩ := h.front hs
        exact ⟨{ s with elems := r' }, by simp [scatter, hi, htake], hr', hrest⟩
  back := by
    rintro s zs ⟨i, o⟩ ⟨hs, htest⟩
    have hi : Bitmap.test s.bitmap i = o.isSome := htest (i, o) (by simp)
    have hrest := fun z hz => htest z (List.mem_append_left _ hz)
    rw [List.filterMap_append] at hs
    cases o with
    | none =>
        refine ⟨s, by simp [scatter, hi], ?_, hrest⟩
        simpa using hs
    | some x =>
        obtain ⟨r', htake, hr'⟩ := h.back hs
        exact ⟨{ s with elems := r' }, by simp [scatter, hi, htake], hr', hrest⟩

theorem ofPresent_refines (h : Supplies take S) :
    (ofPresent (n := n) take).Refines
      (Attached BitIter.Left (fun r zs => S r (zs.map Prod.snd)) Prod.fst) :=
  BitIter.refines.attach h.paired

theorem ofSlots_refines (h : Supplies take S) :
    (ofSlots (n := n) take).Refines
      (Attached NicheRangeInclusive.Left (Scatters S) Prod.fst) :=
  NicheRangeInclusive.refines.attach (serves_scatter h)

/-- Started on the bitmap of a map whose values the stream has in order, the
iterator has the entries of the map. -/
theorem ofPresent_start {c : ChildMap n α} {r : γ} (hr : S r c.values) :
    Attached BitIter.Left (fun r zs => S r (zs.map Prod.snd)) Prod.fst
      (⟨c.present⟩, r) c.iterPresent :=
  ⟨c.map_fst_iterPresent.symm, hr⟩

theorem ofSlots_start [NeZero n] {c : ChildMap n α} {r : γ}
    (hr : S r c.values) :
    Attached NicheRangeInclusive.Left (Scatters S) Prod.fst
      (NicheRangeInclusive.full n, ⟨c.present, r⟩) c.entries := by
  refine ⟨?_, ?_, ?_⟩
  · rw [c.map_fst_entries]
    exact NicheRangeInclusive.left_full n
  · rwa [c.filterMap_snd_entries]
  · intro z hz
    obtain ⟨i, -, rfl⟩ := List.mem_map.mp hz
    exact c.test_present i

theorem ofPresent_actsAs (h : Supplies take S) {c : ChildMap n α} {r : γ}
    (hr : S r c.values) :
    (ofPresent take).ActsAs (fun s => s.1.len)
      (fun _ => (ofPresent take).foldFrom) (⟨c.present⟩, r) c.iterPresent := by
  refine (ofPresent_refines h).actsAs ?_ (fun _ _ _ _ _ => rfl)
    (ofPresent_start hr)
  rintro s zs ⟨hs, -⟩
  rw [BitIter.len_of_left hs, List.length_map]

theorem ofSlots_actsAs [NeZero n] (h : Supplies take S) {c : ChildMap n α}
    {r : γ} (hr : S r c.values) :
    (ofSlots take).ActsAs (fun s => s.1.len)
      (fun _ => (ofSlots take).foldFrom)
      (NicheRangeInclusive.full n, ⟨c.present, r⟩) c.entries := by
  refine (ofSlots_refines h).actsAs ?_ (fun _ _ _ _ _ => rfl)
    (ofSlots_start hr)
  rintro s zs ⟨hs, -⟩
  rw [NicheRangeInclusive.len_of_left hs, List.length_map]

end Drivers

end ArityArrays
