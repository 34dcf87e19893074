import ArityArrays.Arrays.Encoding
import ArityArrays.Tries.ChildStore

/-!
# Editing an array in place

The calls that change a sparse array in place: those of a children container,
assignments through the mutable iterators, and extension by a list of entries.
On the map the array stands for they have a plain meaning.
-/

namespace ArityTries.ChildMap

variable {n : ℕ} {T : Type}

/-- Apply `f i` to the value of every index `i` of a list in turn. -/
def modifyAll (m : ChildMap n T) (f : Fin n → T → T) (is : List (Fin n)) :
    ChildMap n T :=
  is.foldl (fun m i => m.modify i (f i)) m

end ArityTries.ChildMap

namespace ArityArrays

open ArityTries Checked

/-! ## Calls on a single array -/

/-- The calls that change an array in place.  Of a mutable iterator one item is
taken for every end in the list, and `f i` is applied through the reference of
every index `i` that comes with one. -/
inductive Edit (T : Type) (A : Arity) where
  | shared (call : ChildMapCall A T)
  | iterPresentMut (es : List End) (f : A.Index → T → T)
  | iterMut (es : List End) (f : A.Index → T → T)
  | extend (entries : List (A.Index × T))

inductive Answer (T : Type) (A : Arity) where
  | shared (answer : ChildMapAnswer A T)
  | items (items : List (Option (A.Index × T)))
  | slots (items : List (Option (A.Index × Option T)))
  | done
  | refused (error : DecodeError)
  | panicked

/-- The same calls on a map. -/
def Edit.model {T : Type} {A : Arity} :
    Model (Edit T A) (Answer T A) (ChildMap A.LEN T)
  | .shared call, m => (.shared (call.model m).1, (call.model m).2)
  | .iterPresentMut es f, m =>
      let items := (Deque.pulls es m.iterPresent).1
      (.items items, m.modifyAll f ((items.filterMap id).map Prod.fst))
  | .iterMut es f, m =>
      let items := (Deque.pulls es m.entries).1
      (.slots items, m.modifyAll f ((items.filterMap id).filterMap fun item =>
        item.2.map fun _ => item.1))
  | .extend entries, m =>
      (.done, entries.foldl (fun m entry => m.set entry.1 entry.2) m)

/-- The references among the items of an iterator over all slots. -/
def presentPlaces {T : Type} {A : Arity}
    (items : List (Option (A.Index × Option (Place T)))) :
    List (A.Index × Place T) :=
  (items.filterMap id).filterMap fun item =>
    item.2.map fun place => (item.1, place)

namespace PackedArray

variable {T : Type} {A : Arity}

/-- Assign through references, whose places are all different. -/
def writePlaces (a : PackedArray T A) (f : A.Index → T → T)
    (places : List (A.Index × Place T)) : Checked (PackedArray T A) :=
  places.foldlM (fun a place => do
    let out ← a.writeThrough place.2.slot (f place.1)
    return out.2) a

def edit : Edit T A → PackedArray T A → Checked (Answer T A × PackedArray T A)
  | .shared call, a => do
      let out ← (ChildStore.packed A T).call call a
      return (.shared out.1, out.2)
  | .iterPresentMut es f, a => do
      let it ← a.iterPresentMut
      let out ← PresentIterMut.pulls es it
      let a ← a.writePlaces f (out.1.filterMap id)
      return (.items (out.1.map (Option.map fun item =>
        (item.1, item.2.value))), a)
  | .iterMut es f, a => do
      let it ← a.iterMut
      let out ← IterMut.pulls es it
      let a ← a.writePlaces f (presentPlaces out.1)
      return (.slots (out.1.map (Option.map fun item =>
        (item.1, item.2.map Place.value))), a)
  | .extend entries, a => do
      let a ← a.extend entries
      return (.done, a)

end PackedArray

namespace GappedArray

variable {T : Type} {A : Arity}

/-- Assign through references, whose places are all different. -/
def writePlaces (g : GappedArray T A) (f : A.Index → T → T)
    (places : List (A.Index × Place T)) : Checked (GappedArray T A) :=
  places.foldlM (fun g place => do
    let out ← g.writeThrough place.2.slot (f place.1)
    return out.2) g

def edit : Edit T A → GappedArray T A → Checked (Answer T A × GappedArray T A)
  | .shared call, g => do
      let out ← (ChildStore.gapped A T).call call g
      return (.shared out.1, out.2)
  | .iterPresentMut es f, g => do
      let out ← PresentIterMut.pulls es g.iterPresent
      let g ← g.writePlaces f (out.1.filterMap id)
      return (.items (out.1.map (Option.map fun item =>
        (item.1, item.2.value))), g)
  | .iterMut es f, g => do
      let out ← IterMut.pulls es g.iter
      let g ← g.writePlaces f (presentPlaces out.1)
      return (.slots (out.1.map (Option.map fun item =>
        (item.1, item.2.map Place.value))), g)
  | .extend entries, g => do
      let g ← g.extend entries
      return (.done, g)

end GappedArray

/-! ### References of a map -/

section Places

variable {T : Type} {A : Arity} {m : ChildMap A.LEN T} {pos : A.Index → ℕ}

theorem entries_places (m : ChildMap A.LEN T) (pos : A.Index → ℕ) :
    (places m pos).entries = m.entries.map fun e =>
      (e.1, e.2.map fun v => ⟨pos e.1, v⟩) := by
  rw [ChildMap.entries, ChildMap.entries, List.map_map]
  rfl

/-- What the references taken from an iterator point to. -/
structure PointInto (m : ChildMap A.LEN T) (pos : A.Index → ℕ)
    (zs : List (A.Index × Place T)) : Prop where
  present : ∀ z ∈ zs, z.1 ∈ m.present
  slot : ∀ z ∈ zs, z.2.slot = pos z.1

theorem PointInto.tail {z : A.Index × Place T} {zs : List (A.Index × Place T)}
    (h : PointInto m pos (z :: zs)) {f : T → T} :
    PointInto (m.modify z.1 f) pos zs where
  present z' hz' := by
    rw [ChildMap.present_modify]
    exact h.present z' (List.mem_cons_of_mem z hz')
  slot z' hz' := h.slot z' (List.mem_cons_of_mem z hz')

theorem pointInto_iterPresent (es : List End) (m : ChildMap A.LEN T)
    (pos : A.Index → ℕ) :
    PointInto m pos
      ((Deque.pulls es (places m pos).iterPresent).1.filterMap id) where
  present z hz := by
    have hmem := ChildMap.mem_iterPresent.mp (Deque.mem_of_pulls hz)
    rw [← m.present_map fun i v => (⟨pos i, v⟩ : Place T)]
    exact ChildMap.mem_present.mpr ⟨_, hmem⟩
  slot z hz := by
    have hmem := ChildMap.mem_iterPresent.mp (Deque.mem_of_pulls hz)
    rw [places, ChildMap.get_map, Option.map_eq_some_iff] at hmem
    obtain ⟨v, -, hv⟩ := hmem
    rw [← hv]

theorem pointInto_entries (es : List End) (m : ChildMap A.LEN T)
    (pos : A.Index → ℕ) :
    PointInto m pos
      (presentPlaces (Deque.pulls es (places m pos).entries).1) := by
  have hget : ∀ z ∈ presentPlaces (Deque.pulls es (places m pos).entries).1,
      ∃ v, m.get z.1 = some v ∧ z.2 = ⟨pos z.1, v⟩ := by
    intro z hz
    obtain ⟨item, hitem, hplace⟩ := List.mem_filterMap.mp hz
    obtain ⟨place, hsome, rfl⟩ := Option.map_eq_some_iff.mp hplace
    obtain ⟨i, -, rfl⟩ := List.mem_map.mp (Deque.mem_of_pulls hitem)
    rw [places, ChildMap.get_map, Option.map_eq_some_iff] at hsome
    obtain ⟨v, hv, hplace⟩ := hsome
    exact ⟨v, hv, hplace.symm⟩
  constructor
  · intro z hz
    obtain ⟨v, hv, -⟩ := hget z hz
    exact ChildMap.mem_present.mpr ⟨v, hv⟩
  · intro z hz
    obtain ⟨v, -, hv⟩ := hget z hz
    rw [hv]

/-- The items are those of the map, with references for the values. -/
theorem pulls_iterPresent_places (es : List End) (m : ChildMap A.LEN T)
    (pos : A.Index → ℕ) :
    (Deque.pulls es (places m pos).iterPresent).1 =
      (Deque.pulls es m.iterPresent).1.map
        (Option.map fun e => (e.1, ⟨pos e.1, e.2⟩)) := by
  rw [places, ChildMap.iterPresent_map, Deque.pulls_map]

theorem pulls_entries_places (es : List End) (m : ChildMap A.LEN T)
    (pos : A.Index → ℕ) :
    (Deque.pulls es (places m pos).entries).1 =
      (Deque.pulls es m.entries).1.map
        (Option.map fun e => (e.1, e.2.map fun v => ⟨pos e.1, v⟩)) := by
  rw [entries_places, Deque.pulls_map]

/-- The values and the indices behind the references. -/
theorem value_items (items : List (Option (A.Index × T))) :
    (items.map (Option.map fun e => (e.1, (⟨pos e.1, e.2⟩ : Place T)))).map
      (Option.map fun item => (item.1, item.2.value)) = items := by
  simp [List.map_map, Function.comp_def]

theorem index_items (items : List (Option (A.Index × T))) :
    ((items.map (Option.map fun e => (e.1, (⟨pos e.1, e.2⟩ : Place T)))).filterMap
      id).map Prod.fst = (items.filterMap id).map Prod.fst := by
  simp [List.filterMap_map, Function.comp_def, List.map_filterMap]

theorem value_slots (items : List (Option (A.Index × Option T))) :
    (items.map (Option.map fun e =>
      (e.1, e.2.map fun v => (⟨pos e.1, v⟩ : Place T)))).map
      (Option.map fun item => (item.1, item.2.map Place.value)) = items := by
  simp [List.map_map, Function.comp_def]

theorem index_slots (items : List (Option (A.Index × Option T))) :
    (presentPlaces (items.map (Option.map fun e =>
      (e.1, e.2.map fun v => (⟨pos e.1, v⟩ : Place T))))).map Prod.fst =
      (items.filterMap id).filterMap fun item => item.2.map fun _ => item.1 := by
  rw [presentPlaces, List.filterMap_map, List.map_filterMap,
    List.filterMap_filterMap, List.filterMap_filterMap]
  refine List.filterMap_congr fun item _ => ?_
  cases item with
  | none => rfl
  | some e => simp [Function.comp_def]

end Places

/-! ## Edits -/

namespace PackedArray

variable {T : Type} {A : Arity} {a : PackedArray T A} {m : ChildMap A.LEN T}

theorem writePlaces_spec (h : a.Holds m) (f : A.Index → T → T)
    {zs : List (A.Index × Place T)}
    (hzs : PointInto m (Bitmap.rank m.present) zs) :
    ∃ a', a.writePlaces f zs = .ok a' ∧
      a'.Holds (m.modifyAll f (zs.map Prod.fst)) := by
  induction zs generalizing a m with
  | nil => exact ⟨a, rfl, h⟩
  | cons z zs ih =>
      obtain ⟨v, hv⟩ := ChildMap.mem_present.mp (hzs.present z (by simp))
      obtain ⟨a₁, hwrite, ha₁⟩ := writeThrough_spec h hv (f z.1)
      rw [← ChildMap.modify_of_some hv] at ha₁
      have hrest : PointInto (m.modify z.1 (f z.1))
          (Bitmap.rank (m.modify z.1 (f z.1)).present) zs := by
        rw [ChildMap.present_modify]
        exact hzs.tail
      obtain ⟨a', hrun, ha'⟩ := ih ha₁ hrest
      refine ⟨a', ?_, ha'⟩
      rw [writePlaces, List.foldlM_cons, hzs.slot z (by simp), hwrite]
      exact hrun

theorem extend_spec (h : a.Holds m) (entries : List (A.Index × T)) :
    ∃ a', a.extend entries = .ok a' ∧
      a'.Holds (entries.foldl (fun m entry => m.set entry.1 entry.2) m) := by
  induction entries generalizing a m with
  | nil => exact ⟨a, rfl, h⟩
  | cons entry entries ih =>
      obtain ⟨a₁, hinsert, ha₁, -⟩ := insert_spec h entry.1 entry.2
      obtain ⟨a', hrun, ha'⟩ := ih ha₁
      refine ⟨a', ?_, ha'⟩
      rw [extend, List.foldlM_cons, hinsert]
      exact hrun

theorem edit_spec (h : a.Holds m) (e : Edit T A) :
    ∃ a', edit e a = .ok ((e.model m).1, a') ∧ a'.Holds (e.model m).2 := by
  cases e with
  | shared call =>
      obtain ⟨a', hcall, ha'⟩ := (ChildStore.packed_models A T).call h call
      exact ⟨a', by simp [edit, hcall, Edit.model], ha'⟩
  | iterPresentMut es f =>
      obtain ⟨it, hit, hacts⟩ := h.iterPresentMut
      obtain ⟨it', hpulls, -⟩ := hacts es
      obtain ⟨a', hwrite, ha'⟩ := writePlaces_spec h f
        (pointInto_iterPresent es m (Bitmap.rank m.present))
      rw [pulls_iterPresent_places] at hpulls hwrite ha'
      rw [index_items] at ha'
      refine ⟨a', ?_, ha'⟩
      simp only [edit, hit, hpulls, hwrite, ok_bind, pure_eq_ok, value_items,
        Edit.model]
  | iterMut es f =>
      obtain ⟨it, hit, hacts⟩ := h.iterMut
      obtain ⟨it', hpulls, -⟩ := hacts es
      obtain ⟨a', hwrite, ha'⟩ := writePlaces_spec h f
        (pointInto_entries es m (Bitmap.rank m.present))
      rw [pulls_entries_places] at hpulls hwrite ha'
      rw [index_slots] at ha'
      refine ⟨a', ?_, ha'⟩
      simp only [edit, hit, hpulls, hwrite, ok_bind, pure_eq_ok, value_slots,
        Edit.model]
  | extend entries =>
      obtain ⟨a', hextend, ha'⟩ := extend_spec h entries
      exact ⟨a', by simp [edit, hextend, Edit.model], ha'⟩

end PackedArray

namespace GappedArray

variable {T : Type} {A : Arity} {g : GappedArray T A} {m : ChildMap A.LEN T}

theorem writePlaces_of_laid {inner : Inner T A} {pos : A.Index → ℕ}
    (h : Laid inner m pos) (f : A.Index → T → T)
    {zs : List (A.Index × Place T)} (hzs : PointInto m pos zs) :
    ∃ inner', writePlaces ⟨some inner⟩ f zs = .ok ⟨some inner'⟩ ∧
      Laid inner' (m.modifyAll f (zs.map Prod.fst)) pos ∧
      inner'.capExp = inner.capExp ∧ inner'.block = inner.block := by
  induction zs generalizing inner m with
  | nil => exact ⟨inner, rfl, h, rfl, rfl⟩
  | cons z zs ih =>
      obtain ⟨v, hv⟩ := ChildMap.mem_present.mp (hzs.present z (by simp))
      obtain ⟨inner₁, hwrite, h₁, hcap₁, hblock₁⟩ :=
        writeThrough_spec rfl h hv (f z.1)
      rw [← ChildMap.modify_of_some hv] at h₁
      obtain ⟨inner', hrun, h', hcap, hblock⟩ := ih h₁ hzs.tail
      refine ⟨inner', ?_, h', hcap.trans hcap₁, hblock.trans hblock₁⟩
      rw [writePlaces, List.foldlM_cons, hzs.slot z (by simp), hwrite]
      exact hrun

/-- The places of the elements, which can be assigned to. -/
theorem writePlaces_spec (h : g.Holds m) :
    ∃ pos, Live.Left ⟨⟨g.live⟩, g.data⟩ (places m pos).values ∧
      ∀ (f : A.Index → T → T) (zs : List (A.Index × Place T)),
        PointInto m pos zs → ∃ g', g.writePlaces f zs = .ok g' ∧
          g'.Holds (m.modifyAll f (zs.map Prod.fst)) ∧ KeepsBlock g g' := by
  cases hinner : g.inner with
  | none =>
      obtain rfl := h.of_none hinner
      obtain ⟨pos, -, -, hleft⟩ := h.exists_pos
      refine ⟨pos, hleft, fun f zs hzs => ?_⟩
      cases zs with
      | nil => exact ⟨g, rfl, h, .refl g⟩
      | cons z zs => exact absurd (hzs.present z (by simp)) (by simp)
  | some inner =>
      obtain ⟨pos, hlaid⟩ := h.of_some hinner
      refine ⟨pos, hlaid.live_left hinner, fun f zs hzs => ?_⟩
      obtain ⟨inner', hrun, hlaid', hcap, hblock⟩ :=
        writePlaces_of_laid hlaid f hzs
      have hg : g = ⟨some inner⟩ := congrArg GappedArray.mk hinner
      exact ⟨⟨some inner'⟩, by rw [hg, hrun], Or.inr ⟨inner', rfl, pos, hlaid'⟩,
        keepsBlock_of_some hinner hcap hblock⟩

/-- The entries are inserted one after the other. -/
inductive Inserts : GappedArray T A → ChildMap A.LEN T →
    List (A.Index × T) → GappedArray T A → Prop
  | nil (g : GappedArray T A) (m : ChildMap A.LEN T) : Inserts g m [] g
  | cons {g g₁ g' : GappedArray T A} {m : ChildMap A.LEN T}
      {entry : A.Index × T} {entries : List (A.Index × T)}
      (insert : InsertCapacity g g₁ m entry.1)
      (rest : Inserts g₁ (m.set entry.1 entry.2) entries g') :
      Inserts g m (entry :: entries) g'

theorem extend_spec (h : g.Holds m) (entries : List (A.Index × T)) :
    ∃ g', g.extend entries = .ok g' ∧
      g'.Holds (entries.foldl (fun m entry => m.set entry.1 entry.2) m) ∧
      Inserts g m entries g' := by
  induction entries generalizing g m with
  | nil => exact ⟨g, rfl, h, .nil g m⟩
  | cons entry entries ih =>
      obtain ⟨g₁, hinsert, hg₁, hcap⟩ := insert_spec h entry.1 entry.2
      obtain ⟨g', hrun, hg', hrest⟩ := ih hg₁
      refine ⟨g', ?_, hg', .cons hcap hrest⟩
      rw [extend, List.foldlM_cons, hinsert]
      exact hrun

/-- How an edit affects the block: an insertion as it must, a list of them one
after the other, and the array left behind by a move has none.  No other edit
touches it. -/
def EditCapacity (g g' : GappedArray T A) (m : ChildMap A.LEN T) :
    Edit T A → Prop
  | .shared (.insert i _) => InsertCapacity g g' m i
  | .shared .intoEdges => g' = new
  | .shared _ => KeepsBlock g g'
  | .iterPresentMut _ _ => KeepsBlock g g'
  | .iterMut _ _ => KeepsBlock g g'
  | .extend entries => Inserts g m entries g'

theorem call_capacity (h : g.Holds m) {call : ChildMapCall A T}
    {g' : GappedArray T A} {answer : ChildMapAnswer A T}
    (hcall : (ChildStore.gapped A T).call call g = .ok (answer, g')) :
    EditCapacity g g' m (.shared call) := by
  cases call with
  | getMut i f =>
      obtain ⟨g₁, hassign, -, hkeeps⟩ := assignMut_spec h i f
      obtain ⟨out, hout, hreturn⟩ := bind_eq_ok.mp hcall
      cases hassign.symm.trans hout
      cases hreturn
      exact hkeeps
  | insert i v =>
      obtain ⟨g₁, hinsert, -, hcap⟩ := insert_spec h i v
      obtain ⟨out, hout, hreturn⟩ := bind_eq_ok.mp hcall
      cases hinsert.symm.trans hout
      cases hreturn
      exact hcap
  | remove i =>
      obtain ⟨g₁, hremove, -, hkeeps⟩ := remove_spec h i
      obtain ⟨out, hout, hreturn⟩ := bind_eq_ok.mp hcall
      cases hremove.symm.trans hout
      cases hreturn
      exact hkeeps
  | takeOnlyChild =>
      obtain ⟨g₁, htake, -, hkeeps⟩ := takeOnlyChild_spec h
      obtain ⟨out, hout, hreturn⟩ := bind_eq_ok.mp hcall
      cases htake.symm.trans hout
      cases hreturn
      exact hkeeps
  | intoEdges =>
      obtain ⟨es, -, hreturn⟩ := bind_eq_ok.mp hcall
      cases hreturn
      exact rfl
  | count =>
      cases hcall
      exact KeepsBlock.refl g
  | isEmpty =>
      cases hcall
      exact KeepsBlock.refl g
  | get i =>
      obtain ⟨e, -, hreturn⟩ := bind_eq_ok.mp hcall
      cases hreturn
      exact KeepsBlock.refl g
  | iterPresent es =>
      obtain ⟨items, -, hreturn⟩ := bind_eq_ok.mp hcall
      cases hreturn
      exact KeepsBlock.refl g
  | present =>
      obtain ⟨bits, -, hreturn⟩ := bind_eq_ok.mp hcall
      cases hreturn
      exact KeepsBlock.refl g

theorem edit_spec (h : g.Holds m) (e : Edit T A) :
    ∃ g', edit e g = .ok ((e.model m).1, g') ∧ g'.Holds (e.model m).2 ∧
      EditCapacity g g' m e := by
  obtain ⟨pos, hleft, hwrites⟩ := writePlaces_spec h
  cases e with
  | shared call =>
      obtain ⟨g', hcall, hg'⟩ := (ChildStore.gapped_models A T).call h call
      exact ⟨g', by simp [edit, hcall, Edit.model], hg', call_capacity h hcall⟩
  | iterPresentMut es f =>
      obtain ⟨it', hpulls, -⟩ := h.iterPresentMut hleft es
      obtain ⟨g', hwrite, hg', hkeeps⟩ :=
        hwrites f _ (pointInto_iterPresent es m pos)
      rw [pulls_iterPresent_places] at hpulls hwrite hg'
      rw [index_items] at hg'
      refine ⟨g', ?_, hg', hkeeps⟩
      simp only [edit, hpulls, hwrite, ok_bind, pure_eq_ok, value_items,
        Edit.model]
  | iterMut es f =>
      obtain ⟨it', hpulls, -⟩ := h.iterMut hleft es
      obtain ⟨g', hwrite, hg', hkeeps⟩ :=
        hwrites f _ (pointInto_entries es m pos)
      rw [pulls_entries_places] at hpulls hwrite hg'
      rw [index_slots] at hg'
      refine ⟨g', ?_, hg', hkeeps⟩
      simp only [edit, hpulls, hwrite, ok_bind, pure_eq_ok, value_slots,
        Edit.model]
  | extend entries =>
      obtain ⟨g', hextend, hg', hinserts⟩ := extend_spec h entries
      exact ⟨g', by simp [edit, hextend, Edit.model], hg', hinserts⟩

end GappedArray

end ArityArrays
