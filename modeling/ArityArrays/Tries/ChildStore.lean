import ArityArrays.Arrays.Fixed
import ArityArrays.Arrays.Gapped.Capacity
import ArityArrays.Arrays.Gapped.Iterators
import ArityArrays.Arrays.Packed.Iterators
import ArityArrays.Support.Simulation

/-!
# The three children containers

The algorithms use a children container through a small set of operations.
Each of the three array types provides them, and each is a finite map: any
sequence of calls is answered alike by all three.
-/

namespace ArityTries

open ArityArrays Checked

/-! ## The operation set -/

/-- What the algorithms use of a container of edges.  `getMut` assigns `f e` to
the edge `e` it finds. -/
structure ChildStore (A : Arity) (E : Type) where
  Map : Type
  default : Map
  get : Map → A.Index → Checked (Option E)
  getMut : Map → A.Index → (E → E) → Checked (Option E × Map)
  insert : Map → A.Index → E → Checked (Option E × Map)
  remove : Map → A.Index → Checked (Option E × Map)
  count : Map → ℕ
  isEmpty : Map → Bool
  takeOnlyChild : Map → Checked (Option (A.Index × E) × Map)
  Present : Type
  iterator : DoubleEnded Present (A.Index × E)
  iterPresent : Map → Present
  present : Map → Checked (Bitmap A.LEN)
  Edges : Type
  edges : DoubleEnded Edges (A.Index × E)
  intoEdges : Map → Edges

/-- A call of the operation set.  The present iterator is asked for one item
for every end in the list. -/
inductive ChildMapCall (A : Arity) (E : Type) where
  | get (index : A.Index)
  | getMut (index : A.Index) (f : E → E)
  | insert (index : A.Index) (edge : E)
  | remove (index : A.Index)
  | count
  | isEmpty
  | takeOnlyChild
  | iterPresent (es : List End)
  | present
  | intoEdges

inductive ChildMapAnswer (A : Arity) (E : Type) where
  | edge (edge : Option E)
  | number (n : ℕ)
  | flag (b : Bool)
  | entry (entry : Option (A.Index × E))
  | items (items : List (Option (A.Index × E)))
  | bitmap (bits : Bitmap A.LEN)
  | edges (edges : List (A.Index × E))

namespace ChildStore

variable {A : Arity} {E : Type}

/-- Make a call.  Taking the edges leaves the default map behind. -/
def call (S : ChildStore A E) : ChildMapCall A E → S.Map →
    Checked (ChildMapAnswer A E × S.Map)
  | .get index, m => do
      let e ← S.get m index
      return (.edge e, m)
  | .getMut index f, m => do
      let out ← S.getMut m index f
      return (.edge out.1, out.2)
  | .insert index edge, m => do
      let out ← S.insert m index edge
      return (.edge out.1, out.2)
  | .remove index, m => do
      let out ← S.remove m index
      return (.edge out.1, out.2)
  | .count, m => .ok (.number (S.count m), m)
  | .isEmpty, m => .ok (.flag (S.isEmpty m), m)
  | .takeOnlyChild, m => do
      let out ← S.takeOnlyChild m
      return (.entry out.1, out.2)
  | .iterPresent es, m => do
      let out ← S.iterator.pulls es (S.iterPresent m)
      return (.items out.1, m)
  | .present, m => do
      let bits ← S.present m
      return (.bitmap bits, m)
  | .intoEdges, m => do
      let es ← S.edges.collect (S.intoEdges m)
      return (.edges es, S.default)

def component (S : ChildStore A E) :
    Component (ChildMapCall A E) (ChildMapAnswer A E) S.Map := fun c m => do
  let out ← S.call c m
  return some out

end ChildStore

/-- What a call is for: the same call on a finite map. -/
def ChildMapCall.model {A : Arity} {E : Type} :
    Model (ChildMapCall A E) (ChildMapAnswer A E) (ChildMap A.LEN E)
  | .get index, c => (.edge (c.get index), c)
  | .getMut index f, c => (.edge (c.get index), c.modify index f)
  | .insert index edge, c => (.edge (c.get index), c.set index edge)
  | .remove index, c => (.edge (c.get index), c.erase index)
  | .count, c => (.number c.count, c)
  | .isEmpty, c => (.flag (decide (c.count = 0)), c)
  | .takeOnlyChild, c => (.entry c.takeOnlyChild.1, c.takeOnlyChild.2)
  | .iterPresent es, c => (.items (Deque.pulls es c.iterPresent).1, c)
  | .present, c => (.bitmap c.present, c)
  | .intoEdges, c => (.edges c.iterPresent, ChildMap.empty)

namespace ChildStore

variable {A : Arity} {E : Type}

/-! ## The containers -/

def packed (A : Arity) (E : Type) : ChildStore A E where
  Map := PackedArray E A
  default := PackedArray.new
  get := PackedArray.get
  getMut := PackedArray.assignMut
  insert := PackedArray.insert
  remove := PackedArray.remove
  count := PackedArray.count
  isEmpty := PackedArray.isEmpty
  takeOnlyChild := PackedArray.takeOnlyChild
  Present := BitIter A.LEN × PackedArray.Ranks E
  iterator := PackedArray.PresentIter
  iterPresent := PackedArray.iterPresent
  present m := .ok m.bitmap
  Edges := BitIter A.LEN × PackedArray.Owned E
  edges := PackedArray.IntoIter
  intoEdges := PackedArray.intoIter

def gapped (A : Arity) (E : Type) : ChildStore A E where
  Map := GappedArray E A
  default := GappedArray.new
  get := GappedArray.get
  getMut := GappedArray.assignMut
  insert := GappedArray.insert
  remove := GappedArray.remove
  count := GappedArray.count
  isEmpty := GappedArray.isEmpty
  takeOnlyChild := GappedArray.takeOnlyChild
  Present := BitIter A.LEN × GappedArray.Live A.LEN E
  iterator := GappedArray.PresentIter
  iterPresent := GappedArray.iterPresent
  present m := .ok m.bitmap
  Edges := BitIter A.LEN × GappedArray.Owned A.LEN E
  edges := GappedArray.IntoIter
  intoEdges := GappedArray.intoIter

def fixed (A : Arity) (E : Type) : ChildStore A E where
  Map := FixedArray (Option E) A
  default := FixedArray.new
  get m index := .ok (m.get index)
  getMut m index f := .ok (m.assignMut index f)
  insert m index edge := .ok (m.replace index (some edge))
  remove m index := .ok (m.take index)
  count := FixedArray.count
  isEmpty m := m.count = 0
  takeOnlyChild := FixedArray.takeOnlyChild
  Present := NicheRangeInclusive A.LEN × List (Option E)
  iterator := FixedArray.presentIter
  iterPresent := FixedArray.intoIter
  present := FixedArray.present
  Edges := NicheRangeInclusive A.LEN × List (Option E)
  edges := FixedArray.presentIter
  intoEdges := FixedArray.intoIter

/-! ## Containers of a map -/

/-- A container related to a finite map does what the map does. -/
structure Models (S : ChildStore A E) (R : S.Map → ChildMap A.LEN E → Prop) :
    Prop where
  default : R S.default ChildMap.empty
  get : ∀ {m c}, R m c → ∀ i, S.get m i = .ok (c.get i)
  getMut : ∀ {m c}, R m c → ∀ i f, ∃ m', S.getMut m i f = .ok (c.get i, m') ∧
    R m' (c.modify i f)
  insert : ∀ {m c}, R m c → ∀ i e, ∃ m', S.insert m i e = .ok (c.get i, m') ∧
    R m' (c.set i e)
  remove : ∀ {m c}, R m c → ∀ i, ∃ m', S.remove m i = .ok (c.get i, m') ∧
    R m' (c.erase i)
  count : ∀ {m c}, R m c → S.count m = c.count
  isEmpty : ∀ {m c}, R m c → S.isEmpty m = decide (c.count = 0)
  takeOnlyChild : ∀ {m c}, R m c → ∃ m', S.takeOnlyChild m =
    .ok (c.takeOnlyChild.1, m') ∧ R m' c.takeOnlyChild.2
  unchanged : ∀ {m c}, R m c → c.count ≠ 1 →
    S.takeOnlyChild m = .ok (none, m)
  pulls : ∀ {m c}, R m c → ∀ es, ∃ s, S.iterator.pulls es (S.iterPresent m) =
    .ok ((Deque.pulls es c.iterPresent).1, s)
  iterPresent : ∀ {m c}, R m c →
    S.iterator.collect (S.iterPresent m) = .ok c.iterPresent
  present : ∀ {m c}, R m c → S.present m = .ok c.present
  intoEdges : ∀ {m c}, R m c →
    S.edges.collect (S.intoEdges m) = .ok c.iterPresent

section Models

variable {S : ChildStore A E} {R : S.Map → ChildMap A.LEN E → Prop}

/-- One call is answered as on the map. -/
theorem Models.call (h : S.Models R) {m : S.Map} {c : ChildMap A.LEN E}
    (hm : R m c) (call : ChildMapCall A E) :
    ∃ m', S.call call m = .ok ((call.model c).1, m') ∧
      R m' (call.model c).2 := by
  cases call with
  | get index =>
      exact ⟨m, by simp [ChildStore.call, h.get hm, ChildMapCall.model], hm⟩
  | getMut index f =>
      obtain ⟨m', hcall, hm'⟩ := h.getMut hm index f
      exact ⟨m', by simp [ChildStore.call, hcall, ChildMapCall.model], hm'⟩
  | insert index edge =>
      obtain ⟨m', hcall, hm'⟩ := h.insert hm index edge
      exact ⟨m', by simp [ChildStore.call, hcall, ChildMapCall.model], hm'⟩
  | remove index =>
      obtain ⟨m', hcall, hm'⟩ := h.remove hm index
      exact ⟨m', by simp [ChildStore.call, hcall, ChildMapCall.model], hm'⟩
  | count =>
      exact ⟨m, by simp [ChildStore.call, h.count hm, ChildMapCall.model], hm⟩
  | isEmpty =>
      exact ⟨m, by simp [ChildStore.call, h.isEmpty hm, ChildMapCall.model], hm⟩
  | takeOnlyChild =>
      obtain ⟨m', hcall, hm'⟩ := h.takeOnlyChild hm
      exact ⟨m', by simp [ChildStore.call, hcall, ChildMapCall.model], hm'⟩
  | iterPresent es =>
      obtain ⟨s, hcall⟩ := h.pulls hm es
      exact ⟨m, by simp [ChildStore.call, hcall, ChildMapCall.model], hm⟩
  | present =>
      exact ⟨m, by simp [ChildStore.call, h.present hm, ChildMapCall.model], hm⟩
  | intoEdges =>
      refine ⟨S.default, ?_, h.default⟩
      simp [ChildStore.call, h.intoEdges hm, ChildMapCall.model]

theorem Models.simulates (h : S.Models R) :
    S.component.Simulates ChildMapCall.model R := by
  intro call m c hm
  obtain ⟨m', hcall, hm'⟩ := h.call hm call
  refine ⟨some ((call.model c).1, m'), by simp [component, hcall], ?_⟩
  rintro o s' ⟨⟩
  exact ⟨rfl, hm'⟩

theorem Models.lasting (h : S.Models R) : S.component.Lasting R := by
  intro call m c hm
  obtain ⟨m', hcall, -⟩ := h.call hm call
  simp [component, hcall]

end Models

theorem packed_models (A : Arity) (E : Type) :
    (packed A E).Models PackedArray.Holds where
  default := PackedArray.holds_new
  get := PackedArray.get_spec
  getMut := PackedArray.assignMut_spec
  insert h i e := by
    obtain ⟨m', hcall, hm', -⟩ := PackedArray.insert_spec h i e
    exact ⟨m', hcall, hm'⟩
  remove h i := by
    obtain ⟨m', hcall, hm', -⟩ := PackedArray.remove_spec h i
    exact ⟨m', hcall, hm'⟩
  count := PackedArray.Holds.count_eq
  isEmpty := PackedArray.Holds.isEmpty_eq
  takeOnlyChild := PackedArray.takeOnlyChild_spec
  unchanged := PackedArray.takeOnlyChild_of_count_ne
  pulls h es := by
    obtain ⟨s, hpulls, -⟩ := h.iterPresent es
    exact ⟨s, hpulls⟩
  iterPresent := PackedArray.Holds.collect_iterPresent
  present h := congrArg Except.ok h.bitmap_eq
  intoEdges := PackedArray.Holds.collect_intoIter

theorem gapped_models (A : Arity) (E : Type) :
    (gapped A E).Models GappedArray.Holds where
  default := GappedArray.holds_new
  get := GappedArray.get_spec
  getMut h i f := by
    obtain ⟨m', hcall, hm', -⟩ := GappedArray.assignMut_spec h i f
    exact ⟨m', hcall, hm'⟩
  insert h i e := by
    obtain ⟨m', hcall, hm', -⟩ := GappedArray.insert_spec h i e
    exact ⟨m', hcall, hm'⟩
  remove h i := by
    obtain ⟨m', hcall, hm', -⟩ := GappedArray.remove_spec h i
    exact ⟨m', hcall, hm'⟩
  count := GappedArray.Holds.count_eq
  isEmpty := GappedArray.Holds.isEmpty_eq
  takeOnlyChild h := by
    obtain ⟨m', hcall, hm', -⟩ := GappedArray.takeOnlyChild_spec h
    exact ⟨m', hcall, hm'⟩
  unchanged := GappedArray.takeOnlyChild_of_count_ne
  pulls h es := by
    obtain ⟨s, hpulls, -⟩ := h.iterPresent es
    exact ⟨s, hpulls⟩
  iterPresent := GappedArray.Holds.collect_iterPresent
  present h := congrArg Except.ok h.bitmap_eq
  intoEdges := GappedArray.Holds.collect_intoIter

theorem fixed_models (A : Arity) (E : Type) :
    (fixed A E).Models fun m c => m.contents = c where
  default := FixedArray.contents_new
  get := by
    rintro m c rfl i
    rfl
  getMut := by
    rintro m c rfl i f
    obtain ⟨hvalue, hmap⟩ := m.assignMut_eq i f
    exact ⟨(m.assignMut i f).2, by rw [← hvalue]; rfl, hmap⟩
  insert := by
    rintro m c rfl i e
    exact ⟨m.assign i (some e), rfl, rfl⟩
  remove := by
    rintro m c rfl i
    exact ⟨m.assign i none, rfl, rfl⟩
  count := by
    rintro m c rfl
    exact m.count_eq
  isEmpty := by
    rintro m c rfl
    simp [fixed, m.count_eq]
  takeOnlyChild := by
    rintro m c rfl
    exact m.takeOnlyChild_eq
  unchanged := by
    rintro m c rfl hone
    obtain ⟨m', hcall, hm'⟩ := m.takeOnlyChild_eq
    rw [ChildMap.takeOnlyChild_of_count_ne hone] at hcall hm'
    rwa [FixedArray.contents_injective hm'] at hcall
  pulls := by
    rintro m c rfl es
    obtain ⟨s, hpulls, -⟩ :=
      FixedArray.presentIter_refines.pulls m.filtered_intoIter es
    exact ⟨s, hpulls⟩
  iterPresent := by
    rintro m c rfl
    exact FixedArray.presentIter_refines.collect m.filtered_intoIter
  present := by
    rintro m c rfl
    exact m.present_eq
  intoEdges := by
    rintro m c rfl
    exact FixedArray.presentIter_refines.collect m.filtered_intoIter

/-! ## Interchangeable -/

/-- `present` is the set of the indices which both enumerations list in
ascending order, and `take_only_child` takes an entry out exactly when there is
one in all. -/
structure Coherent (S : ChildStore A E) (m : S.Map) : Prop where
  present : ∃ bits entries, S.present m = .ok bits ∧
    S.iterator.collect (S.iterPresent m) = .ok entries ∧
    S.edges.collect (S.intoEdges m) = .ok entries ∧
    entries.map Prod.fst = Bitmap.bits bits ∧
    S.count m = Bitmap.countOnes bits
  takes : S.count m = 1 → ∃ i e m', S.get m i = .ok (some e) ∧
    S.takeOnlyChild m = .ok (some (i, e), m') ∧ ∀ j, S.get m' j = .ok none
  unchanged : S.count m ≠ 1 → S.takeOnlyChild m = .ok (none, m)

theorem Models.coherent {S : ChildStore A E}
    {R : S.Map → ChildMap A.LEN E → Prop} (h : S.Models R) {m : S.Map}
    {c : ChildMap A.LEN E} (hm : R m c) : S.Coherent m where
  present := ⟨c.present, c.iterPresent, h.present hm, h.iterPresent hm,
    h.intoEdges hm, c.map_fst_iterPresent, by
      rw [h.count hm, c.countOnes_present]⟩
  takes hone := by
    rw [h.count hm] at hone
    obtain ⟨i, e, he⟩ := ChildMap.exists_only_child hone
    obtain ⟨m', htake, hm'⟩ := h.takeOnlyChild hm
    rw [ChildMap.takeOnlyChild_of_only_child hone he] at htake hm'
    refine ⟨i, e, m', by rw [h.get hm, he], htake, fun j => ?_⟩
    rw [h.get hm', ChildMap.get_erase]
    split
    · rfl
    · next hj => rw [ChildMap.get_of_only_child hone he hj]
  unchanged hone := by
    rw [h.count hm] at hone
    exact h.unchanged hm hone

theorem Models.run {S : ChildStore A E}
    {R : S.Map → ChildMap A.LEN E → Prop} (h : S.Models R)
    (calls : List (ChildMapCall A E)) :
    ∃ m, S.component.run calls S.default =
        .ok (some ((Model.run ChildMapCall.model calls ChildMap.empty).1, m)) ∧
      S.Coherent m := by
  obtain ⟨m, hrun, hm⟩ :=
    h.simulates.run_of_lasting h.lasting h.default calls
  exact ⟨m, hrun, h.coherent hm⟩

/-- Started from their default maps, the three containers give the same answers
to any calls. -/
theorem containers_interchangeable (A : Arity) (E : Type)
    (calls : List (ChildMapCall A E)) :
    ∃ (answers : List (ChildMapAnswer A E)) (p : (packed A E).Map)
      (g : (gapped A E).Map) (f : (fixed A E).Map),
      (packed A E).component.run calls (packed A E).default =
        .ok (some (answers, p)) ∧
      (gapped A E).component.run calls (gapped A E).default =
        .ok (some (answers, g)) ∧
      (fixed A E).component.run calls (fixed A E).default =
        .ok (some (answers, f)) ∧
      (packed A E).Coherent p ∧ (gapped A E).Coherent g ∧
      (fixed A E).Coherent f := by
  obtain ⟨p, hp, hpc⟩ := (packed_models A E).run calls
  obtain ⟨g, hg, hgc⟩ := (gapped_models A E).run calls
  obtain ⟨f, hf, hfc⟩ := (fixed_models A E).run calls
  exact ⟨_, p, g, f, hp, hg, hf, hpc, hgc, hfc⟩

end ChildStore

end ArityTries
