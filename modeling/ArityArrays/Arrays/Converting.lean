import ArityArrays.Arrays.Invariants

/-!
# Converting and collecting

Any chain of conversions between the three array types keeps the contents.  A
list of entries makes the same array whether it is collected, appended to an
empty array or inserted entry by entry.
-/

namespace ArityTries.ChildMap

variable {n : ℕ} {T : Type}

/-- The map that gives every index its last value in a list of entries. -/
def lastValues (entries : List (Fin n × T)) : ChildMap n T :=
  ⟨fun i => (entries.reverse.find? fun e => e.1 = i).map Prod.snd⟩

theorem get_lastValues (entries : List (Fin n × T)) (i : Fin n) :
    (lastValues entries).get i =
      (entries.reverse.find? fun e => e.1 = i).map Prod.snd := rfl

theorem ofEntries_eq_lastValues (entries : List (Fin n × T)) :
    ofEntries entries = lastValues entries := by
  induction entries using List.reverseRecOn with
  | nil => rfl
  | append_singleton entries e ih =>
      have hset : ofEntries (entries ++ [e]) = (ofEntries entries).set e.1 e.2 := by
        simp [ofEntries]
      rw [hset, ih]
      refine ext_get fun i => ?_
      rw [get_lastValues, List.reverse_append, List.reverse_singleton,
        List.singleton_append]
      by_cases hi : i = e.1
      · subst hi
        simp
      · rw [get_set_of_ne _ hi, get_lastValues,
          List.find?_cons_of_neg (by simp [Ne.symm hi])]

end ArityTries.ChildMap

namespace ArityArrays

open ArityTries Checked

variable {T : Type} {A : Arity}

/-! ## Conversions -/

/-- The three types of arrays of optional values. -/
inductive ArrayType where
  | fixed
  | packed
  | gapped
  deriving DecidableEq, Repr

/-- An array of any of the three types. -/
inductive AnyArray (T : Type) (A : Arity) where
  | fixed (a : FixedArray (Option T) A)
  | packed (a : PackedArray T A)
  | gapped (g : GappedArray T A)

/-- What is made of clones when no clone call panics. -/
def cloned {σ : Type} (out : Checked (Outcome (Option σ) T)) : Checked σ := do
  let made ← out
  expect made.state "a clone call panicked"

namespace AnyArray

def type : AnyArray T A → ArrayType
  | .fixed _ => .fixed
  | .packed _ => .packed
  | .gapped _ => .gapped

def get : AnyArray T A → A.Index → Checked (Option T)
  | .fixed a, i => .ok (a.get i)
  | .packed a, i => a.get i
  | .gapped g, i => g.get i

/-- Convert by value.  An array of the target type stays as it is. -/
def into : ArrayType → AnyArray T A → Checked (AnyArray T A)
  | .fixed, .fixed a => .ok (.fixed a)
  | .fixed, .packed a => do
      let out ← FixedArray.fromPacked a
      return .fixed out
  | .fixed, .gapped g => do
      let out ← FixedArray.fromGapped g
      return .fixed out
  | .packed, .fixed a => do
      let out ← PackedArray.fromFixed a
      return .packed out
  | .packed, .packed a => .ok (.packed a)
  | .packed, .gapped g => do
      let out ← PackedArray.fromGapped g
      return .packed out
  | .gapped, .fixed a => do
      let out ← GappedArray.fromFixed a
      return .gapped out
  | .gapped, .packed a => do
      let out ← GappedArray.fromPacked a
      return .gapped out
  | .gapped, .gapped g => .ok (.gapped g)

/-- Convert by reference.  Cloning a value gives an equal one. -/
def ofRef (d : Destructor T) : ArrayType → AnyArray T A → Checked (AnyArray T A)
  | .fixed, .fixed a => .ok (.fixed a)
  | .fixed, .packed a => do
      let out ← FixedArray.fromPackedRef id a
      return .fixed out
  | .fixed, .gapped g => do
      let out ← FixedArray.fromGappedRef id g
      return .fixed out
  | .packed, .fixed a => do
      let out ← cloned (PackedArray.fromFixedRef d (.total id) a)
      return .packed out
  | .packed, .packed a => .ok (.packed a)
  | .packed, .gapped g => do
      let out ← PackedArray.fromGappedRef id g
      return .packed out
  | .gapped, .fixed a => do
      let out ← cloned (GappedArray.fromFixedRef d (.total id) a)
      return .gapped out
  | .gapped, .packed a => do
      let out ← GappedArray.fromPackedRef id a
      return .gapped out
  | .gapped, .gapped g => .ok (.gapped g)

end AnyArray

/-- A conversion to another type, by value or by reference. -/
structure Conversion where
  byRef : Bool
  target : ArrayType

namespace AnyArray

def convert (d : Destructor T) (x : AnyArray T A) (c : Conversion) :
    Checked (AnyArray T A) :=
  if c.byRef then x.ofRef d c.target else x.into c.target

/-- The array stands for the map `m`. -/
def Holds : AnyArray T A → ChildMap A.LEN T → Prop
  | .fixed a, m => a.contents = m
  | .packed a, m => a.Holds m
  | .gapped g, m => g.Holds m

end AnyArray

/-- A valid gapped array with the entries of `m`. -/
def GappedArray.ValidFor (g : GappedArray T A) (m : ChildMap A.LEN T) : Prop :=
  (g.inner = none ∧ m = ChildMap.empty) ∨
    ∃ inner, g.inner = some inner ∧ Valid inner m

/-- What a conversion makes: a valid array with the entries of `m`, if gapped
with the least capacity, and unallocated if there are none. -/
def AnyArray.Fresh : AnyArray T A → ChildMap A.LEN T → Prop
  | .fixed a, m => a.contents = m
  | .packed a, m => a.Valid m
  | .gapped g, m => g.ValidFor m ∧ LeastCapacity m.count g.capacity ∧
      (m.count = 0 → g.inner = none)

section Convert

variable {m : ChildMap A.LEN T}

theorem GappedArray.Holds.validFor {g : GappedArray T A} (h : g.Holds m) :
    g.ValidFor m := by
  rcases h with hnone | ⟨inner, hinner, pos, hlaid⟩
  · exact Or.inl hnone
  · exact Or.inr ⟨inner, hinner, hlaid.valid⟩

theorem GappedArray.Holds.fresh {g : GappedArray T A} (h : g.Holds m)
    (hleast : LeastCapacity m.count g.capacity) : (AnyArray.gapped g).Fresh m := by
  refine ⟨h.validFor, hleast, fun hzero => ?_⟩
  rcases hleast with ⟨-, hcap⟩ | ⟨hne, -⟩
  · rcases h with ⟨hnone, -⟩ | ⟨inner, hinner, pos, hlaid⟩
    · exact hnone
    · have hpos := hlaid.isCapacity.pos
      simp [GappedArray.capacity, hinner] at hcap
      omega
  · exact absurd hzero hne

namespace AnyArray

theorem Holds.get {x : AnyArray T A} (h : x.Holds m) (i : A.Index) :
    x.get i = .ok (m.get i) := by
  rcases x with a | a | g
  · exact h ▸ rfl
  · exact PackedArray.get_spec h i
  · exact GappedArray.get_spec h i

/-- What a conversion to type `t` should make of an array with the entries of
`m`. -/
def Made (x : AnyArray T A) (t : ArrayType) (m : ChildMap A.LEN T)
    (out : Checked (AnyArray T A)) : Prop :=
  ∃ x', out = .ok x' ∧ x'.type = t ∧ x'.Holds m ∧ (t ≠ x.type → x'.Fresh m)

section Made

variable {x : AnyArray T A} {m : ChildMap A.LEN T}

theorem made_same (h : x.Holds m) {out : Checked (AnyArray T A)}
    (hout : out = .ok x) : x.Made x.type m out :=
  ⟨x, hout, rfl, h, fun hne => absurd rfl hne⟩

theorem made_fixed {c : Checked (FixedArray (Option T) A)}
    (h : ∃ a, c = .ok a ∧ a.contents = m) :
    x.Made .fixed m (c >>= fun a => .ok (.fixed a)) := by
  obtain ⟨a, rfl, ha⟩ := h
  exact ⟨.fixed a, rfl, rfl, ha, fun _ => ha⟩

theorem made_packed {c : Checked (PackedArray T A)}
    (h : ∃ a, c = .ok a ∧ a.Holds m) :
    x.Made .packed m (c >>= fun a => .ok (.packed a)) := by
  obtain ⟨a, rfl, ha⟩ := h
  exact ⟨.packed a, rfl, rfl, ha, fun _ => ha.valid⟩

theorem made_gapped {c : Checked (GappedArray T A)}
    (h : ∃ g, c = .ok g ∧ g.Holds m ∧ LeastCapacity m.count g.capacity) :
    x.Made .gapped m (c >>= fun g => .ok (.gapped g)) := by
  obtain ⟨g, rfl, hg, hleast⟩ := h
  exact ⟨.gapped g, rfl, rfl, hg, fun _ => hg.fresh hleast⟩

theorem into_spec (h : x.Holds m) (t : ArrayType) : x.Made t m (x.into t) := by
  rcases x with a | a | g
  · obtain rfl : a.contents = m := h
    cases t with
    | fixed => exact made_same (x := .fixed a) rfl rfl
    | packed => exact made_packed (PackedArray.fromFixed_spec a)
    | gapped => exact made_gapped (GappedArray.fromFixed_spec a)
  · cases t with
    | fixed => exact made_fixed (FixedArray.fromPacked_spec h)
    | packed => exact made_same h rfl
    | gapped => exact made_gapped (GappedArray.fromPacked_spec h)
  · cases t with
    | fixed => exact made_fixed (FixedArray.fromGapped_spec h)
    | packed => exact made_packed (PackedArray.fromGapped_spec h)
    | gapped => exact made_same h rfl

/-- With clones that are equal to the originals nothing changes. -/
theorem cloned_spec {σ : Type} {holds : σ → ChildMap A.LEN T → Prop}
    {d : Destructor T} {cap : ℕ} {c : Checked (Outcome (Option σ) T)}
    {out : Outcome (Option σ) T} (hc : c = .ok out)
    (h : Clones holds d (.total id) cap m out) :
    ∃ a, cloned c = .ok a ∧ holds a m := by
  obtain ⟨a, rfl, ha⟩ := h.total
  exact ⟨a, by rw [hc]; rfl, m.map_id ▸ ha⟩

theorem ofRef_spec (h : x.Holds m) (d : Destructor T) (t : ArrayType) :
    x.Made t m (x.ofRef d t) := by
  have hid : (m.map fun _ => id) = m := m.map_id
  rcases x with a | a | g
  · obtain rfl : a.contents = m := h
    cases t with
    | fixed => exact made_same (x := .fixed a) rfl rfl
    | packed =>
        obtain ⟨out, hout, hclones⟩ :=
          PackedArray.fromFixedRef_spec d (.total id) a
        exact made_packed (cloned_spec hout hclones)
    | gapped =>
        obtain ⟨out, cap, hout, hleast, hclones⟩ :=
          GappedArray.fromFixedRef_spec d (.total id) a
        obtain ⟨g, hg, hholds, hcap⟩ := cloned_spec hout hclones
        exact made_gapped ⟨g, hg, hholds, hcap ▸ hleast⟩
  · cases t with
    | fixed => exact made_fixed (hid ▸ FixedArray.fromPackedRef_spec h id)
    | packed => exact made_same h rfl
    | gapped =>
        obtain ⟨g, hg, hholds, hleast⟩ := GappedArray.fromPackedRef_spec h id
        exact made_gapped ⟨g, hg, hid ▸ hholds, hleast⟩
  · cases t with
    | fixed => exact made_fixed (hid ▸ FixedArray.fromGappedRef_spec h id)
    | packed => exact made_packed (hid ▸ PackedArray.fromGappedRef_spec h id)
    | gapped => exact made_same h rfl

theorem convert_spec (h : x.Holds m) (d : Destructor T) (c : Conversion) :
    x.Made c.target m (x.convert d c) := by
  rw [convert]
  split
  · exact ofRef_spec h d c.target
  · exact into_spec h c.target

/-- A chain of conversions. -/
theorem chain_spec (h : x.Holds m) (d : Destructor T) (cs : List Conversion) :
    ∃ x', cs.foldlM (convert d) x = .ok x' ∧ x'.Holds m := by
  induction cs generalizing x with
  | nil => exact ⟨x, rfl, h⟩
  | cons c cs ih =>
      obtain ⟨x₁, hconvert, -, hx₁, -⟩ := convert_spec h d c
      obtain ⟨x', hchain, hx'⟩ := ih hx₁
      exact ⟨x', by rw [List.foldlM_cons, hconvert]; exact hchain, hx'⟩

end Made

end AnyArray

end Convert

/-! ## Bulk construction -/

/-- Collecting some entries, extending an empty array by them and inserting
them one by one make valid arrays that compare equal. -/
def BuiltAlike {σ ω : Type} (valid : σ → Prop) (equal : σ → σ → Prop)
    (collected extended : Checked σ)
    (inserted : Checked (Option (List ω × σ))) : Prop :=
  ∃ a b c answers, collected = .ok a ∧ extended = .ok b ∧
    inserted = .ok (some (answers, c)) ∧ valid a ∧ valid b ∧ valid c ∧
    equal a b ∧ equal a c

/-- Collecting what the owning iterator yields makes a valid array that compares
equal. -/
def Recollected {σ : Type} (valid : σ → Prop) (equal : σ → σ → Prop) (a : σ)
    (entries : Checked (List (A.Index × T)))
    (collect : List (A.Index × T) → Checked σ) : Prop :=
  ∃ es b, entries = .ok es ∧ collect es = .ok b ∧ valid b ∧ equal a b

/-- Equal, for any decidable equality of the elements. -/
def PackedArray.Equal (a b : PackedArray T A) : Prop :=
  ∀ [DecidableEq T], a.eq b = .ok true

def GappedArray.Equal (g g' : GappedArray T A) : Prop :=
  ∀ [DecidableEq T], g.eq g' = .ok true

section Bulk

variable {m : ChildMap A.LEN T}

/-- The calls that insert some entries one by one. -/
def insertCalls (entries : List (A.Index × T)) : List (ChildMapCall A T) :=
  entries.map fun e => .insert e.1 e.2

theorem run_insertCalls (entries : List (A.Index × T)) (m : ChildMap A.LEN T) :
    (Model.run ChildMapCall.model (insertCalls entries) m).2 =
      entries.foldl (fun m e => m.set e.1 e.2) m := by
  induction entries generalizing m with
  | nil => rfl
  | cons e entries ih => exact ih (m.set e.1 e.2)

theorem ChildStore.inserted {S : ChildStore A T}
    {R : S.Map → ChildMap A.LEN T → Prop} (h : S.Models R)
    (entries : List (A.Index × T)) :
    ∃ answers c, S.component.run (insertCalls entries) S.default =
        .ok (some (answers, c)) ∧
      R c (ChildMap.ofEntries entries) := by
  obtain ⟨c, hrun, hc⟩ := h.simulates.run_of_lasting h.lasting h.default
    (insertCalls entries)
  rw [run_insertCalls] at hc
  exact ⟨_, c, hrun, hc⟩

/-- What both arrays need to be built alike: those that stand for a map are
`valid` for it, and any two of them compare equal. -/
theorem ChildStore.builtAlike {S : ChildStore A T}
    {R valid : S.Map → ChildMap A.LEN T → Prop} {equal : S.Map → S.Map → Prop}
    (h : S.Models R) (hvalid : ∀ {a m}, R a m → valid a m)
    (hequal : ∀ {a b m}, R a m → R b m → equal a b)
    {entries : List (A.Index × T)} {collected extended : Checked S.Map}
    (hcollect : ∃ a, collected = .ok a ∧ R a (ChildMap.ofEntries entries))
    (hextend : ∃ b, extended = .ok b ∧ R b (ChildMap.ofEntries entries)) :
    BuiltAlike (fun a => valid a (ChildMap.lastValues entries)) equal collected
      extended (S.component.run (insertCalls entries) S.default) := by
  rw [← ChildMap.ofEntries_eq_lastValues]
  obtain ⟨a, hcollected, ha⟩ := hcollect
  obtain ⟨b, hextended, hb⟩ := hextend
  obtain ⟨answers, c, hinsert, hc⟩ := inserted h entries
  exact ⟨a, b, c, answers, hcollected, hextended, hinsert, hvalid ha, hvalid hb,
    hvalid hc, hequal ha hb, hequal ha hc⟩

/-- Collecting the entries an array yields makes one that compares equal. -/
theorem recollected_of_holds {σ : Type}
    {R valid : σ → ChildMap A.LEN T → Prop} {equal : σ → σ → Prop}
    (hvalid : ∀ {a m}, R a m → valid a m)
    (hequal : ∀ {a b m}, R a m → R b m → equal a b)
    {collect : List (A.Index × T) → Checked σ}
    (hcollect : ∀ entries, ∃ b, collect entries = .ok b ∧
      R b (ChildMap.ofEntries entries))
    {a : σ} (ha : R a m) {entries : Checked (List (A.Index × T))}
    (hentries : entries = .ok m.iterPresent) :
    Recollected (fun b => valid b m) equal a entries collect := by
  obtain ⟨b, hcollected, hb⟩ := hcollect m.iterPresent
  rw [ChildMap.ofEntries_iterPresent] at hb
  exact ⟨m.iterPresent, b, hentries, hcollected, hvalid hb, hequal ha hb⟩

namespace PackedArray

theorem Holds.equal {a b : PackedArray T A} (ha : a.Holds m)
    (hb : b.Holds m) : a.Equal b := by
  intro _
  exact common_models.equal ha hb

theorem builtAlike (entries : List (A.Index × T)) :
    BuiltAlike (fun a => a.Valid (ChildMap.lastValues entries)) Equal
      (fromIter entries) (new.extend entries)
      ((ChildStore.packed A T).component.run (insertCalls entries) new) :=
  ChildStore.builtAlike (ChildStore.packed_models A T) Holds.valid Holds.equal
    (fromIter_spec entries) (extend_spec holds_new entries)

theorem Holds.recollected {a : PackedArray T A} (h : a.Holds m) :
    Recollected (fun b => b.Valid m) Equal a (IntoIter.collect a.intoIter)
      fromIter :=
  recollected_of_holds (R := PackedArray.Holds) Holds.valid Holds.equal
    fromIter_spec h h.collect_intoIter

end PackedArray

namespace GappedArray

theorem Holds.equal {g g' : GappedArray T A} (hg : g.Holds m)
    (hg' : g'.Holds m) : g.Equal g' := by
  intro _
  exact common_models.equal hg hg'

theorem holds_fromIter (entries : List (A.Index × T)) :
    ∃ g : GappedArray T A, fromIter entries = .ok g ∧
      g.Holds (ChildMap.ofEntries entries) := by
  obtain ⟨g, hcollect, hg, -⟩ := fromIter_spec entries
  exact ⟨g, hcollect, hg⟩

theorem builtAlike (entries : List (A.Index × T)) :
    BuiltAlike (fun g => g.ValidFor (ChildMap.lastValues entries)) Equal
      (fromIter entries) (new.extend entries)
      ((ChildStore.gapped A T).component.run (insertCalls entries) new) := by
  obtain ⟨g, hextend, hg, -⟩ := extend_spec (A := A) holds_new entries
  exact ChildStore.builtAlike (ChildStore.gapped_models A T) Holds.validFor
    Holds.equal (holds_fromIter entries) ⟨g, hextend, hg⟩

theorem Holds.recollected {g : GappedArray T A} (h : g.Holds m) :
    Recollected (fun g' => g'.ValidFor m) Equal g
      (IntoIter.collect g.intoIter) fromIter :=
  recollected_of_holds (R := GappedArray.Holds) Holds.validFor Holds.equal
    holds_fromIter h h.collect_intoIter

end GappedArray

end Bulk

/-- An array with the entries of `m` can be converted to either of the other
types, and no chain of conversions changes its contents. -/
structure AnyArray.Converts (d : Destructor T) (x : AnyArray T A)
    (m : ChildMap A.LEN T) : Prop where
  reads : ∀ i, x.get i = .ok (m.get i)
  single : ∀ c : Conversion, c.target ≠ x.type →
    ∃ x', x.convert d c = .ok x' ∧ x'.type = c.target ∧ x'.Fresh m
  chain : ∀ cs : List Conversion, ∃ x', cs.foldlM (convert d) x = .ok x' ∧
    ∀ i, x'.get i = .ok (m.get i)

theorem AnyArray.Holds.converts {x : AnyArray T A} {m : ChildMap A.LEN T}
    (h : x.Holds m) (d : Destructor T) : x.Converts d m where
  reads := h.get
  single c hc := by
    obtain ⟨x', hconvert, htype, -, hfresh⟩ := convert_spec h d c
    exact ⟨x', hconvert, htype, hfresh hc⟩
  chain cs := by
    obtain ⟨x', hchain, hx'⟩ := chain_spec h d cs
    exact ⟨x', hchain, hx'.get⟩

/-- Every conversion makes a valid array with the same contents, in the least
capacity if it is gapped, and every list of entries makes the same array however
it is stored, the last value of an index winning. -/
theorem conversions_keep_contents (d : Destructor T) {s : Vars T A}
    (hs : s.Reached) :
    (∃ m, s.Reads m ∧ (AnyArray.packed s.packed).Converts d m.1 ∧
      (AnyArray.gapped s.gapped).Converts d m.2 ∧
      Recollected (fun a => a.Valid m.1) PackedArray.Equal s.packed
        (PackedArray.IntoIter.collect s.packed.intoIter) PackedArray.fromIter ∧
      Recollected (fun g => g.ValidFor m.2) GappedArray.Equal s.gapped
        (GappedArray.IntoIter.collect s.gapped.intoIter)
        GappedArray.fromIter) ∧
    (∀ src : FixedArray (Option T) A,
      (AnyArray.fixed src).Converts d src.contents) ∧
    ∀ entries : List (A.Index × T),
      BuiltAlike (fun a => a.Valid (ChildMap.lastValues entries))
        PackedArray.Equal (PackedArray.fromIter entries)
        (PackedArray.new.extend entries)
        ((ChildStore.packed A T).component.run (insertCalls entries)
          PackedArray.new) ∧
      BuiltAlike (fun g => g.ValidFor (ChildMap.lastValues entries))
        GappedArray.Equal (GappedArray.fromIter entries)
        (GappedArray.new.extend entries)
        ((ChildStore.gapped A T).component.run (insertCalls entries)
          GappedArray.new) := by
  obtain ⟨m, hm⟩ := hs.hold
  exact ⟨⟨m, hm.reads, AnyArray.Holds.converts (x := .packed _) hm.1 d,
      AnyArray.Holds.converts (x := .gapped _) hm.2 d, hm.1.recollected,
      hm.2.recollected⟩,
    fun src => AnyArray.Holds.converts (x := .fixed src) rfl d,
    fun entries =>
      ⟨PackedArray.builtAlike entries, GappedArray.builtAlike entries⟩⟩

/-- A round trip through both other types. -/
theorem conversions_keep_contents_round :
    ∃ s : Vars ℕ .arity8, s.Reached ∧ ∃ x',
      [⟨true, .fixed⟩, ⟨false, .packed⟩, ⟨true, .gapped⟩].foldlM
        (AnyArray.convert ⟨true, fun _ => false⟩) (.gapped s.gapped) = .ok x' ∧
      x'.get 3 = .ok (some 7) ∧ x'.get 4 = .ok none := by
  obtain ⟨s, hs, hhold⟩ := Vars.reached_of_calls
    ([.gapped (.extend [(3, 6), (3, 7)])] : List (Call ℕ .arity8))
  obtain ⟨⟨m, hreads, -, hgapped, -⟩, -⟩ :=
    conversions_keep_contents ⟨true, fun _ => false⟩ hs
  obtain rfl := hreads.unique hhold.reads
  obtain ⟨x', hchain, hget⟩ := hgapped.chain
    [⟨true, .fixed⟩, ⟨false, .packed⟩, ⟨true, .gapped⟩]
  exact ⟨s, hs, x', hchain, hget 3, hget 4⟩

end ArityArrays
