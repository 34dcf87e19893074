import ArityArrays.Arrays.Programs.Edits

/-!
# Making an array

The two sparse array types have the same constructors.  What they make stands
for the map it should; a constructor that refuses its input, or panics while
cloning, leaves everything as it was.
-/

namespace ArityArrays

open ArityTries Checked

/-- The ways to make an array anew: from the arguments, from the array it
replaces, or from the array of the other type.  Cloning and the conversion of a
borrowed fixed array may panic in any clone call. -/
inductive Source (T : Type) (A : Arity) where
  | new
  | collect (entries : List (A.Index × T))
  | fixed (src : FixedArray (Option T) A)
  | fixedRef (cloner : Cloner T) (src : FixedArray (Option T) A)
  | deserialize (entries : List (A.Index × T))
  | deserializeAs (buf : List (BitVec 8)) (values : List T)
  | clone (cloner : Cloner T)
  | recollect
  | other
  | otherRef (f : T → T)

section Sources

variable {T : Type} {A : Arity} {σ : Type}

/-- An array whose making panicked is not there to replace the old one. -/
def settle (old : σ) (out : Outcome (Option σ) T) : Option (Answer T A × σ) :=
  match out.exit, out.state with
  | .returns, some made => some (.done, made)
  | .unwinds, _ => some (.panicked, old)
  | _, _ => none

/-- Neither is one whose encoding was refused. -/
def accept (old : σ) : Except DecodeError σ → Answer T A × σ
  | .error e => (.refused e, old)
  | .ok made => (.done, made)

/-- The map an array made anew stands for, given those of the old array and of
the other one, and what is left of the latter. -/
def Source.model (label : String) :
    Model (Source T A) (Answer T A) (ChildMap A.LEN T × ChildMap A.LEN T)
  | .new, m => (.done, ChildMap.empty, m.2)
  | .collect entries, m => (.done, ChildMap.ofEntries entries, m.2)
  | .fixed src, m => (.done, src.contents, m.2)
  | .fixedRef cloner src, m =>
      let made := cloner.clones 0 src.contents.values
      if made.2 then (.done, src.contents.withValues made.1, m.2)
      else (.panicked, m)
  | .deserialize entries, m =>
      if ChildMap.Ascending entries then
        (.done, ChildMap.ofEntries entries, m.2)
      else (.refused (ascendingError label), m)
  | .deserializeAs buf values, m =>
      if CompactFits A buf values then (.done, ofCompact A buf values, m.2)
      else (.refused (compactError A buf), m)
  | .clone cloner, m =>
      let made := cloner.clones 0 m.1.values
      if made.2 then (.done, m.1.withValues made.1, m.2) else (.panicked, m)
  | .recollect, m => (.done, m)
  | .other, m => (.done, m.2, ChildMap.empty)
  | .otherRef f, m => (.done, m.2.map fun _ => f, m.2)

end Sources

section Settle

variable {T σ : Type} {A : Arity} {d : Destructor T} {cloner : Cloner T}
variable {cap : ℕ} {m : ChildMap A.LEN T} {out : Outcome (Option σ) T}
variable {holds : σ → ChildMap A.LEN T → Prop}

/-- Either all clones are there, or the array that was to be replaced. -/
theorem Clones.settled_cases (h : Clones holds d cloner cap m out) {old : σ}
    {o : Answer T A} {made : σ} (hsettle : settle old out = some (o, made)) :
    ((cloner.clones 0 m.values).2 = true ∧ o = .done ∧
      holds made (m.withValues (cloner.clones 0 m.values).1)) ∨
    ((cloner.clones 0 m.values).2 = false ∧ o = .panicked ∧ made = old) := by
  cases hdone : (cloner.clones 0 m.values).2 with
  | true =>
      obtain ⟨a, m', rfl, ha, hpresent, hvalues⟩ := h.done hdone
      obtain ⟨rfl, rfl⟩ : Answer.done = o ∧ a = made := by
        simpa [settle] using hsettle
      rw [ChildMap.eq_withValues hpresent, hvalues] at ha
      exact Or.inl ⟨rfl, rfl, ha⟩
  | false =>
      obtain ⟨hstate, hexit⟩ := h.panicked hdone
      by_cases hany : (cloner.clones 0 m.values).1.any d.fails = true
      · rw [if_pos hany] at hexit
        simp [settle, hexit] at hsettle
      · rw [if_neg hany] at hexit
        obtain ⟨rfl, rfl⟩ : Answer.panicked = o ∧ old = made := by
          simpa [settle, hexit.2] using hsettle
        exact Or.inr ⟨rfl, rfl, rfl⟩

/-- What is left after making clones. -/
theorem Clones.settled (h : Clones holds d cloner cap m out) {old : σ}
    {m₀ : ChildMap A.LEN T} (hold : holds old m₀) (o : Answer T A) (made : σ)
    (hsettle : settle old out = some (o, made)) :
    o = (if (cloner.clones 0 m.values).2 then .done else .panicked) ∧
      holds made (if (cloner.clones 0 m.values).2 then
        m.withValues (cloner.clones 0 m.values).1 else m₀) := by
  rcases h.settled_cases hsettle with ⟨hdone, rfl, hmade⟩ | ⟨hdone, rfl, rfl⟩
  · rw [hdone]
    exact ⟨rfl, hmade⟩
  · rw [hdone]
    exact ⟨rfl, hold⟩

/-- With destructors that do not panic the process goes on. -/
theorem Clones.settle_ne_none (h : Clones holds d cloner cap m out) (old : σ)
    (hquiet : ∀ v, d.fails v = false) :
    (settle old out : Option (Answer T A × σ)) ≠ none := by
  cases hdone : (cloner.clones 0 m.values).2 with
  | true =>
      obtain ⟨a, m', rfl, -⟩ := h.done hdone
      simp [settle]
  | false =>
      obtain ⟨-, hexit⟩ := h.panicked hdone
      rw [if_neg (by simp [hquiet])] at hexit
      simp [settle, hexit.2]

end Settle

/-! ## The constructors of the two types -/

/-- The constructors of a sparse array type `σ`; `τ` is the other one, and
`taken` what is left of an array that was moved out. -/
structure Maker (T : Type) (A : Arity) (σ τ : Type) where
  new : σ
  fromIter : List (A.Index × T) → Checked σ
  fromFixed : FixedArray (Option T) A → Checked σ
  fromFixedRef : Destructor T → Cloner T → FixedArray (Option T) A →
    Checked (Outcome (Option σ) T)
  deserialize : List (A.Index × T) → Checked (Except DecodeError σ)
  deserializeAs : List (BitVec 8) → List T → Checked (Except DecodeError σ)
  clone : Destructor T → Cloner T → σ → Checked (Outcome (Option σ) T)
  intoIter : σ → Checked (List (A.Index × T))
  fromOther : τ → Checked σ
  fromOtherRef : (T → T) → τ → Checked σ
  taken : τ

namespace Maker

variable {T : Type} {A : Arity} {σ τ : Type}

/-- Make an array in the place of `s.1`. -/
def make (M : Maker T A σ τ) (d : Destructor T) :
    Component (Source T A) (Answer T A) (σ × τ)
  | .new, s => .ok (some (.done, M.new, s.2))
  | .collect entries, s => do
      let made ← M.fromIter entries
      return some (.done, made, s.2)
  | .fixed src, s => do
      let made ← M.fromFixed src
      return some (.done, made, s.2)
  | .fixedRef cloner src, s => do
      let out ← M.fromFixedRef d cloner src
      return (settle s.1 out).map fun r => (r.1, r.2, s.2)
  | .deserialize entries, s => do
      let out ← M.deserialize entries
      let r := accept s.1 out
      return some (r.1, r.2, s.2)
  | .deserializeAs buf values, s => do
      let out ← M.deserializeAs buf values
      let r := accept s.1 out
      return some (r.1, r.2, s.2)
  | .clone cloner, s => do
      let out ← M.clone d cloner s.1
      return (settle s.1 out).map fun r => (r.1, r.2, s.2)
  | .recollect, s => do
      let entries ← M.intoIter s.1
      let made ← M.fromIter entries
      return some (.done, made, s.2)
  | .other, s => do
      let made ← M.fromOther s.2
      return some (.done, made, M.taken)
  | .otherRef f, s => do
      let made ← M.fromOtherRef f s.2
      return some (.done, made, s.2)

/-- What is made stands for the map it should. -/
structure Models (M : Maker T A σ τ) (label : String)
    (R : σ → ChildMap A.LEN T → Prop) (S : τ → ChildMap A.LEN T → Prop) :
    Prop where
  new : R M.new ChildMap.empty
  fromIter : ∀ entries, ∃ made, M.fromIter entries = .ok made ∧
    R made (ChildMap.ofEntries entries)
  fromFixed : ∀ src, ∃ made, M.fromFixed src = .ok made ∧ R made src.contents
  fromFixedRef : ∀ d cloner src, ∃ out cap, M.fromFixedRef d cloner src =
    .ok out ∧ Clones R d cloner cap src.contents out
  deserialize : ∀ entries, ChildMap.Ascending entries →
    ∃ made, M.deserialize entries = .ok (.ok made) ∧
      R made (ChildMap.ofEntries entries)
  refuses : ∀ entries, ¬ChildMap.Ascending entries →
    M.deserialize entries = .ok (.error (ascendingError label))
  deserializeAs : ∀ buf values, CompactFits A buf values →
    ∃ made, M.deserializeAs buf values = .ok (.ok made) ∧
      R made (ofCompact A buf values)
  refusesAs : ∀ buf values, ¬CompactFits A buf values →
    M.deserializeAs buf values = .ok (.error (compactError A buf))
  clone : ∀ {s m}, R s m → ∀ d cloner, ∃ out cap, M.clone d cloner s = .ok out ∧
    Clones R d cloner cap m out
  intoIter : ∀ {s m}, R s m → M.intoIter s = .ok m.iterPresent
  fromOther : ∀ {t m}, S t m → ∃ made, M.fromOther t = .ok made ∧ R made m
  fromOtherRef : ∀ {t m}, S t m → ∀ f, ∃ made, M.fromOtherRef f t = .ok made ∧
    R made (m.map fun _ => f)
  taken : S M.taken ChildMap.empty

section Spec

variable {M : Maker T A σ τ} {label : String}
variable {R : σ → ChildMap A.LEN T → Prop} {S : τ → ChildMap A.LEN T → Prop}

/-- The state after an array is made. -/
def Both (R : σ → ChildMap A.LEN T → Prop) (S : τ → ChildMap A.LEN T → Prop)
    (s : σ × τ) (m : ChildMap A.LEN T × ChildMap A.LEN T) : Prop :=
  R s.1 m.1 ∧ S s.2 m.2

/-- A making that clones. -/
private theorem of_clones {d : Destructor T} {cloner : Cloner T} {cap : ℕ}
    {src : ChildMap A.LEN T} {out : Outcome (Option σ) T} {s : σ × τ}
    {m : ChildMap A.LEN T × ChildMap A.LEN T}
    {c : Checked (Option (Answer T A × σ × τ))}
    (hc : c = .ok ((settle s.1 out).map fun r => (r.1, r.2, s.2)))
    (hclones : Clones R d cloner cap src out) (hs : Both R S s m) :
    ∃ out, c = .ok out ∧ ∀ o s', out = some (o, s') →
      o = (if (cloner.clones 0 src.values).2 then
          (.done, src.withValues (cloner.clones 0 src.values).1, m.2)
        else (.panicked, m) : Answer T A × _ × _).1 ∧
      Both R S s' (if (cloner.clones 0 src.values).2 then
          (.done, src.withValues (cloner.clones 0 src.values).1, m.2)
        else (.panicked, m) : Answer T A × _ × _).2 := by
  refine ⟨_, hc, fun o s' hout => ?_⟩
  obtain ⟨⟨_, made⟩, hsettle, heq⟩ := Option.map_eq_some_iff.mp hout
  obtain ⟨rfl, rfl⟩ := Prod.ext_iff.mp heq
  obtain ⟨ho, hmade⟩ := hclones.settled hs.1 _ made hsettle
  cases hdone : (cloner.clones 0 src.values).2 with
  | true =>
      rw [hdone] at ho hmade
      exact ⟨ho, hmade, hs.2⟩
  | false =>
      rw [hdone] at ho hmade
      exact ⟨ho, hmade, hs.2⟩

theorem Models.simulates (h : M.Models label R S) (d : Destructor T) :
    (M.make d).Simulates (Source.model label) (Both R S) := by
  intro src s m hs
  cases src with
  | new => exact Component.answers (s := (M.new, s.2)) rfl ⟨h.new, hs.2⟩
  | collect entries =>
      obtain ⟨made, hmake, hmade⟩ := h.fromIter entries
      exact Component.answers (s := (made, s.2)) (by rw [make, hmake]; rfl)
        ⟨hmade, hs.2⟩
  | fixed src =>
      obtain ⟨made, hmake, hmade⟩ := h.fromFixed src
      exact Component.answers (s := (made, s.2)) (by rw [make, hmake]; rfl)
        ⟨hmade, hs.2⟩
  | fixedRef cloner src =>
      obtain ⟨out, cap, hmake, hclones⟩ := h.fromFixedRef d cloner src
      exact of_clones (by rw [make, hmake]; rfl) hclones hs
  | deserialize entries =>
      simp only [Source.model]
      split
      · next hfits =>
          obtain ⟨made, hmake, hmade⟩ := h.deserialize entries hfits
          exact Component.answers (s := (made, s.2)) (by rw [make, hmake]; rfl)
            ⟨hmade, hs.2⟩
      · next hfits =>
          exact Component.answers (s := s)
            (by rw [make, h.refuses entries hfits]; rfl) hs
  | deserializeAs buf values =>
      simp only [Source.model]
      split
      · next hfits =>
          obtain ⟨made, hmake, hmade⟩ := h.deserializeAs buf values hfits
          exact Component.answers (s := (made, s.2)) (by rw [make, hmake]; rfl)
            ⟨hmade, hs.2⟩
      · next hfits =>
          exact Component.answers (s := s)
            (by rw [make, h.refusesAs buf values hfits]; rfl) hs
  | clone cloner =>
      obtain ⟨out, cap, hmake, hclones⟩ := h.clone hs.1 d cloner
      exact of_clones (by rw [make, hmake]; rfl) hclones hs
  | recollect =>
      obtain ⟨made, hmake, hmade⟩ := h.fromIter m.1.iterPresent
      rw [ChildMap.ofEntries_iterPresent] at hmade
      refine Component.answers (s := (made, s.2)) ?_ ⟨hmade, hs.2⟩
      rw [make, h.intoIter hs.1, ok_bind, hmake]
      rfl
  | other =>
      obtain ⟨made, hmake, hmade⟩ := h.fromOther hs.2
      exact Component.answers (s := (made, M.taken)) (by rw [make, hmake]; rfl)
        ⟨hmade, h.taken⟩
  | otherRef f =>
      obtain ⟨made, hmake, hmade⟩ := h.fromOtherRef hs.2 f
      exact Component.answers (s := (made, s.2)) (by rw [make, hmake]; rfl)
        ⟨hmade, hs.2⟩

theorem Models.lasting (h : M.Models label R S) {d : Destructor T}
    (hquiet : ∀ v, d.fails v = false) : (M.make d).Lasting (Both R S) := by
  intro src s m hs
  cases src with
  | new => simp [make]
  | collect entries =>
      obtain ⟨made, hmake, -⟩ := h.fromIter entries
      simp [make, hmake]
  | fixed src =>
      obtain ⟨made, hmake, -⟩ := h.fromFixed src
      simp [make, hmake]
  | fixedRef cloner src =>
      obtain ⟨out, cap, hmake, hclones⟩ := h.fromFixedRef d cloner src
      simp [make, hmake, hclones.settle_ne_none s.1 hquiet]
  | deserialize entries =>
      by_cases hfits : ChildMap.Ascending entries
      · obtain ⟨made, hmake, -⟩ := h.deserialize entries hfits
        simp [make, hmake]
      · simp [make, h.refuses entries hfits]
  | deserializeAs buf values =>
      by_cases hfits : CompactFits A buf values
      · obtain ⟨made, hmake, -⟩ := h.deserializeAs buf values hfits
        simp [make, hmake]
      · simp [make, h.refusesAs buf values hfits]
  | clone cloner =>
      obtain ⟨out, cap, hmake, hclones⟩ := h.clone hs.1 d cloner
      simp [make, hmake, hclones.settle_ne_none s.1 hquiet]
  | recollect =>
      obtain ⟨made, hmake, -⟩ := h.fromIter m.1.iterPresent
      simp [make, h.intoIter hs.1, hmake]
  | other =>
      obtain ⟨made, hmake, -⟩ := h.fromOther hs.2
      simp [make, hmake]
  | otherRef f =>
      obtain ⟨made, hmake, -⟩ := h.fromOtherRef hs.2 f
      simp [make, hmake]

end Spec

end Maker

section Makers

variable (T : Type) (A : Arity)

def packedMaker : Maker T A (PackedArray T A) (GappedArray T A) where
  new := PackedArray.new
  fromIter := PackedArray.fromIter
  fromFixed := PackedArray.fromFixed
  fromFixedRef := PackedArray.fromFixedRef
  deserialize := PackedArray.deserialize
  deserializeAs := PackedArray.deserializeAs
  clone := PackedArray.clone
  intoIter a := PackedArray.IntoIter.collect a.intoIter
  fromOther := PackedArray.fromGapped
  fromOtherRef := PackedArray.fromGappedRef
  taken := GappedArray.new

def gappedMaker : Maker T A (GappedArray T A) (PackedArray T A) where
  new := GappedArray.new
  fromIter := GappedArray.fromIter
  fromFixed := GappedArray.fromFixed
  fromFixedRef := GappedArray.fromFixedRef
  deserialize := GappedArray.deserialize
  deserializeAs := GappedArray.deserializeAs
  clone := GappedArray.clone
  intoIter g := GappedArray.IntoIter.collect g.intoIter
  fromOther := GappedArray.fromPacked
  fromOtherRef := GappedArray.fromPackedRef
  taken := PackedArray.new

theorem packedMaker_models : (packedMaker T A).Models "PackedArray"
    PackedArray.Holds GappedArray.Holds where
  new := PackedArray.holds_new
  fromIter := PackedArray.fromIter_spec
  fromFixed := PackedArray.fromFixed_spec
  fromFixedRef d cloner src := by
    obtain ⟨out, hout, hclones⟩ := PackedArray.fromFixedRef_spec d cloner src
    exact ⟨out, _, hout, hclones⟩
  deserialize _ := PackedArray.common_models.holds_deserialize
  refuses _ := (PackedArray.common T A).deserialize_of_not_ascending
  deserializeAs _ _ := PackedArray.common_models.holds_deserializeAs
  refusesAs _ _ := (PackedArray.common T A).deserializeAs_of_not_fits
  clone h d cloner := by
    obtain ⟨out, hout, hclones⟩ := PackedArray.clone_spec h d cloner
    exact ⟨out, _, hout, hclones⟩
  intoIter := PackedArray.Holds.collect_intoIter
  fromOther := PackedArray.fromGapped_spec
  fromOtherRef := PackedArray.fromGappedRef_spec
  taken := GappedArray.holds_new

theorem gappedMaker_models : (gappedMaker T A).Models "GappedArray"
    GappedArray.Holds PackedArray.Holds where
  new := GappedArray.holds_new
  fromIter entries := by
    obtain ⟨g, hg, hholds, -⟩ := GappedArray.fromIter_spec entries
    exact ⟨g, hg, hholds⟩
  fromFixed src := by
    obtain ⟨g, hg, hholds, -⟩ := GappedArray.fromFixed_spec src
    exact ⟨g, hg, hholds⟩
  fromFixedRef d cloner src := by
    obtain ⟨out, cap, hout, -, hclones⟩ :=
      GappedArray.fromFixedRef_spec d cloner src
    exact ⟨out, cap, hout, hclones.mono fun _ _ h => h.1⟩
  deserialize _ := GappedArray.common_models.holds_deserialize
  refuses _ := (GappedArray.common T A).deserialize_of_not_ascending
  deserializeAs _ _ := GappedArray.common_models.holds_deserializeAs
  refusesAs _ _ := (GappedArray.common T A).deserializeAs_of_not_fits
  clone h d cloner := by
    obtain ⟨out, hout, hclones⟩ := GappedArray.clone_spec h d cloner
    exact ⟨out, _, hout, hclones.mono fun _ _ h => h.1⟩
  intoIter := GappedArray.Holds.collect_intoIter
  fromOther h := by
    obtain ⟨g, hg, hholds, -⟩ := GappedArray.fromPacked_spec h
    exact ⟨g, hg, hholds⟩
  fromOtherRef h f := by
    obtain ⟨g, hg, hholds, -⟩ := GappedArray.fromPackedRef_spec h f
    exact ⟨g, hg, hholds⟩
  taken := PackedArray.holds_new

end Makers

end ArityArrays
