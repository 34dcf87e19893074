import ArityArrays.Arrays.Programs
import ArityArrays.Support.Comparison

/-!
# Equality and hashing

`PartialEq` compares the bitmaps and then the values in order of rank.  `Hash`
writes the count and then every index with its value.  Both are functions of
the contents, so neither sees the capacity, the gaps or the history of an
array.
-/

/-! ## Related maps -/

namespace ArityTries.ChildMap

variable {n : ℕ} {T : Type} {r : T → T → Prop} {m m' : ChildMap n T}

/-- The same indices are present, with related values. -/
def Related (r : T → T → Prop) (m m' : ChildMap n T) : Prop :=
  ∀ i, Option.Rel r (m.get i) (m'.get i)

theorem related_equivalence (h : Equivalence r) :
    Equivalence (Related (n := n) r) := by
  have hrel := optionRel_equivalence h
  constructor
  · intro m i
    exact hrel.refl _
  · intro m m' hm i
    exact hrel.symm (hm i)
  · intro m m' m'' hm hm' i
    exact hrel.trans (hm i) (hm' i)

theorem Related.present_eq (h : m.Related r m') : m.present = m'.present := by
  ext i
  rw [mem_present, mem_present]
  have hi := h i
  generalize m.get i = o at hi
  generalize m'.get i = o' at hi
  rcases hi with _ | _ <;> simp

/-- Maps are related if they have the same bitmap and related values in
order. -/
theorem related_iff :
    m.Related r m' ↔ m.present = m'.present ∧
      List.Forall₂ (fun e e' => r e.2 e'.2) m.iterPresent m'.iterPresent := by
  constructor
  · intro h
    refine ⟨h.present_eq, List.rel_filterMap (R := Eq) ?_
      (List.forall₂_refl _)⟩
    rintro i _ rfl
    dsimp only
    have hi := h i
    generalize m.get i = o at hi
    generalize m'.get i = o' at hi
    rcases hi with hvv | _
    · exact .some hvv
    · exact .none
  · rintro ⟨hpresent, hvalues⟩ i
    have hkeys : m.iterPresent.map Prod.fst = m'.iterPresent.map Prod.fst := by
      rw [map_fst_iterPresent, map_fst_iterPresent, hpresent]
    have hentries := forall₂_of_map_eq hvalues hkeys
    by_cases hi : i ∈ m.present
    · obtain ⟨v, hv⟩ := mem_present.mp hi
      obtain ⟨⟨j, v'⟩, hmem, hij, hvv⟩ :=
        exists_related hentries (mem_iterPresent.mpr hv)
      obtain rfl : i = j := hij
      rw [hv, mem_iterPresent.mp hmem]
      exact .some hvv
    · have hi' : i ∉ m'.present := hpresent ▸ hi
      rw [notMem_present.mp hi, notMem_present.mp hi']
      exact .none

theorem related_decide [DecidableEq T] :
    m.Related (fun x y => decide (x = y) = true) m' ↔ m = m' := by
  constructor
  · intro h
    refine ext_get fun i => ?_
    have hi := h i
    generalize m.get i = o at hi
    generalize m'.get i = o' at hi
    rcases hi with hvv | _
    · rw [of_decide_eq_true hvv]
    · rfl
  · rintro rfl i
    cases m.get i <;> simp

end ArityTries.ChildMap

namespace ArityArrays

open ArityTries Checked

variable {T ω τ : Type} {A : Arity}

/-! ## Equality -/

/-- `PartialEq`, by the elements' own: the bitmaps first, then the values in
step. -/
def denseEqBy {σ σ' : Type} (same : T → T → Bool) (bits bits' : Bitmap A.LEN)
    (it : DoubleEnded σ (A.Index × T)) (it' : DoubleEnded σ' (A.Index × T))
    (s : σ) (s' : σ') : Checked Bool :=
  if bits = bits' then it.eqBy it' (fun e e' => same e.2 e'.2) s s'
  else .ok false

theorem denseEqBy_spec {σ σ' : Type} {it : DoubleEnded σ (A.Index × T)}
    {it' : DoubleEnded σ' (A.Index × T)} {R : σ → List (A.Index × T) → Prop}
    {R' : σ' → List (A.Index × T) → Prop} (h : it.Refines R)
    (h' : it'.Refines R') {s : σ} {s' : σ'} {m m' : ChildMap A.LEN T}
    (hs : R s m.iterPresent) (hs' : R' s' m'.iterPresent)
    (same : T → T → Bool) :
    ∃ r, denseEqBy same m.present m'.present it it' s s' = .ok r ∧
      (r = true ↔ m.Related (fun x y => same x y = true) m') := by
  rw [ChildMap.related_iff]
  unfold denseEqBy
  by_cases hbits : m.present = m'.present
  · obtain ⟨r, heq, hr⟩ := h.eqBy h' hs hs' fun e e' => same e.2 e'.2
    refine ⟨r, by rw [if_pos hbits, heq], ?_⟩
    rw [hr]
    exact ⟨fun hall => ⟨hbits, hall⟩, fun hall => hall.2⟩
  · refine ⟨false, if_neg hbits, ?_⟩
    exact ⟨fun hfalse => absurd hfalse (by decide),
      fun hall => absurd hall.1 hbits⟩

/-! ## Hashing -/

/-- What `Hash` implementations write to a hasher: a `usize`, and whatever an
element writes. -/
structure Feed (T ω : Type) where
  usize : ℕ → ω
  elem : T → List ω

/-- The writes of a map: the count, then every index and value ascending. -/
def Feed.writes {n : ℕ} (feed : Feed T ω) (m : ChildMap n T) : List ω :=
  feed.usize m.count ::
    m.iterPresent.flatMap fun e => feed.usize e.1.val :: feed.elem e.2

/-- Related maps make the same writes if related values do. -/
theorem Feed.writes_congr {n : ℕ} {feed : Feed T ω} {r : T → T → Prop}
    (hfeed : ∀ x y, r x y → feed.elem x = feed.elem y)
    {m m' : ChildMap n T} (h : m.Related r m') :
    feed.writes m = feed.writes m' := by
  obtain ⟨hpresent, hvalues⟩ := ChildMap.related_iff.mp h
  have hkeys : m.iterPresent.map Prod.fst = m'.iterPresent.map Prod.fst := by
    rw [ChildMap.map_fst_iterPresent, ChildMap.map_fst_iterPresent, hpresent]
  have hentries := forall₂_of_map_eq hvalues hkeys
  have hcount : m.count = m'.count := hvalues.length_eq
  unfold Feed.writes
  rw [hcount]
  congr 1
  generalize m.iterPresent = xs at hentries
  generalize m'.iterPresent = ys at hentries
  induction hentries with
  | nil => rfl
  | cons hee _ ih =>
      rw [List.flatMap_cons, List.flatMap_cons, ih, hee.1, hfeed _ _ hee.2]

/-- `Hash`: the count, then a loop over the present entries.  The hasher's
state is `τ`, and `write` is a call of it. -/
def denseHash {σ : Type} (feed : Feed T ω) (write : τ → ω → τ) (count : ℕ)
    (it : DoubleEnded σ (A.Index × T)) (s : σ) (state : τ) : Checked τ :=
  it.fold (fun state e =>
      .ok ((feed.elem e.2).foldl write (write state (feed.usize e.1.val))))
    (write state (feed.usize count)) s

theorem denseHash_spec {σ : Type} {it : DoubleEnded σ (A.Index × T)}
    {R : σ → List (A.Index × T) → Prop} (h : it.Refines R) {s : σ}
    {m : ChildMap A.LEN T} (hs : R s m.iterPresent) (feed : Feed T ω)
    (write : τ → ω → τ) (state : τ) :
    denseHash feed write m.count it s state =
      .ok ((feed.writes m).foldl write state) := by
  rw [denseHash, h.fold hs, DoubleEnded.foldlM_ok, Feed.writes,
    List.foldl_cons, List.foldl_flatMap]
  rfl

/-! ## The two arrays -/

namespace DenseCommon

section Functions

variable (D : DenseCommon T A)

/-- `==`, by the elements' own. -/
def eqBy (same : T → T → Bool) (a b : D.Array) : Checked Bool :=
  denseEqBy same (D.bitmap a) (D.bitmap b) D.iterator D.iterator
    (D.iterPresent a) (D.iterPresent b)

def hash (feed : Feed T ω) (write : τ → ω → τ) (a : D.Array) (state : τ) :
    Checked τ :=
  denseHash feed write (D.count a) D.iterator (D.iterPresent a) state

end Functions

namespace Models

variable {D : DenseCommon T A}
variable {Holds Fresh : D.Array → ChildMap A.LEN T → Prop}
variable {a b : D.Array} {m m' : ChildMap A.LEN T}

theorem eqBy_spec (h : D.Models Holds Fresh) (ha : Holds a m) (hb : Holds b m')
    (same : T → T → Bool) :
    ∃ r, D.eqBy same a b = .ok r ∧
      (r = true ↔ m.Related (fun x y => same x y = true) m') := by
  obtain ⟨R, hrefines, hstart⟩ := h.cursor
  rw [eqBy, h.bitmap_eq ha, h.bitmap_eq hb]
  exact denseEqBy_spec hrefines hrefines (hstart ha) (hstart hb) same

theorem hash_spec (h : D.Models Holds Fresh) (ha : Holds a m)
    (feed : Feed T ω) (write : τ → ω → τ) (state : τ) :
    D.hash feed write a state = .ok ((feed.writes m).foldl write state) := by
  obtain ⟨R, hrefines, hstart⟩ := h.cursor
  rw [hash, h.count_eq ha]
  exact denseHash_spec hrefines (hstart ha) feed write state

/-- With the equality of the elements it is the derived comparison. -/
theorem eqBy_decide [DecidableEq T] (h : D.Models Holds Fresh) (ha : Holds a m)
    (hb : Holds b m') : D.eqBy (fun x y => decide (x = y)) a b = D.eq a b := by
  obtain ⟨r, hr, hrelated⟩ := h.eqBy_spec ha hb fun x y => decide (x = y)
  obtain ⟨r', hr', hmaps⟩ := h.eq_spec ha hb
  rw [hr, hr']
  congr 1
  rw [Bool.eq_iff_iff, hrelated, hmaps]
  exact ChildMap.related_decide

end Models

end DenseCommon

namespace PackedArray

/-- `==`, by the elements' own. -/
def eqBy (same : T → T → Bool) (a b : PackedArray T A) : Checked Bool :=
  (common T A).eqBy same a b

def hash (feed : Feed T ω) (write : τ → ω → τ) (a : PackedArray T A)
    (state : τ) : Checked τ :=
  (common T A).hash feed write a state

end PackedArray

namespace GappedArray

/-- `==`, by the elements' own. -/
def eqBy (same : T → T → Bool) (g g' : GappedArray T A) : Checked Bool :=
  (common T A).eqBy same g g'

def hash (feed : Feed T ω) (write : τ → ω → τ) (g : GappedArray T A)
    (state : τ) : Checked τ :=
  (common T A).hash feed write g state

end GappedArray

/-! ## What a caller sees of a layout -/

/-- Of all the arrays `reached`: `==` says whether a caller reads related
values at every index, which makes it an equivalence, and equal arrays feed any
hasher the same writes, the count and then every index and value ascending. -/
structure IgnoresLayout {σ : Type} (same : T → T → Bool) (reached : σ → Prop)
    (get : σ → A.Index → Checked (Option T))
    (eqBy : σ → σ → Checked Bool)
    (hash : ∀ ω τ : Type, Feed T ω → (τ → ω → τ) → σ → τ → Checked τ) :
    Prop where
  eq_iff : ∀ a b, reached a → reached b →
    ∃ r, eqBy a b = .ok r ∧ (r = true ↔ ∀ i, ∃ o o', get a i = .ok o ∧
      get b i = .ok o' ∧ Option.Rel (fun x y => same x y = true) o o')
  equivalence : Equivalence fun a b : { a // reached a } =>
    eqBy a.1 b.1 = .ok true
  hash_eq : ∀ (ω : Type) (feed : Feed T ω),
    (∀ x y, same x y = true → feed.elem x = feed.elem y) →
    ∀ a b, reached a → reached b → eqBy a b = .ok true →
      ∃ entries : List (A.Index × T), ChildMap.Ascending entries ∧
        (∀ i v, (i, v) ∈ entries ↔ get a i = .ok (some v)) ∧
        ∀ (τ : Type) (write : τ → ω → τ) (state : τ),
          hash ω τ feed write a state = .ok ((feed.usize entries.length ::
            entries.flatMap fun e => feed.usize e.1.val :: feed.elem e.2).foldl
              write state) ∧
          hash ω τ feed write b state = hash ω τ feed write a state

/-- An implementation that compares and hashes the maps arrays hold. -/
theorem DenseCommon.Models.ignoresLayout {D : DenseCommon T A}
    {Holds Fresh : D.Array → ChildMap A.LEN T → Prop}
    (h : D.Models Holds Fresh) {same : T → T → Bool}
    (hsame : Equivalence fun x y => same x y = true) {reached : D.Array → Prop}
    (hreached : ∀ a, reached a → ∃ m, Holds a m) :
    IgnoresLayout same reached D.get (D.eqBy same) (fun _ _ => D.hash) := by
  have heq_true : ∀ {a b m m'}, Holds a m → Holds b m' →
      (D.eqBy same a b = .ok true ↔
        m.Related (fun x y => same x y = true) m') := by
    intro a b m m' ha hb
    obtain ⟨r, hr, hrelated⟩ := h.eqBy_spec ha hb same
    rw [hr, ← hrelated]
    simp
  have hmaps := ChildMap.related_equivalence (n := A.LEN) hsame
  constructor
  · intro a b ha hb
    obtain ⟨m, hm⟩ := hreached a ha
    obtain ⟨m', hm'⟩ := hreached b hb
    obtain ⟨r, hr, hrelated⟩ := h.eqBy_spec hm hm' same
    refine ⟨r, hr, ?_⟩
    rw [hrelated]
    apply forall_congr'
    intro i
    rw [h.get_spec hm, h.get_spec hm']
    simp
  · constructor
    · rintro ⟨a, ha⟩
      obtain ⟨m, hm⟩ := hreached a ha
      exact (heq_true hm hm).mpr (hmaps.refl m)
    · rintro ⟨a, ha⟩ ⟨b, hb⟩ hab
      obtain ⟨m, hm⟩ := hreached a ha
      obtain ⟨m', hm'⟩ := hreached b hb
      exact (heq_true hm' hm).mpr (hmaps.symm ((heq_true hm hm').mp hab))
    · rintro ⟨a, ha⟩ ⟨b, hb⟩ ⟨c, hc⟩ hab hbc
      obtain ⟨m, hm⟩ := hreached a ha
      obtain ⟨m', hm'⟩ := hreached b hb
      obtain ⟨m'', hm''⟩ := hreached c hc
      exact (heq_true hm hm'').mpr (hmaps.trans
        ((heq_true hm hm').mp hab) ((heq_true hm' hm'').mp hbc))
  · intro ω feed hfeed a b ha hb hab
    obtain ⟨m, hm⟩ := hreached a ha
    obtain ⟨m', hm'⟩ := hreached b hb
    have hwrites := Feed.writes_congr hfeed ((heq_true hm hm').mp hab)
    refine ⟨m.iterPresent, ChildMap.ascending_iterPresent m, ?_, ?_⟩
    · intro i v
      rw [ChildMap.mem_iterPresent, h.get_spec hm]
      simp
    · intro τ write state
      rw [h.hash_spec hm, h.hash_spec hm', ← hwrites]
      exact ⟨rfl, rfl⟩

/-- Equality and hashing of either array ignore its layout: they depend on the
contents alone, whatever programs two arrays come from. -/
theorem equality_ignores_layout {same : T → T → Bool}
    (hsame : Equivalence fun x y => same x y = true) (A : Arity) :
    IgnoresLayout same
      (fun a : PackedArray T A => ∃ s : Vars T A, s.Reached ∧ s.packed = a)
      PackedArray.get (PackedArray.eqBy same)
      (fun _ _ => PackedArray.hash) ∧
    IgnoresLayout same
      (fun g : GappedArray T A => ∃ s : Vars T A, s.Reached ∧ s.gapped = g)
      GappedArray.get (GappedArray.eqBy same)
      (fun _ _ => GappedArray.hash) := by
  constructor
  · have hreached : ∀ a : PackedArray T A,
        (∃ s : Vars T A, s.Reached ∧ s.packed = a) →
          ∃ m, PackedArray.Holds a m := by
      rintro _ ⟨s, hs, rfl⟩
      obtain ⟨m, hm⟩ := hs.hold
      exact ⟨m.1, hm.1⟩
    exact PackedArray.common_models.ignoresLayout hsame hreached
  · have hreached : ∀ g : GappedArray T A,
        (∃ s : Vars T A, s.Reached ∧ s.gapped = g) →
          ∃ m, GappedArray.Holds g m := by
      rintro _ ⟨s, hs, rfl⟩
      obtain ⟨m, hm⟩ := hs.hold
      exact ⟨m.2, hm.2⟩
    exact GappedArray.common_models.ignoresLayout hsame hreached

/-- A gapped array grown in one call and one with room for all indices, equal
up to the parity of their elements. -/
theorem equality_ignores_layout_parity :
    ∃ s s' : Vars ℕ .arity8, s.Reached ∧ s'.Reached ∧
      s.gapped.eqBy (fun x y => x % 2 == y % 2) s'.gapped = .ok true ∧
      s'.gapped.hash (⟨id, fun x => [x % 2]⟩ : Feed ℕ ℕ)
          (fun ws w => ws ++ [w]) [] =
        s.gapped.hash (⟨id, fun x => [x % 2]⟩ : Feed ℕ ℕ)
          (fun ws w => ws ++ [w]) [] := by
  have hsame : Equivalence fun x y : ℕ => (x % 2 == y % 2) = true := by
    simp only [beq_iff_eq]
    exact ⟨fun _ => rfl, Eq.symm, Eq.trans⟩
  obtain ⟨-, hlayout⟩ := equality_ignores_layout hsame .arity8
  obtain ⟨s, hs, hhold⟩ := Vars.reached_of_calls
    ([.gapped (.extend [(5, 9), (3, 7)])] : List (Call ℕ .arity8))
  obtain ⟨s', hs', hhold'⟩ := Vars.reached_of_calls
    ([.withCapacity 8, .gapped (.extend [(3, 1), (5, 3)])] :
      List (Call ℕ .arity8))
  obtain ⟨r, heq, hr⟩ := hlayout.eq_iff s.gapped s'.gapped ⟨s, hs, rfl⟩
    ⟨s', hs', rfl⟩
  have htrue : r = true := by
    have hparity : ∀ i,
        ((Model.run (Call.model ⟨false, fun _ => false⟩)
          ([.gapped (.extend [(5, 9), (3, 7)])] : List (Call ℕ .arity8))
          (ChildMap.empty, ChildMap.empty)).2.2.get i).map (· % 2) =
        ((Model.run (Call.model ⟨false, fun _ => false⟩)
          ([.withCapacity 8, .gapped (.extend [(3, 1), (5, 3)])] :
            List (Call ℕ .arity8))
          (ChildMap.empty, ChildMap.empty)).2.2.get i).map (· % 2) := by
      decide
    rw [hr]
    intro i
    refine ⟨_, _, hhold.reads.gapped i, hhold'.reads.gapped i, ?_⟩
    have hi := hparity i
    revert hi
    generalize ChildMap.get _ i = o
    generalize ChildMap.get _ i = o'
    rcases o with _ | x <;> rcases o' with _ | y <;> simp
  rw [htrue] at heq
  obtain ⟨_, _, _, hhash⟩ := hlayout.hash_eq ℕ ⟨id, fun x => [x % 2]⟩
    (fun x y hxy => by simpa using hxy) s.gapped s'.gapped ⟨s, hs, rfl⟩
    ⟨s', hs', rfl⟩ heq
  exact ⟨s, s', hs, hs', heq, (hhash _ _ _).2⟩

end ArityArrays
