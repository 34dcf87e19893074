import ArityArrays.Arrays.Programs
import ArityArrays.Support.Codec

/-!
# Canonical forms

The logical and the compact form are bijections between maps and the inputs
their decoders accept.  So what an array is encoded as depends on its contents
only, neither on which array it is nor on its capacity or its gaps.
-/

namespace ArityArrays

open ArityTries Checked

variable {T : Type} {A : Arity}

/-! ## The forms -/

/-- Entries with strictly ascending indices. -/
def logicalForm (T : Type) (A : Arity) :
    Form (ChildMap A.LEN T) (List (A.Index × T)) where
  write := ChildMap.iterPresent
  read := ChildMap.ofEntries
  fits := ChildMap.Ascending
  fits_write := ChildMap.ascending_iterPresent
  read_write := ChildMap.ofEntries_iterPresent
  write_read _ := ChildMap.iterPresent_ofEntries

/-- The bytes of a bitmap and as many values as it has set bits. -/
def compactForm (T : Type) (A : Arity) :
    Form (ChildMap A.LEN T) (List (BitVec 8) × List T) where
  write m := (Bitmap.toBytes m.present, m.values)
  read e := ofCompact A e.1 e.2
  fits e := CompactFits A e.1 e.2
  fits_write m := by
    refine ⟨Bitmap.length_toBytes _, ?_⟩
    rw [Bitmap.fromBytes_toBytes A.eight_dvd_LEN, ChildMap.countOnes_present,
      ChildMap.length_values]
  read_write m := by
    rw [ofCompact, Bitmap.fromBytes_toBytes A.eight_dvd_LEN]
    obtain ⟨hpresent, hvalues⟩ := ChildMap.ofEntries_zip
      (m.length_values.trans m.countOnes_present.symm)
    exact ChildMap.ext_values hpresent hvalues
  write_read e he := by
    obtain ⟨hpresent, hvalues⟩ := ChildMap.ofEntries_zip he.2.symm
    rw [ofCompact, hpresent, hvalues,
      Bitmap.toBytes_fromBytes A.eight_dvd_LEN he.1]

/-! ## The codecs -/

namespace DenseCommon

section Codecs

variable (D : DenseCommon T A)

def logical : Codec D.Array (List (A.Index × T)) DecodeError where
  encode := D.serialize
  decode := D.deserialize

/-- The `Compact` adapter. -/
def compact : Codec D.Array (List (BitVec 8) × List T) DecodeError where
  encode := D.serializeAs
  decode e := D.deserializeAs e.1 e.2

end Codecs

namespace Models

variable {D : DenseCommon T A}
variable {Holds Fresh : D.Array → ChildMap A.LEN T → Prop}

theorem logical_implements (h : D.Models Holds Fresh) :
    D.logical.Implements Holds (logicalForm T A) where
  encode := h.serialize_spec
  accept := h.holds_deserialize
  refuse hfits := ⟨_, D.deserialize_of_not_ascending hfits⟩

theorem compact_implements (h : D.Models Holds Fresh) :
    D.compact.Implements Holds (compactForm T A) where
  encode := h.serializeAs_spec
  accept := h.holds_deserializeAs
  refuse hfits := ⟨_, D.deserializeAs_of_not_fits hfits⟩

/-- What an array is encoded as is decoded to an array that compares equal. -/
theorem decodeBack (h : D.Models Holds Fresh) {ε : Type}
    {f : Form (ChildMap A.LEN T) ε} {c : Codec D.Array ε DecodeError}
    (hc : c.Implements Holds f) {a : D.Array} {m : ChildMap A.LEN T}
    (ha : Holds a m) :
    ∃ e b, c.encode a = .ok e ∧ c.decode e = .ok (.ok b) ∧
      (∀ i, D.get b i = D.get a i) ∧ ∀ [DecidableEq T], D.eq a b = .ok true := by
  obtain ⟨e, b, hencode, hdecode, hb⟩ := hc.roundTrip ha
  refine ⟨e, b, hencode, hdecode, fun i => ?_, ?_⟩
  · rw [h.get_spec hb, h.get_spec ha]
  · intro _
    exact h.equal ha hb

end Models

end DenseCommon

namespace PackedArray

def logical (T : Type) (A : Arity) :
    Codec (PackedArray T A) (List (A.Index × T)) DecodeError where
  encode := serialize
  decode := deserialize

/-- The `Compact` adapter. -/
def compact (T : Type) (A : Arity) :
    Codec (PackedArray T A) (List (BitVec 8) × List T) DecodeError where
  encode := serializeAs
  decode e := deserializeAs e.1 e.2

end PackedArray

namespace GappedArray

def logical (T : Type) (A : Arity) :
    Codec (GappedArray T A) (List (A.Index × T)) DecodeError where
  encode := serialize
  decode := deserialize

/-- The `Compact` adapter. -/
def compact (T : Type) (A : Arity) :
    Codec (GappedArray T A) (List (BitVec 8) × List T) DecodeError where
  encode := serializeAs
  decode e := deserializeAs e.1 e.2

end GappedArray

/-! ## What the codecs share -/

/-- Both codecs accept the inputs that fit and encode them again as they were,
an array a program has reached is decoded to an equal one, and two arrays are
encoded alike exactly if they have the same contents. -/
structure CanonicalForm {ε : Type} (cp : Codec (PackedArray T A) ε DecodeError)
    (cg : Codec (GappedArray T A) ε DecodeError) (fits : ε → Prop) : Prop where
  packed : cp.Canonical fits
  gapped : cg.Canonical fits
  packedBack : ∀ s : Vars T A, s.Reached →
    ∃ e a, cp.encode s.packed = .ok e ∧ cp.decode e = .ok (.ok a) ∧
      (∀ i, a.get i = s.packed.get i) ∧
      ∀ [DecidableEq T], s.packed.eq a = .ok true
  gappedBack : ∀ s : Vars T A, s.Reached →
    ∃ e g, cg.encode s.gapped = .ok e ∧ cg.decode e = .ok (.ok g) ∧
      (∀ i, g.get i = s.gapped.get i) ∧
      ∀ [DecidableEq T], s.gapped.eq g = .ok true
  alike : ∀ s s' : Vars T A, s.Reached → s'.Reached →
    ∀ m m', s.Reads m → s'.Reads m' →
      (cp.encode s.packed = cp.encode s'.packed ↔ m.1 = m'.1) ∧
      (cg.encode s.gapped = cg.encode s'.gapped ↔ m.2 = m'.2) ∧
      (cp.encode s.packed = cg.encode s'.gapped ↔ m.1 = m'.2)

section CanonicalForm

variable {ε : Type} {f : Form (ChildMap A.LEN T) ε}
variable {cp : Codec (PackedArray T A) ε DecodeError}
variable {cg : Codec (GappedArray T A) ε DecodeError}

theorem canonicalForm_of_implements (hp : cp.Implements PackedArray.Holds f)
    (hg : cg.Implements GappedArray.Holds f) : CanonicalForm cp cg f.fits where
  packed := hp.canonical
  gapped := hg.canonical
  packedBack s hs := by
    obtain ⟨m, hm⟩ := hs.hold
    exact PackedArray.common_models.decodeBack hp hm.1
  gappedBack s hs := by
    obtain ⟨m, hm⟩ := hs.hold
    exact GappedArray.common_models.decodeBack hg hm.2
  alike s s' hs hs' m m' hreads hreads' := by
    obtain ⟨n, hn⟩ := hs.hold
    obtain ⟨n', hn'⟩ := hs'.hold
    obtain rfl := hreads.unique hn.reads
    obtain rfl := hreads'.unique hn'.reads
    exact ⟨hp.encode_eq_iff hp hn.1 hn'.1, hg.encode_eq_iff hg hn.2 hn'.2,
      hp.encode_eq_iff hg hn.1 hn'.2⟩

end CanonicalForm

/-- The logical form is canonical: a decoder accepts the sequences with strictly
ascending indices. -/
theorem logical_form_canonical (T : Type) (A : Arity) :
    CanonicalForm (PackedArray.logical T A) (GappedArray.logical T A)
      ChildMap.Ascending :=
  canonicalForm_of_implements PackedArray.common_models.logical_implements
    GappedArray.common_models.logical_implements

/-! ## Values in the compact form -/

/-- The value of rank `k` stands at the set bit of rank `k`, and there are no
others. -/
def ValuesAtBits (get : A.Index → Checked (Option T)) (buf : List (BitVec 8))
    (values : List T) : Prop :=
  (∀ k i, Bitmap.select (Bitmap.fromBytes A.LEN buf) k = some i →
    get i = .ok values[k]?) ∧
  ∀ i, i ∉ Bitmap.fromBytes A.LEN buf → get i = .ok none

theorem valuesAtBits_of_get {get : A.Index → Checked (Option T)}
    {buf : List (BitVec 8)} {values : List T} (h : CompactFits A buf values)
    (hget : ∀ i, get i = .ok ((ofCompact A buf values).get i)) :
    ValuesAtBits get buf values := by
  obtain ⟨hpresent, hvalues⟩ := ChildMap.ofEntries_zip h.2.symm
  refine ⟨fun k i hi => ?_, fun i hi => ?_⟩
  · obtain ⟨hmem, hrank⟩ := Bitmap.select_eq_some.mp hi
    rw [← hpresent] at hmem
    rw [hget, ofCompact, ← ChildMap.values_rank hmem, hvalues, hpresent, hrank]
  · rw [← hpresent, ChildMap.notMem_present] at hi
    rw [hget, ofCompact, hi]

theorem DenseCommon.Models.valuesAtBits {D : DenseCommon T A}
    {Holds Fresh : D.Array → ChildMap A.LEN T → Prop}
    (h : D.Models Holds Fresh) {buf : List (BitVec 8)} {values : List T}
    {a : D.Array} (ha : D.deserializeAs buf values = .ok (.ok a)) :
    ValuesAtBits (D.get a) buf values := by
  obtain ⟨hfits, hholds⟩ := h.compact_implements.of_decode
    (e := (buf, values)) ha
  exact valuesAtBits_of_get hfits (h.get_spec hholds)

/-- The compact form is canonical: a decoder accepts a buffer of the right
length with as many values as its bitmap has set bits, and puts the values at
the set bits in order. -/
theorem compact_form_canonical (T : Type) (A : Arity) :
    CanonicalForm (PackedArray.compact T A) (GappedArray.compact T A)
        (fun e => CompactFits A e.1 e.2) ∧
      ∀ (buf : List (BitVec 8)) (values : List T),
        (∀ a : PackedArray T A,
          PackedArray.deserializeAs buf values = .ok (.ok a) →
            ValuesAtBits a.get buf values) ∧
        ∀ g : GappedArray T A,
          GappedArray.deserializeAs buf values = .ok (.ok g) →
            ValuesAtBits g.get buf values := by
  have hcanonical : CanonicalForm (PackedArray.compact T A)
      (GappedArray.compact T A) (compactForm T A).fits :=
    canonicalForm_of_implements PackedArray.common_models.compact_implements
      GappedArray.common_models.compact_implements
  refine ⟨hcanonical, fun buf values => ⟨fun a ha => ?_, fun g hg => ?_⟩⟩
  · exact PackedArray.common_models.valuesAtBits ha
  · exact GappedArray.common_models.valuesAtBits hg

end ArityArrays
