import ArityArrays.Arrays.Gapped.Conversions

/-!
# Equality and serialized forms

Both sparse arrays compare by their bitmap and their values in order.  The
logical form of an array is the sequence of its entries; a decoder accepts it
if the indices ascend.  The compact form is the bitmap in little-endian bytes
with the values in order.  Either decoder stages the entries in a fixed array.
-/

namespace ArityTries

open ArityArrays

/-! ## Bytes of a bitmap -/

namespace Bitmap

variable {n : ℕ}

/-- The byte whose bit `j` is `f j`. -/
def byteOf (f : Fin 8 → Bool) : BitVec 8 :=
  (BitVec.iunfoldr (fun j (_ : Unit) => ((), f j)) ()).2

theorem getLsbD_byteOf (f : Fin 8 → Bool) (j : Fin 8) :
    (byteOf f).getLsbD j.val = f j :=
  BitVec.iunfoldr_getLsbD (fun _ => ()) j fun _ => rfl

/-- The bytes, little-endian: bit `j` of byte `k` is position `8 * k + j`. -/
def toBytes (b : Bitmap n) : List (BitVec 8) :=
  (List.range (n / 8)).map fun k =>
    byteOf fun j => (tryFromUsize (8 * k + j.val)).any (test b)

def fromBytes (n : ℕ) (bytes : List (BitVec 8)) : Bitmap n :=
  Finset.univ.filter fun i : Fin n =>
    (bytes[i.val / 8]?).any fun byte => byte.getLsbD (i.val % 8)

def tryFromBytes (n : ℕ) (buf : List (BitVec 8)) : Option (Bitmap n) :=
  if buf.length ≠ n / 8 then none else some (fromBytes n buf)

theorem mem_fromBytes {bytes : List (BitVec 8)} {i : Fin n} :
    i ∈ fromBytes n bytes ↔
      ∃ byte, bytes[i.val / 8]? = some byte ∧
        byte.getLsbD (i.val % 8) = true := by
  simp [fromBytes, Option.any_eq_true]

@[simp] theorem length_toBytes (b : Bitmap n) :
    (toBytes b).length = n / 8 := by
  simp [toBytes]

theorem getLsbD_toBytes (b : Bitmap n) {k j : ℕ} (hk : k < n / 8)
    (hj : j < 8) :
    ∃ byte, (toBytes b)[k]? = some byte ∧
      byte.getLsbD j = (tryFromUsize (8 * k + j)).any (test b) := by
  refine ⟨byteOf fun j => (tryFromUsize (8 * k + j.val)).any (test b), ?_,
    getLsbD_byteOf _ (⟨j, hj⟩ : Fin 8)⟩
  simp [toBytes, hk]

theorem fromBytes_toBytes (hn : 8 ∣ n) (b : Bitmap n) :
    fromBytes n (toBytes b) = b := by
  ext i
  have hlt : i.val / 8 < n / 8 := Nat.div_lt_div_of_lt_of_dvd hn i.isLt
  obtain ⟨byte, hbyte, hbit⟩ := getLsbD_toBytes b hlt
    (Nat.mod_lt i.val (by decide))
  rw [Nat.div_add_mod, tryFromUsize_of_lt i.isLt] at hbit
  rw [mem_fromBytes]
  simp [hbyte, hbit, test]

theorem toBytes_fromBytes (hn : 8 ∣ n) {bytes : List (BitVec 8)}
    (hlen : bytes.length = n / 8) : toBytes (fromBytes n bytes) = bytes := by
  refine List.ext_getElem (by rw [length_toBytes, hlen]) fun k hk hk' => ?_
  have hk₁ : k < n / 8 := length_toBytes (fromBytes n bytes) ▸ hk
  refine BitVec.eq_of_getLsbD_eq fun j hj => ?_
  obtain ⟨byte, hbyte, hbit⟩ := getLsbD_toBytes (fromBytes n bytes) hk₁ hj
  rw [List.getElem?_eq_getElem hk, Option.some.injEq] at hbyte
  have hpos : 8 * k + j < n := by omega
  have hdiv : (8 * k + j) / 8 = k := by omega
  have hmod : (8 * k + j) % 8 = j := by omega
  rw [hbyte, hbit, tryFromUsize_of_lt hpos]
  simp [test, mem_fromBytes, hdiv, hmod, hk']

theorem bits_injective {b c : Bitmap n} (h : bits b = bits c) : b = c := by
  rw [← toFinset_bits b, h, toFinset_bits]

end Bitmap

/-! ## Ascending entries -/

namespace ChildMap

variable {n : ℕ} {T : Type}

/-- The indices of the entries are strictly ascending. -/
def Ascending (entries : List (Fin n × T)) : Prop :=
  (entries.map Prod.fst).Pairwise (· < ·)

instance (entries : List (Fin n × T)) : Decidable (Ascending entries) :=
  inferInstanceAs (Decidable ((entries.map Prod.fst).Pairwise (· < ·)))

theorem ascending_iterPresent (m : ChildMap n T) : Ascending m.iterPresent := by
  rw [Ascending, map_fst_iterPresent]
  exact Bitmap.bits_pairwise m.present

/-- Ascending entries are those of the map they leave behind. -/
theorem iterPresent_ofEntries {entries : List (Fin n × T)}
    (h : Ascending entries) : (ofEntries entries).iterPresent = entries := by
  have hsorted : entries.Pairwise fun e e' => e.1 < e'.1 :=
    List.pairwise_map.mp h
  have hkeys : entries.Pairwise fun e e' => e.1 ≠ e'.1 :=
    hsorted.imp fun hlt => Fin.ne_of_lt hlt
  have hmem : ∀ e, e ∈ (ofEntries entries).iterPresent ↔ e ∈ entries := by
    rintro ⟨i, v⟩
    obtain ⟨hin, hout⟩ := get_foldl_set hkeys empty i
    rw [mem_iterPresent]
    refine ⟨fun hget => ?_, hin v⟩
    by_contra hv
    by_cases hother : ∃ w, (i, w) ∈ entries
    · obtain ⟨w, hw⟩ := hother
      have hvw : w = v := by
        rw [ofEntries, hin w hw] at hget
        exact Option.some.inj hget
      exact hv (hvw ▸ hw)
    · rw [ofEntries, hout fun w hw => hother ⟨w, hw⟩] at hget
      cases hget
  have hnodup : ∀ {xs : List (Fin n × T)},
      (xs.Pairwise fun e e' => e.1 < e'.1) → xs.Nodup := fun hxs =>
    hxs.imp fun hlt heq => absurd (congrArg Prod.fst heq) (Fin.ne_of_lt hlt)
  have hperm := (List.perm_ext_iff_of_nodup
    (hnodup (ofEntries entries).iterPresent_pairwise)
    (hnodup hsorted)).mpr hmem
  exact hperm.eq_of_pairwise
    (fun e e' _ _ hlt hgt => absurd hgt (Fin.lt_asymm hlt))
    (ofEntries entries).iterPresent_pairwise hsorted

/-- Values stored at the set positions in order. -/
theorem ofEntries_zip {b : Bitmap n} {vs : List T}
    (hlen : vs.length = Bitmap.countOnes b) :
    (ofEntries ((Bitmap.bits b).zip vs)).present = b ∧
      (ofEntries ((Bitmap.bits b).zip vs)).values = vs := by
  have hkeys : ((Bitmap.bits b).zip vs).map Prod.fst = Bitmap.bits b :=
    List.map_fst_zip (by rw [Bitmap.length_bits, hlen])
  have hentries : (ofEntries ((Bitmap.bits b).zip vs)).iterPresent =
      (Bitmap.bits b).zip vs := by
    refine iterPresent_ofEntries ?_
    rw [Ascending, hkeys]
    exact Bitmap.bits_pairwise b
  constructor
  · refine Bitmap.bits_injective ?_
    rw [← map_fst_iterPresent, hentries, hkeys]
  · rw [values, hentries]
    exact List.map_snd_zip (by rw [Bitmap.length_bits, hlen])

end ChildMap

end ArityTries

namespace ArityArrays

open ArityTries Checked

/-! ## Equality -/

/-- `PartialEq`, given a bitmap and the present entries of either side. -/
def denseEq {T : Type} {A : Arity} [DecidableEq T] (bits bits' : Bitmap A.LEN)
    (entries entries' : Checked (List (A.Index × T))) : Checked Bool :=
  if bits = bits' then do
    let xs ← entries
    let ys ← entries'
    return decide (xs.map Prod.snd = ys.map Prod.snd)
  else .ok false

theorem denseEq_eq {T : Type} {A : Arity} [DecidableEq T]
    (m m' : ChildMap A.LEN T) :
    ∃ same, denseEq m.present m'.present (.ok m.iterPresent)
        (.ok m'.iterPresent) = .ok same ∧ (same = true ↔ m = m') := by
  unfold denseEq
  split
  · next hbits =>
      refine ⟨_, rfl, ?_⟩
      rw [decide_eq_true_iff]
      constructor
      · intro hvalues
        exact ChildMap.ext_values hbits hvalues
      · intro h
        rw [h]
  · next hbits =>
      refine ⟨false, rfl, ?_⟩
      have hne : m ≠ m' := fun h => hbits (h ▸ rfl)
      simp [hne]

/-! ## Decoding -/

/-- Why a decoder refuses its input. -/
inductive DecodeError where
  | custom (message : String)
  | invalidLength (len : ℕ) (expected : String)
  deriving DecidableEq, Repr

section Decode

variable {T σ : Type} {A : Arity}

/-- Convert the staged entries, unless they were refused. -/
def decodeWith (make : FixedArray (Option T) A → Checked σ) :
    Except DecodeError (FixedArray (Option T) A) →
      Checked (Except DecodeError σ)
  | .error e => .ok (.error e)
  | .ok out => do
      let a ← make out
      return .ok a

/-- The message about indices out of order. -/
def ascendingError (label : String) : DecodeError :=
  .custom (label ++ " indices must be strictly ascending")

/-- One pass of `visit_seq`, which remembers the last index. -/
def visitElement (label : String) (s : FixedArray (Option T) A × Option ℕ)
    (entry : A.Index × T) :
    Except DecodeError (FixedArray (Option T) A × Option ℕ) :=
  let i := entry.1.val
  if s.2.any fun prev => decide (i ≤ prev) then .error (ascendingError label)
  else .ok (s.1.assign entry.1 (some entry.2), some i)

def visitSeq (label : String) (entries : List (A.Index × T)) :
    Except DecodeError (FixedArray (Option T) A) := do
  let out ← entries.foldlM (visitElement label) (FixedArray.new, none)
  return out.1

private theorem foldlM_visitElement (label : String)
    (entries : List (A.Index × T)) (out : FixedArray (Option T) A)
    (last : Option ℕ) :
    ((∀ prev ∈ last, ∀ e ∈ entries, prev < e.1.val) ∧
        ChildMap.Ascending entries →
      ∃ last', entries.foldlM (visitElement label) (out, last) =
        .ok (entries.foldl (fun s e => s.assign e.1 (some e.2)) out, last')) ∧
    (¬((∀ prev ∈ last, ∀ e ∈ entries, prev < e.1.val) ∧
        ChildMap.Ascending entries) →
      entries.foldlM (visitElement label) (out, last) =
        .error (ascendingError label)) := by
  induction entries generalizing out last with
  | nil =>
      refine ⟨fun _ => ⟨last, rfl⟩, fun h => absurd ?_ h⟩
      simp [ChildMap.Ascending]
  | cons e entries ih =>
      obtain ⟨hok, herror⟩ := ih (out.assign e.1 (some e.2)) (some e.1.val)
      have hcond : ((∀ prev ∈ last, ∀ e' ∈ e :: entries, prev < e'.1.val) ∧
            ChildMap.Ascending (e :: entries)) ↔
          (∀ prev ∈ last, prev < e.1.val) ∧
            (∀ prev ∈ some e.1.val, ∀ e' ∈ entries, prev < e'.1.val) ∧
              ChildMap.Ascending entries := by
        simp only [ChildMap.Ascending, List.map_cons, List.pairwise_cons,
          List.mem_map, List.mem_cons, Option.mem_def, Option.some.injEq,
          forall_eq', forall_exists_index, and_imp, forall_apply_eq_imp_iff₂,
          Fin.lt_def]
        constructor
        · rintro ⟨hlast, hhead, hrest⟩
          exact ⟨fun prev hprev => hlast prev hprev e (Or.inl rfl), hhead,
            hrest⟩
        · rintro ⟨hlast, hhead, hrest⟩
          refine ⟨?_, hhead, hrest⟩
          rintro prev hprev e' (rfl | he')
          · exact hlast prev hprev
          · exact Nat.lt_trans (hlast prev hprev) (hhead e' he')
      rw [hcond, List.foldlM_cons, List.foldl_cons]
      by_cases hlast : ∀ prev ∈ last, prev < e.1.val
      · have hstep : visitElement label (out, last) e =
            .ok (out.assign e.1 (some e.2), some e.1.val) := by
          rw [visitElement, if_neg]
          simpa [Option.any_eq_true] using hlast
        rw [hstep]
        exact ⟨fun h => hok h.2, fun h => herror fun hrest => h ⟨hlast, hrest⟩⟩
      · have hstep : visitElement label (out, last) e =
            .error (ascendingError label) := by
          rw [visitElement, if_pos]
          simpa [Option.any_eq_true] using hlast
        rw [hstep]
        exact ⟨fun h => absurd h.1 hlast, fun _ => rfl⟩

/-- A sequence is accepted if its indices ascend. -/
theorem visitSeq_of_ascending (label : String) {entries : List (A.Index × T)}
    (h : ChildMap.Ascending entries) :
    visitSeq label entries = .ok (FixedArray.stage entries) := by
  obtain ⟨last, hfold⟩ :=
    (foldlM_visitElement label entries FixedArray.new none).1
      ⟨by simp, h⟩
  rw [visitSeq, hfold]
  rfl

theorem visitSeq_of_not_ascending (label : String)
    {entries : List (A.Index × T)} (h : ¬ChildMap.Ascending entries) :
    visitSeq label entries = .error (ascendingError label) := by
  rw [visitSeq, (foldlM_visitElement label entries FixedArray.new none).2
    fun hall => h hall.2]
  rfl

/-! ### The compact form -/

def COMPACT_LEN_ERR : String := "the bitmap byte length (WIDTH / 8)"

def COMPACT_POPCOUNT_ERR : String :=
  "Compact: bitmap popcount does not match the number of values"

/-- `bitmap.bits().zip(values)`. -/
def bitsZip (bitmap : Bitmap A.LEN) (values : List T) :
    Checked (List (A.Index × T)) :=
  (BitIter.iterator.zip BitIter.len sliceIter fun xs =>
    .ok xs.length).collect (⟨bitmap⟩, values)

def stageCompact (A : Arity) (buf : List (BitVec 8)) (values : List T) :
    Checked (Except DecodeError (FixedArray (Option T) A)) :=
  match Bitmap.tryFromBytes A.LEN buf with
  | none => .ok (.error (.invalidLength buf.length COMPACT_LEN_ERR))
  | some bitmap =>
      if Bitmap.countOnes bitmap ≠ values.length then
        .ok (.error (.custom COMPACT_POPCOUNT_ERR))
      else do
        let entries ← bitsZip bitmap values
        return .ok (FixedArray.stage entries)

theorem bitsZip_eq (bitmap : Bitmap A.LEN) {values : List T}
    (hlen : values.length = Bitmap.countOnes bitmap) :
    bitsZip bitmap values = .ok ((Bitmap.bits bitmap).zip values) := by
  have hrefines : (BitIter.iterator.zip BitIter.len sliceIter
      fun xs : List T => .ok xs.length).Refines
        (DoubleEnded.Zipped (BitIter.Left (n := A.LEN)) Eq) := by
    refine BitIter.refines.zip sliceIter_refines BitIter.len_of_left ?_
    rintro xs _ rfl
    rfl
  refine hrefines.collect ⟨?_, ?_⟩
  · refine (List.map_fst_zip ?_).symm
    rw [Bitmap.length_bits, hlen]
  · refine (List.map_snd_zip ?_).symm
    rw [Bitmap.length_bits, hlen]

/-- A decoder accepts a pair of the right lengths, and nothing else. -/
def CompactFits (A : Arity) (buf : List (BitVec 8)) (values : List T) : Prop :=
  buf.length = A.LEN / 8 ∧
    Bitmap.countOnes (Bitmap.fromBytes A.LEN buf) = values.length

instance (buf : List (BitVec 8)) (values : List T) :
    Decidable (CompactFits A buf values) :=
  inferInstanceAs (Decidable (_ ∧ _))

/-- The map with the values at the set bits, in order. -/
def ofCompact (A : Arity) (buf : List (BitVec 8)) (values : List T) :
    ChildMap A.LEN T :=
  ChildMap.ofEntries ((Bitmap.bits (Bitmap.fromBytes A.LEN buf)).zip values)

/-- Why a pair that does not fit is refused. -/
def compactError (A : Arity) (buf : List (BitVec 8)) : DecodeError :=
  if buf.length ≠ A.LEN / 8 then .invalidLength buf.length COMPACT_LEN_ERR
  else .custom COMPACT_POPCOUNT_ERR

theorem stageCompact_of_fits {buf : List (BitVec 8)} {values : List T}
    (h : CompactFits A buf values) :
    ∃ out, stageCompact A buf values = .ok (.ok out) ∧
      out.contents = ofCompact A buf values := by
  refine ⟨FixedArray.stage _, ?_, FixedArray.contents_stage _⟩
  simp [stageCompact, Bitmap.tryFromBytes, h.1, h.2, bitsZip_eq _ h.2.symm]

theorem stageCompact_of_not_fits {buf : List (BitVec 8)} {values : List T}
    (h : ¬CompactFits A buf values) :
    stageCompact A buf values = .ok (.error (compactError A buf)) := by
  by_cases hlen : buf.length = A.LEN / 8
  · have hcount : ¬Bitmap.countOnes (Bitmap.fromBytes A.LEN buf) =
        values.length := fun hcount => h ⟨hlen, hcount⟩
    simp [stageCompact, Bitmap.tryFromBytes, compactError, hlen, hcount]
  · simp [stageCompact, Bitmap.tryFromBytes, compactError, hlen]

end Decode

/-! ## What the two arrays share -/

/-- What `impl_dense_common!`, `impl_logical_serde!` and `impl_compact_adapter!`
use of the array they are stamped out for, and `get`, by which it is read. -/
structure DenseCommon (T : Type) (A : Arity) where
  Array : Type
  name : String
  bitmap : Array → Bitmap A.LEN
  count : Array → ℕ
  get : Array → A.Index → Checked (Option T)
  Cursor : Type
  iterator : DoubleEnded Cursor (A.Index × T)
  iterPresent : Array → Cursor
  fromFixed : FixedArray (Option T) A → Checked Array

namespace DenseCommon

variable {T : Type} {A : Arity} (D : DenseCommon T A)

def eq [DecidableEq T] (a b : D.Array) : Checked Bool :=
  denseEq (D.bitmap a) (D.bitmap b) (D.iterator.collect (D.iterPresent a))
    (D.iterator.collect (D.iterPresent b))

def serialize (a : D.Array) : Checked (List (A.Index × T)) :=
  D.iterator.collect (D.iterPresent a)

def deserialize (entries : List (A.Index × T)) :
    Checked (Except DecodeError D.Array) :=
  decodeWith D.fromFixed (visitSeq D.name entries)

def serializeAs (a : D.Array) : Checked (List (BitVec 8) × List T) := do
  let entries ← D.iterator.collect (D.iterPresent a)
  return (Bitmap.toBytes (D.bitmap a), entries.map Prod.snd)

def deserializeAs (buf : List (BitVec 8)) (values : List T) :
    Checked (Except DecodeError D.Array) := do
  let out ← stageCompact A buf values
  decodeWith D.fromFixed out

theorem deserialize_of_not_ascending {entries : List (A.Index × T)}
    (h : ¬ChildMap.Ascending entries) :
    D.deserialize entries = .ok (.error (ascendingError D.name)) := by
  rw [deserialize, visitSeq_of_not_ascending _ h, decodeWith]

theorem deserializeAs_of_not_fits {buf : List (BitVec 8)} {values : List T}
    (h : ¬CompactFits A buf values) :
    D.deserializeAs buf values = .ok (.error (compactError A buf)) := by
  rw [deserializeAs, stageCompact_of_not_fits h]
  rfl

/-- The arrays stand for maps, and those made of a staged array are `Fresh`
besides. -/
structure Models (Holds Fresh : D.Array → ChildMap A.LEN T → Prop) :
    Prop where
  bitmap_eq : ∀ {a m}, Holds a m → D.bitmap a = m.present
  count_eq : ∀ {a m}, Holds a m → D.count a = m.count
  get_spec : ∀ {a m}, Holds a m → ∀ i, D.get a i = .ok (m.get i)
  cursor : ∃ R, D.iterator.Refines R ∧
    ∀ {a m}, Holds a m → R (D.iterPresent a) m.iterPresent
  fromFixed : ∀ src, ∃ a, D.fromFixed src = .ok a ∧ Holds a src.contents ∧
    Fresh a src.contents

namespace Models

variable {D} {Holds Fresh : D.Array → ChildMap A.LEN T → Prop}
variable {a b : D.Array} {m m' : ChildMap A.LEN T}
variable {entries : List (A.Index × T)} {buf : List (BitVec 8)}
variable {values : List T}

theorem serialize_spec (h : D.Models Holds Fresh) (ha : Holds a m) :
    D.serialize a = .ok m.iterPresent := by
  obtain ⟨R, hrefines, hstart⟩ := h.cursor
  exact hrefines.collect (hstart ha)

theorem eq_spec [DecidableEq T] (h : D.Models Holds Fresh) (ha : Holds a m)
    (hb : Holds b m') :
    ∃ same, D.eq a b = .ok same ∧ (same = true ↔ m = m') := by
  have hentries := h.serialize_spec ha
  have hentries' := h.serialize_spec hb
  unfold serialize at hentries hentries'
  rw [DenseCommon.eq, h.bitmap_eq ha, h.bitmap_eq hb, hentries, hentries']
  exact denseEq_eq m m'

/-- Arrays with the same contents compare equal. -/
theorem equal [DecidableEq T] (h : D.Models Holds Fresh) (ha : Holds a m)
    (hb : Holds b m) : D.eq a b = .ok true := by
  obtain ⟨same, heq, hsame⟩ := h.eq_spec ha hb
  rw [heq, hsame.mpr rfl]

theorem deserialize_of_ascending (h : D.Models Holds Fresh)
    (hentries : ChildMap.Ascending entries) :
    ∃ a, D.deserialize entries = .ok (.ok a) ∧
      Holds a (ChildMap.ofEntries entries) ∧
      Fresh a (ChildMap.ofEntries entries) := by
  obtain ⟨a, hfrom, ha⟩ := h.fromFixed (FixedArray.stage entries)
  rw [FixedArray.contents_stage] at ha
  refine ⟨a, ?_, ha⟩
  simp [deserialize, visitSeq_of_ascending _ hentries, decodeWith, hfrom]

theorem holds_deserialize (h : D.Models Holds Fresh)
    (hentries : ChildMap.Ascending entries) :
    ∃ a, D.deserialize entries = .ok (.ok a) ∧
      Holds a (ChildMap.ofEntries entries) := by
  obtain ⟨a, hdecode, ha, -⟩ := h.deserialize_of_ascending hentries
  exact ⟨a, hdecode, ha⟩

theorem serializeAs_spec (h : D.Models Holds Fresh) (ha : Holds a m) :
    D.serializeAs a = .ok (Bitmap.toBytes m.present, m.values) := by
  have hentries := h.serialize_spec ha
  unfold serialize at hentries
  rw [serializeAs, hentries, h.bitmap_eq ha]
  rfl

theorem deserializeAs_of_fits (h : D.Models Holds Fresh)
    (hfits : CompactFits A buf values) :
    ∃ a, D.deserializeAs buf values = .ok (.ok a) ∧
      Holds a (ofCompact A buf values) ∧ Fresh a (ofCompact A buf values) := by
  obtain ⟨out, hstage, hout⟩ := stageCompact_of_fits hfits
  obtain ⟨a, hfrom, ha⟩ := h.fromFixed out
  rw [hout] at ha
  refine ⟨a, ?_, ha⟩
  simp [deserializeAs, hstage, decodeWith, hfrom]

theorem holds_deserializeAs (h : D.Models Holds Fresh)
    (hfits : CompactFits A buf values) :
    ∃ a, D.deserializeAs buf values = .ok (.ok a) ∧
      Holds a (ofCompact A buf values) := by
  obtain ⟨a, hdecode, ha, -⟩ := h.deserializeAs_of_fits hfits
  exact ⟨a, hdecode, ha⟩

end Models

end DenseCommon

/-! ## The two arrays -/

namespace PackedArray

variable {T : Type} {A : Arity}

def common (T : Type) (A : Arity) : DenseCommon T A where
  Array := PackedArray T A
  name := "PackedArray"
  bitmap := bitmap
  count := count
  get := get
  Cursor := BitIter A.LEN × Ranks T
  iterator := PresentIter
  iterPresent := iterPresent
  fromFixed := fromFixed

theorem common_models :
    (common T A).Models Holds fun _ _ => True where
  bitmap_eq := Holds.bitmap_eq
  count_eq := Holds.count_eq
  get_spec := get_spec
  cursor := by
    refine ⟨_, ofPresent_refines Ranks.supplies, fun {a m} h => ?_⟩
    have hstart := ofPresent_start h.ranks_left
    rwa [← h.bitmap_eq] at hstart
  fromFixed src := by
    obtain ⟨a, ha, hholds⟩ := fromFixed_spec src
    exact ⟨a, ha, hholds, trivial⟩

def eq [DecidableEq T] (a b : PackedArray T A) : Checked Bool :=
  (common T A).eq a b

def serialize (a : PackedArray T A) : Checked (List (A.Index × T)) :=
  (common T A).serialize a

def deserialize (entries : List (A.Index × T)) :
    Checked (Except DecodeError (PackedArray T A)) :=
  (common T A).deserialize entries

def serializeAs (a : PackedArray T A) :
    Checked (List (BitVec 8) × List T) :=
  (common T A).serializeAs a

def deserializeAs (buf : List (BitVec 8)) (values : List T) :
    Checked (Except DecodeError (PackedArray T A)) :=
  (common T A).deserializeAs buf values

end PackedArray

namespace GappedArray

variable {T : Type} {A : Arity}

def common (T : Type) (A : Arity) : DenseCommon T A where
  Array := GappedArray T A
  name := "GappedArray"
  bitmap := bitmap
  count := count
  get := get
  Cursor := BitIter A.LEN × Live A.LEN T
  iterator := PresentIter
  iterPresent := iterPresent
  fromFixed := fromFixed

theorem common_models :
    (common T A).Models Holds fun g m => LeastCapacity m.count g.capacity where
  bitmap_eq := Holds.bitmap_eq
  count_eq := Holds.count_eq
  get_spec := get_spec
  cursor := by
    refine ⟨_, ofPresent_refines Live.supplies, fun {g m} h => ?_⟩
    have hstart := ofPresent_start h.live_values
    rwa [← h.bitmap_eq] at hstart
  fromFixed := fromFixed_spec

def eq [DecidableEq T] (g g' : GappedArray T A) : Checked Bool :=
  (common T A).eq g g'

def serialize (g : GappedArray T A) : Checked (List (A.Index × T)) :=
  (common T A).serialize g

def deserialize (entries : List (A.Index × T)) :
    Checked (Except DecodeError (GappedArray T A)) :=
  (common T A).deserialize entries

def serializeAs (g : GappedArray T A) :
    Checked (List (BitVec 8) × List T) :=
  (common T A).serializeAs g

def deserializeAs (buf : List (BitVec 8)) (values : List T) :
    Checked (Except DecodeError (GappedArray T A)) :=
  (common T A).deserializeAs buf values

end GappedArray

end ArityArrays
