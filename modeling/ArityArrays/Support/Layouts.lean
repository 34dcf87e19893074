import Mathlib.Algebra.Order.Group.Nat
import Mathlib.Algebra.Ring.Nat
import Mathlib.Data.List.Pairwise
import Mathlib.Data.Nat.Basic
import Mathlib.Order.Basic

/-!
# Memory layouts

The size and the alignment of a piece of memory, and how pieces are put
together: arrays, one piece after another, and records whose fields stand in the
order they are declared in.  Every combination that would be larger than an
allocation can be is refused.

Nothing here refers to a particular program.
-/

namespace Layouts

/-! ## Rounding up -/

/-- The least multiple of `a` which is at least `n`. -/
def roundUp (n a : ℕ) : ℕ := (n + (a - 1)) / a * a

section RoundUp

variable {a b m n : ℕ}

theorem dvd_roundUp (n a : ℕ) : a ∣ roundUp n a :=
  Nat.dvd_mul_left a _

theorem le_roundUp (n : ℕ) (ha : 0 < a) : n ≤ roundUp n a := by
  have hlt := Nat.lt_div_mul_add ha (a := n + (a - 1))
  unfold roundUp
  omega

theorem roundUp_lt (n : ℕ) (ha : 0 < a) : roundUp n a < n + a := by
  have hle := Nat.div_mul_le_self (n + (a - 1)) a
  unfold roundUp
  omega

theorem roundUp_le_of_dvd (ha : 0 < a) (hnm : n ≤ m) (hm : a ∣ m) :
    roundUp n a ≤ m := by
  obtain ⟨k, rfl⟩ := hm
  have hlt : (n + (a - 1)) / a < k + 1 := by
    rw [Nat.div_lt_iff_lt_mul ha, Nat.succ_mul, Nat.mul_comm k]
    omega
  calc roundUp n a ≤ k * a := Nat.mul_le_mul_right a (Nat.le_of_lt_succ hlt)
    _ = a * k := Nat.mul_comm k a

theorem roundUp_of_dvd (ha : 0 < a) (hn : a ∣ n) : roundUp n a = n :=
  Nat.le_antisymm (roundUp_le_of_dvd ha le_rfl hn) (le_roundUp n ha)

theorem roundUp_mono (ha : 0 < a) (hnm : n ≤ m) : roundUp n a ≤ roundUp m a :=
  roundUp_le_of_dvd ha (hnm.trans (le_roundUp m ha)) (dvd_roundUp m a)

/-- The finer of two roundings makes no difference to the coarser. -/
theorem roundUp_roundUp (ha : 0 < a) (hb : 0 < b) (hab : a ∣ b) (n : ℕ) :
    roundUp (roundUp n a) b = roundUp n b := by
  apply Nat.le_antisymm
  · refine roundUp_le_of_dvd hb ?_ (dvd_roundUp n b)
    exact roundUp_le_of_dvd ha (le_roundUp n hb) (Nat.dvd_trans hab (dvd_roundUp n b))
  · exact roundUp_mono hb (le_roundUp n ha)

end RoundUp

/-! ## Layouts -/

/-- The largest `isize`, which no allocation exceeds. -/
def isizeMax : ℕ := 2 ^ 63 - 1

section PowersOfTwo

variable {a b : ℕ}

theorem dvd_of_isPowerOfTwo (ha : a.isPowerOfTwo) (hb : b.isPowerOfTwo)
    (hab : a ≤ b) : a ∣ b := by
  obtain ⟨k, rfl⟩ := ha
  obtain ⟨j, rfl⟩ := hb
  exact Nat.pow_dvd_pow 2 ((Nat.pow_le_pow_iff_right (by omega)).mp hab)

theorem isPowerOfTwo_max (ha : a.isPowerOfTwo) (hb : b.isPowerOfTwo) :
    (max a b).isPowerOfTwo := by
  rcases le_total a b with hab | hba
  · rwa [max_eq_right hab]
  · rwa [max_eq_left hba]

theorem dvd_max_left (ha : a.isPowerOfTwo) (hb : b.isPowerOfTwo) :
    a ∣ max a b :=
  dvd_of_isPowerOfTwo ha (isPowerOfTwo_max ha hb) (le_max_left a b)

theorem dvd_max_right (ha : a.isPowerOfTwo) (hb : b.isPowerOfTwo) :
    b ∣ max a b :=
  dvd_of_isPowerOfTwo hb (isPowerOfTwo_max ha hb) (le_max_right a b)

end PowersOfTwo

/-- The layout of one allocation. -/
structure Layout where
  size : ℕ
  align : ℕ
  isPowerOfTwo : align.isPowerOfTwo
  fits : roundUp size align ≤ isizeMax

/-- The layout of a type: a whole number of alignments, none larger than a
compiler accepts. -/
structure TypeLayout extends Layout where
  stride : align ∣ size
  align_le : align ≤ 2 ^ 29

namespace Layout

variable {l l' next : Layout}

theorem align_pos (l : Layout) : 0 < l.align := Nat.pos_of_isPowerOfTwo l.isPowerOfTwo

def fromSizeAlign (size align : ℕ) (h : align.isPowerOfTwo) : Option Layout :=
  if hfits : roundUp size align ≤ isizeMax then some ⟨size, align, h, hfits⟩
  else none

theorem isPowerOfTwo_align (t : TypeLayout) : t.align.isPowerOfTwo :=
  t.isPowerOfTwo

/-- `n` values of a type in a row. -/
def array (t : TypeLayout) (n : ℕ) : Option Layout :=
  fromSizeAlign (t.size * n) t.align (isPowerOfTwo_align t)

/-- The layout `l` and then `next`, at the offset that goes with it. -/
def extend (l next : Layout) : Option (Layout × ℕ) :=
  let offset := roundUp l.size next.align
  (fromSizeAlign (offset + next.size) (max l.align next.align)
    (isPowerOfTwo_max l.isPowerOfTwo next.isPowerOfTwo)).map fun l' => (l', offset)

def padToAlign (l : Layout) : Layout where
  size := roundUp l.size l.align
  align := l.align
  isPowerOfTwo := l.isPowerOfTwo
  fits := by
    rw [roundUp_of_dvd l.align_pos (dvd_roundUp l.size l.align)]
    exact l.fits

/-- The layout of nothing. -/
def empty : Layout where
  size := 0
  align := 1
  isPowerOfTwo := ⟨0, rfl⟩
  fits := by decide

theorem fromSizeAlign_eq_some {size align : ℕ} {h : align.isPowerOfTwo} :
    fromSizeAlign size align h = some l ↔
      roundUp size align ≤ isizeMax ∧ l.size = size ∧ l.align = align := by
  unfold fromSizeAlign
  constructor
  · intro heq
    split at heq
    · cases heq
      exact ⟨‹_›, rfl, rfl⟩
    · cases heq
  · rintro ⟨hfits, rfl, rfl⟩
    rw [dif_pos hfits]

theorem fromSizeAlign_eq_none {size align : ℕ} {h : align.isPowerOfTwo} :
    fromSizeAlign size align h = none ↔ isizeMax < roundUp size align := by
  unfold fromSizeAlign
  split
  · simp_all
  · simp_all

theorem array_eq_some {t : TypeLayout} {n : ℕ} :
    array t n = some l ↔
      t.size * n ≤ isizeMax ∧ l.size = t.size * n ∧ l.align = t.align := by
  rw [array, fromSizeAlign_eq_some,
    roundUp_of_dvd t.align_pos (Nat.dvd_mul_right_of_dvd t.stride n)]

theorem array_eq_none {t : TypeLayout} {n : ℕ} :
    array t n = none ↔ isizeMax < t.size * n := by
  rw [array, fromSizeAlign_eq_none,
    roundUp_of_dvd t.align_pos (Nat.dvd_mul_right_of_dvd t.stride n)]

theorem extend_eq_some {offset : ℕ} :
    l.extend next = some (l', offset) ↔
      roundUp (offset + next.size) (max l.align next.align) ≤ isizeMax ∧
        offset = roundUp l.size next.align ∧ l'.size = offset + next.size ∧
        l'.align = max l.align next.align := by
  simp only [extend, Option.map_eq_some_iff, Prod.mk.injEq,
    fromSizeAlign_eq_some]
  constructor
  · rintro ⟨l', ⟨hfits, hsize, halign⟩, rfl, rfl⟩
    exact ⟨hfits, rfl, hsize, halign⟩
  · rintro ⟨hfits, rfl, hsize, halign⟩
    exact ⟨l', ⟨hfits, hsize, halign⟩, rfl, rfl⟩

theorem extend_eq_none :
    l.extend next = none ↔
      isizeMax < roundUp (roundUp l.size next.align + next.size)
        (max l.align next.align) := by
  rw [extend, Option.map_eq_none_iff, fromSizeAlign_eq_none]

end Layout

/-! ## Records -/

/-- The fields from `l` on, in order, and the offset of each. -/
def fieldsFrom (l : Layout) : List TypeLayout → Option (Layout × List ℕ)
  | [] => some (l.padToAlign, [])
  | f :: fields => do
      let (l', offset) ← l.extend f.toLayout
      let (whole, offsets) ← fieldsFrom l' fields
      return (whole, offset :: offsets)

/-- A record with its fields in the order of declaration. -/
def reprC (fields : List TypeLayout) : Option (Layout × List ℕ) :=
  fieldsFrom Layout.empty fields

/-- Each field with its offset. -/
def placed (fields : List TypeLayout) (offsets : List ℕ) :
    List (TypeLayout × ℕ) :=
  fields.zip offsets

/-- The fields stand one after another between `start` and the end of `whole`,
each where its type may stand. -/
structure Arranged (start : ℕ) (fields : List TypeLayout) (whole : Layout)
    (offsets : List ℕ) : Prop where
  length : offsets.length = fields.length
  start_le : ∀ x ∈ placed fields offsets, start ≤ x.2
  aligned : ∀ x ∈ placed fields offsets, x.1.align ∣ x.2
  apart : (placed fields offsets).Pairwise fun x y => x.2 + x.1.size ≤ y.2
  within : ∀ x ∈ placed fields offsets, x.2 + x.1.size ≤ whole.size
  aligns : ∀ f ∈ fields, f.align ∣ whole.align
  padded : whole.align ∣ whole.size

theorem fieldsFrom_nil {l whole : Layout} {offsets : List ℕ}
    (h : fieldsFrom l [] = some (whole, offsets)) :
    whole.size = roundUp l.size l.align ∧ whole.align = l.align ∧
      offsets = [] := by
  cases h
  exact ⟨rfl, rfl, rfl⟩

theorem fieldsFrom_cons {l whole : Layout} {f : TypeLayout}
    {fields : List TypeLayout} {offsets : List ℕ}
    (h : fieldsFrom l (f :: fields) = some (whole, offsets)) :
    ∃ l' rest, l'.size = roundUp l.size f.align + f.size ∧
      l'.align = max l.align f.align ∧
      fieldsFrom l' fields = some (whole, rest) ∧
      offsets = roundUp l.size f.align :: rest := by
  simp only [fieldsFrom, Option.bind_eq_bind, Option.bind_eq_some_iff,
    Prod.exists, Option.pure_def, Option.some.injEq, Prod.mk.injEq] at h
  obtain ⟨l', offset, hext, whole', rest, hrest, rfl, rfl⟩ := h
  obtain ⟨-, rfl, hsize, halign⟩ := Layout.extend_eq_some.mp hext
  exact ⟨l', rest, hsize, halign, hrest, rfl⟩

theorem fieldsFrom_bounds {l whole : Layout} {fields : List TypeLayout}
    {offsets : List ℕ} (h : fieldsFrom l fields = some (whole, offsets)) :
    l.size ≤ whole.size ∧ l.align ∣ whole.align := by
  induction fields generalizing l offsets with
  | nil =>
      cases h
      exact ⟨le_roundUp l.size l.align_pos, Nat.dvd_refl _⟩
  | cons f fields ih =>
      obtain ⟨l', rest, hsize, halign, hrest, rfl⟩ := fieldsFrom_cons h
      obtain ⟨hle, hdvd⟩ := ih hrest
      have hround := le_roundUp l.size f.align_pos
      refine ⟨by omega, Nat.dvd_trans ?_ hdvd⟩
      rw [halign]
      exact dvd_max_left l.isPowerOfTwo f.isPowerOfTwo

theorem fieldsFrom_arranged {l whole : Layout} {fields : List TypeLayout}
    {offsets : List ℕ} (h : fieldsFrom l fields = some (whole, offsets)) :
    Arranged l.size fields whole offsets := by
  induction fields generalizing l offsets with
  | nil =>
      cases h
      exact ⟨rfl, by simp [placed], by simp [placed], by simp [placed],
        by simp [placed], by simp, dvd_roundUp l.size l.align⟩
  | cons f fields ih =>
      obtain ⟨l', rest, hsize, halign, hrest, rfl⟩ := fieldsFrom_cons h
      obtain ⟨hle, hdvd⟩ := fieldsFrom_bounds hrest
      have hround := le_roundUp l.size f.align_pos
      have hall := ih hrest
      have hzip : placed (f :: fields) (roundUp l.size f.align :: rest) =
          (f, roundUp l.size f.align) :: placed fields rest := rfl
      refine ⟨by simp [hall.length], ?_, ?_, ?_, ?_, ?_, hall.padded⟩
      · rw [hzip, List.forall_mem_cons]
        refine ⟨by omega, fun x hx => ?_⟩
        have := hall.start_le x hx
        omega
      · rw [hzip, List.forall_mem_cons]
        exact ⟨dvd_roundUp l.size f.align, hall.aligned⟩
      · rw [hzip, List.pairwise_cons]
        refine ⟨fun x hx => ?_, hall.apart⟩
        have := hall.start_le x hx
        simp only
        omega
      · rw [hzip, List.forall_mem_cons]
        refine ⟨?_, hall.within⟩
        simp only
        omega
      · rw [List.forall_mem_cons]
        refine ⟨Nat.dvd_trans ?_ hdvd, hall.aligns⟩
        rw [halign]
        exact dvd_max_right l.isPowerOfTwo f.isPowerOfTwo

/-- Where `n` values stand that follow one another from `start` on. -/
def slots (start stride n : ℕ) : List ℕ :=
  (List.range n).map fun p => start + p * stride

/-- Values in the place of the last field stand in a block that is large
enough as the fields before them do. -/
theorem Arranged.repeatLast {start d n : ℕ} {fields : List TypeLayout}
    {whole block : Layout} {offsets : List ℕ} {last t : TypeLayout}
    (h : Arranged start (fields ++ [last]) whole (offsets ++ [d]))
    (hlast : last.align = t.align) (hsize : d + t.size * n ≤ block.size)
    (haligns : whole.align ∣ block.align) (hpadded : block.align ∣ block.size) :
    Arranged start (fields ++ List.replicate n t) block
      (offsets ++ slots d t.size n) := by
  have hlength : offsets.length = fields.length := by
    simpa using h.length
  have hzip : placed (fields ++ [last]) (offsets ++ [d]) =
      placed fields offsets ++ [(last, d)] :=
    List.zip_append hlength.symm
  have hslots : placed (List.replicate n t) (slots d t.size n) =
      (List.range n).map fun p => (t, d + p * t.size) := by
    refine List.ext_getElem (by simp [placed, slots]) fun p hp hp' => ?_
    simp [placed, slots]
  have hzip' : placed (fields ++ List.replicate n t)
      (offsets ++ slots d t.size n) = placed fields offsets ++
        (List.range n).map fun p => (t, d + p * t.size) := by
    rw [← hslots]
    exact List.zip_append hlength.symm
  have hstart := h.start_le
  have haligned := h.aligned
  have hapart := h.apart
  rw [hzip, List.forall_mem_append, List.forall_mem_singleton] at hstart haligned
  rw [hzip, List.pairwise_append] at hapart
  obtain ⟨hfields, -, hbefore⟩ := hapart
  have hbefore : ∀ x ∈ placed fields offsets, x.2 + x.1.size ≤ d :=
    fun x hx => hbefore x hx (last, d) (List.mem_singleton_self _)
  have hstride : ∀ p q, p < q → d + p * t.size + t.size ≤ d + q * t.size := by
    intro p q hpq
    have := Nat.mul_le_mul_right t.size (Nat.succ_le_of_lt hpq)
    rw [Nat.succ_mul] at this
    omega
  refine ⟨by simp [slots, hlength], ?_, ?_, ?_, ?_, ?_, hpadded⟩
  · rw [hzip', List.forall_mem_append, List.forall_mem_map]
    refine ⟨hstart.1, fun p _ => ?_⟩
    have := hstart.2
    simp only at this ⊢
    omega
  · rw [hzip', List.forall_mem_append, List.forall_mem_map]
    refine ⟨haligned.1, fun p _ => ?_⟩
    have hd : t.align ∣ d := hlast ▸ haligned.2
    exact Nat.dvd_add hd (Nat.dvd_mul_left_of_dvd t.stride p)
  · rw [hzip', List.pairwise_append, List.pairwise_map]
    refine ⟨hfields, ?_, ?_⟩
    · exact List.pairwise_lt_range.imp fun hpq => hstride _ _ hpq
    · intro x hx y hy
      obtain ⟨p, -, rfl⟩ := List.mem_map.mp hy
      have := hbefore x hx
      simp only
      omega
  · rw [hzip', List.forall_mem_append, List.forall_mem_map]
    constructor
    · intro x hx
      have := hbefore x hx
      omega
    · intro p hp
      have := hstride p n (List.mem_range.mp hp)
      rw [Nat.mul_comm n] at this
      simp only
      omega
  · intro f hf
    rcases List.mem_append.mp hf with hf | hf
    · exact Nat.dvd_trans (h.aligns f (List.mem_append_left _ hf)) haligns
    · obtain rfl := List.eq_of_mem_replicate hf
      rw [← hlast]
      exact Nat.dvd_trans (h.aligns last (by simp)) haligns

/-- A record of a few small fields is no larger than an allocation. -/
theorem fieldsFrom_isSome {l : Layout} {fields : List TypeLayout}
    (halign : l.align ≤ 2 ^ 29) (hfields : ∀ f ∈ fields, f.size ≤ 2 ^ 29)
    (hsize : l.size + fields.length * 2 ^ 30 + 2 ^ 29 ≤ isizeMax) :
    (fieldsFrom l fields).isSome := by
  induction fields generalizing l with
  | nil => rfl
  | cons f fields ih =>
      rw [List.length_cons, Nat.succ_mul] at hsize
      rw [List.forall_mem_cons] at hfields
      have hf := f.align_le
      have hround := roundUp_lt l.size f.align_pos
      have hmax : max l.align f.align ≤ 2 ^ 29 := max_le halign hf
      have hfits := roundUp_lt (roundUp l.size f.align + f.size)
        (Nat.pos_of_isPowerOfTwo
          (isPowerOfTwo_max l.isPowerOfTwo f.isPowerOfTwo))
      obtain ⟨⟨l', offset⟩, hext⟩ :
          ∃ out, l.extend f.toLayout = some out := by
        rw [← Option.isSome_iff_exists, ← Option.ne_none_iff_isSome, ne_eq,
          Layout.extend_eq_none]
        omega
      obtain ⟨-, rfl, hsize', halign'⟩ := Layout.extend_eq_some.mp hext
      have hrest := ih (l := l') (by omega) hfields.2 (by omega)
      obtain ⟨⟨whole, rest⟩, hrest⟩ := Option.isSome_iff_exists.mp hrest
      simp [fieldsFrom, hext, hrest]

/-- A record type that a compiler accepts. -/
structure Record (fields : List TypeLayout) where
  layout : Layout
  offsets : List ℕ
  made : reprC fields = some (layout, offsets)

namespace Record

variable {fields : List TypeLayout}

theorem isSome_reprC (hfields : ∀ f ∈ fields, f.size ≤ 2 ^ 29)
    (hlength : fields.length ≤ 2 ^ 10) : (reprC fields).isSome := by
  refine fieldsFrom_isSome (by decide) hfields ?_
  have hempty : Layout.empty.size = 0 := rfl
  have := Nat.mul_le_mul_right (2 ^ 30) hlength
  unfold isizeMax
  omega

/-- The record of a few small fields. -/
def of (fields : List TypeLayout) (hfields : ∀ f ∈ fields, f.size ≤ 2 ^ 29)
    (hlength : fields.length ≤ 2 ^ 10) : Record fields where
  layout := ((reprC fields).get (isSome_reprC hfields hlength)).1
  offsets := ((reprC fields).get (isSome_reprC hfields hlength)).2
  made := (Option.some_get (isSome_reprC hfields hlength)).symm

theorem arranged (r : Record fields) :
    Arranged 0 fields r.layout r.offsets :=
  fieldsFrom_arranged r.made

end Record

end Layouts
