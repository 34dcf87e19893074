import ArityArrays.Arrays.Gapped
import ArityArrays.Arrays.Packed
import ArityArrays.Support.Layouts

/-!
# The memory of a block

A block is one allocation: the fields of its header, in the order of their
declaration, and then the elements.  Its layout is computed from the layouts of
the bitmap and of the element type, and the computation refuses a block that is
larger than an allocation can be.
-/

namespace ArityArrays

open ArityTries Checked Layouts

/-! ## Layouts of the fields -/

/-- The layout of the integer behind a bitmap.  Its alignment depends on the
target. -/
structure BitmapLayout (A : Arity) extends TypeLayout where
  size_eq : size = A.LEN / 8

/-- The layout of a byte. -/
def u8Layout : TypeLayout where
  size := 1
  align := 1
  isPowerOfTwo := Nat.isPowerOfTwo_one
  fits := by decide
  stride := Nat.dvd_refl 1
  align_le := by decide

theorem roundUp_zero_le (t : TypeLayout) : roundUp 0 t.align ≤ isizeMax := by
  rw [roundUp_of_dvd t.align_pos (Nat.dvd_zero t.align)]
  exact Nat.zero_le isizeMax

/-- The layout of `[T; 0]`. -/
def emptyArray (t : TypeLayout) : TypeLayout where
  size := 0
  align := t.align
  isPowerOfTwo := Layout.isPowerOfTwo_align t
  fits := roundUp_zero_le t
  stride := Nat.dvd_zero t.align
  align_le := t.align_le

variable {A : Arity}

theorem BitmapLayout.size_pos (b : BitmapLayout A) : 0 < b.size := by
  have hlen := A.eight_dvd_LEN
  have hpos := A.LEN_pos
  rw [b.size_eq]
  omega

theorem BitmapLayout.size_le (b : BitmapLayout A) : b.size ≤ 2 ^ 29 := by
  have hlen := A.LEN_le
  rw [b.size_eq]
  omega

theorem BitmapLayout.align_le_size (b : BitmapLayout A) : b.align ≤ b.size :=
  Nat.le_of_dvd b.size_pos b.stride

theorem max_align_pos (t : TypeLayout) (b : BitmapLayout A) :
    0 < max b.align t.align :=
  Nat.lt_of_lt_of_le b.align_pos (le_max_left b.align t.align)

/-! ## Blocks -/

/-- The header of a block, with the place where its elements start as the last
field. -/
structure Header (t : TypeLayout) where
  fields : List TypeLayout
  inner : Record (fields ++ [emptyArray t])

namespace Header

variable {t : TypeLayout}

def layout (h : Header t) : Layout := h.inner.layout

/-- The offset of the elements in the block. -/
def dataOffset (h : Header t) : ℕ := h.inner.offsets.getLast?.getD 0

/-- The size of a block with `n` elements. -/
def blockSize (h : Header t) (n : ℕ) : ℕ :=
  roundUp (h.layout.size + t.size * n) h.layout.align

end Header

/-- The layout of a block: the header `h` and `n` elements. -/
def allocLayout (h : Layout) (t : TypeLayout) (n : ℕ) : Checked Layout := do
  let elements ← expect (Layout.array t n) "element layout overflow"
  let (layout, _) ← expect (h.extend elements) "block layout overflow"
  return layout.padToAlign

/-- The layout of the block that is allocated for `n` elements. -/
def Header.allocBlock {t : TypeLayout} (h : Header t) (n : ℕ) :
    Checked Layout := do
  let layout ← allocLayout h.layout t n
  debugAssert (h.dataOffset + n * t.size ≤ layout.size)
    "data_ptr region must fit within the alloc_layout block"
  return layout

namespace PackedArray

/-- The bitmap stands before the elements. -/
def header (b : BitmapLayout A) (t : TypeLayout) : Header t where
  fields := [b.toTypeLayout]
  inner := Record.of _ (by simpa [emptyArray] using b.size_le)
    (by simp)

def allocBlock (b : BitmapLayout A) (t : TypeLayout) (count : ℕ) :
    Checked Layout :=
  (header b t).allocBlock count

/-- The size of the block that the array owns. -/
def allocatedSize {T : Type} (b : BitmapLayout A) (t : TypeLayout)
    (a : PackedArray T A) : Checked ℕ :=
  match a.inner with
  | none => .ok 0
  | some inner => do
      let count := Bitmap.countOnes inner.bitmap
      let layout ← allocLayout (header b t).layout t count
      return layout.size

end PackedArray

namespace GappedArray

/-- Two bitmaps and the exponent of the capacity stand before the elements. -/
def header (b : BitmapLayout A) (t : TypeLayout) : Header t where
  fields := [b.toTypeLayout, b.toTypeLayout, u8Layout]
  inner := Record.of _ (by simpa [emptyArray, u8Layout] using b.size_le)
    (by simp)

def allocBlock (b : BitmapLayout A) (t : TypeLayout) (cap : ℕ) :
    Checked Layout :=
  (header b t).allocBlock cap

/-- The size of the block that the array owns. -/
def allocatedSize {T : Type} (b : BitmapLayout A) (t : TypeLayout)
    (g : GappedArray T A) : Checked ℕ :=
  match g.inner with
  | none => .ok 0
  | some _ => do
      let layout ← allocLayout (header b t).layout t g.capacity
      return layout.size

end GappedArray

/-! ## The parts of a block -/

section Parts

variable {t : TypeLayout} {h : Header t} {l : Layout} {n : ℕ}

theorem Header.offsets_eq (h : Header t) :
    h.inner.offsets = h.inner.offsets.dropLast ++ [h.dataOffset] := by
  have hlength := h.inner.arranged.length
  have hne : h.inner.offsets ≠ [] := by
    intro hnil
    simp [hnil] at hlength
  rw [dataOffset, List.getLast?_eq_getLast_of_ne_nil hne, Option.getD_some]
  exact (List.dropLast_append_getLast hne).symm

theorem Header.arranged (h : Header t) :
    Arranged 0 (h.fields ++ [emptyArray t]) h.layout
      (h.inner.offsets.dropLast ++ [h.dataOffset]) := by
  rw [← h.offsets_eq]
  exact h.inner.arranged

theorem Header.align_dvd (h : Header t) : t.align ∣ h.layout.align :=
  h.arranged.aligns (emptyArray t) (by simp)

/-- The elements start at the end of the header or before. -/
theorem Header.dataOffset_le (h : Header t) : h.dataOffset ≤ h.layout.size := by
  have hall := h.arranged
  have hlength : h.inner.offsets.dropLast.length = h.fields.length := by
    simpa using hall.length
  have hmem : (emptyArray t, h.dataOffset) ∈ placed (h.fields ++ [emptyArray t])
      (h.inner.offsets.dropLast ++ [h.dataOffset]) := by
    rw [placed, List.zip_append hlength.symm]
    simp
  exact hall.within _ hmem

/-- Whether a block is refused, and where its fields and its slots stand
otherwise: one after another, each at a multiple of its alignment, within the
block. -/
inductive Allocated (h : Header t) (n : ℕ) : Checked Layout → Prop
  | block {l : Layout}
      (size : l.size = roundUp (h.layout.size + t.size * n) h.layout.align)
      (align : l.align = h.layout.align)
      (arranged : Arranged 0 (h.fields ++ List.replicate n t) l
        (h.inner.offsets.dropLast ++ slots h.dataOffset t.size n)) :
      Allocated h n (.ok l)
  | elements (exceeds : isizeMax < t.size * n) :
      Allocated h n (.error ⟨"element layout overflow"⟩)
  | header (fit : t.size * n ≤ isizeMax)
      (exceeds : isizeMax <
        roundUp (h.layout.size + t.size * n) h.layout.align) :
      Allocated h n (.error ⟨"block layout overflow"⟩)

/-- The elements are laid out right after the header, which their alignment
divides. -/
theorem Header.extend_eq {elements : Layout} (h : Header t)
    (helements : Layout.array t n = some elements) :
    (∃ l, h.layout.extend elements = some (l, h.layout.size) ∧
      l.size = h.layout.size + t.size * n ∧ l.align = h.layout.align) ∨
    h.layout.extend elements = none ∧
      isizeMax < roundUp (h.layout.size + t.size * n) h.layout.align := by
  obtain ⟨-, hsize, halign⟩ := Layout.array_eq_some.mp helements
  have hround : roundUp h.layout.size elements.align = h.layout.size := by
    rw [halign]
    exact roundUp_of_dvd t.align_pos
      (Nat.dvd_trans h.align_dvd h.arranged.padded)
  have hmax : max h.layout.align elements.align = h.layout.align := by
    rw [halign]
    exact max_eq_left (Nat.le_of_dvd h.layout.align_pos h.align_dvd)
  cases hext : h.layout.extend elements with
  | none =>
      rw [Layout.extend_eq_none, hround, hmax, hsize] at hext
      exact Or.inr ⟨rfl, hext⟩
  | some out =>
      obtain ⟨-, hoffset, hsize', halign'⟩ := Layout.extend_eq_some.mp hext
      rw [hround] at hoffset
      refine Or.inl ⟨out.1, ?_, ?_, ?_⟩
      · rw [← hoffset]
      · rw [hsize', hoffset, hsize]
      · rw [halign', hmax]

theorem Header.allocLayout_eq (h : Header t) (n : ℕ) :
    (∃ l, allocLayout h.layout t n = .ok l ∧
      l.size = roundUp (h.layout.size + t.size * n) h.layout.align ∧
      l.align = h.layout.align ∧ t.size * n ≤ isizeMax) ∨
    (allocLayout h.layout t n = .error ⟨"element layout overflow"⟩ ∧
      isizeMax < t.size * n) ∨
    allocLayout h.layout t n = .error ⟨"block layout overflow"⟩ ∧
      t.size * n ≤ isizeMax ∧
      isizeMax < roundUp (h.layout.size + t.size * n) h.layout.align := by
  cases harray : Layout.array t n with
  | none =>
      refine Or.inr (Or.inl ⟨?_, Layout.array_eq_none.mp harray⟩)
      rw [allocLayout, harray]
      rfl
  | some elements =>
      obtain ⟨hfit, -, -⟩ := Layout.array_eq_some.mp harray
      rcases h.extend_eq harray with ⟨l, hext, hsize, halign⟩ | ⟨hext, hover⟩
      · refine Or.inl ⟨l.padToAlign, ?_, ?_, halign, hfit⟩
        · simp only [allocLayout, harray, hext, expect_some, ok_bind,
            pure_eq_ok]
        · simp only [Layout.padToAlign, hsize, halign]
      · refine Or.inr (Or.inr ⟨?_, hfit, hover⟩)
        simp only [allocLayout, harray, hext, expect_some, ok_bind]
        rfl

/-- No assertion fails when a block is allocated. -/
theorem Header.allocated (h : Header t) (n : ℕ) :
    Allocated h n (h.allocBlock n) := by
  rcases h.allocLayout_eq n with
    ⟨l, hl, hsize, halign, hfit⟩ | ⟨herr, hover⟩ | ⟨herr, hfit, hover⟩
  · have hround := le_roundUp (h.layout.size + t.size * n) h.layout.align_pos
    have hdata := h.dataOffset_le
    have hcover : h.dataOffset + t.size * n ≤ l.size := by omega
    have hassert : h.dataOffset + n * t.size ≤ l.size := by
      rwa [Nat.mul_comm]
    rw [allocBlock, hl, ok_bind, debugAssert_of hassert]
    have haligns : h.layout.align ∣ l.align :=
      halign.symm ▸ Nat.dvd_refl h.layout.align
    refine .block hsize halign (h.arranged.repeatLast rfl hcover haligns ?_)
    rw [hsize, halign]
    exact dvd_roundUp _ _
  · rw [allocBlock, herr]
    exact .elements hover
  · rw [allocBlock, herr]
    exact .header hfit hover

end Parts

/-! ## The two headers -/

section Headers

variable (b : BitmapLayout A) (t : TypeLayout)

/-- The first field of a header. -/
theorem BitmapLayout.first {l : Layout}
    (hsize : l.size = roundUp Layout.empty.size b.align + b.size)
    (halign : l.align = max Layout.empty.align b.align) :
    l.size = b.size ∧ l.align = b.align := by
  have hzero : roundUp Layout.empty.size b.align = 0 :=
    roundUp_of_dvd b.align_pos (Nat.dvd_zero b.align)
  have hone : Layout.empty.align ≤ b.align := b.align_pos
  exact ⟨by omega, by omega⟩

/-- The last field of a header, where the elements start. -/
theorem emptyArray_last {l whole : Layout} {offsets : List ℕ}
    (h : fieldsFrom l [emptyArray t] = some (whole, offsets)) :
    whole.size = roundUp l.size (max l.align t.align) ∧
      whole.align = max l.align t.align ∧
      offsets = [roundUp l.size t.align] := by
  obtain ⟨l', rest, hsize, halign, hrest, rfl⟩ := fieldsFrom_cons h
  obtain ⟨hsize', halign', rfl⟩ := fieldsFrom_nil hrest
  have hdvd : t.align ∣ max l.align t.align :=
    dvd_max_right l.isPowerOfTwo t.isPowerOfTwo
  have hpos : 0 < max l.align t.align :=
    Nat.pos_of_isPowerOfTwo (isPowerOfTwo_max l.isPowerOfTwo t.isPowerOfTwo)
  refine ⟨?_, halign'.trans halign, rfl⟩
  calc whole.size = roundUp l'.size l'.align := hsize'
    _ = roundUp (roundUp l.size t.align) (max l.align t.align) := by
      rw [hsize, halign]
      rfl
    _ = roundUp l.size (max l.align t.align) :=
      roundUp_roundUp t.align_pos hpos hdvd l.size

/-- The elements of a packed array start where its header ends. -/
theorem PackedArray.header_spec :
    (header b t).layout.size = roundUp b.size (max b.align t.align) ∧
      (header b t).layout.align = max b.align t.align ∧
      (header b t).dataOffset = (header b t).layout.size := by
  have hmade : fieldsFrom Layout.empty [b.toTypeLayout, emptyArray t] =
      some ((header b t).layout, (header b t).inner.offsets) :=
    (header b t).inner.made
  obtain ⟨l, rest, hsize, halign, hrest, hoffsets⟩ := fieldsFrom_cons hmade
  obtain ⟨hsize, halign⟩ := b.first hsize halign
  obtain ⟨hsize', halign', rfl⟩ := emptyArray_last t hrest
  rw [hsize, halign] at hsize'
  rw [halign] at halign'
  refine ⟨hsize', halign', ?_⟩
  rw [Header.dataOffset, hoffsets, hsize', hsize]
  change roundUp b.size t.align = roundUp b.size (max b.align t.align)
  rcases le_total b.align t.align with hle | hle
  · rw [max_eq_right hle]
  · have hdvd : t.align ∣ b.size := Nat.dvd_trans
      (dvd_of_isPowerOfTwo t.isPowerOfTwo b.isPowerOfTwo hle) b.stride
    rw [max_eq_left hle, roundUp_of_dvd t.align_pos hdvd,
      roundUp_of_dvd b.align_pos b.stride]

theorem GappedArray.header_spec :
    (header b t).layout.size =
        roundUp (2 * b.size + 1) (max b.align t.align) ∧
      (header b t).layout.align = max b.align t.align ∧
      (header b t).dataOffset = roundUp (2 * b.size + 1) t.align := by
  have hmade : fieldsFrom Layout.empty
      [b.toTypeLayout, b.toTypeLayout, u8Layout, emptyArray t] =
        some ((header b t).layout, (header b t).inner.offsets) :=
    (header b t).inner.made
  obtain ⟨l, _, hsize, halign, hrest, hoffsets⟩ := fieldsFrom_cons hmade
  obtain ⟨hsize, halign⟩ := b.first hsize halign
  obtain ⟨l₂, _, hsize₂, halign₂, hrest₂, rfl⟩ := fieldsFrom_cons hrest
  obtain ⟨l₃, _, hsize₃, halign₃, hrest₃, rfl⟩ := fieldsFrom_cons hrest₂
  obtain ⟨hsize', halign', rfl⟩ := emptyArray_last t hrest₃
  have hl₂ : l₂.size = 2 * b.size := by
    rw [hsize₂, hsize, roundUp_of_dvd b.align_pos b.stride]
    omega
  have hl₃ : l₃.size = 2 * b.size + 1 := by
    rw [hsize₃, hl₂]
    change roundUp (2 * b.size) 1 + 1 = 2 * b.size + 1
    rw [roundUp_of_dvd Nat.one_pos (Nat.one_dvd _)]
  have hone : u8Layout.align ≤ b.align := b.align_pos
  have ha₃ : l₃.align = b.align := by omega
  rw [hl₃, ha₃] at hsize'
  rw [ha₃] at halign'
  refine ⟨hsize', halign', ?_⟩
  rw [Header.dataOffset, hoffsets, hl₃]
  rfl

end Headers

/-! ## How large a block can be -/

section Bounds

variable {t : TypeLayout} {h : Header t} {n : ℕ}

theorem add_le_of_dvd_of_lt {d k j : ℕ} (hk : d ∣ k) (hj : d ∣ j)
    (hlt : k < j) : k + d ≤ j := by
  obtain ⟨x, rfl⟩ := hk
  obtain ⟨y, rfl⟩ := hj
  have hxy : x < y := Nat.lt_of_mul_lt_mul_left hlt
  calc d * x + d = d * (x + 1) := rfl
    _ ≤ d * y := Nat.mul_le_mul_left d hxy

/-- Elements that fit into an allocation leave room for one alignment of each
of them, as all of these are parts of a power of two. -/
theorem elements_add_le (A : Arity) (hbound : t.size * A.LEN ≤ isizeMax) :
    t.size * A.LEN + A.LEN * t.align ≤ 2 ^ 63 := by
  obtain ⟨k, -, hk, hlen⟩ := A.LEN_eq_two_pow
  obtain ⟨j, hj⟩ := t.isPowerOfTwo
  have hj29 : j ≤ 29 := by
    have hle := t.align_le
    rw [hj] at hle
    exact (Nat.pow_le_pow_iff_right (by omega)).mp hle
  refine add_le_of_dvd_of_lt ?_ ?_ ?_
  · rw [Nat.mul_comm A.LEN]
    exact Nat.mul_dvd_mul_right t.stride A.LEN
  · rw [hlen, hj, ← Nat.pow_add]
    exact Nat.pow_dvd_pow 2 (by omega)
  · have hmax : isizeMax < 2 ^ 63 := by decide
    omega

theorem block_fits (hroom : h.layout.size + h.layout.align ≤ A.LEN * t.align)
    (hbound : t.size * A.LEN ≤ isizeMax) (hn : n ≤ A.LEN) :
    roundUp (h.layout.size + t.size * n) h.layout.align ≤ isizeMax := by
  have hall := elements_add_le A hbound
  have hsize := Nat.mul_le_mul_left t.size hn
  have hround := roundUp_lt (h.layout.size + t.size * n) h.layout.align_pos
  have hmax : isizeMax = 2 ^ 63 - 1 := rfl
  omega

/-- The header of a block is small beside one alignment for each index. -/
theorem room_of_size {b : BitmapLayout A} {k : ℕ} (hk : k ≤ 2 * b.size + 1)
    (hsize : h.layout.size = roundUp k (max b.align t.align))
    (halign : h.layout.align = max b.align t.align) :
    h.layout.size + h.layout.align ≤ A.LEN * t.align := by
  have hround := roundUp_lt k (max_align_pos t b)
  have hb := b.align_le_size
  have hbytes := b.size_eq
  obtain ⟨c, hc⟩ := A.eight_dvd_LEN
  have hLEN : A.LEN ≤ A.LEN * t.align := Nat.le_mul_of_pos_right _ t.align_pos
  have height : 8 * t.align ≤ A.LEN * t.align :=
    Nat.mul_le_mul_right t.align (Nat.le_of_dvd A.LEN_pos A.eight_dvd_LEN)
  omega

/-- A block that is small enough is allocated. -/
theorem Allocated.of_fits {c : Checked Layout} (hc : Allocated h n c)
    (hfit : roundUp (h.layout.size + t.size * n) h.layout.align ≤ isizeMax) :
    ∃ l, c = .ok l := by
  cases hc with
  | block size align arranged => exact ⟨_, rfl⟩
  | elements exceeds =>
      have := le_roundUp (h.layout.size + t.size * n) h.layout.align_pos
      omega
  | header fit exceeds => omega

theorem Allocated.elements_le {l : Layout} (hl : Allocated h n (.ok l)) :
    t.size * n ≤ isizeMax := by
  cases hl with
  | block size align arranged =>
      have hfits := l.fits
      have hsize := le_roundUp l.size l.align_pos
      have hround := le_roundUp (h.layout.size + t.size * n) h.layout.align_pos
      omega

/-- Blocks for up to as many elements as there are indices can be allocated
just when that many elements fit into an allocation. -/
theorem Header.capacity_bound
    (hroom : h.layout.size + h.layout.align ≤ A.LEN * t.align) :
    (∀ n ≤ A.LEN, ∃ l, h.allocBlock n = .ok l) ↔
      t.size * A.LEN ≤ isizeMax := by
  constructor
  · intro hall
    obtain ⟨l, hl⟩ := hall A.LEN le_rfl
    have hblock := h.allocated A.LEN
    rw [hl] at hblock
    exact hblock.elements_le
  · intro hbound n hn
    exact (h.allocated n).of_fits (block_fits hroom hbound hn)

theorem PackedArray.header_room (b : BitmapLayout A) (t : TypeLayout) :
    (header b t).layout.size + (header b t).layout.align ≤
      A.LEN * t.align := by
  obtain ⟨hsize, halign, -⟩ := header_spec b t
  exact room_of_size (by omega) hsize halign

theorem GappedArray.header_room (b : BitmapLayout A) (t : TypeLayout) :
    (header b t).layout.size + (header b t).layout.align ≤
      A.LEN * t.align := by
  obtain ⟨hsize, halign, -⟩ := header_spec b t
  exact room_of_size le_rfl hsize halign

end Bounds

/-- Where the elements of a block start, seen from the header and from the
computation of the layout.  With a packed array the two agree. -/
theorem dataOffset_le_offset (b : BitmapLayout A) (t : TypeLayout) {n : ℕ}
    {elements l : Layout} {offset : ℕ}
    (helements : Layout.array t n = some elements) :
    ((PackedArray.header b t).layout.extend elements = some (l, offset) →
      (PackedArray.header b t).dataOffset = offset) ∧
    ((GappedArray.header b t).layout.extend elements = some (l, offset) →
      (GappedArray.header b t).dataOffset ≤ offset) := by
  constructor
  · intro hext
    rcases (PackedArray.header b t).extend_eq helements with
      ⟨l', hext', -, -⟩ | ⟨hnone, -⟩
    · rw [hext] at hext'
      cases hext'
      exact (PackedArray.header_spec b t).2.2
    · rw [hext] at hnone
      cases hnone
  · intro hext
    rcases (GappedArray.header b t).extend_eq helements with
      ⟨l', hext', -, -⟩ | ⟨hnone, -⟩
    · rw [hext] at hext'
      cases hext'
      exact (GappedArray.header b t).dataOffset_le
    · rw [hext] at hnone
      cases hnone

/-- The blocks of both arrays: the fields of the header and the elements stand
one after another where their types may stand, the assertion about them never
fails, and blocks of every size are allocated just when the elements of a full
array are no more than an allocation holds. -/
theorem blocks_hold_elements (b : BitmapLayout A) (t : TypeLayout) :
    (∀ n, Allocated (PackedArray.header b t) n (PackedArray.allocBlock b t n)) ∧
    (∀ n, Allocated (GappedArray.header b t) n (GappedArray.allocBlock b t n)) ∧
    (∀ n elements l offset, Layout.array t n = some elements →
      ((PackedArray.header b t).layout.extend elements = some (l, offset) →
        (PackedArray.header b t).dataOffset = offset) ∧
      ((GappedArray.header b t).layout.extend elements = some (l, offset) →
        (GappedArray.header b t).dataOffset ≤ offset)) ∧
    ((∀ n ≤ A.LEN, ∃ l, PackedArray.allocBlock b t n = .ok l) ↔
      t.size * A.LEN ≤ isizeMax) ∧
    ((∀ n ≤ A.LEN, ∃ l, GappedArray.allocBlock b t n = .ok l) ↔
      t.size * A.LEN ≤ isizeMax) := by
  refine ⟨fun n => ?_, fun n => ?_, fun n elements l offset helements => ?_,
    ?_, ?_⟩
  · exact (PackedArray.header b t).allocated n
  · exact (GappedArray.header b t).allocated n
  · exact dataOffset_le_offset b t helements
  · exact Header.capacity_bound (PackedArray.header_room b t)
  · exact Header.capacity_bound (GappedArray.header_room b t)

end ArityArrays
