import ArityArrays.Arrays.Allocation
import ArityArrays.Arrays.Programs

/-!
# The bytes an array owns

In a state that a program reaches, a packed array owns nothing while it is empty
and otherwise a block for just its elements, and a gapped array a block for its
capacity.  No block is refused on the way.  Holding the same number of entries,
the packed array is never the larger one, and the gapped array is less than
twice as large after a shrink, up to one alignment.
-/

namespace ArityArrays

open ArityTries Checked Layouts

variable {T : Type} {A : Arity}

/-! ## Sizes of blocks -/

section Sizes

variable {t : TypeLayout} {h : Header t} {k n : ℕ}

theorem Header.blockSize_pos (h : Header t) (hsize : 0 < h.layout.size) :
    0 < h.blockSize n := by
  have := le_roundUp (h.layout.size + t.size * n) h.layout.align_pos
  unfold blockSize
  omega

theorem Header.blockSize_mono (h : Header t) (hnk : n ≤ k) :
    h.blockSize n ≤ h.blockSize k :=
  roundUp_mono h.layout.align_pos
    (Nat.add_le_add_left (Nat.mul_le_mul_left t.size hnk) h.layout.size)

/-- The layout of a block that is small enough. -/
theorem Header.allocLayout_of_fits (h : Header t)
    (hfit : h.blockSize n ≤ isizeMax) :
    ∃ l, allocLayout h.layout t n = .ok l ∧ l.size = h.blockSize n := by
  have hround := le_roundUp (h.layout.size + t.size * n) h.layout.align_pos
  unfold blockSize at hfit ⊢
  rcases h.allocLayout_eq n with
    ⟨l, hl, hsize, -, -⟩ | ⟨-, hover⟩ | ⟨-, -, hover⟩
  · exact ⟨l, hl, hsize⟩
  · omega
  · omega

variable (b : BitmapLayout A) (t)

/-- A packed block is no larger than a gapped one with as many slots. -/
theorem packed_blockSize_le (hnk : n ≤ k) :
    (PackedArray.header b t).blockSize n ≤
      (GappedArray.header b t).blockSize k := by
  obtain ⟨hsize, halign, -⟩ := PackedArray.header_spec b t
  obtain ⟨hsize', halign', -⟩ := GappedArray.header_spec b t
  have hpos := max_align_pos t b
  have hheader : roundUp b.size (max b.align t.align) ≤
      roundUp (2 * b.size + 1) (max b.align t.align) :=
    roundUp_mono hpos (by omega)
  have helements := Nat.mul_le_mul_left t.size hnk
  unfold Header.blockSize
  rw [hsize, halign, hsize', halign']
  exact roundUp_mono hpos (Nat.add_le_add hheader helements)

/-- A gapped block with up to twice as many slots is up to twice as large as a
packed one, and an alignment more. -/
theorem gapped_blockSize_le (hkn : k ≤ 2 * n) :
    (GappedArray.header b t).blockSize k ≤
      2 * (PackedArray.header b t).blockSize n + max b.align t.align := by
  obtain ⟨hsize, halign, -⟩ := PackedArray.header_spec b t
  obtain ⟨hsize', halign', -⟩ := GappedArray.header_spec b t
  have hpos := max_align_pos t b
  unfold Header.blockSize
  rw [hsize, halign, hsize', halign']
  set a := max b.align t.align
  set p := roundUp b.size a
  have hp : b.size ≤ p := le_roundUp b.size hpos
  have hheader : roundUp (2 * b.size + 1) a ≤ 2 * p + a := by
    refine roundUp_le_of_dvd hpos (by omega) ?_
    exact Nat.dvd_add (Nat.dvd_mul_left_of_dvd (dvd_roundUp b.size a) 2)
      (Nat.dvd_refl a)
  have helements : t.size * k ≤ 2 * (t.size * n) := by
    calc t.size * k ≤ t.size * (2 * n) := Nat.mul_le_mul_left t.size hkn
      _ = 2 * (t.size * n) := by rw [Nat.mul_left_comm]
  have hblock := le_roundUp (p + t.size * n) hpos
  refine roundUp_le_of_dvd hpos (by omega) ?_
  exact Nat.dvd_add (Nat.dvd_mul_left_of_dvd (dvd_roundUp _ a) 2)
    (Nat.dvd_refl a)

end Sizes

/-! ## The blocks of arrays -/

section Arrays

variable {b : BitmapLayout A} {t : TypeLayout}

theorem PackedArray.header_size_pos (b : BitmapLayout A) (t : TypeLayout) :
    0 < (header b t).layout.size := by
  rw [(header_spec b t).1]
  exact Nat.lt_of_lt_of_le b.size_pos (le_roundUp b.size (max_align_pos t b))

theorem PackedArray.allocatedSize_spec {a : PackedArray T A}
    {m : ChildMap A.LEN T} (h : a.Holds m)
    (hbound : t.size * A.LEN ≤ isizeMax) :
    a.allocatedSize b t =
      .ok (if m.count = 0 then 0 else (header b t).blockSize m.count) := by
  cases hinner : a.inner with
  | none =>
      obtain rfl := h.of_none hinner
      simp [allocatedSize, hinner]
  | some inner =>
      obtain ⟨hne, hbitmap, -⟩ := h.of_some hinner
      have hcount : Bitmap.countOnes inner.bitmap = m.count := by
        rw [hbitmap, ChildMap.countOnes_present]
      have hpos : m.count ≠ 0 := by
        rw [ChildMap.count_eq_card]
        exact Finset.card_ne_zero.mpr (Finset.nonempty_iff_ne_empty.mpr hne)
      obtain ⟨l, hl, hsize⟩ := (header b t).allocLayout_of_fits
        (block_fits (header_room b t) hbound m.count_le)
      simp only [allocatedSize, hinner, hcount, hl, ok_bind, pure_eq_ok, hsize,
        hpos, if_false]

theorem GappedArray.allocatedSize_spec {g : GappedArray T A}
    {m : ChildMap A.LEN T} (h : g.Holds m)
    (hbound : t.size * A.LEN ≤ isizeMax) :
    g.allocatedSize b t =
      .ok (if g.capacity = 0 then 0 else (header b t).blockSize g.capacity) := by
  cases hinner : g.inner with
  | none =>
      have hzero : g.capacity = 0 := by rw [capacity, hinner]
      simp [allocatedSize, hinner, hzero]
  | some inner =>
      obtain ⟨pos, hlaid⟩ := h.of_some hinner
      have hcapacity : g.capacity = inner.capacity := by rw [capacity, hinner]
      have hpos : g.capacity ≠ 0 := by
        have := hlaid.isCapacity.pos
        omega
      obtain ⟨l, hl, hsize⟩ := (header b t).allocLayout_of_fits
        (block_fits (header_room b t) hbound (hcapacity ▸ hlaid.le))
      simp only [allocatedSize, hinner, hl, ok_bind, pure_eq_ok, hsize, hpos,
        if_false]

theorem LeastCapacity.le_double {count cap : ℕ} (h : LeastCapacity count cap) :
    cap ≤ 2 * count := by
  rcases h with ⟨rfl, rfl⟩ | ⟨hcount, ⟨k, rfl⟩, -, hleast⟩
  · exact le_rfl
  · by_contra hlt
    cases k with
    | zero => omega
    | succ k =>
        rw [Nat.pow_succ] at hlt hleast
        have := hleast k (by omega)
        have hpos := Nat.two_pow_pos k
        omega

theorem GappedArray.Holds.least_le {g : GappedArray T A}
    {m : ChildMap A.LEN T} (h : g.Holds m) {cap : ℕ}
    (hleast : LeastCapacity m.count cap) : cap ≤ g.capacity := by
  have hcount := h.count_le_capacity
  rcases hleast with ⟨-, rfl⟩ | ⟨hne, -, -, hmin⟩
  · exact Nat.zero_le _
  · cases hinner : g.inner with
    | none =>
        have hzero : g.capacity = 0 := by rw [capacity, hinner]
        omega
    | some inner =>
        have hcapacity : g.capacity = 2 ^ inner.capExp := by
          rw [capacity, hinner]
          rfl
        rw [hcapacity] at hcount ⊢
        exact hmin _ hcount

end Arrays

/-! ## Every block is granted -/

theorem pow2CapFor_le {count cap : ℕ} (h : pow2CapFor A count = .ok cap) :
    cap ≤ A.LEN := by
  by_cases hzero : count = 0
  · obtain rfl : 0 = cap := by simpa [pow2CapFor, hzero] using h
    exact Nat.zero_le _
  · obtain ⟨cap', hcap', ⟨-, -, hle⟩, -⟩ := pow2CapFor_spec A hzero
    rw [h] at hcap'
    cases hcap'
    exact hle

/-- The operations ask for a block of one slot for every entry of a map, if the
array is packed, or of a capacity that `pow2CapFor` returns.  They all get
it. -/
theorem requests_granted (b : BitmapLayout A) (t : TypeLayout)
    (hbound : t.size * A.LEN ≤ isizeMax) :
    (∀ m : ChildMap A.LEN T, ∃ l, PackedArray.allocBlock b t m.count = .ok l) ∧
      ∀ count cap, pow2CapFor A count = .ok cap →
        ∃ l, GappedArray.allocBlock b t cap = .ok l := by
  constructor
  · intro m
    exact (Header.capacity_bound (PackedArray.header_room b t)).mpr hbound
      m.count m.count_le
  · intro count cap hcap
    exact (Header.capacity_bound (GappedArray.header_room b t)).mpr hbound
      cap (pow2CapFor_le hcap)

/-- The blocks that the arrays of a program own have at most as many slots as
there are indices, and were granted. -/
theorem blocks_granted (b : BitmapLayout A) (t : TypeLayout)
    (hbound : t.size * A.LEN ≤ isizeMax) {s : Vars T A} (hs : s.Reached) :
    (∀ inner, s.packed.inner = some inner → inner.data.cap ≤ A.LEN ∧
      ∃ l, PackedArray.allocBlock b t inner.data.cap = .ok l) ∧
    (∀ inner, s.gapped.inner = some inner → inner.data.cap ≤ A.LEN ∧
      ∃ l, GappedArray.allocBlock b t inner.data.cap = .ok l) := by
  obtain ⟨m, hpacked, hgapped⟩ := hs.hold
  constructor
  · intro inner hinner
    obtain ⟨-, -, hdense⟩ := hpacked.of_some hinner
    rw [hdense.cap]
    exact ⟨m.1.count_le, (requests_granted b t hbound).1 m.1⟩
  · intro inner hinner
    obtain ⟨pos, hlaid⟩ := hgapped.of_some hinner
    have hle : inner.data.cap ≤ A.LEN := hlaid.cap.trans_le hlaid.le
    exact ⟨hle, (Header.capacity_bound (GappedArray.header_room b t)).mpr
      hbound _ hle⟩

/-! ## Reported sizes -/

/-- The sizes that the arrays of a program report, before and after a shrink of
the gapped one. -/
theorem allocated_sizes (b : BitmapLayout A) (t : TypeLayout)
    (hbound : t.size * A.LEN ≤ isizeMax) {s : Vars T A} (hs : s.Reached) :
    ∃ m packed gapped, s.Reads m ∧
      s.packed.allocatedSize b t = .ok packed ∧
      s.gapped.allocatedSize b t = .ok gapped ∧
      (packed = 0 ↔ m.1 = ChildMap.empty) ∧
      (m.1 ≠ ChildMap.empty → packed =
        roundUp (roundUp b.size (max b.align t.align) + t.size * m.1.count)
          (max b.align t.align)) ∧
      (m.1.count ≤ m.2.count → packed ≤ gapped) ∧
      ∃ g shrunk, s.gapped.shrinkToFit = .ok g ∧
        g.allocatedSize b t = .ok shrunk ∧ shrunk ≤ gapped ∧
        (m.2.count ≤ m.1.count →
          shrunk ≤ 2 * packed + max b.align t.align) := by
  obtain ⟨m, hm⟩ := hs.hold
  have hpacked := PackedArray.allocatedSize_spec (b := b) hm.1 hbound
  have hgapped := GappedArray.allocatedSize_spec (b := b) hm.2 hbound
  obtain ⟨g, hshrink, hg, hleast, -⟩ := GappedArray.shrinkToFit_spec hm.2
  have hshrunk := GappedArray.allocatedSize_spec (b := b) hg hbound
  have hempty : m.1.count = 0 ↔ m.1 = ChildMap.empty :=
    ⟨ChildMap.eq_empty_of_count, fun h => by rw [h, ChildMap.count_empty]⟩
  obtain ⟨hsize, halign, -⟩ := PackedArray.header_spec b t
  have hpos := (PackedArray.header b t).blockSize_pos (n := m.1.count)
    (PackedArray.header_size_pos b t)
  have hfull := hm.2.count_le_capacity
  refine ⟨m, _, _, hm.reads, hpacked, hgapped, ?_, ?_, ?_, g, _, hshrink,
    hshrunk, ?_, ?_⟩
  · rw [← hempty]
    split <;> omega
  · intro hne
    rw [if_neg (fun hzero => hne (hempty.mp hzero)), Header.blockSize, hsize,
      halign]
  · intro hcount
    have hblock := packed_blockSize_le t b (hcount.trans hfull)
    split <;> split <;> omega
  · have hcap := hm.2.least_le hleast
    have hblock := (GappedArray.header b t).blockSize_mono hcap
    split <;> split <;> omega
  · intro hcount
    have hcap := hleast.le_double
    have hblock := gapped_blockSize_le t b
      (hcap.trans (Nat.mul_le_mul_left 2 hcount))
    split <;> split <;> omega

/-- The layout of an aligned four-byte value. -/
def u32Layout : TypeLayout where
  size := 4
  align := 4
  isPowerOfTwo := ⟨2, rfl⟩
  fits := by decide
  stride := Nat.dvd_refl 4
  align_le := by decide

/-- Two entries behind a one-byte bitmap. -/
theorem allocated_sizes_pair :
    ∃ s : Vars ℕ .arity8, s.Reached ∧ ∃ packed gapped,
      s.packed.allocatedSize ⟨u8Layout, rfl⟩ u32Layout = .ok packed ∧
      s.gapped.allocatedSize ⟨u8Layout, rfl⟩ u32Layout = .ok gapped ∧
      packed = 12 ∧ packed ≤ gapped := by
  obtain ⟨s, hs, hhold⟩ := Vars.reached_of_calls
    ([.packed (.extend [(3, 7), (5, 8)]), .gapped (.extend [(3, 7), (5, 8)])] :
      List (Call ℕ .arity8))
  obtain ⟨m, packed, gapped, hreads, hpacked, hgapped, -, hsize, hle, -⟩ :=
    allocated_sizes ⟨u8Layout, rfl⟩ u32Layout (by decide) hs
  obtain rfl := hreads.unique hhold.reads
  refine ⟨s, hs, packed, gapped, hpacked, hgapped, ?_, hle (by decide)⟩
  refine (hsize fun hempty => ?_).trans (by decide)
  have hcount := congrArg ChildMap.count hempty
  rw [ChildMap.count_empty] at hcount
  exact absurd hcount (by decide)

end ArityArrays
