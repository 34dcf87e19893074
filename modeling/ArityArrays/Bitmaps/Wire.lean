import ArityArrays.Arrays.Encoding
import ArityArrays.Bitmaps.Coherence
import ArityArrays.Support.LittleEndian

/-!
# The bytes of a bitmap

Whatever integer is behind a bitmap, its bytes are those of the set of its
positions, which the wire form of an array is made of.
-/

namespace ArityBitmaps

open ArityArrays ArityTries Words LittleEndian

/-- The conversions of a backing to and from bytes. -/
structure ByteForm {w : ℕ} (R : Raw w) where
  toBytes : R.Word → List (BitVec 8)
  fromBytes : List (BitVec 8) → R.Word

namespace ByteForm

variable {w : ℕ} {R : Raw w}

/-- The bitmap with some bytes, if there are as many as it takes. -/
def tryFromBytes (F : ByteForm R) (buf : List (BitVec 8)) : Option R.Word :=
  if buf.length ≠ w / 8 then none else some (F.fromBytes buf)

/-- Both ways the bytes are those of the set of positions, and words are read
back as they were written. -/
structure Faithful (F : ByteForm R) : Prop where
  toBytes : ∀ x, F.toBytes x = Bitmap.toBytes (R.view x)
  tryFromBytes : ∀ buf,
    (F.tryFromBytes buf).map R.view = Bitmap.tryFromBytes w buf
  readBack : ∀ x, F.tryFromBytes (F.toBytes x) = some x
  writeBack : ∀ buf x, F.tryFromBytes buf = some x → F.toBytes x = buf

/-- It is enough that a word has the bits of its bytes. -/
theorem faithful_of_bits (F : ByteForm R) (hw : 8 ∣ w)
    (hinjective : Function.Injective R.view)
    (hto : ∀ x, F.toBytes x = Bitmap.toBytes (R.view x))
    (hfrom : ∀ buf : List (BitVec 8), buf.length = w / 8 →
      R.view (F.fromBytes buf) = Bitmap.fromBytes w buf) : F.Faithful := by
  have hread : ∀ buf : List (BitVec 8),
      (F.tryFromBytes buf).map R.view = Bitmap.tryFromBytes w buf := by
    intro buf
    by_cases hlen : buf.length = w / 8
    · simp [tryFromBytes, Bitmap.tryFromBytes, hlen, hfrom buf hlen]
    · simp [tryFromBytes, Bitmap.tryFromBytes, hlen]
  refine ⟨hto, hread, fun x => ?_, fun buf x hx => ?_⟩
  · have hlen : (F.toBytes x).length = w / 8 := by
      rw [hto, Bitmap.length_toBytes]
    rw [tryFromBytes, if_neg (not_not.mpr hlen), Option.some.injEq]
    apply hinjective
    rw [hfrom _ hlen, hto, Bitmap.fromBytes_toBytes hw]
  · by_cases hlen : buf.length = w / 8
    · rw [tryFromBytes, if_neg (not_not.mpr hlen), Option.some.injEq] at hx
      rw [hto, ← hx, hfrom buf hlen, Bitmap.toBytes_fromBytes hw hlen]
    · rw [tryFromBytes, if_pos hlen] at hx
      cases hx

end ByteForm

/-! ## Bits and sets -/

section Bits

variable {w : ℕ}

theorem toLeBytes_eq (hw : 8 ∣ w) (x : BitVec w) :
    toLeBytes x = Bitmap.toBytes (members x) := by
  refine List.ext_getElem (by simp) fun k hk hk' => ?_
  have hk₁ : k < w / 8 := by simpa using hk
  refine BitVec.eq_of_getLsbD_eq fun j hj => ?_
  obtain ⟨byte, hbyte, hbit⟩ := Bitmap.getLsbD_toBytes (members x) hk₁ hj
  rw [List.getElem?_eq_getElem hk', Option.some.injEq] at hbyte
  have hpos : 8 * k + j < w := by omega
  rw [getElem_toLeBytes, getLsbD_extract x k hj, hbyte, hbit,
    tryFromUsize_of_lt hpos]
  simp [Bitmap.test]

theorem members_fromLeBytes (bytes : List (BitVec 8)) :
    members (fromLeBytes w bytes) = Bitmap.fromBytes w bytes := by
  ext i
  rw [mem_members, getLsbD_fromLeBytes bytes i.isLt, Bitmap.fromBytes,
    Finset.mem_filter]
  simp

end Bits

/-! ## The backings -/

/-- The bytes of a native word. -/
def nativeBytes (W : Width) : ByteForm (native W) where
  toBytes := toLeBytes
  fromBytes := fromLeBytes W.width

theorem nativeBytes_faithful (W : Width) (hw : 8 ∣ W.width) :
    (nativeBytes W).Faithful :=
  (nativeBytes W).faithful_of_bits hw members_injective (toLeBytes_eq hw)
    fun buf _ => members_fromLeBytes buf

/-- The conversions of the 256-bit integers of `ethnum`. -/
structure EthnumBytes (E : Ethnum) where
  toLeBytes : E.U256 → List (BitVec 8)
  fromLeBytes : List (BitVec 8) → E.U256
  toLeBytes_eq : ∀ x, toLeBytes x = LittleEndian.toLeBytes (E.bits x)
  bits_fromLeBytes : ∀ bytes : List (BitVec 8), bytes.length = 32 →
    E.bits (fromLeBytes bytes) = LittleEndian.fromLeBytes 256 bytes

/-- Bit vectors are converted as native words are. -/
instance : Inhabited (EthnumBytes default) where
  default := {
    toLeBytes := fun x : BitVec 256 => LittleEndian.toLeBytes x
    fromLeBytes := LittleEndian.fromLeBytes 256
    toLeBytes_eq := fun _ => rfl
    bits_fromLeBytes := fun _ _ => rfl }

/-- The bytes of a 256-bit integer. -/
def u256Bytes {E : Ethnum} (B : EthnumBytes E) : ByteForm (u256 E) where
  toBytes := B.toLeBytes
  fromBytes := B.fromLeBytes

theorem u256Bytes_faithful {E : Ethnum} (B : EthnumBytes E) :
    (u256Bytes B).Faithful := by
  refine (u256Bytes B).faithful_of_bits (by decide) ?_ ?_ ?_
  · exact members_injective.comp E.bits_injective
  · intro x
    exact (B.toLeBytes_eq x).trans (toLeBytes_eq (by decide) (E.bits x))
  · intro buf hlen
    change members (E.bits (B.fromLeBytes buf)) = Bitmap.fromBytes 256 buf
    rw [B.bits_fromLeBytes buf hlen, members_fromLeBytes]

/-- The bytes of the bitmap of an arity. -/
def bytesOf {E : Ethnum} (B : EthnumBytes E) :
    (A : Arity) → ByteForm (ofArity E A)
  | .arity8 => nativeBytes _
  | .arity16 => nativeBytes _
  | .arity32 => nativeBytes _
  | .arity64 => nativeBytes _
  | .arity128 => nativeBytes _
  | .arity256 => u256Bytes B

/-- With every arity the bytes of a bitmap are those of the set of its
positions, exactly the sequences of `LEN / 8` bytes are accepted, and writing
and reading undo each other. -/
theorem bitmap_bytes_faithful {E : Ethnum} (B : EthnumBytes E) (A : Arity) :
    (bytesOf B A).Faithful := by
  cases A with
  | arity8 => exact nativeBytes_faithful _ (by decide)
  | arity16 => exact nativeBytes_faithful _ (by decide)
  | arity32 => exact nativeBytes_faithful _ (by decide)
  | arity64 => exact nativeBytes_faithful _ (by decide)
  | arity128 => exact nativeBytes_faithful _ (by decide)
  | arity256 => exact u256Bytes_faithful B

/-- The 256-bit words, as bit vectors. -/
theorem bitmap_bytes_faithful_wide :
    (bytesOf (default : EthnumBytes default) .arity256).Faithful :=
  bitmap_bytes_faithful default .arity256

end ArityBitmaps
