import ArityArrays.Support.Digits
import ArityArrays.Tries.FiniteMap
import ArityArrays.Tries.Walking.Failing

/-!
# Byte keys as nibble paths

`nibbles` writes each byte of a key as its high and then its low nibble, and
`unnibble` reads the nibbles back.  The order and the prefixes of byte keys
are those of their paths, so a trie over nibble paths serves byte keys.
-/

namespace ArityTries

open Checked Digits

/-! ## Bytes and nibbles -/

/-- An index below 16. -/
abbrev U4 := Fin 16

namespace U4

/-- Keep the low four bits. -/
def newMasked (v : UInt8) : U4 :=
  ⟨(v &&& 15).toNat, by
    rw [UInt8.toNat_and]
    exact Nat.lt_succ_of_le Nat.and_le_right⟩

def asU8 (i : U4) : UInt8 := UInt8.ofNat i.val

theorem newMasked_val (v : UInt8) : (newMasked v).val = v.toNat % 16 := by
  change (v &&& 15).toNat = v.toNat % 16
  rw [UInt8.toNat_and]
  exact Nat.and_two_pow_sub_one_eq_mod v.toNat 4

theorem asU8_toNat (i : U4) : i.asU8.toNat = i.val := by
  rw [asU8, UInt8.toNat_ofNat']
  exact Nat.mod_eq_of_lt (by omega)

end U4

/-- The high nibble of a byte, then its low nibble. -/
def splitByte (b : UInt8) : U4 × U4 :=
  (U4.newMasked (b >>> 4), U4.newMasked (b &&& 0xF))

/-- The byte with the two nibbles. -/
def joinByte (pair : U4 × U4) : UInt8 :=
  (pair.1.asU8 <<< 4) ||| pair.2.asU8

/-- Split each byte of a key into its high nibble then its low nibble. -/
def nibbles (key : List UInt8) : Path 16 :=
  key.flatMap fun (b : UInt8) =>
    [U4.newMasked (b >>> 4), U4.newMasked (b &&& 0xF)]

/-- The inverse of `nibbles`: `none` if the path has an odd length. -/
def unnibble (path : Path 16) : Option (List UInt8) :=
  if path.length % 2 ≠ 0 then none
  else some ((asChunks path).1.map fun (pair : U4 × U4) =>
    (pair.1.asU8 <<< 4) ||| pair.2.asU8)

theorem splitByte_val (b : UInt8) :
    (splitByte b).1.val = b.toNat / 16 ∧
      (splitByte b).2.val = b.toNat % 16 := by
  have hb := b.toNat_lt
  constructor
  · change (U4.newMasked (b >>> 4)).val = _
    rw [U4.newMasked_val, UInt8.toNat_shiftRight]
    change b.toNat >>> 4 % 16 = _
    rw [Nat.shiftRight_eq_div_pow]
    omega
  · change (U4.newMasked (b &&& 0xF)).val = _
    rw [U4.newMasked_val, UInt8.toNat_and]
    change (b.toNat &&& 15) % 16 = _
    rw [Nat.and_two_pow_sub_one_eq_mod b.toNat 4]
    omega

theorem joinByte_toNat (pair : U4 × U4) :
    (joinByte pair).toNat = 16 * pair.1.val + pair.2.val := by
  rw [joinByte, UInt8.toNat_or, UInt8.toNat_shiftLeft, U4.asU8_toNat,
    U4.asU8_toNat]
  change pair.1.val <<< 4 % 256 ||| pair.2.val = _
  have hfit : pair.1.val <<< 4 < 256 := by
    rw [Nat.shiftLeft_eq]
    omega
  rw [Nat.mod_eq_of_lt hfit,
    ← Nat.shiftLeft_add_eq_or_of_lt (show pair.2.val < 2 ^ 4 by omega),
    Nat.shiftLeft_eq]
  omega

theorem joinByte_splitByte (b : UInt8) : joinByte (splitByte b) = b := by
  obtain ⟨hhigh, hlow⟩ := splitByte_val b
  apply UInt8.toNat_inj.mp
  rw [joinByte_toNat, hhigh, hlow]
  omega

theorem splitByte_joinByte (pair : U4 × U4) :
    splitByte (joinByte pair) = pair := by
  obtain ⟨hhigh, hlow⟩ := splitByte_val (joinByte pair)
  rw [joinByte_toNat] at hhigh hlow
  apply Prod.ext
  · apply Fin.ext
    rw [hhigh]
    omega
  · apply Fin.ext
    rw [hlow]
    omega

theorem splitByte_injective : Function.Injective splitByte :=
  Function.LeftInverse.injective joinByte_splitByte

theorem splitByte_lt_iff (a b : UInt8) :
    a < b ↔ (splitByte a).1 < (splitByte b).1 ∨
      (splitByte a).1 = (splitByte b).1 ∧
        (splitByte a).2 < (splitByte b).2 := by
  obtain ⟨hhigha, hlowa⟩ := splitByte_val a
  obtain ⟨hhighb, hlowb⟩ := splitByte_val b
  rw [UInt8.lt_iff_toNat_lt, Fin.lt_def, Fin.lt_def, Fin.ext_iff, hhigha,
    hlowa, hhighb, hlowb]
  omega

/-! ## Keys and paths -/

theorem nibbles_eq_expand (key : List UInt8) :
    nibbles key = expand splitByte key := rfl

theorem unnibble_nibbles (key : List UInt8) :
    unnibble (nibbles key) = some key := by
  have hlength : (nibbles key).length % 2 = 0 := by
    rw [nibbles_eq_expand, length_expand]
    omega
  have hmap : (key.map splitByte).map joinByte = key := by
    rw [List.map_map]
    exact List.map_id'' joinByte_splitByte key
  rw [unnibble, if_neg (not_not.mpr hlength), nibbles_eq_expand,
    asChunks_expand]
  exact congrArg some hmap

theorem unnibble_eq_none_iff (path : Path 16) :
    unnibble path = none ↔ path.length % 2 = 1 := by
  rw [unnibble]
  by_cases hlength : path.length % 2 = 0
  · rw [if_neg (not_not.mpr hlength), hlength]
    simp
  · rw [if_pos hlength]
    simp
    omega

/-- A key read off a path is written as that path. -/
theorem nibbles_of_unnibble {path : Path 16} {key : List UInt8}
    (h : unnibble path = some key) : nibbles key = path := by
  have hlength : path.length % 2 = 0 := by
    have hodd := (unnibble_eq_none_iff path).not.mp (by rw [h]; simp)
    omega
  rw [unnibble, if_neg (not_not.mpr hlength), Option.some_inj] at h
  have hpath := expand_asChunks path
  rw [asChunks_rest_eq_nil hlength, List.append_nil] at hpath
  have hexpand : ∀ pairs : List (U4 × U4),
      expand splitByte (pairs.map joinByte) = expand id pairs := by
    intro pairs
    induction pairs with
    | nil => rfl
    | cons pair pairs ih =>
        rw [List.map_cons, expand_cons, expand_cons, ih, splitByte_joinByte]
        rfl
  rw [nibbles_eq_expand, ← h]
  exact (hexpand _).trans hpath

theorem nibbles_lt_iff (a b : List UInt8) : nibbles a < nibbles b ↔ a < b :=
  expand_lt_iff splitByte_injective splitByte_lt_iff a b

theorem nibbles_isPrefix_iff (a b : List UInt8) :
    nibbles a <+: nibbles b ↔ a <+: b :=
  expand_isPrefix_iff splitByte_injective a b

theorem nibbles_injective : Function.Injective nibbles :=
  expand_injective splitByte_injective

theorem nibbles_le_iff (a b : List UInt8) :
    nibbles a ≤ nibbles b ↔ a ≤ b := by
  rw [← not_lt, nibbles_lt_iff, List.not_lt]

/-! ## Tries over byte keys -/

/-- Every key of the trie is a byte key. -/
def NibbleKeyed {V H : Type} (t : Trie 16 V H) : Prop :=
  ∀ path v, contents t path = some v → ∃ key, nibbles key = path

section Keyed

variable {V H σ ε : Type} {t : Trie 16 V H}

/-- The entries from a byte key are the byte entries at or after it. -/
theorem NibbleKeyed.entriesFrom (ht : NibbleKeyed t)
    (start : Option (List UInt8)) :
    ∃ out : List (List UInt8 × V),
      (out.map fun kv => (nibbles kv.1, kv.2)) =
        ArityTries.entriesFrom t (start.map nibbles) ∧
      (out.Pairwise fun a b => a.1 < b.1) ∧
      ∀ key v, (key, v) ∈ out ↔
        contents t (nibbles key) = some v ∧ ∀ st ∈ start, st ≤ key := by
  have hrange : ArityTries.entriesFrom t (start.map nibbles) ∈
      Set.range (List.map fun kv : List UInt8 × V =>
        (nibbles kv.1, kv.2)) := by
    rw [Set.range_list_map]
    rintro ⟨path, v⟩ hmem
    obtain ⟨key, rfl⟩ := ht path v (mem_entriesFrom.mp hmem).1
    exact ⟨(key, v), rfl⟩
  obtain ⟨out, hout⟩ := hrange
  refine ⟨out, hout, ?_, ?_⟩
  · have hascending := entriesFrom_ascending t (start.map nibbles)
    rw [← hout, List.pairwise_map] at hascending
    apply hascending.imp
    intro a b hab
    exact (nibbles_lt_iff a.1 b.1).mp hab
  · intro key v
    have hinjective : Function.Injective fun kv : List UInt8 × V =>
        (nibbles kv.1, kv.2) := by
      intro a b hab
      obtain ⟨hkey, hvalue⟩ := Prod.mk.inj hab
      exact Prod.ext (nibbles_injective hkey) hvalue
    rw [← List.mem_map_of_injective hinjective, hout, mem_entriesFrom]
    apply and_congr_right
    intro _
    rcases start with _ | st
    · simp
    · simp [nibbles_le_iff]

/-- Iterating from a byte key yields byte entries in byte order. -/
theorem NibbleKeyed.nextAll (store : EdgeStore 16 V H σ ε)
    (ht : NibbleKeyed t) (s : σ) (start : Option (List UInt8)) :
    ∃ (out : List (List UInt8 × V)) (k : ℕ) (failure : Option ε),
      (out.Pairwise fun a b => a.1 < b.1) ∧
      (∀ key v, (key, v) ∈ out ↔
        contents t (nibbles key) = some v ∧ ∀ st ∈ start, st ≤ key) ∧
      (store.NeverFails → failure = none) ∧
      (failure = none → out.length ≤ k) ∧
      ∀ j, ∃ w s',
        ArityTries.nextAll store j (iter t (start.map nibbles)) s =
          .ok ((List.range j).map fun j => (interrupted
            ((out.take k).map fun kv => (nibbles kv.1, kv.2)) failure)[j]?,
            w, s') := by
  obtain ⟨out, hout, hascending, hmem⟩ := ht.entriesFrom start
  obtain ⟨seen, failure, s', hcourse, hprefix, hall, hnever⟩ :=
    (Walk.Pending.fresh t (start.map nibbles)).course store s
  have hseen : entriesOf seen <+: out.map fun kv =>
      (nibbles kv.1, kv.2) := by
    rw [hout]
    exact hprefix.filterMap _
  refine ⟨out, (entriesOf seen).length, failure, hascending, hmem, hnever,
    ?_, ?_⟩
  · intro hfailure
    have hlength := congrArg List.length hout
    rw [List.length_map] at hlength
    rw [hlength, hall hfailure]
    exact le_rfl
  · intro j
    obtain ⟨w, s'', hrun, -⟩ := hcourse.nextAll j
    refine ⟨w, s'', ?_⟩
    rw [List.map_take, ← List.prefix_iff_eq_take.mp hseen]
    exact hrun

/-- Removing a byte prefix removes the byte keys with that prefix. -/
theorem NibbleKeyed.removePrefix (store : EdgeStore 16 V H σ ε)
    (ht : NibbleKeyed t) (s : σ) (keyPrefix : List UInt8) :
    ∃ r t' s',
      ArityTries.removePrefix store t (nibbles keyPrefix) s =
        .ok (r, t', s') ∧ NibbleKeyed t' ∧
      (store.NeverFails → r = .ok ()) ∧
      (r = .ok () → ∀ key, contents t' (nibbles key) =
        if keyPrefix <+: key then none else contents t (nibbles key)) ∧
      ∀ x, r = .error x → ∀ key,
        contents t' (nibbles key) = contents t (nibbles key) := by
  have houtcome := removePrefix_outcome store t (nibbles keyPrefix) s
  generalize ArityTries.removePrefix store t (nibbles keyPrefix) s = c
    at houtcome
  rcases houtcome with @⟨x, nd, nd₁, s', rfl, hfail, hopen, -⟩ | @⟨s', -⟩
  · have hsame : contents (some nd₁) = contents (some nd) :=
      contents_eq_of_inlined_eq hopen.opened.inlined_eq
    refine ⟨.error x, some nd₁, s', rfl, ?_, ?_, ?_, ?_⟩
    · intro path v hv
      rw [hsame] at hv
      exact ht path v hv
    · intro hstore
      exact absurd hstore hfail
    · intro hok
      cases hok
    · intro _ _ key
      rw [hsame]
  · have hremoved := congrFun (contents_prefixRemoved t (nibbles keyPrefix))
    refine ⟨_, _, s', rfl, ?_, ?_, ?_, ?_⟩
    · intro path v hv
      rw [hremoved] at hv
      by_cases hprefix : nibbles keyPrefix <+: path
      · rw [if_pos hprefix] at hv
        cases hv
      · rw [if_neg hprefix] at hv
        exact ht path v hv
    · intro _
      rfl
    · intro _ key
      rw [hremoved]
      simp only [nibbles_isPrefix_iff]
    · intro x hx
      cases hx

end Keyed

/-- `unnibble` inverts `nibbles` in both directions, the paths order and
extend each other as the byte keys do, and so a trie over nibble paths is
iterated in byte order and loses byte prefixes. -/
theorem nibbles_embed_bytes :
    (∀ key, unnibble (nibbles key) = some key) ∧
    (∀ path, (unnibble path = none ↔ path.length % 2 = 1) ∧
      ∀ key, unnibble path = some key → nibbles key = path) ∧
    (∀ a b, nibbles a < nibbles b ↔ a < b) ∧
    (∀ a b, nibbles a <+: nibbles b ↔ a <+: b) ∧
    ∀ (V H σ ε : Type) (store : EdgeStore 16 V H σ ε) (t : Trie 16 V H)
      (s : σ), NibbleKeyed t →
      (∀ start : Option (List UInt8), ∃ (out : List (List UInt8 × V))
        (k : ℕ) (failure : Option ε),
        (out.Pairwise fun a b => a.1 < b.1) ∧
        (∀ key v, (key, v) ∈ out ↔
          contents t (nibbles key) = some v ∧ ∀ st ∈ start, st ≤ key) ∧
        (store.NeverFails → failure = none) ∧
        (failure = none → out.length ≤ k) ∧
        ∀ j, ∃ w s', nextAll store j (iter t (start.map nibbles)) s =
          .ok ((List.range j).map fun j => (interrupted
            ((out.take k).map fun kv => (nibbles kv.1, kv.2)) failure)[j]?,
            w, s')) ∧
      ∀ keyPrefix, ∃ r t' s',
        removePrefix store t (nibbles keyPrefix) s = .ok (r, t', s') ∧
        NibbleKeyed t' ∧ (store.NeverFails → r = .ok ()) ∧
        (r = .ok () → ∀ key, contents t' (nibbles key) =
          if keyPrefix <+: key then none else contents t (nibbles key)) ∧
        ∀ x, r = .error x → ∀ key,
          contents t' (nibbles key) = contents t (nibbles key) := by
  refine ⟨unnibble_nibbles, ?_, nibbles_lt_iff, nibbles_isPrefix_iff, ?_⟩
  · intro path
    exact ⟨unnibble_eq_none_iff path, fun _ => nibbles_of_unnibble⟩
  · intro V H σ ε store t s ht
    exact ⟨ht.nextAll store s, ht.removePrefix store s⟩

/-- Removing a prefix of one of two byte keys of a trie. -/
theorem nibbles_embed_bytes_survivor :
    ∃ t : Trie 16 ℕ ℕ, contents t (nibbles [0xAB, 0x01]) = some 5 ∧
      contents t (nibbles [0xAC]) = some 7 ∧
      ∃ r t' s', removePrefix (EdgeStore.inMemory 16 ℕ ℕ) t
          (nibbles [0xAB]) () = .ok (r, t', s') ∧
        contents t' (nibbles [0xAB, 0x01]) = none ∧
        contents t' (nibbles [0xAC]) = some 7 := by
  let t : Trie 16 ℕ ℕ := (Trie.inserted (nibbles [0xAC]) 7
    (some (Node.leaf (nibbles [0xAB, 0x01]) 5))).2
  have hcontents : contents t = Function.update
      (contents (some (Node.leaf (nibbles [0xAB, 0x01]) 5)))
      (nibbles [0xAC]) (some 7) :=
    contents_inserted _ _ _
  have hfirst : contents t (nibbles [0xAB, 0x01]) = some 5 := by
    rw [hcontents, Function.update_of_ne (by decide), contents_leaf, if_pos rfl]
  have hsecond : contents t (nibbles [0xAC]) = some 7 := by
    rw [hcontents, Function.update_self]
  have ht : NibbleKeyed t := by
    intro path v hv
    rw [hcontents] at hv
    by_cases hpath : path = nibbles [0xAC]
    · exact ⟨_, hpath.symm⟩
    · rw [Function.update_of_ne hpath, contents_leaf] at hv
      by_cases hpath' : path = nibbles [0xAB, 0x01]
      · exact ⟨_, hpath'.symm⟩
      · rw [if_neg hpath'] at hv
        cases hv
  obtain ⟨-, -, -, -, htrie⟩ := nibbles_embed_bytes
  obtain ⟨-, hremove⟩ := htrie ℕ ℕ Unit Empty
    (EdgeStore.inMemory 16 ℕ ℕ) t () ht
  obtain ⟨r, t', s', hrun, -, hnever, hok, -⟩ := hremove [0xAB]
  have hleft := hok (hnever (EdgeStore.inMemory_neverFails 16 ℕ ℕ))
  refine ⟨t, hfirst, hsecond, r, t', s', hrun, ?_, ?_⟩
  · rw [hleft, if_pos (by decide)]
  · rw [hleft, if_neg (by decide), hsecond]

end ArityTries
