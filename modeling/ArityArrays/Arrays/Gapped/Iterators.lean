import ArityArrays.Arrays.Iteration
import ArityArrays.Arrays.Gapped.Layout

/-!
# Iterators of the gapped array

The logical index of an element comes from the occupancy bits and its slot from
the live bits.  The two cursors move in lockstep, so the pairing holds under any
mix of calls at both ends, whatever the gaps are.
-/

namespace ArityArrays.GappedArray

open ArityTries Checked DoubleEnded

variable {T : Type} {A : Arity} {n : ℕ}

/-- The elements behind the data pointer; a null pointer has no slots. -/
def data (g : GappedArray T A) : Block T :=
  match g.inner with
  | none => Block.alloc 0
  | some inner => inner.data

/-- The filled slots. -/
def live (g : GappedArray T A) : Bitmap A.LEN :=
  match g.inner with
  | none => Bitmap.ZERO
  | some inner => inner.live

/-! ## Shared and mutable iterators -/

/-- The cursor over the live slots and the elements there. -/
structure Live (n : ℕ) (T : Type) where
  liveBits : BitIter n
  data : Block T

def Live.message : End → String
  | .front => "live and occupancy have equal count"
  | .back => "equal count"

def Live.takeMut (e : End) (s : Live n T) : Checked (Place T × Live n T) := do
  let p ← BitIter.iterator.demand Live.message e s.liveBits
  let z ← refMut s.data p.1
  return (z, { s with liveBits := p.2 })

def Live.take (e : End) (s : Live n T) : Checked (T × Live n T) := do
  let p ← BitIter.iterator.demand Live.message e s.liveBits
  let v ← s.data.get p.1
  return (v, { s with liveBits := p.2 })

abbrev PresentIter : DoubleEnded (BitIter A.LEN × Live A.LEN T) (A.Index × T) :=
  ofPresent Live.take

abbrev PresentIterMut :
    DoubleEnded (BitIter A.LEN × Live A.LEN T) (A.Index × Place T) :=
  ofPresent Live.takeMut

/-- The start of both present iterators. -/
def iterPresent (g : GappedArray T A) : BitIter A.LEN × Live A.LEN T :=
  (⟨g.bitmap⟩, ⟨⟨g.live⟩, g.data⟩)

/-- `fold` and `rfold` of `PresentIter`: the logical indices are walked by the
fold of their own cursor, which pulls the slots along. -/
def PresentIter.foldFrom {β : Type} (e : End)
    (f : β → A.Index × T → Checked β) (b : β)
    (s : BitIter A.LEN × Live A.LEN T) : Checked β := do
  let out ← BitIter.iterator.foldFrom e (fun acc i => do
    let v ← Live.take e acc.2
    let b ← f acc.1 (i, v.1)
    return (b, v.2)) (b, s.2) s.1
  return out.1

/-- The element of the next item of a present iterator. -/
def presentElem {α γ : Type} (take : End → γ → Checked (α × γ)) (e : End)
    (s : BitIter n × γ) : Checked (α × (BitIter n × γ)) := do
  let out ← (ofPresent take).demand
    (fun _ => "a set occupancy bit has a matching present element") e s
  return (out.1.2, out.2)

abbrev Iter : DoubleEnded
    (NicheRangeInclusive A.LEN × Scattered A.LEN (BitIter A.LEN × Live A.LEN T))
    (A.Index × Option T) :=
  ofSlots (presentElem Live.take)

abbrev IterMut : DoubleEnded
    (NicheRangeInclusive A.LEN × Scattered A.LEN (BitIter A.LEN × Live A.LEN T))
    (A.Index × Option (Place T)) :=
  ofSlots (presentElem Live.takeMut)

/-- The start of both iterators over all slots. -/
def iter (g : GappedArray T A) : NicheRangeInclusive A.LEN ×
    Scattered A.LEN (BitIter A.LEN × Live A.LEN T) :=
  (NicheRangeInclusive.full A.LEN, ⟨g.bitmap, g.iterPresent⟩)

/-! ## The owning iterator -/

/-- What `IntoIter` keeps besides its occupancy cursor: the block, the cursor
over its live slots, and the slots of the elements not yet moved out. -/
structure Owned (n : ℕ) (T : Type) where
  ptr : Option (Block T)
  liveBits : BitIter n
  remainingLive : Bitmap n
  cap : ℕ

def Owned.take (e : End) (s : Owned n T) : Checked (T × Owned n T) := do
  let p ← BitIter.iterator.demand
    (fun _ => "occupancy and live have equal popcount") e s.liveBits
  let remainingLive := Bitmap.withoutBit s.remainingLive p.1
  let ptr ← expect s.ptr "a set bit implies an allocated block"
  let out ← ptr.read p.1
  return (out.1, { s with
    ptr := some out.2
    liveBits := p.2
    remainingLive := remainingLive })

abbrev IntoIter : DoubleEnded (BitIter A.LEN × Owned A.LEN T) (A.Index × T) :=
  ofPresent Owned.take

def intoIter (g : GappedArray T A) : BitIter A.LEN × Owned A.LEN T :=
  match g.inner with
  | none => (⟨Bitmap.ZERO⟩, ⟨none, ⟨Bitmap.ZERO⟩, Bitmap.ZERO, 0⟩)
  | some inner => (⟨inner.occupancy⟩,
      ⟨some inner.data, ⟨inner.live⟩, inner.live, inner.capacity⟩)

/-! ## What they have left -/

/-- The slots of the cursor in order hold the values of `zs`. -/
def Live.Left (s : Live n T) (zs : List (Place T)) : Prop :=
  (Bitmap.bits s.liveBits.remaining).map Fin.val = zs.map Place.slot ∧
    ∀ z ∈ zs, s.data.slot z.slot = some z.value

theorem Live.suppliesMut : Supplies (Live.takeMut (n := n) (T := T)) Live.Left where
  front := by
    rintro s z zs ⟨hbits, hslots⟩
    obtain ⟨p, ps, hp, hpz, hps⟩ := List.map_eq_cons_iff.mp hbits
    obtain ⟨it, htake, hit⟩ :=
      (BitIter.refines.demand Live.message).front (r := s.liveBits) hp
    have hz : refMut s.data p = .ok z := by
      rw [hpz]
      exact refMut_of_slot (hslots z (by simp))
    refine ⟨{ s with liveBits := it }, by simp [takeMut, htake, hz], ?_,
      fun y hy => hslots y (List.mem_cons_of_mem z hy)⟩
    simp only []
    rw [hit, hps]
  back := by
    rintro s zs z ⟨hbits, hslots⟩
    rw [List.map_append, List.map_singleton] at hbits
    obtain ⟨ps, qs, hp, hps, hq⟩ := List.map_eq_append_iff.mp hbits
    obtain ⟨p, rfl, hpz⟩ := List.map_eq_singleton_iff.mp hq
    obtain ⟨it, htake, hit⟩ :=
      (BitIter.refines.demand Live.message).back (r := s.liveBits) hp
    have hz : refMut s.data p = .ok z := by
      rw [hpz]
      exact refMut_of_slot (hslots z (by simp))
    refine ⟨{ s with liveBits := it }, by simp [takeMut, htake, hz], ?_,
      fun y hy => hslots y (List.mem_append_left _ hy)⟩
    simp only []
    rw [hit, hps]

theorem Live.take_eq (e : End) (s : Live n T) :
    Live.take e s = Live.takeMut e s >>= fun out => .ok (out.1.value, out.2) := by
  unfold take takeMut
  cases BitIter.iterator.demand Live.message e s.liveBits with
  | error p => rfl
  | ok p =>
      simp only [ok_bind, refMut, Block.get]
      cases s.data.slot p.1 <;> rfl

/-- The stream of the values of the places. -/
def Live.Values (s : Live n T) (vs : List T) : Prop :=
  ∃ zs, s.Left zs ∧ vs = zs.map Place.value

theorem Live.supplies : Supplies (Live.take (n := n) (T := T)) Live.Values :=
  suppliesMut.map Place.value take_eq

/-- The custom folds visit what the calls would yield. -/
theorem PresentIter.foldFrom_eq {s : BitIter A.LEN × Live A.LEN T}
    {zs : List (A.Index × T)}
    (hs : Attached BitIter.Left
      (fun r zs => Live.Values r (zs.map Prod.snd)) Prod.fst s zs)
    {β : Type} (e : End) (f : β → A.Index × T → Checked β) (b : β) :
    PresentIter.foldFrom e f b s = DoubleEnded.foldFrom PresentIter e f b s := by
  rw [(ofPresent_refines Live.supplies).foldFrom hs]
  unfold PresentIter.foldFrom
  rw [BitIter.refines.foldFrom hs.1]
  exact Live.supplies.foldlM_paired hs.2 e f b

/-- The block of an owning iterator, if it has one, has `blockCap` slots and
holds the values `vs` in the remaining ones, and nothing else. -/
def Owned.Left (blockCap : Option ℕ) (s : Owned n T) (vs : List T) : Prop :=
  s.ptr.map (fun _ => s.cap) = blockCap ∧
    s.remainingLive = s.liveBits.remaining ∧
    match s.ptr with
    | none => Bitmap.bits s.remainingLive = [] ∧ vs = []
    | some b => b.cap = s.cap ∧
        (Bitmap.bits s.remainingLive).map (fun p : Fin n => b.slot p.val) =
          vs.map some ∧
        ∀ q : ℕ, (∀ p ∈ s.remainingLive, p.val ≠ q) → b.slot q = none

/-- Moving the element out of slot `p`. -/
theorem Owned.take_of_slot {e : End} {it it' : BitIter n} {b : Block T}
    {cap : ℕ} {p : Fin n} {v : T} {vs : List T}
    (hdemand : BitIter.iterator.demand
      (fun _ => "occupancy and live have equal popcount") e it = .ok (p, it'))
    (hbits : Bitmap.bits (Bitmap.withoutBit it.remaining p) =
      Bitmap.bits it'.remaining)
    (hp : p ∈ it.remaining) (hv : b.slot p = some v) (hcap : b.cap = cap)
    (hslots : (Bitmap.bits it'.remaining).map (fun q : Fin n => b.slot q.val) =
      vs.map some)
    (hfree : ∀ q : ℕ, (∀ p ∈ it.remaining, p.val ≠ q) → b.slot q = none) :
    ∃ s', Owned.take e ⟨some b, it, it.remaining, cap⟩ = .ok (v, s') ∧
      s'.Left (some cap) vs := by
  have hit : Bitmap.withoutBit it.remaining p = it'.remaining := by
    rw [← Bitmap.toFinset_bits (Bitmap.withoutBit it.remaining p), hbits,
      Bitmap.toFinset_bits]
  refine ⟨⟨some { b with slot := Function.update b.slot p none }, it',
    Bitmap.withoutBit it.remaining p, cap⟩,
    by simp [take, hdemand, Block.read_of_slot hv], rfl, hit, hcap, ?_, ?_⟩
  · rw [hbits, ← hslots]
    refine List.map_congr_left fun q hq => ?_
    have hne : q ≠ p := by
      rintro rfl
      rw [← hbits] at hq
      simp at hq
    exact Function.update_of_ne (fun h => hne (Fin.ext h)) _ _
  · intro q hq
    by_cases hqp : q = p
    · subst hqp
      exact Function.update_self _ _ _
    · simp only [Function.update_of_ne hqp]
      refine hfree q fun r hr hrq => ?_
      refine hq r ?_ hrq
      rw [Bitmap.mem_withoutBit]
      refine ⟨?_, hr⟩
      rintro rfl
      exact hqp hrq.symm

theorem Owned.supplies (blockCap : Option ℕ) :
    Supplies (Owned.take (n := n) (T := T)) (Owned.Left blockCap) where
  front := by
    rintro ⟨ptr, it, remaining, cap⟩ v vs ⟨rfl, hrem, hptr⟩
    cases ptr with
    | none => exact absurd hptr.2 (by simp)
    | some b =>
        simp only [] at hrem hptr
        subst hrem
        obtain ⟨hcap, hslots, hfree⟩ := hptr
        obtain ⟨p, ps, hbits, hv, hps⟩ := List.map_eq_cons_iff.mp hslots
        obtain ⟨it', hdemand, hit'⟩ := (BitIter.refines.demand
          fun _ => "occupancy and live have equal popcount").front
            (r := it) hbits
        have hbits' := (Bitmap.bits_eq_cons hbits).trans hit'.symm
        have hp : p ∈ it.remaining := by
          rw [← Bitmap.mem_bits, hbits]
          exact List.mem_cons_self
        exact take_of_slot hdemand hbits' hp hv hcap (by rwa [hit']) hfree
  back := by
    rintro ⟨ptr, it, remaining, cap⟩ vs v ⟨rfl, hrem, hptr⟩
    cases ptr with
    | none => exact absurd hptr.2 (by simp)
    | some b =>
        simp only [] at hrem hptr
        subst hrem
        obtain ⟨hcap, hslots, hfree⟩ := hptr
        rw [List.map_append, List.map_singleton] at hslots
        obtain ⟨ps, qs, hbits, hps, hqs⟩ := List.map_eq_append_iff.mp hslots
        obtain ⟨p, rfl, hv⟩ := List.map_eq_singleton_iff.mp hqs
        obtain ⟨it', hdemand, hit'⟩ := (BitIter.refines.demand
          fun _ => "occupancy and live have equal popcount").back
            (r := it) hbits
        have hbits' := (Bitmap.bits_eq_concat hbits).trans hit'.symm
        have hp : p ∈ it.remaining := by
          rw [← Bitmap.mem_bits, hbits]
          exact List.mem_append_right ps List.mem_cons_self
        exact take_of_slot hdemand hbits' hp hv hcap (by rwa [hit']) hfree

theorem supplies_presentElem {α γ : Type} {take : End → γ → Checked (α × γ)}
    {S : γ → List α → Prop} (h : Supplies take S) :
    Supplies (presentElem (n := n) take) fun s vs =>
      ∃ zs, Attached BitIter.Left (fun r zs => S r (zs.map Prod.snd)) Prod.fst
        s zs ∧ vs = zs.map Prod.snd :=
  ((ofPresent_refines h).demand fun _ =>
    "a set occupancy bit has a matching present element").map Prod.snd
      fun _ _ => rfl

/-! ## Under any calls -/

section Start

variable {g : GappedArray T A} {m : ChildMap A.LEN T}

theorem Laid.live_left {inner : Inner T A} {pos : A.Index → ℕ}
    (hinner : g.inner = some inner) (h : Laid inner m pos) :
    Live.Left ⟨⟨g.live⟩, g.data⟩ (places m pos).values := by
  rw [GappedArray.live, GappedArray.data, hinner]
  refine ⟨?_, fun z hz => h.placed.slot_of_place hz⟩
  rw [map_slot_places]
  exact h.slots_live

/-- Where the elements are, in any state. -/
theorem Holds.exists_pos (h : g.Holds m) :
    ∃ pos, (∀ i ∈ m.present, g.data.slot (pos i) = m.get i) ∧
      (∀ i ∈ m.present, ∀ j ∈ m.present, i < j → pos i < pos j) ∧
      Live.Left ⟨⟨g.live⟩, g.data⟩ (places m pos).values := by
  cases hinner : g.inner with
  | none =>
      obtain rfl := h.of_none hinner
      refine ⟨fun _ => 0, by simp, by simp, ?_⟩
      simp [Live.Left, live, hinner]
  | some inner =>
      obtain ⟨pos, hlaid⟩ := h.of_some hinner
      have hdata : g.data = inner.data := by rw [data, hinner]
      rw [hdata]
      exact ⟨pos, hlaid.placed.value, hlaid.placed.mono,
        hdata ▸ hlaid.live_left hinner⟩

theorem Holds.live_values (h : g.Holds m) :
    Live.Values ⟨⟨g.live⟩, g.data⟩ m.values := by
  obtain ⟨pos, -, -, hleft⟩ := h.exists_pos
  exact ⟨_, hleft, (map_value_places m pos).symm⟩

theorem Holds.iterPresent (h : g.Holds m) :
    PresentIter.ActsAs (fun s => s.1.len)
      (fun _ => PresentIter.foldFrom) g.iterPresent m.iterPresent := by
  unfold GappedArray.iterPresent
  rw [h.bitmap_eq]
  refine (ofPresent_refines Live.supplies).actsAs ?_
    (fun hs _ e f b => PresentIter.foldFrom_eq hs e f b)
    (ofPresent_start h.live_values)
  rintro s zs ⟨hs, -⟩
  rw [BitIter.len_of_left hs, List.length_map]

theorem Holds.collect_iterPresent (h : g.Holds m) :
    PresentIter.collect g.iterPresent = .ok m.iterPresent := by
  unfold GappedArray.iterPresent
  rw [h.bitmap_eq]
  exact (ofPresent_refines Live.supplies).collect (ofPresent_start h.live_values)

theorem Holds.iter (h : g.Holds m) :
    Iter.ActsAs (fun s => s.1.len) (fun _ => Iter.foldFrom) g.iter
      m.entries := by
  unfold GappedArray.iter GappedArray.iterPresent
  rw [h.bitmap_eq]
  exact ofSlots_actsAs (supplies_presentElem Live.supplies)
    ⟨_, ofPresent_start h.live_values, rfl⟩

theorem Holds.iterPresentMut (h : g.Holds m) {pos : A.Index → ℕ}
    (hleft : Live.Left ⟨⟨g.live⟩, g.data⟩ (places m pos).values) :
    PresentIterMut.ActsAs (fun s => s.1.len)
      (fun _ => PresentIterMut.foldFrom) g.iterPresent
      (places m pos).iterPresent := by
  have hacts := ofPresent_actsAs Live.suppliesMut hleft
  unfold GappedArray.iterPresent
  rwa [h.bitmap_eq, ← m.present_map fun i v => (⟨pos i, v⟩ : Place T)]

theorem Holds.iterMut (h : g.Holds m) {pos : A.Index → ℕ}
    (hleft : Live.Left ⟨⟨g.live⟩, g.data⟩ (places m pos).values) :
    IterMut.ActsAs (fun s => s.1.len) (fun _ => IterMut.foldFrom) g.iter
      (places m pos).entries := by
  have hacts := ofSlots_actsAs (supplies_presentElem Live.suppliesMut)
    ⟨_, ofPresent_start hleft, rfl⟩
  unfold GappedArray.iter GappedArray.iterPresent
  rwa [h.bitmap_eq, ← m.present_map fun i v => (⟨pos i, v⟩ : Place T)]

/-- The number of slots of the block, if there is one. -/
def blockCap (g : GappedArray T A) : Option ℕ := g.inner.map Inner.capacity

/-- The iterator takes over the block. -/
theorem Holds.owned_left (h : g.Holds m) :
    g.intoIter.1 = ⟨m.present⟩ ∧
      g.intoIter.2.Left g.blockCap m.values := by
  unfold intoIter blockCap
  cases hinner : g.inner with
  | none =>
      obtain rfl := h.of_none hinner
      simp [Owned.Left, Bitmap.ZERO, Bitmap.bits]
  | some inner =>
      obtain ⟨pos, hlaid⟩ := h.of_some hinner
      have hslots := hlaid.placed.map_slot
      rw [← hlaid.slots_live, slots, List.map_map] at hslots
      refine ⟨congrArg BitIter.mk hlaid.occupancy, rfl, rfl, hlaid.cap, hslots,
        ?_⟩
      intro q hq
      rw [← Option.not_isSome_iff_eq_none, ← hlaid.exists_live]
      rintro ⟨p, hp, hpq⟩
      exact hq p hp hpq

theorem Holds.intoIter (h : g.Holds m) :
    IntoIter.ActsAs (fun s => s.1.len) (fun _ => IntoIter.foldFrom) g.intoIter
      m.iterPresent := by
  have hacts := ofPresent_actsAs (Owned.supplies g.blockCap)
    h.owned_left.2
  rwa [← h.owned_left.1] at hacts

theorem Holds.collect_intoIter (h : g.Holds m) :
    IntoIter.collect g.intoIter = .ok m.iterPresent := by
  have hstart := ofPresent_start h.owned_left.2
  rw [← h.owned_left.1] at hstart
  exact (ofPresent_refines (Owned.supplies g.blockCap)).collect hstart

end Start

end ArityArrays.GappedArray
