import ArityArrays.Arrays.Invariants

/-!
# Releasing the elements

The destructors of the arrays and of their owning iterators, and what is left
of a clone that panics or of a clear.  Every element is released exactly once,
whichever destructor panics.
-/

namespace ArityArrays

open ArityTries Checked DoubleEnded

/-! ## Definitions -/

namespace PackedArray

variable {T : Type} {A : Arity}

def drop (d : Destructor T) (a : PackedArray T A) :
    Checked (List (Event T) × Exit) :=
  match a.inner with
  | none => .ok ([], .returns)
  | some inner =>
      let count := Bitmap.countOnes inner.bitmap
      releaseWith (some inner.data) (Block.dropSlice d 0 count) count

/-- The ranks from `front` up to `back` are still there. -/
def Owned.drop (d : Destructor T) (s : Owned T) :
    Checked (List (Event T) × Exit) :=
  match s.ptr with
  | none => .ok ([], .returns)
  | some ptr => do
      let remaining ← usizeSub s.back s.front
      releaseWith (some ptr) (Block.dropSlice d s.front remaining) s.count

end PackedArray

namespace GappedArray

variable {T : Type} {A : Arity}

def drop (d : Destructor T) (g : GappedArray T A) :
    Checked (List (Event T) × Exit) :=
  match g.inner with
  | none => .ok ([], .returns)
  | some inner =>
      releaseWith (some inner.data) (dropLiveElems d inner.live) inner.capacity

def Owned.drop {n : ℕ} (d : Destructor T) (s : Owned n T) :
    Checked (List (Event T) × Exit) :=
  releaseWith s.ptr (dropLiveElems d s.remainingLive) s.cap

end GappedArray

/-! ## Owning iterators -/

namespace PackedArray

variable {T : Type} {A : Arity} {a : PackedArray T A} {m : ChildMap A.LEN T}

/-- What an iterator has left is dropped with it. -/
theorem Owned.drop_spec (d : Destructor T) {blockCap : Option ℕ} {s : Owned T}
    {vs : List T} (h : s.Left blockCap vs) :
    ∃ out, s.drop d = .ok out ∧ Released d vs blockCap out := by
  obtain ⟨ptr, front, back, count⟩ := s
  obtain ⟨hblock, hback, hptr⟩ := h
  simp only at hblock hback hptr
  subst hblock
  cases ptr with
  | none =>
      simp only at hptr
      subst hptr
      exact ⟨_, rfl, fun _ => by simp, fun _ => by simp [Destructor.exit]⟩
  | some b =>
      obtain ⟨hcap, hslots, hfree⟩ := hptr
      have hsub : usizeSub back front = .ok vs.length := by
        rw [usizeSub_of_le (by omega)]
        exact congrArg Except.ok (by omega)
      have hdrops := dropEach_drops d List.nodup_range' hslots
      simp only [Owned.drop, hsub, ok_bind]
      refine releaseWith_some hdrops hcap fun p hp => hfree p ?_
      rw [List.mem_range'_1] at hp
      omega

theorem Holds.release (h : a.Holds m) (d : Destructor T) :
    ∃ out, a.drop d = .ok out ∧ Released d m.values a.blockCap out := by
  cases hinner : a.inner with
  | none =>
      obtain rfl := h.of_none hinner
      rw [drop, blockCap, hinner, ChildMap.values_empty]
      exact ⟨_, rfl, fun _ => by simp, fun _ => by simp [Destructor.exit]⟩
  | some inner =>
      obtain ⟨-, hbitmap, hdense⟩ := h.of_some hinner
      have hcount : Bitmap.countOnes inner.bitmap = m.values.length := by
        rw [hbitmap, ChildMap.countOnes_present, ChildMap.length_values]
      rw [drop, blockCap, hinner]
      simp only [hcount, Option.map_some]
      refine releaseWith_some
        (dropEach_drops d List.nodup_range' hdense.map_slot) ?_ fun p hp => ?_
      · rw [hdense.cap, ChildMap.length_values]
      · refine hdense.slot_eq_none ?_
        rw [List.mem_range'_1, ChildMap.length_values] at hp
        omega

end PackedArray

namespace GappedArray

variable {T : Type} {A : Arity} {g : GappedArray T A} {m : ChildMap A.LEN T}

theorem dropLiveElems_drops {n : ℕ} (d : Destructor T) (remaining : Bitmap n)
    {b : Block T} {vs : List T}
    (h : ((Bitmap.bits remaining).map Fin.val).map b.slot = vs.map some) :
    Drops d (dropLiveElems d remaining) b
      ((Bitmap.bits remaining).map Fin.val) vs where
  total := by
    obtain ⟨out, hdrop, -, hall, -⟩ := dropLiveElems_total d remaining h
    exact ⟨out, hdrop, hall⟩
  exit := dropLiveElems_spec d remaining h

/-- What an iterator has left is dropped with it. -/
theorem Owned.drop_spec {n : ℕ} (d : Destructor T) {blockCap : Option ℕ}
    {s : Owned n T} {vs : List T} (h : s.Left blockCap vs) :
    ∃ out, s.drop d = .ok out ∧ Released d vs blockCap out := by
  obtain ⟨ptr, liveBits, remainingLive, cap⟩ := s
  obtain ⟨hblock, hremaining, hptr⟩ := h
  simp only at hblock hptr
  subst hblock
  cases ptr with
  | none =>
      rw [hptr.2]
      exact releaseWith_none d _ _
  | some b =>
      obtain ⟨hcap, hslots, hfree⟩ := hptr
      refine releaseWith_some (dropLiveElems_drops d remainingLive ?_) hcap
        fun p hp => hfree p fun q hq hqp => hp ?_
      · rwa [List.map_map]
      · exact List.mem_map.mpr ⟨q, Bitmap.mem_bits.mpr hq, hqp⟩

theorem Holds.release (h : g.Holds m) (d : Destructor T) :
    ∃ out, g.drop d = .ok out ∧ Released d m.values g.blockCap out := by
  cases hinner : g.inner with
  | none =>
      obtain rfl := h.of_none hinner
      rw [drop, blockCap, hinner, ChildMap.values_empty]
      exact ⟨_, rfl, fun _ => by simp, fun _ => by simp [Destructor.exit]⟩
  | some inner =>
      obtain ⟨pos, hlaid⟩ := h.of_some hinner
      rw [drop, blockCap, hinner]
      refine releaseWith_some (dropLiveElems_drops d inner.live hlaid.map_slot)
        hlaid.cap fun p hp => ?_
      have hp' : p ∉ slots inner.live := hp
      have hvacated := hlaid.vacate.slot_eq_none p
      rwa [Block.slot_vacate, if_neg hp'] at hvacated

end GappedArray

/-! ## Nothing is leaked or dropped twice -/

section Once

variable {T : Type} {A : Arity} {m : ChildMap A.LEN T}

/-- Whatever calls an owning iterator has answered, dropping it destroys the
entries it has not yielded, each of them once. -/
def ReleasesRest {σ α : Type} (it : DoubleEnded σ (α × T))
    (drop : σ → Checked (List (Event T) × Exit)) (d : Destructor T)
    (blockCap : Option ℕ) (start : σ) (entries : List (α × T)) : Prop :=
  ∀ es, ∃ yielded s rest out, it.pulls es start = .ok (yielded, s) ∧
    (yielded.filterMap id ++ rest).Perm entries ∧ drop s = .ok out ∧
    Released d (rest.map Prod.snd) blockCap out

/-- An iterator that acts as a deque releases what it has left. -/
theorem ReleasesRest.of_refines {σ α : Type} {it : DoubleEnded σ (α × T)}
    {R : σ → List (α × T) → Prop} (h : it.Refines R)
    {drop : σ → Checked (List (Event T) × Exit)} {d : Destructor T}
    {blockCap : Option ℕ}
    (hdrop : ∀ {s zs}, R s zs → ∃ out, drop s = .ok out ∧
      Released d (zs.map Prod.snd) blockCap out)
    {start : σ} {entries : List (α × T)} (hstart : R start entries) :
    ReleasesRest it drop d blockCap start entries := by
  intro es
  obtain ⟨s, hpulls, hleft⟩ := h.pulls hstart es
  obtain ⟨out, hs, hout⟩ := hdrop hleft
  exact ⟨_, s, _, out, hpulls, Deque.pulls_perm es entries, hs, hout⟩

/-- What becomes of the elements of a packed array. -/
structure PackedArray.ReleasesOnce (d : Destructor T) (a : PackedArray T A)
    (m : ChildMap A.LEN T) : Prop where
  drop : ∃ out, a.drop d = .ok out ∧ Released d m.values a.blockCap out
  intoIter : ReleasesRest PackedArray.IntoIter (fun s => s.2.drop d) d
    a.blockCap a.intoIter m.iterPresent
  clone : ∀ cloner, (Cloner.clones cloner 0 m.values).2 = false →
    ∃ out, a.clone d cloner = .ok out ∧
      Abandons d m.count (Cloner.clones cloner 0 m.values).1 out

/-- What becomes of the elements of a gapped array. -/
structure GappedArray.ReleasesOnce (d : Destructor T) (g : GappedArray T A)
    (m : ChildMap A.LEN T) : Prop where
  drop : ∃ out, g.drop d = .ok out ∧ Released d m.values g.blockCap out
  intoIter : ReleasesRest GappedArray.IntoIter (fun s => s.2.drop d) d
    g.blockCap g.intoIter m.iterPresent
  clone : ∀ cloner, (Cloner.clones cloner 0 m.values).2 = false →
    ∃ out, g.clone d cloner = .ok out ∧
      Abandons d g.capacity (Cloner.clones cloner 0 m.values).1 out
  clear : d.AtMostOne m.values →
    ∃ g', g.clear d = .ok ⟨g', d.drops m.values, d.exit m.values⟩ ∧
      (∀ inner, g'.inner = some inner → Valid inner ChildMap.empty) ∧
      KeepsBlock g g'

theorem PackedArray.Holds.releasesOnce {a : PackedArray T A} (h : a.Holds m)
    (d : Destructor T) : a.ReleasesOnce d m where
  drop := h.release d
  intoIter := by
    have hstart := ofPresent_start h.owned_left.2
    rw [← h.owned_left.1] at hstart
    exact .of_refines (ofPresent_refines (Owned.supplies a.blockCap))
      (fun hleft => Owned.drop_spec d hleft.2) hstart
  clone cloner hpanics := by
    obtain ⟨out, hclone, hout⟩ := clone_spec h d cloner
    exact ⟨out, hclone, hout.panicked hpanics⟩

theorem GappedArray.Holds.releasesOnce {g : GappedArray T A} (h : g.Holds m)
    (d : Destructor T) : g.ReleasesOnce d m where
  drop := h.release d
  intoIter := by
    have hstart := ofPresent_start h.owned_left.2
    rw [← h.owned_left.1] at hstart
    exact .of_refines (ofPresent_refines (Owned.supplies g.blockCap))
      (fun hleft => Owned.drop_spec d hleft.2) hstart
  clone cloner hpanics := by
    obtain ⟨out, hclone, hout⟩ := clone_spec h d cloner
    exact ⟨out, hclone, hout.panicked hpanics⟩
  clear hone := by
    obtain ⟨g', hclear, hg', hkeeps⟩ := clear_spec h d hone
    refine ⟨g', hclear, fun inner hinner => ?_, hkeeps⟩
    obtain ⟨pos, hlaid⟩ := hg'.of_some hinner
    exact hlaid.valid

/-- A block whose live slots are the initialised ones, with the values `vs`. -/
structure GappedArray.LiveBlock (inner : GappedArray.Inner T A) (vs : List T) :
    Prop where
  block : inner.data.cap = inner.capacity
  initialised : ∀ p, (inner.data.slot p).isSome ↔
    p ∈ GappedArray.slots inner.live
  values : (GappedArray.slots inner.live).map inner.data.slot = vs.map some

theorem GappedArray.LiveBlock.drop {inner : GappedArray.Inner T A} {vs : List T}
    (h : GappedArray.LiveBlock inner vs) (d : Destructor T)
    (hone : d.AtMostOne vs) :
    GappedArray.drop d ⟨some inner⟩ =
      .ok (d.drops vs ++ [.freed inner.capacity], d.exit vs) := by
  have hempty : ∀ p, p ∉ GappedArray.slots inner.live →
      inner.data.slot p = none := fun p hp =>
    Option.not_isSome_iff_eq_none.mp fun hsome => hp ((h.initialised p).mp hsome)
  obtain ⟨⟨events, exit⟩, hdrop, hout⟩ := releaseWith_some
    (GappedArray.dropLiveElems_drops d inner.live h.values) h.block hempty
  have hexit : exit = d.exit vs := hout.exit hone
  have hevents : events = d.drops vs ++ [.freed inner.capacity] := by
    refine hout.events ?_
    simp only [hexit, Destructor.exit]
    split <;> simp
  simp only [GappedArray.drop, hdrop, hexit, hevents]

/-- Every element is released exactly once.  Dropping the live slots, with at
most one panicking destructor, runs each destructor once, in slot order, and
the block is freed once after that.  An array a program has reached, or an
iterator over what it owned, releases what it still holds; a clone that panics
releases the clones made so far and has only read its source; a clear releases
the elements and leaves a valid empty array with the same block. -/
theorem elements_released_once (d : Destructor T) {s : Vars T A}
    (hs : s.Reached) :
    (∀ (inner : GappedArray.Inner T A) (vs : List T),
      GappedArray.LiveBlock inner vs → d.AtMostOne vs →
        GappedArray.dropLiveElems d inner.live inner.data =
          .ok ⟨inner.data.vacate (GappedArray.slots inner.live), d.drops vs,
            d.exit vs⟩ ∧
        GappedArray.drop d ⟨some inner⟩ =
          .ok (d.drops vs ++ [.freed inner.capacity], d.exit vs)) ∧
    (∃ m, s.Reads m ∧ s.packed.ReleasesOnce d m.1 ∧
      s.gapped.ReleasesOnce d m.2) ∧
    ∀ (src : FixedArray (Option T) A) (cloner : Cloner T),
      (cloner.clones 0 src.contents.values).2 = false →
        (∃ out, PackedArray.fromFixedRef d cloner src = .ok out ∧
          Abandons d src.contents.count
            (cloner.clones 0 src.contents.values).1 out) ∧
        ∃ out cap, GappedArray.fromFixedRef d cloner src = .ok out ∧
          Abandons d cap (cloner.clones 0 src.contents.values).1 out := by
  obtain ⟨m, hm⟩ := hs.hold
  refine ⟨fun inner vs hlive hone => ⟨?_, hlive.drop d hone⟩,
    ⟨m, hm.reads, hm.1.releasesOnce d, hm.2.releasesOnce d⟩,
    fun src cloner hpanics => ⟨?_, ?_⟩⟩
  · exact GappedArray.dropLiveElems_spec d inner.live hlive.values hone
  · obtain ⟨out, hfrom, hout⟩ := PackedArray.fromFixedRef_spec d cloner src
    exact ⟨out, hfrom, hout.panicked hpanics⟩
  · obtain ⟨out, cap, hfrom, -, hout⟩ :=
      GappedArray.fromFixedRef_spec d cloner src
    exact ⟨out, cap, hfrom, hout.panicked hpanics⟩

/-- Two live slots with a gap between them, the first with a value whose
destructor panics. -/
theorem elements_released_once_gap :
    GappedArray.drop (A := .arity8) ⟨true, fun v => v == 5⟩
      ⟨some ⟨{1, 4}, {0, 2}, 2, ⟨4, fun p =>
        if p = 0 then some 5 else if p = 2 then some 6 else none⟩, 0⟩⟩ =
      .ok ([.dropped 5, .dropped 6, .freed 4], .unwinds) := by
  obtain ⟨s, hs, -⟩ := Vars.reached_of_calls
    ([.gapped (.extend [(3, 7)])] : List (Call ℕ .arity8))
  refine ((elements_released_once ⟨true, fun v => v == 5⟩ hs).1 _ [5, 6]
    ⟨rfl, fun p => ?_, by decide⟩
    (by simp [Destructor.AtMostOne, Destructor.fails])).2
  have hslots : GappedArray.slots (A := .arity8) {0, 2} = [0, 2] := by decide
  rw [hslots]
  by_cases h0 : p = 0
  · simp [h0]
  · by_cases h2 : p = 2 <;> simp [h0, h2]

end Once

end ArityArrays
