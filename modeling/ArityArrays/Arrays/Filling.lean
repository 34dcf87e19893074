import ArityArrays.Arrays.Fixed
import ArityArrays.Arrays.Iteration
import ArityArrays.Support.Unwind

/-!
# Filling a block from a fixed array

Every bulk construction stages its entries in a fixed array.  One pass over it
finds the present indices, a second one moves or clones the values into a block
at the slots of their ranks.  Taking a block apart moves them back.
-/

namespace ArityArrays

open ArityTries Checked

namespace FixedArray

variable {T : Type} {A : Arity}

/-- Assign every value to its index, in the order of arrival. -/
def stage (entries : List (A.Index × T)) : FixedArray (Option T) A :=
  entries.foldl (fun staged entry => staged.assign entry.1 (some entry.2)) new

/-- The first pass of a conversion: the present indices. -/
def occupancy (src : FixedArray (Option T) A) : Checked (Bitmap A.LEN) :=
  pairs.fold (fun bitmap (entry : A.Index × Option T) =>
    .ok (if entry.2.isSome then Bitmap.withBit bitmap entry.1 else bitmap))
    Bitmap.ZERO src.intoIter

/-- Move the value of an entry, if it has one, into the slot of the running
rank. -/
def moveEntry (slotAt : ℕ → Checked ℕ) (s : Block T × ℕ)
    (entry : A.Index × Option T) : Checked (Block T × ℕ) :=
  match entry.2 with
  | none => .ok s
  | some v => do
      let p ← slotAt s.2
      let dst ← s.1.write p v
      return (dst, s.2 + 1)

/-- The second pass of a conversion by value. -/
def moveInto (slotAt : ℕ → Checked ℕ) (src : FixedArray (Option T) A)
    (dst : Block T) : Checked (Block T × ℕ) :=
  pairs.fold (moveEntry slotAt) (dst, 0) src.intoIter

/-- Take a block apart: move the value in each slot to its index. -/
def moveOut (slots : List (A.Index × ℕ)) (src : Block T) :
    Checked (Block T × FixedArray (Option T) A) :=
  slots.foldlM (fun s index => do
    let out ← s.1.read index.2
    return (out.2, s.2.assign index.1 (some out.1))) (src, new)

/-- Clone every entry into its place. -/
def cloneEntries (f : T → T) (entries : List (A.Index × T)) :
    FixedArray (Option T) A :=
  stage (entries.map fun entry => (entry.1, f entry.2))

theorem contents_stage (entries : List (A.Index × T)) :
    (stage entries).contents = ChildMap.ofEntries entries := by
  have hfold : ∀ (a : FixedArray (Option T) A) (entries : List (A.Index × T)),
      (entries.foldl (fun staged entry =>
        staged.assign entry.1 (some entry.2)) a).contents =
        entries.foldl (fun m entry => m.set entry.1 entry.2) a.contents := by
    intro a entries
    induction entries generalizing a with
    | nil => rfl
    | cons entry entries ih => exact ih (a.assign entry.1 (some entry.2))
  exact hfold new entries

theorem contents_cloneEntries (f : T → T) (m : ChildMap A.LEN T) :
    (cloneEntries f m.iterPresent).contents = m.map fun _ => f := by
  rw [cloneEntries, contents_stage, ← m.iterPresent_map fun _ => f,
    ChildMap.ofEntries_iterPresent]

theorem occupancy_eq (src : FixedArray (Option T) A) :
    src.occupancy = .ok src.contents.present := by
  unfold occupancy
  rw [pairs_refines.fold src.zipped_intoIter, DoubleEnded.foldlM_ok]
  congr 1
  rw [ChildMap.present, ChildMap.iterPresent, List.foldl_filterMap,
    List.foldl_map]
  congr 1
  funext bits i
  cases h : src.slots i <;> simp [ChildMap.get, contents, h]

theorem foldlM_moveEntry {slotAt : ℕ → Checked ℕ} {slot : ℕ → ℕ}
    (entries : List (A.Index × Option T)) (r : ℕ) (dst : Block T)
    (hslot : ∀ k < (entries.filterMap Prod.snd).length,
      slotAt (r + k) = .ok (slot (r + k))) :
    entries.foldlM (moveEntry slotAt) (dst, r) =
      Block.writeAll (((entries.filterMap Prod.snd).zipIdx r).map fun v =>
        (slot v.2, v.1)) dst >>= fun dst' =>
          .ok (dst', r + (entries.filterMap Prod.snd).length) := by
  induction entries generalizing r dst with
  | nil => rfl
  | cons entry entries ih =>
      obtain ⟨i, o⟩ := entry
      rw [List.foldlM_cons]
      cases o with
      | none => exact ih r dst hslot
      | some v =>
          have hhead := hslot 0 (by simp)
          rw [Nat.add_zero] at hhead
          have hrest := fun dst => ih (r + 1) dst fun k hk => by
            have := hslot (k + 1) (by simpa using hk)
            rwa [Nat.add_right_comm r 1 k]
          simp only [moveEntry, hhead, ok_bind, pure_eq_ok,
            List.filterMap_cons, List.zipIdx_cons, List.map_cons,
            Block.writeAll_cons, List.length_cons]
          cases dst.write (slot r) v with
          | error p => rfl
          | ok dst' =>
              rw [ok_bind, ok_bind, ok_bind, hrest, Nat.add_right_comm r 1]
              rfl

/-- The second pass writes the values in order. -/
theorem moveInto_eq {slotAt : ℕ → Checked ℕ} {slot : ℕ → ℕ}
    (src : FixedArray (Option T) A)
    (hslot : ∀ r < src.contents.count, slotAt r = .ok (slot r))
    (dst : Block T) :
    moveInto slotAt src dst =
      Block.writeAll (src.contents.values.zipIdx.map fun v =>
        (slot v.2, v.1)) dst >>= fun dst' =>
          .ok (dst', src.contents.count) := by
  unfold moveInto
  rw [pairs_refines.fold src.zipped_intoIter]
  have hranks : ∀ k < (src.contents.entries.filterMap Prod.snd).length,
      slotAt (0 + k) = .ok (slot (0 + k)) := by
    rw [ChildMap.filterMap_snd_entries, ChildMap.length_values]
    intro k hk
    rw [Nat.zero_add]
    exact hslot k hk
  have hall := foldlM_moveEntry src.contents.entries 0 dst hranks
  rw [ChildMap.filterMap_snd_entries, ChildMap.length_values, Nat.zero_add]
    at hall
  exact hall

theorem moveInto_spec {slotAt : ℕ → Checked ℕ} (slot : ℕ → ℕ) {cap : ℕ}
    (src : FixedArray (Option T) A)
    (hslot : ∀ r < src.contents.count, slotAt r = .ok (slot r))
    (hfits : Block.Fits cap slot src.contents.count) :
    ∃ b, moveInto slotAt src (Block.alloc cap) = .ok (b, src.contents.count) ∧
      Block.Filled b cap slot src.contents.values := by
  rw [← ChildMap.length_values] at hfits
  obtain ⟨b, hb, hfilled⟩ := Block.fill_spec src.contents.values hfits
  exact ⟨b, by rw [src.moveInto_eq hslot, hb, ok_bind], hfilled⟩

end FixedArray

/-- A block filled with the values of a map at the slots of their ranks holds
the map. -/
theorem placed_of_filled {n : ℕ} {T : Type} {m : ChildMap n T} {b : Block T}
    {cap : ℕ} {slot : ℕ → ℕ} {pos : Fin n → ℕ}
    (h : Block.Filled b cap slot m.values)
    (hmono : ∀ i ∈ m.present, ∀ j ∈ m.present, i < j → pos i < pos j)
    (hcap : ∀ i ∈ m.present, pos i < cap)
    (hslot : ∀ i ∈ m.present, slot (Bitmap.rank m.present i) = pos i) :
    Placed m b pos := by
  have hpos : (List.range m.values.length).map slot =
      (Bitmap.bits m.present).map pos := by
    rw [ChildMap.length_values, ← ChildMap.countOnes_present,
      ← Bitmap.map_rank_bits, List.map_map]
    exact List.map_congr_left fun i hi => hslot i (Bitmap.mem_bits.mp hi)
  refine Placed.of_slots hmono ?_ ?_ ?_
  · rwa [h.cap]
  · rw [← hpos]
    exact h.slots
  · rw [← hpos]
    exact h.free

section MoveOut

variable {T : Type} {A : Arity} {m : ChildMap A.LEN T} {b : Block T}
variable {pos : A.Index → ℕ}

private theorem moveOut_from (js : List A.Index) {is : List A.Index}
    {out : FixedArray (Option T) A} (hbits : Bitmap.bits m.present = js ++ is)
    (hb : Placed (m.only is) b pos) (hout : out.contents = m.only js) :
    ∃ b' out', (is.map fun i => (i, pos i)).foldlM
        (fun (s : Block T × FixedArray (Option T) A) index => do
          let out ← s.1.read index.2
          return (out.2, s.2.assign index.1 (some out.1))) (b, out) =
        .ok (b', out') ∧ b'.cap = b.cap ∧
      Placed (ChildMap.empty : ChildMap A.LEN T) b' pos ∧ out'.contents = m := by
  induction is generalizing js b out with
  | nil =>
      refine ⟨b, out, rfl, rfl, ?_, ?_⟩
      · rwa [ChildMap.only_nil] at hb
      · rw [List.append_nil] at hbits
        rwa [← hbits, ChildMap.only_bits] at hout
  | cons i is ih =>
      have hnodup := Bitmap.bits_nodup m.present
      rw [hbits, List.nodup_append, List.nodup_cons] at hnodup
      have hi : i ∈ m.present := by
        rw [← Bitmap.mem_bits, hbits]
        simp
      obtain ⟨v, hv⟩ := ChildMap.mem_present.mp hi
      have hget : (m.only (i :: is)).get i = some v := by
        rw [ChildMap.get_only_of_mem (by simp), hv]
      have herase := hb.erase (ChildMap.mem_present.mpr ⟨v, hget⟩)
      rw [ChildMap.erase_only_cons hnodup.2.1.1] at herase
      have hnext : (out.assign i (some v)).contents = m.only (js ++ [i]) := by
        rw [FixedArray.contents_assign_some, hout, ChildMap.set_only hv]
      obtain ⟨b', out', hrest, hcap, hb', hout'⟩ :=
        ih (js ++ [i]) (by simpa using hbits) herase hnext
      refine ⟨b', out', ?_, hcap, hb', hout'⟩
      rw [List.map_cons, List.foldlM_cons, Block.read_of_slot
        (hb.slot_of_get hget)]
      exact hrest

/-- Every entry arrives at its index and the block is left without values. -/
theorem Placed.moveOut (h : Placed m b pos) :
    ∃ b' out, FixedArray.moveOut
        ((Bitmap.bits m.present).map fun i => (i, pos i)) b = .ok (b', out) ∧
      b'.cap = b.cap ∧
      Placed (ChildMap.empty : ChildMap A.LEN T) b' pos ∧ out.contents = m := by
  refine moveOut_from [] rfl ?_ ?_
  · rwa [ChildMap.only_bits]
  · rw [ChildMap.only_nil, FixedArray.contents_new]

end MoveOut

/-! ## Clones of a map -/

/-- What cloning the values of `m` into a block of `cap` slots comes to: an
array with the same indices and the clones, or, when a clone call panics, none
of the clones made before. -/
structure Clones {n : ℕ} {σ T : Type} (holds : σ → ChildMap n T → Prop)
    (d : Destructor T) (cloner : Cloner T) (cap : ℕ) (m : ChildMap n T)
    (out : Outcome (Option σ) T) : Prop where
  done : (cloner.clones 0 m.values).2 = true →
    ∃ a m', out = ⟨some a, [], .returns⟩ ∧ holds a m' ∧
      m'.present = m.present ∧ m'.values = (cloner.clones 0 m.values).1
  panicked : (cloner.clones 0 m.values).2 = false →
    Abandons d cap (cloner.clones 0 m.values).1 out

theorem Clones.mono {n : ℕ} {σ T : Type} {holds holds' : σ → ChildMap n T → Prop}
    {d : Destructor T} {cloner : Cloner T} {cap : ℕ} {m : ChildMap n T}
    {out : Outcome (Option σ) T} (h : Clones holds d cloner cap m out)
    (himp : ∀ a m, holds a m → holds' a m) :
    Clones holds' d cloner cap m out where
  done hdone := by
    obtain ⟨a, m', hout, ha, hm'⟩ := h.done hdone
    exact ⟨a, m', hout, himp a m' ha, hm'⟩
  panicked := h.panicked

/-- Cloning an empty map. -/
theorem Clones.of_empty {n : ℕ} {σ T : Type} {holds : σ → ChildMap n T → Prop}
    {a : σ} (d : Destructor T) (cloner : Cloner T) (cap : ℕ)
    (h : holds a ChildMap.empty) :
    Clones holds d cloner cap ChildMap.empty ⟨some a, [], .returns⟩ where
  done _ := ⟨a, ChildMap.empty, rfl, h, rfl, by simp [Cloner.clones]⟩
  panicked hpanic := by simp [Cloner.clones] at hpanic

/-- If no clone call panics, the clones are all there. -/
theorem Clones.total {n : ℕ} {σ T : Type} {holds : σ → ChildMap n T → Prop}
    {d : Destructor T} {f : T → T} {cap : ℕ} {m : ChildMap n T}
    {out : Outcome (Option σ) T}
    (h : Clones holds d (Cloner.total f) cap m out) :
    ∃ a, out = ⟨some a, [], .returns⟩ ∧ holds a (m.map fun _ => f) := by
  obtain ⟨a, m', hout, hholds, hpresent, hvalues⟩ := h.done (by simp)
  have hm' : m' = m.map fun _ => f := by
    refine ChildMap.ext_values (by rw [hpresent, ChildMap.present_map]) ?_
    rw [hvalues, Cloner.clones_total, ChildMap.values_map, ChildMap.values,
      List.map_map]
    rfl
  exact ⟨a, hout, hm' ▸ hholds⟩

end ArityArrays
