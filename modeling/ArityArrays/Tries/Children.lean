import Mathlib.Data.Fintype.Basic
import Mathlib.Data.Finset.Card
import Mathlib.Data.List.FinRange
import ArityArrays.Tries.Path

/-!
# The children map of a node

A `ChildMap` is the index-to-edge map the trie algorithms use, and a `Bitmap`
is the set of indices a walk still has to visit.  Both are given by what their
operations observe: a bitmap is the set of its bit positions and a map is the
edge, if any, at every index.
-/

namespace ArityTries

open Checked

/-! ## Bitmaps of indices -/

/-- A bitmap, as the set of its bit positions. -/
abbrev Bitmap (n : ℕ) := Finset (Fin n)

namespace Bitmap

variable {n : ℕ}

/-- The empty bitmap. -/
def ZERO : Bitmap n := ∅

def withBit (b : Bitmap n) (i : Fin n) : Bitmap n := insert i b

def withoutBit (b : Bitmap n) (i : Fin n) : Bitmap n := b.erase i

def test (b : Bitmap n) (i : Fin n) : Bool := decide (i ∈ b)

/-- The set positions, ascending. -/
def bits (b : Bitmap n) : List (Fin n) :=
  (List.finRange n).filter fun i => decide (i ∈ b)

/-- The `k`-th smallest set position. -/
def select (b : Bitmap n) (k : ℕ) : Option (Fin n) := (bits b)[k]?

@[simp] theorem mem_bits {b : Bitmap n} {i : Fin n} :
    i ∈ bits b ↔ i ∈ b := by
  simp [bits]

theorem bits_pairwise (b : Bitmap n) : (bits b).Pairwise (· < ·) :=
  (List.pairwise_lt_finRange n).filter _

theorem select_zero_eq_none {b : Bitmap n} :
    select b 0 = none ↔ b = ∅ := by
  simp only [select, List.getElem?_eq_none_iff, Nat.le_zero,
    List.length_eq_zero_iff, Finset.eq_empty_iff_forall_notMem]
  simp [List.eq_nil_iff_forall_not_mem]

theorem select_zero_eq_some {b : Bitmap n} {i : Fin n} :
    select b 0 = some i ↔ i ∈ b ∧ ∀ j ∈ b, i ≤ j := by
  have hsorted := bits_pairwise b
  have hmem : ∀ j, j ∈ bits b ↔ j ∈ b := fun j => mem_bits
  unfold select
  cases hb : bits b with
  | nil =>
      constructor
      · intro h
        simp at h
      · rintro ⟨hi, -⟩
        simp [hb] at hmem
        exact (hmem i hi).elim
  | cons x xs =>
      rw [hb] at hsorted hmem
      have hle : ∀ j ∈ b, x ≤ j := by
        intro j hj
        rcases List.mem_cons.mp ((hmem j).mpr hj) with rfl | hjx
        · exact le_rfl
        · exact ((List.pairwise_cons.mp hsorted).1 j hjx).le
      have hx : x ∈ b := (hmem x).mp (by simp)
      simp only [List.getElem?_cons_zero, Option.some.injEq]
      constructor
      · rintro rfl
        exact ⟨hx, hle⟩
      · rintro ⟨hi, hmin⟩
        exact le_antisymm (hle i hi) (hmin x hx)

/-- Taking the smallest position leaves the others in order. -/
theorem bits_of_select_zero {b : Bitmap n} {i : Fin n}
    (hi : select b 0 = some i) :
    bits b = i :: bits (withoutBit b i) := by
  have hnodup : (bits b).Nodup := (List.nodup_finRange n).filter _
  have herase : bits (withoutBit b i) =
      (bits b).filter fun j => decide (j ≠ i) := by
    simp only [bits, withoutBit, List.filter_filter, Finset.mem_erase,
      Bool.decide_and]
  unfold select at hi
  cases hb : bits b with
  | nil =>
      rw [hb] at hi
      simp at hi
  | cons j js =>
      rw [hb] at hi hnodup
      obtain rfl : j = i := by simpa using hi
      have hfresh := (List.nodup_cons.mp hnodup).1
      rw [herase, hb, List.filter_cons_of_neg (by simp),
        List.filter_eq_self.mpr]
      intro k hk
      have hne : k ≠ j := by
        rintro rfl
        exact hfresh hk
      simpa using hne

theorem mem_of_select_zero {b : Bitmap n} {i : Fin n}
    (hi : select b 0 = some i) : i ∈ b :=
  (select_zero_eq_some.mp hi).1

end Bitmap

/-! ## The map -/

/-- The index-to-edge map of a node. -/
@[ext] structure ChildMap (n : ℕ) (E : Type) where
  slot : Fin n → Option E

namespace ChildMap

variable {n : ℕ} {E : Type}

/-- The empty map. -/
def empty : ChildMap n E := ⟨fun _ => none⟩

/-- The edge at `i`, if present. -/
def get (c : ChildMap n E) (i : Fin n) : Option E := c.slot i

/-- Write through the edge at `i`: the effect of assigning to what `get_mut`
returns. -/
def set (c : ChildMap n E) (i : Fin n) (e : E) : ChildMap n E :=
  ⟨Function.update c.slot i (some e)⟩

/-- The map without the edge at `i`. -/
def erase (c : ChildMap n E) (i : Fin n) : ChildMap n E :=
  ⟨Function.update c.slot i none⟩

/-- Store `e` at `i`, returning the edge it displaced. -/
def insert (c : ChildMap n E) (i : Fin n) (e : E) :
    Option E × ChildMap n E :=
  (c.get i, c.set i e)

/-- Remove and return the edge at `i`. -/
def remove (c : ChildMap n E) (i : Fin n) : Option E × ChildMap n E :=
  (c.get i, c.erase i)

/-- The present edges, ascending by index. -/
def iterPresent (c : ChildMap n E) : List (Fin n × E) :=
  (List.finRange n).filterMap fun i => (c.get i).map fun e => (i, e)

/-- The number of present edges. -/
def count (c : ChildMap n E) : ℕ := c.iterPresent.length

/-- The set of present indices. -/
def present (c : ChildMap n E) : Bitmap n :=
  c.iterPresent.foldl (fun bits ie => Bitmap.withBit bits ie.1) Bitmap.ZERO

/-- If exactly one edge is present, remove and return it with its index. -/
def takeOnlyChild (c : ChildMap n E) :
    Option (Fin n × E) × ChildMap n E :=
  match c.iterPresent with
  | [ie] => (some ie, c.erase ie.1)
  | _ => (none, c)

/-! ### What the operations observe -/

@[simp] theorem get_empty (i : Fin n) : (empty : ChildMap n E).get i = none :=
  rfl

@[simp] theorem get_set_self (c : ChildMap n E) (i : Fin n) (e : E) :
    (c.set i e).get i = some e := by
  simp [get, set]

theorem get_set_of_ne (c : ChildMap n E) {i j : Fin n} (hij : j ≠ i) (e : E) :
    (c.set i e).get j = c.get j := by
  simp [get, set, hij]

theorem get_set (c : ChildMap n E) (i j : Fin n) (e : E) :
    (c.set i e).get j = if j = i then some e else c.get j := by
  by_cases hij : j = i
  · subst j
    simp
  · simp [hij, get_set_of_ne]

/-- What holds of every edge of a map and of the edge written to it holds of
every edge of the result. -/
theorem forall_get_set {P : E → Prop} {c : ChildMap n E} {i : Fin n} {e : E}
    (he : P e) (hc : ∀ j f, c.get j = some f → P f) :
    ∀ j f, (c.set i e).get j = some f → P f := by
  intro j f hf
  rw [get_set] at hf
  split at hf
  · cases hf
    exact he
  · exact hc j f hf

@[simp] theorem get_erase_self (c : ChildMap n E) (i : Fin n) :
    (c.erase i).get i = none := by
  simp [get, erase]

theorem get_erase_of_ne (c : ChildMap n E) {i j : Fin n} (hij : j ≠ i) :
    (c.erase i).get j = c.get j := by
  simp [get, erase, hij]

theorem get_erase (c : ChildMap n E) (i j : Fin n) :
    (c.erase i).get j = if j = i then none else c.get j := by
  by_cases hij : j = i
  · subst j
    simp
  · simp [hij, get_erase_of_ne]

@[simp] theorem set_set (c : ChildMap n E) (i : Fin n) (e e' : E) :
    (c.set i e).set i e' = c.set i e' := by
  simp [set]

@[simp] theorem erase_set (c : ChildMap n E) (i : Fin n) (e : E) :
    (c.set i e).erase i = c.erase i := by
  simp [set, erase]

theorem set_get {c : ChildMap n E} {i : Fin n} {e : E}
    (he : c.get i = some e) : c.set i e = c := by
  ext j : 2
  by_cases hij : j = i
  · subst j
    simpa [set, get] using he.symm
  · simp [set, hij]

theorem ext_get {c d : ChildMap n E} (h : ∀ i, c.get i = d.get i) : c = d :=
  ChildMap.ext (funext h)

@[simp] theorem insert_snd (c : ChildMap n E) (i : Fin n) (e : E) :
    (c.insert i e).2 = c.set i e := rfl

@[simp] theorem remove_fst (c : ChildMap n E) (i : Fin n) :
    (c.remove i).1 = c.get i := rfl

@[simp] theorem remove_snd (c : ChildMap n E) (i : Fin n) :
    (c.remove i).2 = c.erase i := rfl

theorem mem_iterPresent {c : ChildMap n E} {i : Fin n} {e : E} :
    (i, e) ∈ c.iterPresent ↔ c.get i = some e := by
  constructor
  · intro h
    obtain ⟨j, -, hj⟩ := List.mem_filterMap.mp h
    obtain ⟨f, hf, hfe⟩ := Option.map_eq_some_iff.mp hj
    obtain ⟨rfl, rfl⟩ := Prod.mk.inj hfe
    exact hf
  · intro h
    exact List.mem_filterMap.mpr ⟨i, List.mem_finRange i, by simp [h]⟩

/-- The indices of `iterPresent` are strictly ascending. -/
theorem iterPresent_pairwise (c : ChildMap n E) :
    c.iterPresent.Pairwise fun a b => a.1 < b.1 := by
  refine List.Pairwise.filterMap _ ?_ (List.pairwise_lt_finRange n)
  intro i j hij a ha b hb
  obtain ⟨e, -, rfl⟩ := Option.map_eq_some_iff.mp ha
  obtain ⟨f, -, rfl⟩ := Option.map_eq_some_iff.mp hb
  exact hij

private theorem mem_foldl_withBit (xs : List (Fin n × E)) (b : Bitmap n)
    (i : Fin n) :
    i ∈ xs.foldl (fun bits ie => Bitmap.withBit bits ie.1) b ↔
      i ∈ b ∨ ∃ e, (i, e) ∈ xs := by
  induction xs generalizing b with
  | nil => simp
  | cons x xs ih =>
      obtain ⟨j, f⟩ := x
      rw [List.foldl_cons, ih]
      simp only [Bitmap.withBit, Finset.mem_insert, List.mem_cons,
        Prod.mk.injEq]
      constructor
      · rintro ((rfl | hb) | ⟨e, he⟩)
        · exact Or.inr ⟨f, Or.inl ⟨rfl, rfl⟩⟩
        · exact Or.inl hb
        · exact Or.inr ⟨e, Or.inr he⟩
      · rintro (hb | ⟨e, ⟨rfl, rfl⟩ | he⟩)
        · exact Or.inl (Or.inr hb)
        · exact Or.inl (Or.inl rfl)
        · exact Or.inr ⟨e, he⟩

@[simp] theorem mem_present {c : ChildMap n E} {i : Fin n} :
    i ∈ c.present ↔ ∃ e, c.get i = some e := by
  simp [present, mem_foldl_withBit, Bitmap.ZERO, mem_iterPresent]

theorem notMem_present {c : ChildMap n E} {i : Fin n} :
    i ∉ c.present ↔ c.get i = none := by
  rw [mem_present, not_exists, Option.eq_none_iff_forall_ne_some]

theorem count_eq_card (c : ChildMap n E) : c.count = c.present.card := by
  have hnodup : (c.iterPresent.map Prod.fst).Nodup :=
    ((List.pairwise_map.mpr c.iterPresent_pairwise).imp ne_of_lt)
  have hset : c.present = (c.iterPresent.map Prod.fst).toFinset := by
    ext i
    simp [mem_iterPresent]
  rw [hset, List.toFinset_card_of_nodup hnodup, count, List.length_map]

theorem present_set (c : ChildMap n E) (i : Fin n) (e : E) :
    (c.set i e).present = Insert.insert i c.present := by
  ext j
  by_cases hij : j = i
  · subst j
    simp
  · simp [get_set_of_ne, hij]

theorem present_erase (c : ChildMap n E) (i : Fin n) :
    (c.erase i).present = c.present.erase i := by
  ext j
  by_cases hij : j = i
  · subst j
    simp
  · simp [get_erase_of_ne, hij]

theorem count_set_of_mem {c : ChildMap n E} {i : Fin n} {e : E}
    (he : c.get i = some e) (e' : E) : (c.set i e').count = c.count := by
  rw [count_eq_card, count_eq_card, present_set,
    Finset.insert_eq_of_mem (mem_present.mpr ⟨e, he⟩)]

theorem count_set_of_none {c : ChildMap n E} {i : Fin n}
    (hi : c.get i = none) (e : E) : (c.set i e).count = c.count + 1 := by
  rw [count_eq_card, count_eq_card, present_set,
    Finset.card_insert_of_notMem (notMem_present.mpr hi)]

theorem count_erase {c : ChildMap n E} {i : Fin n} {e : E}
    (he : c.get i = some e) : (c.erase i).count + 1 = c.count := by
  rw [count_eq_card, count_eq_card, present_erase,
    Finset.card_erase_add_one (mem_present.mpr ⟨e, he⟩)]

@[simp] theorem count_empty : (empty : ChildMap n E).count = 0 := by
  simp [count_eq_card, present, iterPresent, Bitmap.ZERO]

theorem count_eq_zero {c : ChildMap n E} :
    c.count = 0 ↔ ∀ i, c.get i = none := by
  rw [count_eq_card, Finset.card_eq_zero, Finset.eq_empty_iff_forall_notMem]
  exact forall_congr' fun i => notMem_present

theorem eq_empty_of_count {c : ChildMap n E} (h : c.count = 0) :
    c = empty := by
  apply ext_get
  intro i
  rw [count_eq_zero.mp h i, get_empty]

theorem count_pos_of_get {c : ChildMap n E} {i : Fin n} {e : E}
    (he : c.get i = some e) : 0 < c.count := by
  rw [count_eq_card]
  exact Finset.card_pos.mpr ⟨i, mem_present.mpr ⟨e, he⟩⟩

theorem exists_only_child {c : ChildMap n E} (hc : c.count = 1) :
    ∃ i e, c.get i = some e := by
  obtain ⟨⟨i, e⟩, hie⟩ := List.length_eq_one_iff.mp hc
  have hmem : (i, e) ∈ c.iterPresent := by
    rw [hie]
    exact List.mem_singleton_self _
  exact ⟨i, e, mem_iterPresent.mp hmem⟩

section OnlyChild

variable {c : ChildMap n E} {i : Fin n} {e : E}

theorem iterPresent_of_only_child (hc : c.count = 1)
    (he : c.get i = some e) : c.iterPresent = [(i, e)] := by
  obtain ⟨jf, hjf⟩ := List.length_eq_one_iff.mp hc
  have hmem := mem_iterPresent.mpr he
  rw [hjf, List.mem_singleton] at hmem
  rw [hjf, hmem]

theorem get_of_only_child (hc : c.count = 1) (he : c.get i = some e)
    {j : Fin n} (hj : j ≠ i) : c.get j = none := by
  rw [Option.eq_none_iff_forall_ne_some]
  intro f hf
  have hmem := mem_iterPresent.mpr hf
  rw [iterPresent_of_only_child hc he, List.mem_singleton] at hmem
  exact hj (Prod.mk.inj hmem).1

theorem takeOnlyChild_of_only_child (hc : c.count = 1)
    (he : c.get i = some e) : c.takeOnlyChild = (some (i, e), c.erase i) := by
  simp only [takeOnlyChild, iterPresent_of_only_child hc he]

end OnlyChild

/-- In a map with two edges, the one that is not at `i`. -/
theorem exists_survivor {c : ChildMap n E} {i : Fin n} {e : E}
    (hc : c.count = 2) (he : c.get i = some e) :
    ∃ j f, j ≠ i ∧ c.get j = some f ∧
      (∀ k, k ≠ i → k ≠ j → c.get k = none) ∧
      (c.iterPresent.find? fun kf => decide (kf.1 ≠ i)) = some (j, f) := by
  have hcount : (c.erase i).count = 1 := by
    have := count_erase he
    omega
  obtain ⟨j, f, hjf⟩ := exists_only_child hcount
  have hji : j ≠ i := by
    rintro rfl
    simp at hjf
  rw [get_erase_of_ne _ hji] at hjf
  have hget : ∀ k, k ≠ i → k ≠ j → c.get k = none := by
    intro k hki hkj
    rw [← get_erase_of_ne c hki]
    exact get_of_only_child hcount (by rwa [get_erase_of_ne _ hji]) hkj
  refine ⟨j, f, hji, hjf, hget, ?_⟩
  cases hfind : c.iterPresent.find? fun kf => decide (kf.1 ≠ i) with
  | none =>
      have := List.find?_eq_none.mp hfind (j, f) (mem_iterPresent.mpr hjf)
      simp [hji] at this
  | some kf =>
      obtain ⟨k, g⟩ := kf
      have hki : k ≠ i := by simpa using List.find?_some hfind
      have hkg : c.get k = some g :=
        mem_iterPresent.mp (List.mem_of_find?_eq_some hfind)
      have hkj : k = j := by
        by_contra hkj
        simp [hget k hki hkj] at hkg
      subst k
      rw [hjf] at hkg
      cases hkg
      rfl

end ChildMap

end ArityTries
