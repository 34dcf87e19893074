import Mathlib.Algebra.BigOperators.Group.List.Basic
import Mathlib.Logic.Function.Iterate
import ArityArrays.Arrays.Reservation

/-!
# Geometric growth

A gapped array takes a new block only when an insertion finds the old one full,
and then one of twice the size.  However long a run of updates is, the blocks it
takes are few, and those it gives up have together no more slots than the one it
keeps.
-/

namespace ArityArrays

open ArityTries Checked

/-- The capacity after an insertion that does not fit. -/
def grow (cap : ℕ) : ℕ := if cap = 0 then 1 else 2 * cap

/-- The capacities that are grown out of on the way. -/
def outgrown (cap k : ℕ) : List ℕ := (List.range k).map fun j => grow^[j] cap

theorem two_mul_le_grow (cap : ℕ) : 2 * cap ≤ grow cap := by
  unfold grow
  split <;> omega

theorem grow_pos (cap : ℕ) : 0 < grow cap := by
  unfold grow
  split <;> omega

theorem sum_outgrown_le (cap k : ℕ) : (outgrown cap k).sum ≤ grow^[k] cap := by
  induction k with
  | zero => exact Nat.zero_le cap
  | succ k ih =>
      have hgrow := two_mul_le_grow (grow^[k] cap)
      unfold outgrown at ih ⊢
      rw [List.range_succ, List.map_append, List.sum_append,
        Function.iterate_succ_apply']
      simp only [List.map_cons, List.map_nil, List.sum_singleton]
      omega

theorem two_pow_mul_le (cap k : ℕ) : 2 ^ k * cap ≤ grow^[k] cap := by
  induction k with
  | zero => simp
  | succ k ih =>
      have hgrow := two_mul_le_grow (grow^[k] cap)
      rw [Nat.pow_succ, Function.iterate_succ_apply', Nat.mul_right_comm]
      omega

/-- The first block has one slot at least. -/
theorem two_pow_le (cap k : ℕ) : 2 ^ k ≤ grow^[k + 1] cap := by
  have hpos := grow_pos cap
  have hpow := two_pow_mul_le (grow cap) k
  have hle : 2 ^ k ≤ 2 ^ k * grow cap := Nat.le_mul_of_pos_right _ hpos
  rw [Function.iterate_succ_apply]
  omega

namespace GappedArray

variable {T : Type} {A : Arity}

/-- The number of blocks the array has had. -/
def allocations (g : GappedArray T A) : ℕ :=
  match g.inner with
  | none => 0
  | some inner => inner.block + 1

/-- What the array has become after it outgrew `k` blocks. -/
def GrownFrom (g₀ g : GappedArray T A) : Prop :=
  ∃ k, g.allocations = g₀.allocations + k ∧ g.capacity = grow^[k] g₀.capacity

/-- The array stands for the map of the run and has grown from the first. -/
def Growing (g₀ g : GappedArray T A) (t : ChildMap A.LEN T × ℕ) : Prop :=
  g.Holds t.1 ∧ GrownFrom g₀ g

section Growth

variable {g₀ g g' : GappedArray T A} {m : ChildMap A.LEN T} {i : A.Index}
variable {v : T} {o : Option T} {inner : Inner T A}

theorem allocations_eq (g : GappedArray T A) :
    g.allocations = ((g.inner.map Inner.block).map (· + 1)).getD 0 := by
  unfold allocations
  cases g.inner with
  | none => rfl
  | some inner => rfl

theorem Holds.capacity_le (h : g.Holds m) : g.capacity ≤ A.LEN := by
  unfold capacity
  cases hinner : g.inner with
  | none => exact Nat.zero_le A.LEN
  | some inner =>
      obtain ⟨pos, hlaid⟩ := h.of_some hinner
      exact hlaid.le

theorem KeepsBlock.allocations (h : KeepsBlock g g') :
    g'.allocations = g.allocations := by
  rw [allocations_eq, allocations_eq, h.2]

theorem GrownFrom.refl (g : GappedArray T A) : GrownFrom g g := ⟨0, rfl, rfl⟩

theorem GrownFrom.keep (h : GrownFrom g₀ g) (hkeeps : KeepsBlock g g') :
    GrownFrom g₀ g' := by
  obtain ⟨k, halloc, hcap⟩ := h
  exact ⟨k, hkeeps.allocations.trans halloc, hkeeps.1.trans hcap⟩

theorem GrownFrom.grow (h : GrownFrom g₀ g)
    (halloc : g'.allocations = g.allocations + 1)
    (hcap : g'.capacity = ArityArrays.grow g.capacity) : GrownFrom g₀ g' := by
  obtain ⟨k, halloc₀, hcap₀⟩ := h
  refine ⟨k + 1, by omega, ?_⟩
  rw [hcap, hcap₀, Function.iterate_succ_apply']

/-- The first insertion makes the first block. -/
theorem insert_allocations_of_none (hnone : g.inner = none)
    (hinsert : g.insert i v = .ok (o, g')) : g'.allocations = 1 := by
  rw [insert, hnone] at hinsert
  obtain ⟨first, -, hinsert⟩ := bind_eq_ok.mp hinsert
  obtain ⟨data, -, hinsert⟩ := bind_eq_ok.mp hinsert
  cases hinsert
  rfl

theorem rebuildWithInsert_allocations {cap : ℕ}
    (hrebuild : g.rebuildWithInsert i v cap = .ok g') :
    g'.allocations = g.allocations + 1 := by
  obtain ⟨old, hold, hrebuild⟩ := bind_eq_ok.mp hrebuild
  obtain ⟨-, -, hrebuild⟩ := bind_eq_ok.mp hrebuild
  obtain ⟨-, -, hrebuild⟩ := bind_eq_ok.mp hrebuild
  obtain ⟨capExp, -, hrebuild⟩ := bind_eq_ok.mp hrebuild
  obtain ⟨live, -, hrebuild⟩ := bind_eq_ok.mp hrebuild
  obtain ⟨filled, -, hrebuild⟩ := bind_eq_ok.mp hrebuild
  obtain ⟨-, -, hrebuild⟩ := bind_eq_ok.mp hrebuild
  cases hrebuild
  rw [allocations, allocations, expect_eq_ok.mp hold]

/-- An insertion into a full block makes the next one. -/
theorem insert_allocations_of_full (h : g.Holds m) (hi : m.get i = none)
    (hinner : g.inner = some inner) (hfull : m.count = inner.capacity)
    (hinsert : g.insert i v = .ok (o, g')) :
    g'.allocations = g.allocations + 1 := by
  obtain ⟨pos, hlaid⟩ := h.of_some hinner
  simp only [insert, hinner, hlaid.test_eq, hi, Option.isSome_none,
    Bool.false_eq_true, if_false, hlaid.countOnes_occupancy, hfull,
    if_true] at hinsert
  obtain ⟨cap, -, hinsert⟩ := bind_eq_ok.mp hinsert
  obtain ⟨g'', hrebuild, hinsert⟩ := bind_eq_ok.mp hinsert
  cases hinsert
  exact rebuildWithInsert_allocations hrebuild

/-- An insertion keeps the block or grows it. -/
theorem GrownFrom.insert (h : GrownFrom g₀ g) (hg : g.Holds m)
    (hinsert : g.insert i v = .ok (o, g')) (hcap : InsertCapacity g g' m i) :
    GrownFrom g₀ g' := by
  cases hcap with
  | keeps room keeps => exact h.keep keeps
  | first absent none capacity =>
      have hzero : g.capacity = 0 := by rw [GappedArray.capacity, none]
      have halloc : g.allocations = 0 := by rw [allocations, none]
      refine h.grow ?_ (by simp [ArityArrays.grow, capacity, hzero])
      rw [insert_allocations_of_none none hinsert, halloc]
  | doubles absent full pos lt capacity =>
      cases hinner : g.inner with
      | none =>
          rw [GappedArray.capacity, hinner] at pos
          exact absurd pos (Nat.lt_irrefl 0)
      | some inner =>
          have hcapacity : g.capacity = inner.capacity := by
            rw [GappedArray.capacity, hinner]
          refine h.grow ?_ ?_
          · exact insert_allocations_of_full hg absent hinner
              (full.trans hcapacity) hinsert
          · rw [capacity, ArityArrays.grow, if_neg (Nat.ne_of_gt pos)]

/-- Every update keeps the block or grows it. -/
theorem update_grows (d : Destructor T) (g₀ : GappedArray T A) :
    (update d : Component (Update T A) _ _).Simulates Update.model
      (Growing g₀) := by
  rintro u g ⟨m, used⟩ ⟨hg, hgrown⟩
  simp only at hg hgrown
  cases u with
  | insert i v =>
      obtain ⟨g', hinsert, hg', hcap⟩ := insert_spec hg i v
      exact Component.answers (by simp only [update, hinsert]; rfl)
        ⟨hg', hgrown.insert hg hinsert hcap⟩
  | remove i =>
      obtain ⟨g', hremove, hg', hkeeps⟩ := remove_spec hg i
      exact Component.answers (by simp only [update, hremove]; rfl)
        ⟨hg', hgrown.keep hkeeps⟩
  | overwrite i f =>
      obtain ⟨g', hassign, hg', hkeeps⟩ := assignMut_spec hg i f
      exact Component.answers (by simp only [update, hassign]; rfl)
        ⟨hg', hgrown.keep hkeeps⟩
  | clear =>
      obtain ⟨out, hclear, -, hall, -⟩ := clear_total hg d
      simp only [update, hclear, ok_bind, Update.model]
      cases hexit : out.exit with
      | returns =>
          obtain ⟨hg', hkeeps, -⟩ := hall (by simp [hexit])
          exact Component.answers rfl ⟨hg', hgrown.keep hkeeps⟩
      | unwinds =>
          obtain ⟨hg', hkeeps, -⟩ := hall (by simp [hexit])
          exact Component.answers rfl ⟨hg', hgrown.keep hkeeps⟩
      | aborts => exact ⟨none, rfl, by simp⟩

end Growth

end GappedArray

/-- Whatever updates a program makes to its gapped array, and however many, the
blocks it takes double in size, number at most `log2 LEN + 1` and, if there was a
block at the start, at most as many as that doubles within `LEN`; the blocks
that are given up have together no more slots than the last one. -/
theorem updates_grow_geometrically {T : Type} {A : Arity} {s : Vars T A}
    (hs : s.Reached) (d : Destructor T) (us : List (Update T A)) :
    ∃ out, (GappedArray.update d).run us s.gapped = .ok out ∧
      ∀ answers g', out = some (answers, g') →
        ∃ k, g'.allocations = s.gapped.allocations + k ∧
          g'.capacity = grow^[k] s.gapped.capacity ∧
          2 ^ k ≤ 2 * A.LEN ∧ 2 ^ k * s.gapped.capacity ≤ A.LEN ∧
          (outgrown s.gapped.capacity k).sum ≤ g'.capacity := by
  obtain ⟨m, hm⟩ := hs.hold
  have hstart : GappedArray.Growing s.gapped s.gapped (m.2, 0) :=
    ⟨hm.2, .refl s.gapped⟩
  obtain ⟨out, hrun, hall⟩ :=
    (GappedArray.update_grows d s.gapped).run hstart us
  refine ⟨out, hrun, fun answers g' hout => ?_⟩
  obtain ⟨-, hg', k, halloc, hcap⟩ := hall answers g' hout
  have hle := hg'.capacity_le
  rw [hcap] at hle
  refine ⟨k, halloc, hcap, ?_, (two_pow_mul_le _ k).trans hle,
    hcap ▸ sum_outgrown_le _ k⟩
  cases k with
  | zero =>
      have hpos := A.LEN_pos
      omega
  | succ k =>
      have hpow := (two_pow_le _ k).trans hle
      rw [Nat.pow_succ]
      omega

/-- From a single entry, with a removal in between. -/
theorem updates_grow_geometrically_three :
    ∃ s : Vars ℕ .arity8, s.Reached ∧ ∃ out,
      (GappedArray.update ⟨true, fun _ => false⟩).run
        [.insert 0 1, .remove 3, .insert 5 2, .insert 3 9] s.gapped = .ok out ∧
      ∀ answers g', out = some (answers, g') →
        ∃ k, g'.allocations = s.gapped.allocations + k ∧ 2 ^ k ≤ 16 := by
  obtain ⟨s, hs, -⟩ := Vars.reached_of_calls
    ([.gapped (.extend [(3, 7)])] : List (Call ℕ .arity8))
  obtain ⟨out, hrun, hall⟩ :=
    updates_grow_geometrically hs ⟨true, fun _ => false⟩
      [.insert 0 1, .remove 3, .insert 5 2, .insert 3 9]
  refine ⟨s, hs, out, hrun, fun answers g' hout => ?_⟩
  obtain ⟨k, halloc, -, hbound, -⟩ := hall answers g' hout
  exact ⟨k, halloc, hbound⟩

end ArityArrays
