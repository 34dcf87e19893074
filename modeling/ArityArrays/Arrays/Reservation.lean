import ArityArrays.Arrays.Programs

/-!
# Reservations and capacities

After a reservation as many elements as were asked for fit into the block,
whatever updates come in between.  Over a run the capacity changes only by a
first allocation, by an insertion into a full block, and by calls that are
about the capacity.
-/

namespace ArityTries.ChildMap

variable {n : ℕ} {T : Type}

theorem count_erase_le (m : ChildMap n T) (i : Fin n) :
    (m.erase i).count ≤ m.count := by
  rw [count_eq_card, count_eq_card, present_erase]
  exact Finset.card_erase_le

theorem count_modify (m : ChildMap n T) (i : Fin n) (f : T → T) :
    (m.modify i f).count = m.count := by
  rw [count_eq_card, count_eq_card, present_modify]

theorem count_withValues {m : ChildMap n T} {ws : List T}
    (hlen : ws.length = m.count) : (m.withValues ws).count = m.count := by
  obtain ⟨m', hpresent, rfl⟩ := m.exists_values hlen
  rw [← eq_withValues hpresent, count_eq_card, count_eq_card, hpresent]

end ArityTries.ChildMap

namespace ArityArrays

open ArityTries Checked

variable {T : Type} {A : Arity}

/-! ## Updates -/

/-- The calls that change entries of a gapped array. -/
inductive Update (T : Type) (A : Arity) where
  | insert (i : A.Index) (v : T)
  | remove (i : A.Index)
  | overwrite (i : A.Index) (f : T → T)
  | clear

/-- The same calls on a map, counting the insertions of absent indices. -/
def Update.model : Model (Update T A) (Option T) (ChildMap A.LEN T × ℕ)
  | .insert i v, t =>
      (t.1.get i, t.1.set i v, if (t.1.get i).isNone then t.2 + 1 else t.2)
  | .remove i, t => (t.1.get i, t.1.erase i, t.2)
  | .overwrite i f, t => (t.1.get i, t.1.modify i f, t.2)
  | .clear, t => (none, ChildMap.empty, t.2)

/-- The number of insertions of absent indices among some updates. -/
def Update.absentInserts (us : List (Update T A)) (m : ChildMap A.LEN T) : ℕ :=
  (Model.run Update.model us (m, 0)).2.2

namespace GappedArray

/-- Make an update.  The process ends when a destructor panics while
unwinding. -/
def update (d : Destructor T) :
    Component (Update T A) (Option T) (GappedArray T A)
  | .insert i v, g => do
      let out ← g.insert i v
      return some out
  | .remove i, g => do
      let out ← g.remove i
      return some out
  | .overwrite i f, g => do
      let out ← g.assignMut i f
      return some out
  | .clear, g => do
      let out ← g.clear d
      match out.exit with
      | .returns => return some (none, out.state)
      | .unwinds => return some (none, out.state)
      | .aborts => return none

section Reserved

variable {g₀ g g' : GappedArray T A} {m m' : ChildMap A.LEN T} {n used : ℕ}

/-- The array still has the block of `g₀`, with room for what is left of a
reservation of `n` elements. -/
structure Room (g₀ : GappedArray T A) (n used : ℕ) (g : GappedArray T A)
    (m : ChildMap A.LEN T) : Prop where
  block : KeepsBlock g₀ g
  room : min (m.count + (n - used)) A.LEN ≤ g.capacity

/-- As long as no more elements were added than reserved, there is room. -/
def Reserved (g₀ : GappedArray T A) (n : ℕ) (g : GappedArray T A)
    (t : ChildMap A.LEN T × ℕ) : Prop :=
  g.Holds t.1 ∧ (t.2 ≤ n → Room g₀ n t.2 g t.1)

theorem Room.keep (h : Room g₀ n used g m) (hkeeps : KeepsBlock g g')
    (hcount : m'.count ≤ m.count) : Room g₀ n used g' m' where
  block := h.block.trans hkeeps
  room := by
    have hroom := h.room
    rw [hkeeps.1]
    omega

/-- An insertion with room to spare keeps the block. -/
theorem Room.insert {i : A.Index} {v : T} (h : Room g₀ n used g m)
    (hcap : InsertCapacity g g' m i) (hi : m.get i = none) (hused : used < n) :
    Room g₀ n (used + 1) g' (m.set i v) := by
  have hroom := h.room
  have hlt := ChildMap.count_lt_of_none hi
  cases hcap with
  | keeps _ hkeeps =>
      refine ⟨h.block.trans hkeeps, ?_⟩
      rw [hkeeps.1, ChildMap.count_set_of_none hi]
      omega
  | first _ hnone _ =>
      have hzero : g.capacity = 0 := by rw [capacity, hnone]
      omega
  | doubles _ hfull hpos hcap _ => omega

theorem InsertCapacity.keeps_of_present {i : A.Index} {v : T}
    (hcap : InsertCapacity g g' m i) (hv : m.get i = some v) :
    KeepsBlock g g' := by
  cases hcap with
  | keeps _ hkeeps => exact hkeeps
  | first absent _ _ => rw [hv] at absent; cases absent
  | doubles absent _ _ _ _ => rw [hv] at absent; cases absent

/-- Every update keeps to the reservation. -/
theorem update_simulates (d : Destructor T) (g₀ : GappedArray T A) (n : ℕ) :
    (update d : Component (Update T A) _ _).Simulates Update.model
      (Reserved g₀ n) := by
  rintro u g ⟨m, used⟩ ⟨hg, hroom⟩
  simp only at hg hroom
  cases u with
  | insert i v =>
      obtain ⟨g', hinsert, hg', hcap⟩ := insert_spec hg i v
      refine Component.answers (by simp only [update, hinsert]; rfl) ⟨hg', ?_⟩
      simp only [Update.model]
      cases hv : m.get i with
      | none =>
          intro hused
          exact (hroom (Nat.le_of_succ_le hused)).insert hcap hv hused
      | some w =>
          intro hused
          refine (hroom hused).keep (hcap.keeps_of_present hv) ?_
          exact (ChildMap.count_set_of_mem hv v).le
  | remove i =>
      obtain ⟨g', hremove, hg', hkeeps⟩ := remove_spec hg i
      exact Component.answers (by simp only [update, hremove]; rfl)
        ⟨hg', fun hused => (hroom hused).keep hkeeps (m.count_erase_le i)⟩
  | overwrite i f =>
      obtain ⟨g', hassign, hg', hkeeps⟩ := assignMut_spec hg i f
      exact Component.answers (by simp only [update, hassign]; rfl)
        ⟨hg', fun hused => (hroom hused).keep hkeeps (m.count_modify i f).le⟩
  | clear =>
      obtain ⟨out, hclear, -, hall, -⟩ := clear_total hg d
      have hreserved : out.exit ≠ .aborts →
          Reserved g₀ n out.state (ChildMap.empty, used) := fun hexit =>
        ⟨(hall hexit).1, fun hused => (hroom hused).keep (hall hexit).2.1
          (by simp)⟩
      simp only [update, hclear, ok_bind, Update.model]
      cases hexit : out.exit with
      | returns => exact Component.answers rfl (hreserved (by simp [hexit]))
      | unwinds => exact Component.answers rfl (hreserved (by simp [hexit]))
      | aborts => exact ⟨none, rfl, by simp⟩

/-- Updates that add no more elements than there is room for keep the block. -/
theorem Holds.updates_keep (h : g.Holds m) (d : Destructor T)
    (hroom : min (m.count + n) A.LEN ≤ g.capacity) {us : List (Update T A)}
    (hus : Update.absentInserts us m ≤ n) :
    ∃ out, (update d).run us g = .ok out ∧
      ∀ answers g', out = some (answers, g') → KeepsBlock g g' := by
  have hstart : Reserved g n g (m, 0) := ⟨h, fun _ => ⟨.refl g, hroom⟩⟩
  obtain ⟨out, hrun, hall⟩ := (update_simulates d g n).run hstart us
  refine ⟨out, hrun, fun answers g' hout => ?_⟩
  exact ((hall answers g' hout).2.2 hus).block

end Reserved

/-! ## Changes of the capacity -/

/-- The capacity is the least for the entries there are. -/
def Tight (g : GappedArray T A) : Prop := LeastCapacity g.count g.capacity

/-- The capacity of an array made in the place of `g`.  It is the least one,
unless the array is a clone of `g` or what could not be made left `g` there. -/
def MadeCapacity (g g' : GappedArray T A) : Source T A → Prop
  | .new => g' = new
  | .collect _ => Tight g'
  | .fixed _ => Tight g'
  | .fixedRef cloner src =>
      if (cloner.clones 0 src.contents.values).2 then Tight g' else g' = g
  | .deserialize entries =>
      if ChildMap.Ascending entries then Tight g' else g' = g
  | .deserializeAs buf values =>
      if CompactFits A buf values then Tight g' else g' = g
  | .clone _ => g'.capacity = g.capacity
  | .recollect => Tight g'
  | .other => Tight g'
  | .otherRef _ => Tight g'

/-- A reservation of `n` elements makes room for them, and takes another block
only if that is larger. -/
structure ReserveCapacity (m : ChildMap A.LEN T) (n : ℕ)
    (g g' : GappedArray T A) : Prop where
  grows : g.capacity ≤ g'.capacity
  room : min (m.count + n) A.LEN ≤ g'.capacity
  kept : g'.capacity = g.capacity → KeepsBlock g g'

/-- How a call affects the capacity of the gapped array. -/
def CapacityStep (m : ChildMap A.LEN T) (g g' : GappedArray T A) :
    Call T A → Prop
  | .packed _ => g' = g
  | .gapped e => EditCapacity g g' m e
  | .makePacked .other => g' = new
  | .makePacked _ => g' = g
  | .makeGapped src => MadeCapacity g g' src
  | .withCapacity n => pow2CapFor A n = .ok g'.capacity
  | .reserve n => ReserveCapacity m n g g'
  | .shrinkToFit => LeastCapacity m.count g'.capacity
  | .clear => KeepsBlock g g'

section Made

variable {g g' : GappedArray T A} {a a' : PackedArray T A}
variable {m ma : ChildMap A.LEN T} {d : Destructor T}

theorem Holds.tight (h : g.Holds m) (hleast : LeastCapacity m.count g.capacity) :
    Tight g := by
  rwa [Tight, h.count_eq]

theorem reserve_capacity (h : g.Holds m) {n : ℕ}
    (hreserve : g.reserve n = .ok g') : ReserveCapacity m n g g' := by
  obtain ⟨made, hmade, -, hgrows, hroom, hkept⟩ := reserve_spec h n
  cases hmade.symm.trans hreserve
  refine ⟨hgrows, hroom, fun hcap => ?_⟩
  rw [hkept hcap]
  exact .refl g

theorem fixedRef_capacity {cloner : Cloner T}
    {src : FixedArray (Option T) A} {o : Answer T A}
    {out : Outcome (Option (GappedArray T A)) T}
    (hfrom : fromFixedRef d cloner src = .ok out)
    (hsettle : settle g out = some (o, g')) :
    MadeCapacity g g' (.fixedRef cloner src) := by
  obtain ⟨out', cap, hfrom', hleast, hclones⟩ := fromFixedRef_spec d cloner src
  cases hfrom'.symm.trans hfrom
  rw [MadeCapacity]
  rcases hclones.settled_cases hsettle with ⟨hdone, -, hg', rfl⟩ | ⟨hdone, -, rfl⟩
  · rw [if_pos hdone]
    refine hg'.tight ?_
    rwa [ChildMap.count_withValues
      ((Cloner.length_clones hdone).trans src.contents.length_values)]
  · rw [if_neg (by simp [hdone])]

theorem clone_capacity (h : g.Holds m) {cloner : Cloner T} {o : Answer T A}
    {out : Outcome (Option (GappedArray T A)) T}
    (hclone : g.clone d cloner = .ok out)
    (hsettle : settle g out = some (o, g')) : g'.capacity = g.capacity := by
  obtain ⟨out', hclone', hclones⟩ := clone_spec h d cloner
  cases hclone'.symm.trans hclone
  rcases hclones.settled_cases hsettle with ⟨-, -, -, hcap⟩ | ⟨-, -, rfl⟩
  · exact hcap
  · rfl

/-- What a making affects of the capacity, source by source. -/
theorem make_capacity (h : g.Holds m) (ha : a.Holds ma) {src : Source T A}
    {answer : Answer T A}
    (hmake : (gappedMaker T A).make d src (g, a) =
      .ok (some (answer, g', a'))) : MadeCapacity g g' src := by
  cases src with
  | new =>
      cases hmake
      rfl
  | collect entries =>
      obtain ⟨made, hmade, hholds, hleast⟩ := fromIter_spec entries
      obtain ⟨out, hout, hreturn⟩ := bind_eq_ok.mp hmake
      cases hmade.symm.trans hout
      cases hreturn
      exact hholds.tight hleast
  | fixed src =>
      obtain ⟨made, hmade, hholds, hleast⟩ := fromFixed_spec src
      obtain ⟨out, hout, hreturn⟩ := bind_eq_ok.mp hmake
      cases hmade.symm.trans hout
      cases hreturn
      exact hholds.tight hleast
  | fixedRef cloner src =>
      obtain ⟨out, hout, hreturn⟩ := bind_eq_ok.mp hmake
      obtain ⟨r, hr, hset⟩ := Option.map_eq_some_iff.mp (Except.ok.inj hreturn)
      cases hset
      exact fixedRef_capacity hout hr
  | deserialize entries =>
      obtain ⟨out, hout, hreturn⟩ := bind_eq_ok.mp hmake
      rw [MadeCapacity]
      split
      · next hfits =>
          obtain ⟨made, hmade, hholds, hleast⟩ :=
            common_models.deserialize_of_ascending hfits
          cases hmade.symm.trans hout
          cases hreturn
          exact hholds.tight hleast
      · next hfits =>
          have hrefused := (common T A).deserialize_of_not_ascending hfits
          cases hrefused.symm.trans hout
          cases hreturn
          rfl
  | deserializeAs buf values =>
      obtain ⟨out, hout, hreturn⟩ := bind_eq_ok.mp hmake
      rw [MadeCapacity]
      split
      · next hfits =>
          obtain ⟨made, hmade, hholds, hleast⟩ :=
            common_models.deserializeAs_of_fits hfits
          cases hmade.symm.trans hout
          cases hreturn
          exact hholds.tight hleast
      · next hfits =>
          have hrefused := (common T A).deserializeAs_of_not_fits hfits
          cases hrefused.symm.trans hout
          cases hreturn
          rfl
  | clone cloner =>
      obtain ⟨out, hout, hreturn⟩ := bind_eq_ok.mp hmake
      obtain ⟨r, hr, hset⟩ := Option.map_eq_some_iff.mp (Except.ok.inj hreturn)
      cases hset
      exact clone_capacity h hout hr
  | recollect =>
      obtain ⟨made, hmade, hholds, hleast⟩ := fromIter_spec m.iterPresent
      obtain ⟨entries, hentries, hmake⟩ := bind_eq_ok.mp hmake
      cases h.collect_intoIter.symm.trans hentries
      obtain ⟨out, hout, hreturn⟩ := bind_eq_ok.mp hmake
      cases hmade.symm.trans hout
      cases hreturn
      exact hholds.tight hleast
  | other =>
      obtain ⟨made, hmade, hholds, hleast⟩ := fromPacked_spec ha
      obtain ⟨out, hout, hreturn⟩ := bind_eq_ok.mp hmake
      cases hmade.symm.trans hout
      cases hreturn
      exact hholds.tight hleast
  | otherRef f =>
      obtain ⟨made, hmade, hholds, hleast⟩ := fromPackedRef_spec ha f
      obtain ⟨out, hout, hreturn⟩ := bind_eq_ok.mp hmake
      cases hmade.symm.trans hout
      cases hreturn
      refine hholds.tight ?_
      rwa [ChildMap.count_map]

end Made

end GappedArray

/-- Making an array leaves the other one alone, or `taken` if it is converted by
value. -/
theorem Maker.make_other {σ τ : Type} {M : Maker T A σ τ} {d : Destructor T}
    {src : Source T A} {s s' : σ × τ} {answer : Answer T A}
    (hmake : M.make d src s = .ok (some (answer, s'))) :
    s'.2 = match src with
      | .other => M.taken
      | _ => s.2 := by
  cases src with
  | new => cases hmake; rfl
  | recollect =>
      obtain ⟨entries, -, hmade⟩ := bind_eq_ok.mp hmake
      obtain ⟨made, -, hreturn⟩ := bind_eq_ok.mp hmade
      cases hreturn
      rfl
  | fixedRef cloner src =>
      obtain ⟨out, -, hreturn⟩ := bind_eq_ok.mp hmake
      obtain ⟨r, -, hr⟩ := Option.map_eq_some_iff.mp (Except.ok.inj hreturn)
      cases hr
      rfl
  | clone cloner =>
      obtain ⟨out, -, hreturn⟩ := bind_eq_ok.mp hmake
      obtain ⟨r, -, hr⟩ := Option.map_eq_some_iff.mp (Except.ok.inj hreturn)
      cases hr
      rfl
  | _ =>
      obtain ⟨made, -, hreturn⟩ := bind_eq_ok.mp hmake
      cases hreturn
      rfl

namespace Vars

variable {s s' : Vars T A} {m : ChildMap A.LEN T × ChildMap A.LEN T}

theorem Hold.capacity_step (h : s.Hold m) {d : Destructor T} {call : Call T A}
    {answer : Answer T A} (hcall : perform d call s = .ok (some (answer, s'))) :
    GappedArray.CapacityStep m.2 s.gapped s'.gapped call := by
  cases call with
  | packed e =>
      obtain ⟨out, -, hreturn⟩ := bind_eq_ok.mp hcall
      cases hreturn
      rfl
  | gapped e =>
      obtain ⟨g', hedit, -, hcap⟩ := GappedArray.edit_spec h.2 e
      obtain ⟨out, hout, hreturn⟩ := bind_eq_ok.mp hcall
      cases hedit.symm.trans hout
      cases hreturn
      exact hcap
  | makePacked src =>
      obtain ⟨out, hmake, hreturn⟩ := bind_eq_ok.mp hcall
      obtain ⟨r, rfl, hr⟩ := Option.map_eq_some_iff.mp (Except.ok.inj hreturn)
      have hother := Maker.make_other hmake
      cases hr
      cases src <;> exact hother
  | makeGapped src =>
      obtain ⟨out, hmake, hreturn⟩ := bind_eq_ok.mp hcall
      obtain ⟨r, rfl, hr⟩ := Option.map_eq_some_iff.mp (Except.ok.inj hreturn)
      cases hr
      exact GappedArray.make_capacity h.2 h.1 hmake
  | withCapacity n =>
      obtain ⟨g', hfresh, -, hcap⟩ := GappedArray.withCapacity_spec T A n
      obtain ⟨out, hout, hreturn⟩ := bind_eq_ok.mp hcall
      cases hfresh.symm.trans hout
      cases hreturn
      exact hcap
  | reserve n =>
      obtain ⟨out, hout, hreturn⟩ := bind_eq_ok.mp hcall
      cases hreturn
      exact GappedArray.reserve_capacity h.2 hout
  | shrinkToFit =>
      obtain ⟨g', hshrink, -, hleast, -⟩ := GappedArray.shrinkToFit_spec h.2
      obtain ⟨out, hout, hreturn⟩ := bind_eq_ok.mp hcall
      cases hshrink.symm.trans hout
      cases hreturn
      exact hleast
  | clear =>
      obtain ⟨out, hclear, -, hall, -⟩ := GappedArray.clear_total h.2 d
      obtain ⟨out', hout, hreturn⟩ := bind_eq_ok.mp hcall
      cases hclear.symm.trans hout
      cases hexit : out.exit with
      | returns =>
          rw [hexit] at hreturn
          cases hreturn
          exact (hall (by simp [hexit])).2.1
      | unwinds =>
          rw [hexit] at hreturn
          cases hreturn
          exact (hall (by simp [hexit])).2.1
      | aborts =>
          rw [hexit] at hreturn
          cases hreturn

end Vars

/-- A reservation keeps the contents, never lowers the capacity and makes room
for the elements it is for: updates that add no more than these keep the block.
In any run only a first allocation, an insertion into a full block, which
doubles it, a reservation and a shrink change the capacity. -/
theorem capacity_law {s : Vars T A} (hs : s.Reached) :
    ∃ m, s.Reads m ∧
      (∀ n, ∃ g, s.gapped.reserve n = .ok g ∧
        (∀ i, g.get i = .ok (m.2.get i)) ∧ s.gapped.capacity ≤ g.capacity ∧
        min (m.2.count + n) A.LEN ≤ g.capacity ∧
        ∀ (d : Destructor T) (us : List (Update T A)),
          Update.absentInserts us m.2 ≤ n →
            ∃ out, (GappedArray.update d).run us g = .ok out ∧
              ∀ answers g', out = some (answers, g') →
                GappedArray.KeepsBlock g g') ∧
      ∀ (d : Destructor T) (call : Call T A) answer s',
        Vars.perform d call s = .ok (some (answer, s')) →
          GappedArray.CapacityStep m.2 s.gapped s'.gapped call := by
  obtain ⟨m, hm⟩ := hs.hold
  refine ⟨m, hm.reads, fun n => ?_, fun d call answer s' hcall =>
    hm.capacity_step hcall⟩
  obtain ⟨g, hreserve, hg, hgrows, hroom, -⟩ :=
    GappedArray.reserve_spec hm.2 n
  exact ⟨g, hreserve, GappedArray.get_spec hg, hgrows, hroom,
    fun d us hus => hg.updates_keep d hroom hus⟩

/-- Room for three more elements than the single one there is, of which one is
removed and stored again. -/
theorem capacity_law_three :
    ∃ s : Vars ℕ .arity8, s.Reached ∧ ∃ g, s.gapped.reserve 3 = .ok g ∧
      4 ≤ g.capacity ∧ ∃ out,
        (GappedArray.update ⟨true, fun _ => false⟩).run
          [.insert 0 1, .remove 3, .insert 5 2, .insert 3 9] g = .ok out ∧
        ∀ answers g', out = some (answers, g') →
          GappedArray.KeepsBlock g g' := by
  obtain ⟨s, hs, hhold⟩ := Vars.reached_of_calls
    ([.gapped (.extend [(3, 7)])] : List (Call ℕ .arity8))
  obtain ⟨m, hreads, hreserve, -⟩ := capacity_law hs
  obtain rfl := hreads.unique hhold.reads
  obtain ⟨g, hg, -, -, hroom, hupdates⟩ := hreserve 3
  exact ⟨s, hs, g, hg, hroom, hupdates _ _ (by decide)⟩

end ArityArrays
