import ArityArrays.Tries.Frames.Algorithms

/-!
# On nodes the passes are those of the loops

Each pass, run on a stack of nodes, does what the body of its loop does.
-/

namespace ArityTries

open Checked Loop Borrows

variable {n : ℕ} {V H X R A σ ε : Type}

namespace Client

/-! ## The passes on nodes -/

section Equations

variable {store : EdgeStore n V H σ ε}
  {fs : Frames n V H (Descended n)} {t : Trie n V H} {s : σ}

theorem onNodes_descend (i : Fin n)
    (next : Except ε Unit → σ → Client n V H (Descended n) R) :
    (descend store i s next).onNodes fs t =
      ArityTries.descend store fs i s >>= fun (r, fs, s) =>
        (next r s).onNodes fs t := by
  cases fs with
  | nil => rfl
  | cons f rest =>
      simp only [descend, onNodes, Frames.setTopExtra_cons, ok_bind,
        ArityTries.descend, Frames.pushDerived, Frames.tryPushChild]
      cases hedge : f.node.children.get i with
      | none => rfl
      | some e =>
          simp only [expect_some, ok_bind]
          rcases store.materialize_cases s e with ⟨x, s', hm⟩ | ⟨s', hm⟩
          · simp only [hm]
            rfl
          · simp only [hm]
            rfl

theorem onNodes_descendToPass (rest : Path n)
    (again : Path n → σ → Client n V H (Descended n) R)
    (next : Except ε Bool → σ → Client n V H (Descended n) R) :
    (descendToPass store rest s again next).onNodes fs t =
      descendToBody store (fs, rest, s) >>= fun pass =>
        match pass with
        | .again (fs, keyRest, s) => (again keyRest s).onNodes fs t
        | .leave (r, fs, s) => (next r s).onNodes fs t := by
  simp only [descendToPass, onNodes, descendToBody]
  cases htop : fs.top with
  | error p => rfl
  | ok curx =>
      obtain ⟨cur, x⟩ := curx
      simp only [ok_bind, onNodes_lift]
      cases Split.of rest cur with
      | error p => rfl
      | ok split =>
          simp only [ok_bind]
          split
          · rfl
          · simp only [onNodes_lift]
            cases split.below rest with
            | error p => rfl
            | ok below =>
                simp only [ok_bind]
                cases below with
                | none => rfl
                | some ik =>
                    obtain ⟨i, keyRest⟩ := ik
                    dsimp only
                    split
                    · rfl
                    · simp only [onNodes_descend]
                      cases ArityTries.descend store fs i s with
                      | error p => rfl
                      | ok out =>
                          obtain ⟨r, fs', s'⟩ := out
                          cases r <;> rfl

theorem onNodes_unwindRemovePass
    (again : σ → Client n V H (Descended n) R)
    (next : Except ε (Detached n V H) → σ →
      Client n V H (Descended n) R) :
    (unwindRemovePass store s again next).onNodes fs t =
      unwindRemoveBody store (fs, s) >>= fun pass =>
        match pass with
        | .again (fs, s) => (again s).onNodes fs t
        | .leave (r, fs, s) => (next r s).onNodes fs t := by
  simp only [unwindRemovePass, onNodes, unwindRemoveBody]
  cases hpop : fs.pop with
  | none => rfl
  | some xfs =>
      obtain ⟨x, fs'⟩ := xfs
      dsimp only [onNodes]
      cases hfs : fs' with
      | nil => rfl
      | cons f rest =>
          simp only [Frames.top_cons, ok_bind, onNodes_lift]
          cases expect f.extra "descended into a child" with
          | error p => rfl
          | ok i =>
              simp only [ok_bind]
              split
              · simp only [onNodes_lift]
                cases expect (f.node.children.remove i).1 "present" <;> rfl
              · split
                · simp only [onNodes_lift]
                  cases expect (f.node.children.iterPresent.find? fun jf =>
                      decide (jf.1 ≠ i)) "two children" with
                  | error p => rfl
                  | ok survivor =>
                      simp only [ok_bind]
                      cases expect (f.node.children.get survivor.1)
                          "present" with
                      | error p => rfl
                      | ok e =>
                          simp only [ok_bind]
                          rcases store.materialize_cases s e with
                            ⟨y, s', hm⟩ | ⟨s', hm⟩
                          · simp only [hm]
                            rfl
                          · simp only [hm, onNodes_lift]
                            generalize (f.node.setChild survivor.1
                              (.mk e.node none)).children.remove i = removed
                            obtain ⟨edge, children⟩ := removed
                            dsimp only
                            cases expect edge "present" with
                            | error p => rfl
                            | ok edge =>
                                simp only [ok_bind]
                                generalize mergeOnlyChild _ = merged
                                cases merged <;> rfl
                · rfl

/-- The body of a loop over a stack and a rest `τ` does what a pass of a
client does on nodes: the loop's result comes with the trie the stack leaves
behind. -/
inductive Passed {τ ρ : Type} : Pass (Frames n V H X × τ × σ)
    (ρ × Trie n V H × σ) →
    Pass (τ × σ) (ρ × σ) × Frames n V H X × Trie n V H → Prop
  | again {fs : Frames n V H X} {rest : τ} {s : σ} :
      Passed (.again (fs, rest, s)) (.again (rest, s), fs, none)
  | leave {fs : Frames n V H X} {r : ρ} {s : σ} {t trie : Trie n V H}
      (htrie : fs.tree t = trie) :
      Passed (.leave (r, trie, s)) (.leave (r, s), fs, t)

theorem insertPass_passed {value : V} {rest : Path n}
    {pass : Pass (Frames n V H (Descended n) × Path n × σ)
      (Except ε (Option V) × Trie n V H × σ)}
    (h : insertBody store value (fs, rest, s) = .ok pass) :
    ∃ out, (insertPass store value (rest, s)).onNodes fs none = .ok out ∧
      Passed pass out := by
  cases fs with
  | nil => cases h
  | cons f below =>
      obtain ⟨⟨cur, x⟩, htop, h⟩ := bind_eq_ok.mp h
      cases htop
      obtain ⟨split, hsplit, h⟩ := bind_eq_ok.mp h
      obtain ⟨keyBelow, hkey, h⟩ := bind_eq_ok.mp h
      simp only [insertPass, onNodes, Frames.top_cons, ok_bind, onNodes_lift,
        hsplit, hkey]
      cases keyBelow with
      | none =>
          cases habove : split.above with
          | none =>
              simp only [habove] at h
              cases h
              simp only [onNodes_setTop_cons, onNodes_done]
              exact ⟨_, rfl, .leave rfl⟩
          | some above =>
              simp only [habove] at h
              obtain ⟨shared, hshared, h⟩ := bind_eq_ok.mp h
              cases h
              simp only [onNodes_lift, hshared, ok_bind,
                onNodes_setTop_cons, onNodes_done]
              exact ⟨_, rfl, .leave rfl⟩
      | some kiRest =>
          obtain ⟨ki, keyRest⟩ := kiRest
          cases habove : split.above with
          | none =>
              simp only [habove] at h
              dsimp only
              by_cases hnone : (f.node.children.get ki).isNone = true
              · rw [if_pos hnone] at h
                cases h
                rw [if_pos hnone]
                simp only [onNodes_setTop_cons, onNodes_done]
                exact ⟨_, rfl, .leave rfl⟩
              · rw [if_neg hnone] at h
                obtain ⟨⟨r, fs', s'⟩, hdescend, h⟩ := bind_eq_ok.mp h
                rw [if_neg hnone, onNodes_descend, hdescend, ok_bind]
                cases r with
                | error y =>
                    cases h
                    exact ⟨_, rfl, .leave fs'.tree_none⟩
                | ok u =>
                    cases h
                    exact ⟨_, rfl, .again⟩
          | some above =>
              simp only [habove] at h
              obtain ⟨shared, hshared, h⟩ := bind_eq_ok.mp h
              cases h
              simp only [onNodes_lift, hshared, ok_bind,
                onNodes_setTop_cons, onNodes_done]
              exact ⟨_, rfl, .leave rfl⟩

end Equations

/-! ### The hash -/

section Hash

variable {hasher : TrieHasher n V H} {store : EdgeStore n V H σ ε}
  {fs : Frames n V H (HashFrame n)} {t : Trie n V H} {s : σ}

theorem onNodes_pushPendingChild (i : Fin n) (siblings : ℕ) (buf : Path n)
    (next : Except ε Unit → Path n → σ → Client n V H (HashFrame n) R) :
    (pushPendingChild hasher store i siblings buf s next).onNodes fs t =
      ArityTries.pushPendingChild hasher store fs i siblings buf s >>=
        fun (r, fs, buf, s) => (next r buf s).onNodes fs t := by
  cases fs with
  | nil => rfl
  | cons f rest =>
      simp only [pushPendingChild, onNodes, ArityTries.pushPendingChild,
        Frames.pushDerived, Frames.tryPushChild]
      split
      · next hedge =>
          simp only [hedge]
          rfl
      · next e hedge =>
          simp only [hedge, expect_some, ok_bind]
          cases expect e.asInline "pending children are inline" with
          | error p => rfl
          | ok child =>
              simp only [ok_bind]
              cases prepare hasher store child (some i) buf.length siblings
                  buf s with
              | error p => rfl
              | ok out =>
                  obtain ⟨r, child', buf', s'⟩ := out
                  cases r <;> rfl

/-- A prepared frame carries the index it was given. -/
theorem prepare_indexInParent {node node' : TrieNode n V H}
    {index : Option (Fin n)} {leadingLen siblings : ℕ} {buf buf' : Path n}
    {s' : σ} {frame : HashFrame n}
    (h : prepare hasher store node index leadingLen siblings buf s =
      .ok (.ok frame, node', buf', s')) : frame.indexInParent = index := by
  simp only [prepare] at h
  split at h
  · obtain ⟨leading, -, h⟩ := bind_eq_ok.mp h
    split at h
    · obtain ⟨i, -, h⟩ := bind_eq_ok.mp h
      obtain ⟨edge, -, h⟩ := bind_eq_ok.mp h
      split at h
      · cases h
      · obtain ⟨rehashed, -, h⟩ := bind_eq_ok.mp h
        cases rehashed with
        | some hash =>
            cases h
            rfl
        | none =>
            rename_i s₁ _ _
            rcases store.materialize_cases s₁ edge with
              ⟨x, s₂, hm⟩ | ⟨s₂, hm⟩ <;> rw [hm] at h <;> cases h
            rfl
    · cases h
      rfl
  · cases h
    rfl

/-- Every frame records the slot it was derived from. -/
def Indexed (fs : Frames n V H (HashFrame n)) : Prop :=
  ∀ f ∈ fs, f.extra.indexInParent = f.slot

theorem Indexed.absorb {f g : Frame n V H (HashFrame n)}
    {rest : Frames n V H (HashFrame n)} (h : Indexed (f :: g :: rest))
    (f' : Frame n V H (HashFrame n)) : Indexed (g.absorb f' :: rest) := by
  have hrest := (List.forall_mem_cons.mp h).2
  obtain ⟨hg, hrest⟩ := List.forall_mem_cons.mp hrest
  refine List.forall_mem_cons.mpr ⟨?_, hrest⟩
  rw [Frame.absorb_extra, Frame.absorb_slot, hg]

theorem pushPendingChild_indexed {i : Fin n} {siblings : ℕ}
    {buf buf' : Path n} {s' : σ} {r : Except ε Unit}
    {fs' : Frames n V H (HashFrame n)} (h : Indexed fs)
    (hpush : ArityTries.pushPendingChild hasher store fs i siblings buf s =
      .ok (r, fs', buf', s')) : Indexed fs' := by
  cases fs with
  | nil => cases hpush
  | cons f rest =>
      obtain ⟨hf, hrest⟩ := List.forall_mem_cons.mp h
      obtain ⟨⟨r', nd, buf₁, s₁⟩, hderive, hpush⟩ := bind_eq_ok.mp hpush
      obtain ⟨e, -, hderive⟩ := bind_eq_ok.mp hderive
      obtain ⟨child, -, hderive⟩ := bind_eq_ok.mp hderive
      obtain ⟨⟨r'', child', buf₂, s₂⟩, hprepare, hderive⟩ :=
        bind_eq_ok.mp hderive
      cases r'' with
      | error x =>
          cases hderive
          cases hpush
          exact List.forall_mem_cons.mpr ⟨hf, hrest⟩
      | ok frame =>
          cases hderive
          cases hpush
          refine List.forall_mem_cons.mpr ⟨?_,
            List.forall_mem_cons.mpr ⟨hf, hrest⟩⟩
          exact prepare_indexInParent hprepare

theorem hashPass_passed {buf : Path n}
    {pass : Pass (Frames n V H (HashFrame n) × Path n × σ)
      (Except ε H × Trie n V H × σ)}
    (hderives : fs.Derives) (hindexed : Indexed fs)
    (h : hashBody hasher store (fs, buf, s) = .ok pass) :
    ∃ out, (hashPass hasher store (buf, s)).onNodes fs none = .ok out ∧
      Passed pass out ∧ Indexed out.2.1 := by
  cases fs with
  | nil => cases h
  | cons f below =>
      obtain ⟨hf, hbelow⟩ := List.forall_mem_cons.mp hindexed
      simp only [hashBody, Frames.top_cons, ok_bind] at h
      cases hi : Bitmap.select f.extra.pending 0 with
      | some i =>
          simp only [hi, Frames.setTopExtra_cons, ok_bind] at h
          obtain ⟨⟨r, fs', buf', s'⟩, hpush, h⟩ := bind_eq_ok.mp h
          simp only [hashPass, onNodes, Frames.top_cons, hi,
            Frames.setTopExtra_cons, ok_bind, onNodes_pushPendingChild,
            hpush]
          have hset : Indexed ({ f with extra := { f.extra with
              pending := Bitmap.withoutBit f.extra.pending i } } :: below) :=
            List.forall_mem_cons.mpr ⟨hf, hbelow⟩
          have hindexed' := pushPendingChild_indexed hset hpush
          cases r with
          | error x =>
              cases h
              exact ⟨_, rfl, .leave fs'.tree_none, hindexed'⟩
          | ok u =>
              cases h
              exact ⟨_, rfl, .again, hindexed'⟩
      | none =>
          simp only [hi] at h
          obtain ⟨⟨⟨hash, index⟩, nd, fs'⟩, hpop, h⟩ := bind_eq_ok.mp h
          simp only [hashPass, onNodes, Frames.top_cons, hi, hpop, ok_bind]
          cases below with
          | nil =>
              obtain ⟨out, hfinish, hpop⟩ := bind_eq_ok.mp hpop
              obtain ⟨⟨_, _⟩, -, hfinish⟩ := bind_eq_ok.mp hfinish
              cases hfinish
              cases hpop
              have hroot : f.extra.indexInParent = none := by
                rw [hf]
                exact hderives
              rw [hroot] at h ⊢
              cases h
              exact ⟨_, rfl, .leave rfl, by simp [Indexed]⟩
          | cons p rest =>
              obtain ⟨out, hfinish, hpop⟩ := bind_eq_ok.mp hpop
              obtain ⟨⟨hash', nd'⟩, -, hfinish⟩ := bind_eq_ok.mp hfinish
              cases hfinish
              cases hpop
              obtain ⟨⟨i, e, hslot, -⟩, -⟩ := hderives
              rw [hf, hslot] at h ⊢
              simp only [Frames.top_cons, ok_bind] at h
              obtain ⟨⟨parent, s'⟩, hseal, h⟩ := bind_eq_ok.mp h
              cases h
              simp only [onNodes, Frames.top_cons, ok_bind, onNodes_lift,
                hseal, Frames.setTop_cons]
              have habsorb := hindexed.absorb
                { slot := some i, node := nd', extra := f.extra }
              obtain ⟨hp, hrest⟩ := List.forall_mem_cons.mp habsorb
              exact ⟨_, rfl, .again, List.forall_mem_cons.mpr ⟨hp, hrest⟩⟩

end Hash

end Client

end ArityTries
