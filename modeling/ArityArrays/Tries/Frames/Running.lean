import ArityArrays.Tries.Frames.Simulation
import ArityArrays.Tries.NoPanic

/-!
# The mutations and the hash on raw pointers

The loops run on pointers return what they return on nodes, and the tree the
pointers point into is then the trie.  No access on the way goes through a
pointer whose borrow has ended.
-/

namespace ArityTries

open Checked Loop Borrows

variable {n : ℕ} {V H X σ ε τ ρ : Type}

namespace Raw

open Client

/-! ## Passes on pointers -/

/-- What a pass says, with the stack beside it. -/
def beside (fs : Frames n V H X) :
    Pass τ ρ → Pass (τ × Frames n V H X) (ρ × Frames n V H X)
  | .again st => .again (st, fs)
  | .leave r => .leave (r, fs)

/-- One pass of a client on pointers. -/
def passBody (pass : τ → Client n V H X (Pass τ ρ)) :
    τ × Frames n V H X →
      Checked (Pass (τ × Frames n V H X) (ρ × Frames n V H X))
  | (st, fs) => do
      let (p, fs) ← (pass st).onPointers fs
      return beside fs p

/-- Some passes of `pass` on pointers, from `st` on, come to say `p`, with a
stack that stands for `fs`, or for `t` once it is empty. -/
def Comes (pass : τ → Client n V H X (Pass τ ρ)) (st : τ)
    (pfs : Frames n V H X) (p : Pass τ ρ) (fs : ArityTries.Frames n V H X)
    (t : Trie n V H) : Prop :=
  ∃ k pfs', passes (passBody pass) k (st, pfs) = .ok (beside pfs' p) ∧
    pfs'.StandsFor fs t

section Passes

variable {pass : τ → Client n V H X (Pass τ ρ)} {st st' : τ}
  {pfs : Frames n V H X} {fs fs' : ArityTries.Frames n V H X}
  {t t' : Trie n V H} {p : Pass τ ρ}

theorem Comes.of_pass (h : pfs.StandsFor fs t)
    (hpass : (pass st).onNodes fs t = .ok (p, fs', t')) :
    Comes pass st pfs p fs' t' := by
  obtain ⟨pfs', hrun, h'⟩ := h.client_ok hpass
  exact ⟨1, pfs', passes_one (by simp [passBody, hrun]), h'⟩

theorem Comes.trans (h : Comes pass st pfs (.again st') fs t)
    (hnext : ∀ pfs' : Frames n V H X, pfs'.StandsFor fs t →
      Comes pass st' pfs' p fs' t') : Comes pass st pfs p fs' t' := by
  obtain ⟨j, pfs', hj, h'⟩ := h
  obtain ⟨k, pfs'', hk, h''⟩ := hnext pfs' h'
  exact ⟨j + k, pfs'', by rw [passes_add hj, hk], h''⟩

end Passes

/-- A loop on pointers ends, from `st` on, with the result `r`, and `trie` is
then the tree they point into. -/
def Ends (body : τ → Checked (Pass τ (ρ × Frames n V H X))) (st : τ) (r : ρ)
    (trie : Trie n V H) : Prop :=
  ∃ k pfs, passes body k st = .ok (.leave (r, pfs)) ∧
    some pfs.memory.root = trie

theorem Ends.of_passes {body : τ → Checked (Pass τ (ρ × Frames n V H X))}
    {st st' : τ} {r : ρ} {trie : Trie n V H} {j : ℕ}
    (hj : passes body j st = .ok (.again st')) (h : Ends body st' r trie) :
    Ends body st r trie := by
  obtain ⟨k, pfs, hk, htrie⟩ := h
  exact ⟨j + k, pfs, (passes_add hj k).trans hk, htrie⟩

section Ends

variable {pass : τ → Client n V H X (Pass τ ρ)} {st st' : τ}
  {pfs : Frames n V H X} {fs : ArityTries.Frames n V H X}
  {t trie : Trie n V H} {r : ρ}

theorem Comes.ends (h : Comes pass st pfs (.leave r) fs t)
    (htrie : fs.tree t = trie) : Ends (passBody pass) (st, pfs) r trie := by
  obtain ⟨k, pfs', hk, h'⟩ := h
  exact ⟨k, pfs', hk, h'.root.trans htrie⟩

theorem Ends.of_again (h : Comes pass st pfs (.again st') fs t)
    (hnext : ∀ pfs' : Frames n V H X, pfs'.StandsFor fs t →
      Ends (passBody pass) (st', pfs') r trie) :
    Ends (passBody pass) (st, pfs) r trie := by
  obtain ⟨j, pfs', hj, h'⟩ := h
  exact (hnext pfs' h').of_passes hj

end Ends

/-! ## Loops on pointers -/

/-- What a client goes on to say after a pass of a loop over a stack. -/
def resume {κ κ' ρ' : Type} (embed : κ → κ')
    (next : ρ → σ → Client n V H X (Pass κ' ρ')) :
    Pass (ArityTries.Frames n V H X × κ)
      (ρ × ArityTries.Frames n V H X × σ) →
      Checked (Pass κ' ρ' × ArityTries.Frames n V H X × Trie n V H)
  | .again (fs, st) => .ok (.again (embed st), fs, none)
  | .leave (r, fs, s) => (next r s).onNodes fs none

/-- A loop over a stack, each pass of which a client does on nodes: it comes to
whatever the client goes on to say. -/
theorem comes_of_run {κ κ' ρ' : Type}
    {body : ArityTries.Frames n V H X × κ →
      Checked (Pass (ArityTries.Frames n V H X × κ)
        (ρ × ArityTries.Frames n V H X × σ))}
    {variant : ArityTries.Frames n V H X × κ → ℕ}
    {hdec : Decreases body variant}
    {pass : κ' → Client n V H X (Pass κ' ρ')} {embed : κ → κ'}
    {next : ρ → σ → Client n V H X (Pass κ' ρ')}
    (hpass : ∀ fs st, (pass (embed st)).onNodes fs none =
      body (fs, st) >>= resume embed next)
    {fs fs' fs'' : ArityTries.Frames n V H X} {pfs : Frames n V H X} {st : κ}
    {r : ρ} {s' : σ} {p : Pass κ' ρ'} {t : Trie n V H}
    (h : pfs.StandsFor fs none)
    (hrun : run body variant hdec (fs, st) = .ok (r, fs', s'))
    (hnext : (next r s').onNodes fs' none = .ok (p, fs'', t)) :
    Comes pass (embed st) pfs p fs'' t := by
  refine run_induction
    (P := fun st => ∀ pfs : Frames n V H X, pfs.StandsFor st.1 none →
      Comes pass (embed st.2) pfs p fs'' t) ?_ ?_ hrun pfs h
  · rintro ⟨fs₁, st₁⟩ ⟨fs₂, st₂⟩ hagain ih pfs₁ h₁
    have hpass₁ := hpass fs₁ st₁
    rw [hagain] at hpass₁
    exact (Comes.of_pass h₁ hpass₁).trans ih
  · rintro ⟨fs₁, st₁⟩ hleave pfs₁ h₁
    have hpass₁ := hpass fs₁ st₁
    rw [hleave] at hpass₁
    exact .of_pass h₁ (hpass₁.trans hnext)

/-- The same for a loop that leaves with the trie its stack leaves behind. -/
theorem ends_of_run {body : ArityTries.Frames n V H X × τ × σ →
      Checked (Pass (ArityTries.Frames n V H X × τ × σ) (ρ × Trie n V H × σ))}
    {variant : ArityTries.Frames n V H X × τ × σ → ℕ}
    {hdec : Decreases body variant}
    {pass : τ × σ → Client n V H X (Pass (τ × σ) (ρ × σ))}
    {I : ArityTries.Frames n V H X → Prop}
    (hbody : ∀ fs rest s p, fs.Derives → I fs →
      body (fs, rest, s) = .ok p →
      ∃ out, (pass (rest, s)).onNodes fs none = .ok out ∧ Passed p out ∧
        I out.2.1)
    {fs : ArityTries.Frames n V H X} {pfs : Frames n V H X} {rest : τ}
    {s s' : σ} {r : ρ} {trie : Trie n V H} (h : pfs.StandsFor fs none)
    (hI : I fs)
    (hrun : run body variant hdec (fs, rest, s) = .ok (r, trie, s')) :
    Ends (passBody pass) ((rest, s), pfs) (r, s') trie := by
  refine run_induction
    (P := fun st => I st.1 → ∀ pfs : Frames n V H X,
      pfs.StandsFor st.1 none →
        Ends (passBody pass) (st.2, pfs) (r, s') trie)
    ?_ ?_ hrun hI pfs h
  · rintro ⟨fs₁, rest₁, s₁⟩ ⟨fs₂, rest₂, s₂⟩ hagain ih hI₁ pfs₁ h₁
    obtain ⟨out, hout, hpassed, hI₂⟩ :=
      hbody fs₁ rest₁ s₁ _ h₁.derives hI₁ hagain
    cases hpassed
    exact .of_again (.of_pass h₁ hout) (ih hI₂)
  · rintro ⟨fs₁, rest₁, s₁⟩ hleave hI₁ pfs₁ h₁
    obtain ⟨out, hout, hpassed, -⟩ :=
      hbody fs₁ rest₁ s₁ _ h₁.derives hI₁ hleave
    cases hpassed with
    | leave htrie => exact (Comes.of_pass h₁ hout).ends htrie

/-! ## Mutations -/

section Mutations

variable {store : EdgeStore n V H σ ε} {root : TrieNode n V H}
  {trie : Trie n V H} {s s' : σ}

theorem insert_ends {key : Path n} {value : V} {r : Except ε (Option V)}
    (hrun : ArityTries.insert store (some root) key value s =
      .ok (r, trie, s')) :
    Ends (passBody (insertPass store value)) ((key, s), Frames.new root none)
      (r, s') trie := by
  refine ends_of_run (I := fun _ => True) ?_ (.new root none) trivial hrun
  intro fs rest s₁ p _ _ hbody
  obtain ⟨out, hout, hpassed⟩ := insertPass_passed hbody
  exact ⟨out, hout, hpassed, trivial⟩

theorem pop_eq_some {fs fs' : ArityTries.Frames n V H X} {x : X}
    (h : fs.pop = some (x, fs')) : fs' ≠ [] := by
  match fs, h with
  | _ :: _ :: _, h =>
      obtain ⟨-, rfl⟩ := Prod.mk.inj (Option.some.inj h)
      simp

/-- What the unwind leaves when the root is the node to take. -/
theorem unwindRemove_root {fs fs' : ArityTries.Frames n V H (Descended n)}
    (hfs : fs ≠ [])
    (hrun : unwindRemove store fs s = .ok (.ok .root, fs', s')) :
    ∃ f, fs' = [f] := by
  refine run_eq_ok_of_invariant
    (Q := fun out => out.1 = .ok .root → ∃ f, out.2.1 = [f])
    (I := fun st => st.1 ≠ []) ?_ ?_ hfs hrun rfl
  · rintro ⟨fs₁, s₁⟩ ⟨fs₂, s₂⟩ hfs₁ hagain
    cases unwindRemoveBody_step hagain with
    | again hpop => exact pop_eq_some hpop
  · rintro ⟨fs₁, s₁⟩ ⟨d, fs₂, s₂⟩ hfs₁ hleave hd
    cases unwindRemoveBody_step hleave with
    | root hpop =>
        match fs₁, hfs₁, hpop with
        | [f], _, _ => exact ⟨f, rfl⟩
    | leave hroot => exact (hroot hd).elim

/-! ### Remove -/

theorem removePass_descending (fs : ArityTries.Frames n V H (Descended n))
    (st : Path n × σ) :
    (removePass store (.descending st.1, st.2)).onNodes fs none =
      descendToBody store (fs, st) >>=
        resume (fun st => (.descending st.1, st.2)) removeDescended := by
  rw [removePass, onNodes_descendToPass]
  rcases descendToBody store (fs, st) with x | (st' | out) <;> rfl

theorem removePass_unwinding (fs : ArityTries.Frames n V H (Descended n))
    (s : σ) :
    (removePass store (.unwinding, s)).onNodes fs none =
      unwindRemoveBody store (fs, s) >>=
        resume (fun s => (.unwinding, s)) removeUnwound := by
  rw [removePass, onNodes_unwindRemovePass]
  rcases unwindRemoveBody store (fs, s) with x | (st' | out) <;> rfl

/-- A loop on pointers ends with the result `r`.  If the root is taken, `trie`
is empty, else it is the tree they point into. -/
def Takes {τ ρ : Type}
    (body : τ → Checked (Pass τ ((ρ × Bool × σ) × Frames n V H X))) (st : τ)
    (r : ρ) (s : σ) (trie : Trie n V H) : Prop :=
  ∃ taken tree, Ends body st (r, taken, s) tree ∧
    trie = if taken then none else tree

section Takes

variable {τ ρ : Type} {r : ρ}

theorem Takes.of_passes
    {body : τ → Checked (Pass τ ((ρ × Bool × σ) × Frames n V H X))}
    {st st' : τ} {j : ℕ} (hj : passes body j st = .ok (.again st'))
    (h : Takes body st' r s trie) : Takes body st r s trie := by
  obtain ⟨taken, tree, hends, htrie⟩ := h
  exact ⟨taken, tree, hends.of_passes hj, htrie⟩

variable {pass : τ → Client n V H X (Pass τ (ρ × Bool × σ))} {st st' : τ}
  {pfs : Frames n V H X} {fs : ArityTries.Frames n V H X} {t : Trie n V H}

theorem Comes.left
    (h : Comes pass st pfs (.leave (r, false, s)) fs none) :
    Takes (passBody pass) (st, pfs) r s fs.trie :=
  ⟨false, _, h.ends fs.tree_none, rfl⟩

theorem Comes.taken (h : Comes pass st pfs (.leave (r, true, s)) fs t) :
    Takes (passBody pass) (st, pfs) r s none :=
  ⟨true, _, h.ends rfl, rfl⟩

theorem Takes.of_again (h : Comes pass st pfs (.again st') fs t)
    (hnext : ∀ pfs' : Frames n V H X, pfs'.StandsFor fs t →
      Takes (passBody pass) (st', pfs') r s trie) :
    Takes (passBody pass) (st, pfs) r s trie := by
  obtain ⟨j, pfs', hj, h'⟩ := h
  exact (hnext pfs' h').of_passes hj

end Takes

theorem remove_takes {key : Path n} {r : Except ε (Option V)}
    (hrun : ArityTries.remove store (some root) key s = .ok (r, trie, s')) :
    Takes (passBody (removePass store))
      ((.descending key, s), Frames.new root none) r s' trie := by
  obtain ⟨⟨d, fs, s₁⟩, hdescend, hrun⟩ := bind_eq_ok.mp hrun
  have hcomes : ∀ p fs' t,
      (removeDescended d s₁).onNodes fs none = .ok (p, fs', t) →
      Comes (removePass store) (.descending key, s) (Frames.new root none) p
        fs' t := fun p fs' t =>
    comes_of_run removePass_descending (.new root none) hdescend
  rcases d with x | (_ | _)
  · cases hrun
    exact (hcomes _ _ _ rfl).left
  · cases hrun
    exact (hcomes _ _ _ rfl).left
  refine .of_again (hcomes _ _ _ rfl) fun pfs h => ?_
  obtain ⟨⟨cur, x⟩, htop, hrun⟩ := bind_eq_ok.mp hrun
  cases fs with
  | nil => cases htop
  | cons f rest =>
      cases htop
      dsimp only at hrun
      by_cases hv : f.node.value.isNone = true
      · rw [if_pos hv] at hrun
        cases hrun
        refine Comes.left (.of_pass h ?_)
        simp only [removePass, onNodes, ArityTries.Frames.top_cons, ok_bind,
          hv, if_true]
      · rw [if_neg hv] at hrun
        rcases hcount : f.node.children.count with _ | _ | count
        · simp only [hcount] at hrun
          have hunwinding : Comes (removePass store) (.found, s₁) pfs
              (.again (.unwinding, s₁)) (f :: rest) none := by
            refine .of_pass h ?_
            simp only [removePass, onNodes, ArityTries.Frames.top_cons,
              ok_bind, hv, hcount]
            rfl
          refine .of_again hunwinding fun pfs' h' => ?_
          obtain ⟨⟨d, fs', s₂⟩, hunwind, hrun⟩ := bind_eq_ok.mp hrun
          have hcomes' : ∀ p fs'' t,
              (removeUnwound d s₂).onNodes fs' none = .ok (p, fs'', t) →
              Comes (removePass store) (.unwinding, s₁) pfs' p fs'' t :=
            fun p fs'' t => comes_of_run removePass_unwinding h' hunwind
          rcases d with x | (e | _)
          · cases hrun
            exact (hcomes' _ _ _ rfl).left
          · cases hinline : e.asInline with
            | none =>
                simp only [hinline] at hrun
                cases hrun
                refine (hcomes' _ _ _ ?_).left
                simp only [removeUnwound, hinline, onNodes_done]
            | some node =>
                simp only [hinline] at hrun
                obtain ⟨v, hv, hrun⟩ := bind_eq_ok.mp hrun
                cases hrun
                refine (hcomes' _ _ _ ?_).left
                simp only [removeUnwound, hinline, onNodes_lift, hv, ok_bind,
                  onNodes_done]
          · obtain ⟨g, rfl⟩ := unwindRemove_root (List.cons_ne_nil f rest)
              hunwind
            obtain ⟨v, hv, hrun⟩ := bind_eq_ok.mp hrun
            cases hrun
            refine (hcomes' _ [g] none ?_).taken
            simp only [removeUnwound, onNodes, ArityTries.Frames.top_cons,
              ok_bind, onNodes_lift]
            exact bind_eq_ok.mpr ⟨v, hv, rfl⟩
        · simp only [hcount] at hrun
          obtain ⟨⟨r, cur, s₂⟩, hclear, hrun⟩ := bind_eq_ok.mp hrun
          cases hrun
          refine Comes.left (.of_pass h ?_)
          simp only [removePass, onNodes, ArityTries.Frames.top_cons, ok_bind,
            hv, hcount, hclear]
          rfl
        · simp only [hcount] at hrun
          cases hrun
          refine Comes.left (.of_pass h ?_)
          simp only [removePass, onNodes, ArityTries.Frames.top_cons, ok_bind,
            hv, hcount]
          rfl

end Mutations

/-! ## Materializing a subtree -/

theorem materializeSubtreePass_resume {store : EdgeStore n V H σ ε}
    (fs : ArityTries.Frames n V H (Bitmap n)) (s : σ) :
    (materializeSubtreePass store s).onNodes fs none =
      materializeSubtreeBody store (fs, s) >>=
        resume id fun r s => .done (.leave (r, s)) := by
  simp only [materializeSubtreePass, onNodes, materializeSubtreeBody]
  cases fs with
  | nil => rfl
  | cons f rest =>
      simp only [ArityTries.Frames.top_cons, ok_bind]
      cases hi : Bitmap.select f.extra 0 with
      | none =>
          simp only [onNodes]
          cases ArityTries.Frames.pop (f :: rest) with
          | none => rfl
          | some xfs => rfl
      | some i =>
          simp only [onNodes, ArityTries.Frames.setTopExtra_cons, ok_bind,
            materializeChild, ArityTries.Frames.pushDerived,
            ArityTries.Frames.tryPushChild]
          cases hedge : f.node.children.get i with
          | none => rfl
          | some e =>
              simp only [expect_some, ok_bind]
              rcases store.materialize_cases s e with
                ⟨x, s', hm⟩ | ⟨s', hm⟩ <;> simp only [hm] <;> rfl

theorem materializeSubtree_ends {store : EdgeStore n V H σ ε}
    {root node : TrieNode n V H} {s s' : σ} {r : Except ε Unit}
    (hrun : materializeSubtree store root s = .ok (r, node, s')) :
    Ends (passBody (materializeSubtreePass store))
      (s, Frames.new root root.children.present) (r, s') (some node) := by
  obtain ⟨⟨r, fs, s'⟩, hrun, hnode⟩ := bind_eq_ok.mp hrun
  cases hnode
  have hcomes : Comes (materializeSubtreePass store) s
      (Frames.new root root.children.present) (.leave (r, s')) fs none :=
    comes_of_run materializeSubtreePass_resume (.new root _) hrun rfl
  -- The stack still stands for a tree, so the default is not used.
  obtain ⟨k, pfs, hk, h⟩ := hcomes
  refine ⟨k, pfs, hk, ?_⟩
  rw [← fs.tree_none, ← h.root, Option.getD_some]

/-! ## Removing a prefix -/

section RemovePrefix

variable {store : EdgeStore n V H σ ε} {root : TrieNode n V H}
  {trie : Trie n V H} {s s' : σ}

/-- Passes on a tree are passes on the subtree it is of a larger one. -/
theorem Frames.Within.passes {pass : τ → Client n V H X (Pass τ ρ)}
    {whole : TrieNode n V H} {base : Path n} {j k : ℕ} {outer : List ℕ}
    {fs fs' fs₁ : Frames n V H X} {st : τ} {r : ρ}
    (h : Within whole base k outer fs fs')
    (hrun : Loop.passes (passBody pass) j (st, fs) =
      .ok (.leave (r, fs₁))) :
    ∃ fs₁', Loop.passes (passBody pass) j (st, fs') =
        .ok (.leave (r, fs₁')) ∧ Within whole base k outer fs₁ fs₁' := by
  induction j generalizing st fs fs' with
  | zero => cases hrun
  | succ j ih =>
      rw [Loop.passes] at hrun ⊢
      rcases hpass : (pass st).onPointers fs with x | ⟨p, fs₂⟩
      · simp only [passBody, hpass] at hrun
        cases hrun
      · obtain ⟨fs₂', hpass', h'⟩ := h.client hpass
        simp only [passBody, hpass, hpass', ok_bind, pure_eq_ok]
          at hrun ⊢
        cases p with
        | again st' => exact ih h' hrun
        | leave r' =>
            cases hrun
            exact ⟨fs₂', rfl, h'⟩

theorem removePrefixPass_below
    {fs fs' : ArityTries.Frames n V H (Descended n)} {rest rest' : Path n}
    (h : ArityTries.removePrefixBody store (fs, rest, s) =
      .ok (.again (fs', rest', s'))) :
    (removePrefixPass store rest s).onNodes fs none =
      .ok ((.below rest', s'), fs', none) := by
  obtain ⟨⟨cur, x⟩, htop, h⟩ := bind_eq_ok.mp h
  obtain ⟨split, hsplit, h⟩ := bind_eq_ok.mp h
  obtain ⟨below, hbelow, h⟩ := bind_eq_ok.mp h
  simp only [removePrefixPass, onNodes, htop, ok_bind, onNodes_lift, hsplit,
    hbelow]
  rcases below with _ | ⟨i, prefixRest⟩
  · obtain ⟨⟨r, cur', s₁⟩, -, h⟩ := bind_eq_ok.mp h
    rcases r with y | u
    · cases h
    · obtain ⟨⟨d, fs₁, s₂⟩, -, h⟩ := bind_eq_ok.mp h
      rcases d with y | (e | _) <;> cases h
  · dsimp only at h ⊢
    split at h
    · cases h
    · next hpresent =>
        obtain ⟨⟨r, fs₁, s₁⟩, hdescend, h⟩ := bind_eq_ok.mp h
        rw [if_neg hpresent, onNodes_descend, hdescend, ok_bind]
        rcases r with y | u <;> cases h
        rfl

/-- How `remove_prefix` goes on after the walk on the subtree. -/
def materialized (frames : List (Pointer (Fin n) × Descended n)) :
    (Except ε Unit × σ) × Frames n V H (Bitmap n) →
      Pass (RemovePrefixAt n V H σ)
        ((Except ε Unit × Bool × σ) × Frames n V H (Descended n))
  | ((.error x, s), walk) =>
      .leave ((.error x, false, s), ⟨frames, walk.memory⟩)
  | ((.ok _, s), walk) => .again (.unwinding s ⟨frames, walk.memory⟩)

theorem materializing_passes {walk walk' : Frames n V H (Bitmap n)} {k : ℕ}
    {out : Except ε Unit × σ}
    (frames : List (Pointer (Fin n) × Descended n))
    (h : passes (passBody (materializeSubtreePass store)) k (s, walk) =
      .ok (.leave (out, walk'))) :
    ∃ j, passes (removePrefixBody store) j (.materializing s frames walk) =
      .ok (materialized frames (out, walk')) := by
  refine passes_of_nested (removePrefixBody store)
    (fun st => .materializing st.1 frames st.2) (materialized frames) ?_ ?_ h
  · rintro ⟨s₁, w⟩ ⟨s₂, w'⟩ hagain
    obtain ⟨⟨p, w''⟩, hclient, hagain⟩ := bind_eq_ok.mp hagain
    cases p with
    | again s₃ =>
        cases hagain
        simp only [removePrefixBody, hclient, ok_bind, pure_eq_ok]
    | leave r => cases hagain
  · rintro ⟨s₁, w⟩ ⟨⟨r, s₂⟩, w'⟩ hleave
    obtain ⟨⟨p, w''⟩, hclient, hleave⟩ := bind_eq_ok.mp hleave
    cases p with
    | again s₃ => cases hleave
    | leave out =>
        cases hleave
        simp only [removePrefixBody, hclient, ok_bind]
        cases r <;> rfl

/-- The walk on the subtree does what it does on a trie of its own, and the
frames beneath then stand for those with the materialized node on top. -/
theorem Frames.StandsFor.materializing {pfs : Frames n V H (Descended n)}
    {f : ArityTries.Frame n V H (Descended n)}
    {rest : ArityTries.Frames n V H (Descended n)} {node : TrieNode n V H}
    {d : Except ε Unit} (h : pfs.StandsFor (f :: rest) none)
    (hrun : materializeSubtree store f.node s = .ok (d, node, s')) :
    ∃ walk walk' j, pfs.nested f.node.children.present = .ok walk ∧
      Loop.passes (removePrefixBody store) j
        (.materializing s pfs.frames walk) =
          .ok (materialized pfs.frames ((d, s'), walk')) ∧
      StandsFor ⟨pfs.frames, walk'.memory⟩ ({ f with node } :: rest) none := by
  obtain ⟨whole, base, k, outer, walk, hnested, hwithin, hback⟩ :=
    h.nested f.node.children.present
  obtain ⟨j, wfs, hpasses, hroot⟩ := materializeSubtree_ends hrun
  obtain ⟨walk', hpasses', hwithin'⟩ := hwithin.passes hpasses
  obtain ⟨i, hi⟩ := materializing_passes pfs.frames hpasses'
  have hstands := hback wfs walk' hwithin'
  rw [Option.some.inj hroot] at hstands
  exact ⟨walk, walk', i, hnested, hi, hstands⟩

theorem removePrefixUnwindPass_resume
    (fs : ArityTries.Frames n V H (Descended n)) (s : σ) :
    (removePrefixUnwindPass store s).onNodes fs none =
      unwindRemoveBody store (fs, s) >>= resume id removePrefixUnwound := by
  rw [removePrefixUnwindPass, onNodes_unwindRemovePass]
  rcases unwindRemoveBody store (fs, s) with x | (st' | out) <;> rfl

/-- The unwind, seen from the whole of `remove_prefix`. -/
theorem Takes.of_unwind {pfs : Frames n V H (Descended n)} {r : Except ε Unit}
    (h : Takes (passBody (removePrefixUnwindPass store)) (s, pfs) r s' trie) :
    Takes (removePrefixBody store) (.unwinding s pfs) r s' trie := by
  obtain ⟨taken, tree, ⟨k, pfs', hk, hroot⟩, htrie⟩ := h
  obtain ⟨j, hj⟩ : ∃ j, passes (removePrefixBody store) j
      (.unwinding s pfs) = .ok (.leave ((r, taken, s'), pfs')) := by
    refine passes_of_nested (removePrefixBody store)
      (fun st => .unwinding st.1 st.2) .leave ?_ ?_ hk
    · rintro ⟨s₁, w⟩ ⟨s₂, w'⟩ hagain
      obtain ⟨⟨p, w''⟩, hclient, hagain⟩ := bind_eq_ok.mp hagain
      cases p with
      | again s₃ =>
          cases hagain
          simp only [removePrefixBody, hclient, ok_bind, pure_eq_ok]
      | leave r => cases hagain
    · rintro ⟨s₁, w⟩ ⟨r₁, w'⟩ hleave
      obtain ⟨⟨p, w''⟩, hclient, hleave⟩ := bind_eq_ok.mp hleave
      cases p with
      | again s₃ => cases hleave
      | leave out =>
          cases hleave
          simp only [removePrefixBody, hclient, ok_bind, pure_eq_ok]
  exact ⟨taken, tree, ⟨j, pfs', hj, hroot⟩, htrie⟩

/-- The unwind and what `remove_prefix` returns after it. -/
theorem Takes.unwound {pfs : Frames n V H (Descended n)}
    {fs fs' : ArityTries.Frames n V H (Descended n)}
    {d : Except ε (Detached n V H)} (h : pfs.StandsFor fs none)
    (hunwind : unwindRemove store fs s = .ok (d, fs', s')) :
    Takes (removePrefixBody store) (.unwinding s pfs)
      (d.map fun _ => ()) s'
      (match d with
        | .ok .root => none
        | _ => fs'.trie) := by
  have hcomes : ∀ p fs'' t,
      (removePrefixUnwound d s').onNodes fs' none = .ok (p, fs'', t) →
      Comes (removePrefixUnwindPass store) s pfs p fs'' t :=
    fun p fs'' t => comes_of_run removePrefixUnwindPass_resume h hunwind
  rcases d with y | (e | _)
  · exact (hcomes _ _ _ rfl).left.of_unwind
  · exact (hcomes _ _ _ rfl).left.of_unwind
  · exact (hcomes _ _ _ rfl).taken.of_unwind

theorem removePrefixBody_leave
    {fs : ArityTries.Frames n V H (Descended n)} {rest : Path n}
    {r : Except ε Unit} {pfs : Frames n V H (Descended n)}
    (h : pfs.StandsFor fs none)
    (hrun : ArityTries.removePrefixBody store (fs, rest, s) =
      .ok (.leave (r, trie, s'))) :
    Takes (removePrefixBody store) (.descending rest s pfs) r s' trie := by
  obtain ⟨⟨cur, x⟩, htop, hrun⟩ := bind_eq_ok.mp hrun
  obtain ⟨split, hsplit, hrun⟩ := bind_eq_ok.mp hrun
  obtain ⟨below, hbelow, hrun⟩ := bind_eq_ok.mp hrun
  have hpass : ∀ out fs' t,
      (removePrefixPass store rest s).onNodes fs none = .ok (out, fs', t) →
      ∃ pfs', (removePrefixPass store rest s).onPointers pfs =
        .ok (out, pfs') ∧ pfs'.StandsFor fs' t :=
    fun out fs' t => h.client_ok
  have hleft : ∀ r₁ s₁ fs',
      (removePrefixPass store rest s).onNodes fs none =
        .ok ((.leave r₁, s₁), fs', none) →
      Takes (removePrefixBody store) (.descending rest s pfs) r₁ s₁
        fs'.trie := by
    intro r₁ s₁ fs' hnodes
    obtain ⟨pfs', hclient, h'⟩ := hpass _ _ _ hnodes
    refine ⟨false, _, ⟨1, pfs', passes_one ?_, h'.root⟩, fs'.tree_none.symm⟩
    simp only [removePrefixBody, hclient, ok_bind, pure_eq_ok]
  simp only [removePrefixPass, onNodes, htop, ok_bind, onNodes_lift, hsplit,
    hbelow] at hpass hleft
  rcases below with _ | ⟨i, prefixRest⟩
  · obtain ⟨⟨d, cur', s₁⟩, hsubtree, hrun⟩ := bind_eq_ok.mp hrun
    obtain ⟨pfs₁, hclient, h₁⟩ := hpass _ _ _ rfl
    cases fs with
    | nil => cases htop
    | cons f rest' =>
        cases htop
        obtain ⟨walk, walk', j, hnested, hpasses, h₂⟩ :=
          h₁.materializing hsubtree
        have hstart : passes (removePrefixBody store) 1
            (.descending rest s pfs) =
              .ok (.again (.materializing s pfs₁.frames walk)) := by
          refine passes_one ?_
          simp only [removePrefixBody, removePrefixPass, hclient, ok_bind,
            hnested, pure_eq_ok]
        refine Takes.of_passes hstart ?_
        rcases d with y | u
        · cases hrun
          exact ⟨false, _, ⟨j, _, hpasses, h₂.root⟩, rfl⟩
        · refine Takes.of_passes hpasses ?_
          obtain ⟨⟨d, fs', s₂⟩, hunwind, hrun⟩ := bind_eq_ok.mp hrun
          have hunwound := Takes.unwound h₂ hunwind
          rcases d with y | (e | _)
          · cases hrun
            exact hunwound
          · cases hrun
            exact hunwound
          · cases hrun
            exact hunwound
  · dsimp only at hrun hpass hleft
    split at hrun
    · next habsent =>
        cases hrun
        rw [if_pos habsent] at hleft
        exact hleft _ _ _ rfl
    · next hpresent =>
        obtain ⟨⟨d, fs', s₁⟩, hdescend, hrun⟩ := bind_eq_ok.mp hrun
        rw [if_neg hpresent] at hleft
        simp only [onNodes_descend, hdescend, ok_bind] at hleft
        rcases d with y | u <;> cases hrun
        exact hleft _ _ _ rfl

theorem removePrefix_takes {keyPrefix : Path n} {r : Except ε Unit}
    (hrun : ArityTries.removePrefix store (some root) keyPrefix s =
      .ok (r, trie, s')) :
    Takes (removePrefixBody store)
      (.descending keyPrefix s (Frames.new root none)) r s' trie := by
  refine run_induction
    (P := fun st => ∀ pfs : Frames n V H (Descended n),
      pfs.StandsFor st.1 none →
      Takes (removePrefixBody store) (.descending st.2.1 st.2.2 pfs) r s'
        trie) ?_ ?_ hrun _ (.new root none)
  · rintro ⟨fs, rest, s₁⟩ ⟨fs', rest', s₂⟩ hagain ih pfs h
    obtain ⟨pfs', hclient, h'⟩ := h.client_ok (removePrefixPass_below hagain)
    refine (ih pfs' h').of_passes (passes_one ?_)
    simp only [removePrefixBody, hclient, ok_bind, pure_eq_ok]
  · rintro ⟨fs, rest, s₁⟩ hleave pfs h
    exact removePrefixBody_leave h hleave

end RemovePrefix

/-! ## The hash -/

theorem hash_ends {hasher : TrieHasher n V H} {store : EdgeStore n V H σ ε}
    {root root' : TrieNode n V H} {trie : Trie n V H} {s s₁ s' : σ}
    {buf : Path n} {frame : HashFrame n} {r : Except ε H}
    (hprepare : prepare hasher store root none 0 0 [] s =
      .ok (.ok frame, root', buf, s₁))
    (hrun : ArityTries.hash hasher store root s = .ok (r, trie, s')) :
    Ends (passBody (hashPass hasher store)) ((buf, s₁), Frames.new root' frame)
      (r, s') trie := by
  simp only [ArityTries.hash, hprepare, ok_bind] at hrun
  refine ends_of_run (I := Indexed) ?_ (.new root' frame) ?_ hrun
  · intro fs rest s p hderives hindexed hbody
    exact hashPass_passed hderives hindexed hbody
  · exact List.forall_mem_singleton.mpr (prepare_indexInParent hprepare)

/-! ## The algorithms -/

/-- Each algorithm that works on the frame stack ends on pointers, however its
store fails, with the result and the trie it ends with on nodes. -/
theorem algorithms_on_pointers (hasher : TrieHasher n V H)
    (store : EdgeStore n V H σ ε) (root : TrieNode n V H) (s : σ) :
    (∀ key value, ∃ r trie s',
      ArityTries.insert store (some root) key value s = .ok (r, trie, s') ∧
        Ends (passBody (insertPass store value))
          ((key, s), Frames.new root none) (r, s') trie) ∧
    (∀ key, ∃ r trie s',
      ArityTries.remove store (some root) key s = .ok (r, trie, s') ∧
        Takes (passBody (removePass store))
          ((.descending key, s), Frames.new root none) r s' trie) ∧
    (∀ keyPrefix, ∃ r trie s',
      ArityTries.removePrefix store (some root) keyPrefix s =
          .ok (r, trie, s') ∧
        Takes (removePrefixBody store)
          (.descending keyPrefix s (Frames.new root none)) r s' trie) ∧
    (∃ r node s', materializeSubtree store root s = .ok (r, node, s') ∧
      Ends (passBody (materializeSubtreePass store))
        (s, Frames.new root root.children.present) (r, s') (some node)) ∧
    ∃ r trie s', ArityTries.hash hasher store root s = .ok (r, trie, s') ∧
      ∀ frame root' buf s₁,
        prepare hasher store root none 0 0 [] s =
            .ok (.ok frame, root', buf, s₁) →
          Ends (passBody (hashPass hasher store))
            ((buf, s₁), Frames.new root' frame) (r, s') trie := by
  refine ⟨fun key value => ?_, fun key => ?_, fun keyPrefix => ?_, ?_, ?_⟩
  · obtain ⟨⟨r, trie, s'⟩, hrun⟩ :=
      (insert_outcome store (some root) key value s).safe
    exact ⟨r, trie, s', hrun, insert_ends hrun⟩
  · obtain ⟨⟨r, trie, s'⟩, hrun⟩ :=
      (remove_outcome store (some root) key s).safe
    exact ⟨r, trie, s', hrun, remove_takes hrun⟩
  · obtain ⟨⟨r, trie, s'⟩, hrun⟩ :=
      (removePrefix_outcome store (some root) keyPrefix s).safe
    exact ⟨r, trie, s', hrun, removePrefix_takes hrun⟩
  · obtain ⟨⟨r, node, s'⟩, hrun⟩ := materializeSubtree_safe store root s
    exact ⟨r, node, s', hrun, materializeSubtree_ends hrun⟩
  · obtain ⟨⟨r, trie, s'⟩, hrun⟩ := hash_safe hasher store root s
    exact ⟨r, trie, s', hrun, fun _ _ _ _ hprepare =>
      hash_ends hprepare hrun⟩

end Raw

end ArityTries
