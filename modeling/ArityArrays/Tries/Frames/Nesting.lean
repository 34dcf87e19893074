import ArityArrays.Tries.Frames.Borrowing

/-!
# A stack on the top pointer of another

The walk that materializes the subtree at the top of a stack has a stack of its
own, and its root pointer is made from the top pointer.  A client does on it
what it does on the subtree alone, and the pointers beneath may all still be
used when it is done.
-/

namespace ArityTries

open Checked Borrows

variable {n : ℕ} {V H X Y R : Type}

namespace Raw

namespace Frames

/-- A stack whose only frame is the node behind the top pointer of another. -/
def nested (fs : Frames n V H X) (extra : Y) : Checked (Frames n V H Y) := do
  let (p, _) ← expect fs.frames.head? "a stack is never empty"
  let (q, memory) ← fs.memory.renew p
  return { frames := [(q, extra)], memory }

/-- The frames of a stack, where its tree stands at `base` of a larger one. -/
def shifted (base : Path n) (k : ℕ) (frames : List (Pointer (Fin n) × X)) :
    List (Pointer (Fin n) × X) :=
  frames.map fun px => (px.1.within base k, px.2)

/-- The stack `fs` of a tree, where the tree stands at `base` of a larger
one. -/
structure Within (whole : TrieNode n V H) (base : Path n) (k : ℕ)
    (outer : List ℕ) (fs fs' : Frames n V H X) : Prop where
  frames : fs'.frames = shifted base k fs.frames
  memory : fs.memory.Within whole base k outer fs'.memory

namespace Within

variable {whole : TrieNode n V H} {base : Path n} {k : ℕ} {outer : List ℕ}
variable {fs fs' fs₁ : Frames n V H X}

theorem head (h : Within whole base k outer fs fs') {p : Pointer (Fin n)}
    {x : X} (hp : fs.frames.head? = some (p, x)) :
    fs'.frames.head? = some (p.within base k, x) := by
  rw [h.frames, shifted, List.head?_map, hp, Option.map_some]

theorem top (h : Within whole base k outer fs fs') {nd : TrieNode n V H}
    {x : X} (htop : fs.top = .ok (nd, x, fs₁)) :
    ∃ fs₁', fs'.top = .ok (nd, x, fs₁') ∧
      Within whole base k outer fs₁ fs₁' := by
  obtain ⟨⟨p, y⟩, hp, htop⟩ := bind_eq_ok.mp htop
  obtain ⟨⟨nd', m⟩, hm, htop⟩ := bind_eq_ok.mp htop
  cases htop
  rw [expect_eq_ok] at hp
  obtain ⟨m', haccess, hm', -⟩ := h.memory.access hm
  refine ⟨{ fs' with memory := m' }, ?_, ⟨h.frames, hm'⟩⟩
  simp [Frames.top, h.head hp, haccess]

theorem setTop (h : Within whole base k outer fs fs') {nd : TrieNode n V H}
    (hset : fs.setTop nd = .ok fs₁) :
    ∃ fs₁', fs'.setTop nd = .ok fs₁' ∧
      Within whole base k outer fs₁ fs₁' := by
  obtain ⟨⟨p, y⟩, hp, hset⟩ := bind_eq_ok.mp hset
  obtain ⟨m, hm, hset⟩ := bind_eq_ok.mp hset
  cases hset
  rw [expect_eq_ok] at hp
  obtain ⟨m', hwrite, hm'⟩ := h.memory.write hm
  refine ⟨{ fs' with memory := m' }, ?_, ⟨h.frames, hm'⟩⟩
  simp [Frames.setTop, h.head hp, hwrite]

theorem setTopExtra (h : Within whole base k outer fs fs') {extra : X}
    (hset : fs.setTopExtra extra = .ok fs₁) :
    ∃ fs₁', fs'.setTopExtra extra = .ok fs₁' ∧
      Within whole base k outer fs₁ fs₁' := by
  have hframes := h.frames
  unfold Frames.setTopExtra at hset
  rcases hfs : fs.frames with _ | ⟨⟨p, y⟩, rest⟩
  · rw [hfs] at hset
    cases hset
  · rw [hfs] at hset hframes
    cases hset
    refine ⟨⟨(p.within base k, extra) :: shifted base k rest, fs'.memory⟩, ?_,
      ⟨rfl, h.memory⟩⟩
    simp only [Frames.setTopExtra, hframes, shifted, List.map_cons]

theorem tryPushChild (h : Within whole base k outer fs fs') {A : Type}
    {derive : TrieNode n V H →
      Checked (A × (TrieNode n V H ⊕ Derived n V H X))} {a : A}
    (hpush : fs.tryPushChild derive = .ok (a, fs₁)) :
    ∃ fs₁', fs'.tryPushChild derive = .ok (a, fs₁') ∧
      Within whole base k outer fs₁ fs₁' := by
  obtain ⟨⟨p, y⟩, hp, hpush⟩ := bind_eq_ok.mp hpush
  obtain ⟨⟨nd, m⟩, hm, hpush⟩ := bind_eq_ok.mp hpush
  obtain ⟨⟨a', d⟩, hderive, hpush⟩ := bind_eq_ok.mp hpush
  rw [expect_eq_ok] at hp
  obtain ⟨m', haccess, hm', -⟩ := h.memory.access hm
  rcases d with nd' | c
  · obtain ⟨m₂, hwrite, hpush⟩ := bind_eq_ok.mp hpush
    cases hpush
    obtain ⟨m₂', hwrite', hm₂⟩ := hm'.write hwrite
    refine ⟨{ fs' with memory := m₂' }, ?_, ⟨h.frames, hm₂⟩⟩
    simp [Frames.tryPushChild, h.head hp, haccess, hderive, hwrite']
  · obtain ⟨m₂, hwrite, hpush⟩ := bind_eq_ok.mp hpush
    obtain ⟨⟨q, m₃⟩, hreborrow, hpush⟩ := bind_eq_ok.mp hpush
    cases hpush
    obtain ⟨m₂', hwrite', hm₂⟩ := hm'.write hwrite
    obtain ⟨m₃', hreborrow', hm₃⟩ := hm₂.reborrow hreborrow
    refine ⟨⟨(q.within base k, c.extra) :: fs'.frames, m₃'⟩, ?_, ⟨?_, hm₃⟩⟩
    · simp [Frames.tryPushChild, h.head hp, haccess, hderive, hwrite',
        hreborrow']
    · rw [h.frames]
      rfl

theorem popWith (h : Within whole base k outer fs fs') {A : Type}
    {finish : TrieNode n V H → X → Checked (A × TrieNode n V H)} {a : A}
    (hpop : fs.popWith finish = .ok (a, fs₁)) :
    ∃ fs₁', fs'.popWith finish = .ok (a, fs₁') ∧
      Within whole base k outer fs₁ fs₁' := by
  have hframes := h.frames
  unfold Frames.popWith at hpop
  rcases hfs : fs.frames with _ | ⟨⟨p, y⟩, rest⟩
  · rw [hfs] at hpop
    cases hpop
  · rw [hfs] at hpop hframes
    obtain ⟨⟨nd, m⟩, hm, hpop⟩ := bind_eq_ok.mp hpop
    obtain ⟨⟨a', nd'⟩, hfinish, hpop⟩ := bind_eq_ok.mp hpop
    obtain ⟨m₂, hwrite, hpop⟩ := bind_eq_ok.mp hpop
    cases hpop
    obtain ⟨m', haccess, hm', -⟩ := h.memory.access hm
    obtain ⟨m₂', hwrite', hm₂⟩ := hm'.write hwrite
    refine ⟨⟨shifted base k rest, m₂'⟩, ?_, ⟨rfl, hm₂⟩⟩
    simp [Frames.popWith, hframes, shifted, haccess, hfinish, hwrite']

theorem pop_none (h : Within whole base k outer fs fs')
    (hpop : fs.pop = none) : fs'.pop = none := by
  have hframes := h.frames
  unfold Frames.pop at hpop ⊢
  rcases hfs : fs.frames with _ | ⟨px, _ | ⟨py, rest⟩⟩
  · rw [hframes, hfs]
    rfl
  · rw [hframes, hfs]
    rfl
  · rw [hfs] at hpop
    cases hpop

theorem pop_some (h : Within whole base k outer fs fs') {x : X}
    (hpop : fs.pop = some (x, fs₁)) :
    ∃ fs₁', fs'.pop = some (x, fs₁') ∧
      Within whole base k outer fs₁ fs₁' := by
  have hframes := h.frames
  unfold Frames.pop at hpop ⊢
  rcases hfs : fs.frames with _ | ⟨px, _ | ⟨py, rest⟩⟩
  · rw [hfs] at hpop
    cases hpop
  · rw [hfs] at hpop
    cases hpop
  · rw [hfs] at hpop
    cases hpop
    rw [hframes, hfs]
    exact ⟨_, rfl, ⟨rfl, h.memory⟩⟩

/-- A client does on a subtree what it does on a tree of its own. -/
theorem client (h : Within whole base k outer fs fs') {c : Client n V H X R}
    {r : R} (hc : c.onPointers fs = .ok (r, fs₁)) :
    ∃ fs₁', c.onPointers fs' = .ok (r, fs₁') ∧
      Within whole base k outer fs₁ fs₁' := by
  induction c generalizing fs fs' with
  | done r =>
      cases hc
      exact ⟨fs', rfl, h⟩
  | panic p => cases hc
  | top next ih =>
      obtain ⟨⟨nd, x, fs₂⟩, htop, hc⟩ := bind_eq_ok.mp hc
      obtain ⟨fs₂', htop', h'⟩ := h.top htop
      rw [Client.onPointers, htop', ok_bind]
      exact ih nd x h' hc
  | setTop nd next ih =>
      obtain ⟨fs₂, hset, hc⟩ := bind_eq_ok.mp hc
      obtain ⟨fs₂', hset', h'⟩ := h.setTop hset
      rw [Client.onPointers, hset', ok_bind]
      exact ih h' hc
  | setTopExtra extra next ih =>
      obtain ⟨fs₂, hset, hc⟩ := bind_eq_ok.mp hc
      obtain ⟨fs₂', hset', h'⟩ := h.setTopExtra hset
      rw [Client.onPointers, hset', ok_bind]
      exact ih h' hc
  | tryPushChild derive next ih =>
      obtain ⟨⟨a, fs₂⟩, hpush, hc⟩ := bind_eq_ok.mp hc
      obtain ⟨fs₂', hpush', h'⟩ := h.tryPushChild hpush
      rw [Client.onPointers, hpush', ok_bind]
      exact ih a h' hc
  | popWith finish next ih =>
      obtain ⟨⟨a, fs₂⟩, hpop, hc⟩ := bind_eq_ok.mp hc
      obtain ⟨fs₂', hpop', h'⟩ := h.popWith hpop
      rw [Client.onPointers, hpop', ok_bind]
      exact ih a h' hc
  | pop next ih =>
      rw [Client.onPointers] at hc ⊢
      rcases hpop : fs.pop with _ | ⟨x, fs₂⟩
      · rw [hpop] at hc
        rw [h.pop_none hpop]
        exact ih none h hc
      · obtain ⟨fs₂', hpop', h'⟩ := h.pop_some hpop
        rw [hpop] at hc
        rw [hpop']
        exact ih (some x) h' hc

end Within

/-- On the top pointer of a stack stands a stack for the top node alone.  When
it has left a node there, the pointers beneath are a stack with that node on
top. -/
theorem StandsFor.nested {pfs : Frames n V H X} {f : Frame n V H X}
    {rest : ArityTries.Frames n V H X} {t : Trie n V H}
    (h : pfs.StandsFor (f :: rest) t) (extra : Y) :
    ∃ whole base k outer walk, pfs.nested extra = .ok walk ∧
      Within whole base k outer (Frames.new f.node extra) walk ∧
      ∀ fs walk' : Frames n V H Y, Within whole base k outer fs walk' →
        StandsFor { pfs with memory := walk'.memory }
          ({ f with node := fs.memory.root } :: rest) t := by
  obtain ⟨p, prest, hframes, hgranted, hp, hnode, hclose, hpositions,
    hextras⟩ := h.cons
  obtain ⟨m', k, outer, hrenew, hwithin, houter⟩ := hgranted.renew hnode
  refine ⟨pfs.memory.root, p.position, k, outer,
    ⟨[((Memory.new f.node).1.within p.position k, extra)], m'⟩, ?_,
    ⟨rfl, hwithin⟩, ?_⟩
  · simp [Frames.nested, hframes, hrenew]
  · intro fs walk' hwalk
    refine ⟨?_, h.positions, h.extras, ?_, h.derives.replace rfl⟩
    · rw [hframes]
      exact hwalk.memory.granted houter
    · rw [hwalk.memory.root, hp, hclose,
        ArityTries.Frames.writeAt_close h.derives]
      rfl

end Frames

end Raw

end ArityTries
