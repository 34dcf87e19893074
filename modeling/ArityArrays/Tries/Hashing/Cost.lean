import ArityArrays.Tries.Hashing.Retry
import ArityArrays.Tries.Mutation.Reach

/-!
# What a hash costs

The calls a hash makes of the store are counted.  Every inline edge is sealed
once, and every read of a lone sealed child is followed by one more seal; no
sealed edge is descended into.  Since a mutation leaves inline edges along its
key alone, a hash after a few mutations costs as much as their keys are long,
whatever the size of the trie.
-/

namespace ArityTries

open Checked Loop Node

variable {n : ℕ} {V H σ ε : Type}

/-! ## Counting calls -/

/-- The calls made of a store. -/
structure Meter where
  reads : ℕ := 0
  materialized : ℕ := 0
  inlined : ℕ := 0
  seals : ℕ := 0

/-- The store that also counts the calls made of it. -/
def EdgeStore.metered (store : EdgeStore n V H σ ε) :
    EdgeStore n V H (σ × Meter) ε where
  read s e :=
    let (r, s') := store.read s.1 e
    (r, s', { s.2 with reads := s.2.reads + 1 })
  materialize s e :=
    let (r, e', s') := store.materialize s.1 e
    (r, e', s', { s.2 with materialized := s.2.materialized + 1 })
  inline s m :=
    let (e, s') := store.inline s.1 m
    (e, s', { s.2 with inlined := s.2.inlined + 1 })
  sealEdge s e h :=
    let (e', s') := store.sealEdge s.1 e h
    (e', s', { s.2 with seals := s.2.seals + 1 })
  read_ok s e := store.read_ok s.1 e
  materialize_ok s e := store.materialize_ok s.1 e
  materialize_error s e := store.materialize_error s.1 e
  inline_edge s m := store.inline_edge s.1 m
  sealEdge_edge s e h := store.sealEdge_edge s.1 e h

/-! ## Preparing a node -/

namespace Node

variable {nd : TrieNode n V H} {i : Fin n} {e : Edge n V H}

/-- Nothing beneath a sealed edge of a tidy trie is inline. -/
theorem Tidy.countSlot_sealed (h : nd.Tidy)
    (he : nd.children.get i = some e) (hs : e.hash ≠ none) :
    countSlot (·.hash.isNone) (some e) = 0 := by
  have hall : e.node.AllSealed := h.root i e he hs
  have hbelow : inlineEdges e.node = 0 :=
    inlineEdges_eq_zero_iff.mpr ((h.child he).sealed_below hall [])
  rw [countSlot_some, if_neg]
  · exact (Nat.zero_add _).trans hbelow
  · rw [Option.isNone_iff_eq_none]
    exact hs

/-- The inline edges of a tidy node are those at and beneath its inline
slots. -/
theorem Tidy.inlineEdges_eq (h : nd.Tidy) :
    inlineEdges nd = ∑ i ∈ nd.inlineSlots,
      countSlot (·.hash.isNone) (nd.children.get i) := by
  rw [inlineEdges, countEdges_eq_sum]
  refine (Finset.sum_subset (Finset.subset_univ _) ?_).symm
  intro i _ hi
  cases he : nd.children.get i with
  | none => rfl
  | some e =>
      refine h.countSlot_sealed he ?_
      intro hnone
      exact hi (mem_inlineSlots.mpr ⟨e, he, hnone⟩)

end Node

/-- A frame whose pending slots are inline slots of the node it was prepared
from, as they were. -/
structure Primed (nd nd' : TrieNode n V H) (frame : HashFrame n) : Prop where
  pending : frame.pending = nd.inlineSlots
  kept : ∀ i ∈ nd.inlineSlots, nd'.children.get i = nd.children.get i

/-- Preparing a tidy node reads at most once, seals only after a read that
succeeds, and materializes nothing. -/
theorem prepare_meter {hasher : TrieHasher n V H}
    {store : EdgeStore n V H σ ε} {nd nd' : TrieNode n V H}
    (htidy : nd.Tidy) {index : Option (Fin n)} {leadingLen siblings : ℕ}
    {buf buf' : Path n} {s s' : σ} {m m' : Meter}
    {r : Except ε (HashFrame n)}
    (h : prepare hasher store.metered nd index leadingLen siblings buf
      (s, m) = .ok (r, nd', buf', s', m')) :
    m'.reads ≤ m.reads + 1 ∧ m'.materialized = m.materialized ∧
      m'.inlined = m.inlined ∧
      match r with
      | .error _ => m'.seals = m.seals ∧ m'.reads = m.reads + 1
      | .ok frame => m'.seals + m.reads = m.seals + m'.reads ∧
          frame.indexInParent = index ∧ Primed nd nd' frame := by
  have hscan : Primed nd nd { indexInParent := index, leadingLen, siblings
                              count := (scanChildren nd.children).count
                              pending := (scanChildren nd.children).pending } :=
    ⟨scanChildren_pending nd, fun _ _ => rfl⟩
  simp only [prepare] at h
  split at h
  · next hnum =>
    obtain ⟨leading, -, h⟩ := bind_eq_ok.mp h
    split at h
    · obtain ⟨i, hi, h⟩ := bind_eq_ok.mp h
      obtain ⟨edge, hedge, h⟩ := bind_eq_ok.mp h
      rw [expect_eq_ok] at hi hedge
      rcases scanChildren_sealed nd with ⟨-, hnot⟩ | ⟨j, f, hlone, -, hlast⟩
      · exact (hnot hnum).elim
      · obtain rfl : j = i := by
          rw [hlast] at hi
          exact Option.some.inj hi
        obtain ⟨hf, hsealed, -⟩ := loneSealed_eq_some hlone
        obtain rfl : f = edge := by
          rw [hf] at hedge
          exact Option.some.inj hedge
        have hall : f.node.AllSealed := htidy.root j f hf hsealed
        rcases store.read_cases s f with ⟨x, s₁, hread⟩ | ⟨s₁, hread⟩
        · simp only [EdgeStore.metered, hread] at h
          cases h
          exact ⟨le_rfl, rfl, rfl, rfl, rfl⟩
        · simp only [EdgeStore.metered, hread,
            hashSealedNode_of_allSealed hasher hall, ok_bind] at h
          cases h
          refine ⟨le_rfl, rfl, rfl, ?_, rfl, hscan.pending, ?_⟩
          · dsimp only
            omega
          · intro k hk
            refine ChildMap.get_set_of_ne _ ?_ _
            rintro rfl
            obtain ⟨g, hg, hnone⟩ := mem_inlineSlots.mp hk
            rw [hf] at hg
            cases hg
            exact hsealed hnone
    · cases h
      exact ⟨Nat.le_succ _, rfl, rfl, rfl, rfl, hscan⟩
  · cases h
    exact ⟨Nat.le_succ _, rfl, rfl, rfl, rfl, hscan⟩

/-! ## The walk -/

/-- The inline edges a frame has still to hash: at and beneath its pending
slots. -/
def Frame.owed (f : Frame n V H (HashFrame n)) : ℕ :=
  ∑ i ∈ f.extra.pending, countSlot (·.hash.isNone) (f.node.children.get i)

/-- The inline edges a stack has still to hash, those it has come through left
out. -/
def Frames.owed (frames : Frames n V H (HashFrame n)) : ℕ :=
  (frames.map Frame.owed).sum

/-- The pending slots of a frame are inline and lead to tidy nodes. -/
def Frame.Ready (f : Frame n V H (HashFrame n)) : Prop :=
  ∀ i ∈ f.extra.pending, ∃ e, f.node.children.get i = some e ∧
    e.hash = none ∧ e.node.Tidy

/-- Every frame but the root hangs off a slot that its parent is done with,
under the index it remembers. -/
inductive Frames.Linked : Frames n V H (HashFrame n) → Prop
  | root {f : Frame n V H (HashFrame n)}
      (hindex : f.extra.indexInParent = none) : Linked [f]
  | child {f p : Frame n V H (HashFrame n)}
      {rest : Frames n V H (HashFrame n)} {i : Fin n}
      (hslot : f.slot = some i) (hindex : f.extra.indexInParent = some i)
      (hdone : i ∉ p.extra.pending) (hrest : Linked (p :: rest)) :
      Linked (f :: p :: rest)

/-- What a frame owes depends on its pending slots alone. -/
theorem Frame.owed_congr {f g : Frame n V H (HashFrame n)}
    (hextra : g.extra = f.extra) (hkept : ∀ i ∈ f.extra.pending,
      g.node.children.get i = f.node.children.get i) :
    g.owed = f.owed := by
  unfold owed
  rw [hextra]
  refine Finset.sum_congr rfl ?_
  intro i hi
  rw [hkept i hi]

theorem Frame.Ready.congr {f g : Frame n V H (HashFrame n)}
    (h : f.Ready) (hextra : g.extra = f.extra)
    (hkept : ∀ i ∈ f.extra.pending,
      g.node.children.get i = f.node.children.get i) : g.Ready := by
  intro i hi
  rw [hextra] at hi
  rw [hkept i hi]
  exact h i hi

/-- A frame as its preparation leaves it owes the inline edges of its node. -/
theorem Primed.owed {nd nd' : TrieNode n V H} {frame : HashFrame n}
    (h : Primed nd nd' frame) (htidy : nd.Tidy) (slot : Option (Fin n)) :
    Frame.owed { slot, node := nd', extra := frame } = inlineEdges nd ∧
      Frame.Ready { slot, node := nd', extra := frame } := by
  constructor
  · rw [htidy.inlineEdges_eq, Frame.owed]
    dsimp only
    rw [h.pending]
    refine Finset.sum_congr rfl ?_
    intro i hi
    rw [h.kept i hi]
  · intro i hi
    dsimp only at hi ⊢
    rw [h.pending] at hi
    obtain ⟨e, he, hnone⟩ := mem_inlineSlots.mp hi
    rw [h.kept i hi]
    exact ⟨e, he, hnone, everywhere_of_const (htidy.child he)⟩

/-- What is left of a budget of `R` reads and, beyond the reads, `K` seals in
the middle of a walk that has made `m` calls, `m₀` of them before. -/
structure Budget (R K : ℕ) (m₀ m : Meter)
    (frames : Frames n V H (HashFrame n)) : Prop where
  linked : frames.Linked
  ready : ∀ f ∈ frames, f.Ready
  reads : m.reads + frames.owed ≤ R
  seals : m.seals + frames.owed + frames.length = K + m.reads
  others : m.materialized = m₀.materialized ∧ m.inlined = m₀.inlined

/-- What is left of the budget once the walk ends. -/
structure Spent (R K : ℕ) (m₀ m : Meter) {α : Type} (r : Except ε α) :
    Prop where
  reads : m.reads ≤ R
  seals : m.seals + 1 ≤ K + m.reads
  exact : (∃ a, r = .ok a) → m.seals + 1 = K + m.reads
  others : m.materialized = m₀.materialized ∧ m.inlined = m₀.inlined

namespace Budget

variable {R K : ℕ} {m₀ m : Meter} {f p : Frame n V H (HashFrame n)}
  {rest : Frames n V H (HashFrame n)}

/-- Taking a pending child pays for its edge, its reads and the edges beneath
it. -/
theorem owed_take {i : Fin n} {e : Edge n V H}
    (hi : i ∈ f.extra.pending) (he : f.node.children.get i = some e)
    (hnone : e.hash = none) :
    Frame.owed { f with extra := { f.extra with
      pending := Bitmap.withoutBit f.extra.pending i } } + 1 +
        inlineEdges e.node = f.owed := by
  obtain ⟨c, h⟩ := e
  obtain rfl : h = none := hnone
  have hsum := Finset.add_sum_erase f.extra.pending
    (fun j => countSlot (·.hash.isNone) (f.node.children.get j)) hi
  rw [he, countSlot_inline] at hsum
  unfold Frame.owed
  rw [← hsum]
  dsimp only [Bitmap.withoutBit, Edge.node_mk]
  omega

/-- A parent owes what it did after its child is hashed and sealed. -/
theorem absorb_congr (below : Frames n V H (HashFrame n)) {i : Fin n}
    (hslot : f.slot = some i)
    (hdone : i ∉ p.extra.pending) (nd : TrieNode n V H) {e : Edge n V H}
    {parent : TrieNode n V H}
    (hparent : parent =
      ((p.absorb { f with node := nd }).node).setChild i e) :
    ∃ g : Frame n V H (HashFrame n),
      Frames.setTop (p.absorb { f with node := nd } :: below) parent =
          g :: below ∧
        g.slot = p.slot ∧ g.extra = p.extra ∧
          ∀ j ∈ p.extra.pending,
            g.node.children.get j = p.node.children.get j := by
  refine ⟨{ p with node := parent }, ?_, rfl, rfl, ?_⟩
  · simp only [Frames.setTop_cons, Frame.absorb, hslot]
  · intro j hj
    have hne : j ≠ i := by
      rintro rfl
      exact hdone hj
    rw [hparent]
    dsimp only
    rw [setChild_children, ChildMap.get_set_of_ne _ hne]
    simp only [Frame.absorb, hslot, Node.writeChild]
    split
    · rfl
    · rw [setChild_children, ChildMap.get_set_of_ne _ hne]

/-- The budget after a pending child was prepared and pushed. -/
theorem push {m' : Meter} {i : Fin n} {c child : TrieNode n V H}
    {frame : HashFrame n} (h : Budget R K m₀ m (f :: rest))
    (hi : i ∈ f.extra.pending)
    (he : f.node.children.get i = some (.mk c none)) (htidy : c.Tidy)
    (hreads : m'.reads ≤ m.reads + 1)
    (hseals : m'.seals + m.reads = m.seals + m'.reads)
    (hothers : m'.materialized = m.materialized ∧ m'.inlined = m.inlined)
    (hindex : frame.indexInParent = some i) (hprimed : Primed c child frame) :
    Budget R K m₀ m' ({ slot := some i, node := child, extra := frame } ::
      { f with extra := { f.extra with
        pending := Bitmap.withoutBit f.extra.pending i } } :: rest) := by
  obtain ⟨howed, hready⟩ := hprimed.owed htidy (some i)
  have htake := owed_take hi he rfl
  have hreads₀ := h.reads
  have hseals₀ := h.seals
  simp only [Frames.owed, List.map_cons, List.sum_cons, List.length_cons]
    at hreads₀ hseals₀
  dsimp only [Edge.node_mk] at htake
  have hlinked : Frames.Linked ({ f with extra := { f.extra with
      pending := Bitmap.withoutBit f.extra.pending i } } :: rest) := by
    cases h.linked with
    | root hroot => exact .root hroot
    | child hslot hindex hdone hrest => exact .child hslot hindex hdone hrest
  refine ⟨.child rfl hindex ?_ hlinked, ?_, ?_, ?_, ?_⟩
  · simp [Bitmap.withoutBit]
  · intro g hg
    rcases List.mem_cons.mp hg with rfl | hg
    · exact hready
    · rcases List.mem_cons.mp hg with rfl | hg
      · intro j hj
        exact h.ready f (by simp) j (Finset.mem_of_mem_erase hj)
      · exact h.ready g (List.mem_cons_of_mem _ hg)
  · simp only [Frames.owed, List.map_cons, List.sum_cons, howed]
    omega
  · simp only [Frames.owed, List.map_cons, List.sum_cons, howed,
      List.length_cons]
    omega
  · exact ⟨hothers.1.trans h.others.1, hothers.2.trans h.others.2⟩

/-- The budget after a pending child could not be read. -/
theorem halt {m' : Meter} {i : Fin n} {e : Edge n V H} {α : Type} {x : ε}
    (h : Budget R K m₀ m (f :: rest)) (hi : i ∈ f.extra.pending)
    (he : f.node.children.get i = some e) (hnone : e.hash = none)
    (hseals : m'.seals = m.seals) (hreads : m'.reads = m.reads + 1)
    (hothers : m'.materialized = m.materialized ∧ m'.inlined = m.inlined) :
    Spent R K m₀ m' (.error x : Except ε α) := by
  have htake := owed_take hi he hnone
  have hreads₀ := h.reads
  have hseals₀ := h.seals
  simp only [Frames.owed, List.map_cons, List.sum_cons, List.length_cons]
    at hreads₀ hseals₀
  refine ⟨?_, ?_, ?_, ?_⟩
  · omega
  · omega
  · rintro ⟨a, ha⟩
    cases ha
  · exact ⟨hothers.1.trans h.others.1, hothers.2.trans h.others.2⟩

/-- The budget after a hashed child was sealed through its parent. -/
theorem absorbed {m' : Meter} {g : Frame n V H (HashFrame n)}
    (h : Budget R K m₀ m (f :: p :: rest)) (hempty : f.extra.pending = ∅)
    (hslot : g.slot = p.slot) (hextra : g.extra = p.extra)
    (hkept : ∀ j ∈ p.extra.pending,
      g.node.children.get j = p.node.children.get j)
    (hm' : m' = { m with seals := m.seals + 1 }) :
    Budget R K m₀ m' (g :: rest) := by
  subst hm'
  have howed : f.owed = 0 := by
    rw [Frame.owed, hempty, Finset.sum_empty]
  have hreads := h.reads
  have hseals := h.seals
  simp only [Frames.owed, List.map_cons, List.sum_cons, List.length_cons,
    howed, Nat.zero_add] at hreads hseals
  refine ⟨?_, ?_, ?_, ?_, h.others⟩
  · cases h.linked with
    | child _ _ _ hrest =>
        cases hrest with
        | root hroot => exact .root (hextra ▸ hroot)
        | child hslot' hindex' hdone' hrest' =>
            exact .child (hslot.trans hslot') (hextra ▸ hindex')
              hdone' hrest'
  · intro q hq
    rcases List.mem_cons.mp hq with rfl | hq
    · exact (h.ready p (by simp)).congr hextra hkept
    · exact h.ready q (by simp [hq])
  · simp only [Frames.owed, List.map_cons, List.sum_cons,
      Frame.owed_congr hextra hkept]
    exact hreads
  · simp only [Frames.owed, List.map_cons, List.sum_cons, List.length_cons,
      Frame.owed_congr hextra hkept]
    omega

/-- The budget once the root is hashed. -/
theorem finish {α : Type} {r : Except ε α} (h : Budget R K m₀ m [f])
    (hempty : f.extra.pending = ∅) : Spent R K m₀ m r := by
  have howed : f.owed = 0 := by
    rw [Frame.owed, hempty, Finset.sum_empty]
  have hreads := h.reads
  have hseals := h.seals
  simp only [Frames.owed, List.map_cons, List.map_nil, List.sum_cons,
    List.sum_nil, List.length_cons, List.length_nil, howed] at hreads hseals
  refine ⟨hreads, ?_, ?_, h.others⟩
  · omega
  · intro _
    omega

end Budget

/-- One pass keeps to the budget. -/
theorem hashBody_meter {hasher : TrieHasher n V H}
    {store : EdgeStore n V H σ ε} {R K : ℕ} {m₀ m : Meter}
    {frames : Frames n V H (HashFrame n)} {buf : Path n} {s : σ}
    (h : Budget R K m₀ m frames)
    {pass : Pass (Frames n V H (HashFrame n) × Path n × σ × Meter)
      (Except ε H × Trie n V H × σ × Meter)}
    (hbody : hashBody hasher store.metered (frames, buf, s, m) =
      .ok pass) :
    match pass with
    | .again (frames', _, _, m') => Budget R K m₀ m' frames'
    | .leave (r, _, _, m') => Spent R K m₀ m' r := by
  cases frames with
  | nil => cases hbody
  | cons f rest =>
      simp only [hashBody, Frames.top_cons, ok_bind] at hbody
      split at hbody
      · next i hi =>
          have hmem := Bitmap.mem_of_select_zero hi
          obtain ⟨⟨c, ch⟩, he, rfl, htidy⟩ := h.ready f (by simp) i hmem
          rw [Frames.setTopExtra_cons, ok_bind] at hbody
          obtain ⟨⟨r, frames', buf', s', m'⟩, hpush, hbody⟩ :=
            bind_eq_ok.mp hbody
          simp only [pushPendingChild, Frames.tryPushChild, he, expect_some,
            Edge.asInline_mk_none, ok_bind] at hpush
          obtain ⟨derived, hderive, hpush⟩ := bind_eq_ok.mp hpush
          obtain ⟨⟨r₂, child, buf₂, s₂, m₂⟩, hprepare, hderive⟩ :=
            bind_eq_ok.mp hderive
          obtain ⟨hread, hmat, hinl, hresult⟩ := prepare_meter htidy hprepare
          cases r₂ with
          | error x =>
              cases hderive
              cases hpush
              cases hbody
              exact h.halt hmem he rfl hresult.1 hresult.2 ⟨hmat, hinl⟩
          | ok frame =>
              obtain ⟨hseal, hindex, hprimed⟩ := hresult
              cases hderive
              cases hpush
              cases hbody
              exact h.push hmem he htidy hread hseal ⟨hmat, hinl⟩ hindex
                hprimed
      · next hi =>
          have hempty := Bitmap.select_zero_eq_none.mp hi
          obtain ⟨popped, hpop, hbody⟩ := bind_eq_ok.mp hbody
          cases h.linked with
          | root hindex =>
              obtain ⟨finished, hfinish, hpop⟩ := bind_eq_ok.mp hpop
              obtain ⟨⟨hash, node⟩, -, hfinish⟩ := bind_eq_ok.mp hfinish
              cases hfinish
              cases hpop
              simp only [hindex] at hbody
              cases hbody
              exact h.finish hempty
          | @child _ p rest i hslot hindex hdone hrest =>
              obtain ⟨finished, hfinish, hpop⟩ := bind_eq_ok.mp hpop
              obtain ⟨⟨hash, node⟩, -, hfinish⟩ := bind_eq_ok.mp hfinish
              cases hfinish
              cases hpop
              simp only [hindex, Frames.top_cons, ok_bind, sealChild]
                at hbody
              obtain ⟨⟨parent, s', m'⟩, hseal, hbody⟩ :=
                bind_eq_ok.mp hbody
              obtain ⟨edge, -, hseal⟩ := bind_eq_ok.mp hseal
              cases hseal
              cases hbody
              obtain ⟨g, hg, hgslot, hgextra, hgkept⟩ :=
                Budget.absorb_congr rest hslot hdone node rfl
              dsimp only
              rw [hg]
              exact h.absorbed hempty hgslot hgextra hgkept rfl

/-! ## Whole hashes -/

/-- Hashing a tidy trie, whether or not a read fails: it reads at most once
more than there are inline edges, materializes nothing, and when it succeeds it
seals every inline edge once and once more after every read. -/
theorem hash_meter (hasher : TrieHasher n V H)
    (store : EdgeStore n V H σ ε) {root : TrieNode n V H}
    (htidy : root.Tidy) (s : σ) :
    ∃ r t s' m, hash hasher store.metered root (s, {}) =
        .ok (r, t, s', m) ∧
      m.reads ≤ inlineEdges root + 1 ∧ m.materialized = 0 ∧ m.inlined = 0 ∧
      m.seals ≤ inlineEdges root + m.reads ∧
      ((∃ h, r = .ok h) → m.seals = inlineEdges root + m.reads) := by
  obtain ⟨r, t, ⟨s', m⟩, hrun⟩ : ∃ r t s',
      hash hasher store.metered root (s, {}) = .ok (r, t, s') := by
    rcases hash_cases hasher store.metered root (s, {}) with
      ⟨x, m, s', -, -, hrun⟩ | ⟨s', hrun⟩
    · exact ⟨_, _, s', hrun⟩
    · exact ⟨_, _, s', hrun⟩
  refine ⟨r, t, s', m, hrun, ?_⟩
  obtain ⟨⟨r₁, node, buf, s₁, m₁⟩, hprepare, hrest⟩ :=
    bind_eq_ok.mp hrun
  obtain ⟨hread, hmat, hinl, hresult⟩ := prepare_meter htidy hprepare
  dsimp only at hread hmat hinl
  cases r₁ with
  | error x =>
      cases hrest
      obtain ⟨hseal, -⟩ := hresult
      dsimp only at hseal
      refine ⟨?_, hmat, hinl, ?_, ?_⟩
      · omega
      · omega
      · rintro ⟨h, hh⟩
        cases hh
  | ok frame =>
      obtain ⟨hseal, hindex, hprimed⟩ := hresult
      obtain ⟨howed, hready⟩ := hprimed.owed htidy none
      dsimp only at hseal
      have hstart : Budget (inlineEdges root + 1) (inlineEdges root + 1)
          m₁ m₁ (Frames.new node frame) := by
        refine ⟨.root hindex, ?_, ?_, ?_, rfl, rfl⟩
        · intro f hf
          obtain rfl := List.mem_singleton.mp hf
          exact hready
        · simp only [Frames.owed, Frames.new, List.map_cons, List.map_nil,
            List.sum_cons, List.sum_nil, howed]
          omega
        · simp only [Frames.owed, Frames.new, List.map_cons, List.map_nil,
            List.sum_cons, List.sum_nil, howed, List.length_cons,
            List.length_nil]
          omega
      have hspent : Spent (inlineEdges root + 1) (inlineEdges root + 1)
          m₁ m r :=
        run_eq_ok_of_invariant
          (I := fun st => Budget (inlineEdges root + 1)
            (inlineEdges root + 1) m₁ st.2.2.2 st.1)
          (Q := fun out => Spent (inlineEdges root + 1)
            (inlineEdges root + 1) m₁ out.2.2.2 out.1)
          (fun _ _ hI hbody => hashBody_meter hI hbody)
          (fun _ _ hI hbody => hashBody_meter hI hbody) hstart hrest
      have hseals := hspent.seals
      refine ⟨hspent.reads, hspent.others.1.trans hmat,
        hspent.others.2.trans hinl, ?_, ?_⟩
      · omega
      · intro hok
        have hexact := hspent.exact hok
        omega

end ArityTries
