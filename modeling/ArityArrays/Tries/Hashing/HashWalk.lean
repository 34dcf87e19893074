import ArityArrays.Tries.Hashing.Merkle
import ArityArrays.Tries.Shape

/-!
# The hash walk computes the Merkle recursion

The walk over a frame stack and one shared path buffer is compared with
`merkle`, for an arbitrary stack beneath the current node.  When the store
fails, the nodes on the current path have been prepared and some of their
children hashed; `Halted` describes the trie this leaves.
-/

namespace ArityTries

open Checked Loop Node

variable {n : ℕ} {V H σ ε : Type}

/-! ## One node -/

section OneNode

variable {hasher : TrieHasher n V H} {nd : TrieNode n V H}

theorem sealedHashes_eq (hs : nd.AllSealed) :
    sealedHashes nd.children = .ok nd.cachedHashes := by
  have hlist : ∀ xs : List (Fin n × Edge n V H),
      (∀ ie ∈ xs, ie.2.hash ≠ none) →
      (xs.mapM fun ie => do
        let h ← expect ie.2.hash "every child is sealed"
        return (ie.1, h) : Checked (List (Fin n × H))) =
      .ok (xs.filterMap fun ie => ie.2.hash.map fun h => (ie.1, h)) := by
    intro xs hxs
    induction xs with
    | nil => rfl
    | cons ie xs ih =>
        obtain ⟨h, hh⟩ := Option.ne_none_iff_exists'.mp (hxs ie (by simp))
        have hrest := ih fun je hje => hxs je (by simp [hje])
        rw [List.mapM_cons, hrest]
        simp [hh]
  apply hlist
  rintro ⟨i, e⟩ hie
  exact hs i e (ChildMap.mem_iterPresent.mp hie)

theorem hashSealedNode_of_allSealed (hasher : TrieHasher n V H)
    (hs : nd.AllSealed) (L : Path n) (siblings : ℕ) :
    hashSealedNode hasher nd L siblings =
      .ok (some (nd.selfHash hasher L siblings)) := by
  have hany : (nd.children.iterPresent.any fun ie => ie.2.hash.isNone) =
      false := by
    rw [List.any_eq_false]
    rintro ⟨i, e⟩ hie
    simpa using hs i e (ChildMap.mem_iterPresent.mp hie)
  simp [hashSealedNode, hany, sealedHashes_eq hs, selfHash]

theorem hashSealedNode_of_inline (hasher : TrieHasher n V H)
    (hs : ¬ nd.AllSealed) (L : Path n) (siblings : ℕ) :
    hashSealedNode hasher nd L siblings = .ok none := by
  have hany : (nd.children.iterPresent.any fun ie => ie.2.hash.isNone) =
      true := by
    unfold AllSealed at hs
    push Not at hs
    obtain ⟨i, e, he, hnone⟩ := hs
    rw [List.any_eq_true]
    exact ⟨(i, e), ChildMap.mem_iterPresent.mpr he, by simp [hnone]⟩
  simp [hashSealedNode, hany]

theorem finishNode_eq (hasher : TrieHasher n V H) (hs : nd.AllSealed)
    (L : Path n) (siblings : ℕ) :
    finishNode hasher nd L siblings =
      .ok ((nd.rewritten hasher L).selfHash hasher L siblings,
        nd.rewritten hasher L) := by
  have hrewrite : rewriteValue hasher nd L =
      .ok (nd.rewritten hasher L) := by
    unfold rewriteValue rewritten
    cases hv : nd.value with
    | none =>
        have hsame : { nd with value := none } = nd := by
          rw [← hv]
        simp [hsame]
    | some v => simp [sealedHashes_eq hs]
  have hsealed : sealedHashes (nd.rewritten hasher L).children =
      .ok nd.cachedHashes := sealedHashes_eq hs
  simp only [finishNode, hrewrite, ok_bind, hsealed, pure_eq_ok]
  rfl

end OneNode

/-! ## Preparation -/

namespace Node

/-- The slots with an inline edge. -/
def inlineSlots (nd : TrieNode n V H) : Bitmap n :=
  Finset.univ.filter fun i => ((nd.children.get i).any (·.hash.isNone))

theorem mem_inlineSlots {nd : TrieNode n V H} {i : Fin n} :
    i ∈ nd.inlineSlots ↔
      ∃ e, nd.children.get i = some e ∧ e.hash = none := by
  rw [inlineSlots, Finset.mem_filter]
  simp [Option.any_eq_true]

end Node

namespace Scan

variable (scan : Scan n) {i : Fin n} {e : Edge n V H}

theorem edge_inline (he : e.hash = none) :
    scan.edge (i, e) = { scan with
      count := scan.count + 1
      pending := Bitmap.withBit scan.pending i } := by
  simp [edge, he]

theorem edge_sealed {h : H} (he : e.hash = some h) :
    scan.edge (i, e) = { scan with
      count := scan.count + 1
      numSealed := scan.numSealed + 1
      lastSealed := some i } := by
  simp [edge, he]

/-- What a scan collects, in closed form. -/
theorem foldl_edge (xs : List (Fin n × Edge n V H)) :
    xs.foldl edge scan = {
      pending := scan.pending ∪
        ((xs.filter fun ie => ie.2.hash.isNone).map Prod.fst).toFinset
      count := scan.count + xs.length
      numSealed := scan.numSealed +
        (xs.filter fun ie => ie.2.hash.isSome).length
      lastSealed :=
        ((xs.filter fun ie => ie.2.hash.isSome).getLast?.map Prod.fst).or
          scan.lastSealed } := by
  induction xs generalizing scan with
  | nil => simp
  | cons ie xs ih =>
      obtain ⟨i, e⟩ := ie
      rw [List.foldl_cons, ih]
      cases he : e.hash with
      | none =>
          simp [scan.edge_inline he, he, Bitmap.withBit, add_assoc,
            add_comm 1]
      | some h =>
          -- The last sealed child is `i` only if no later one is sealed.
          have hlast : ∀ l : List (Fin n × Edge n V H),
              (((i, e) :: l).getLast?.map Prod.fst).or scan.lastSealed =
                (l.getLast?.map Prod.fst).or (some i) := by
            intro l
            rw [List.getLast?_cons]
            cases l.getLast? with
            | none => rfl
            | some je => rfl
          have hsealed : ((i, e) :: xs).filter (fun ie => ie.2.hash.isSome) =
              (i, e) :: xs.filter fun ie => ie.2.hash.isSome :=
            List.filter_cons_of_pos (by simp [he])
          rw [hsealed, hlast, scan.edge_sealed he]
          simp [he, add_assoc, add_comm 1]

end Scan

section Prepare

variable {nd : TrieNode n V H}

theorem scanChildren_count (nd : TrieNode n V H) :
    (scanChildren nd.children).count = nd.children.count := by
  rw [scanChildren, Scan.foldl_edge]
  exact Nat.zero_add _

theorem scanChildren_pending (nd : TrieNode n V H) :
    (scanChildren nd.children).pending = nd.inlineSlots := by
  ext i
  rw [mem_inlineSlots, scanChildren, Scan.foldl_edge]
  simp [Bitmap.ZERO, ChildMap.mem_iterPresent]

/-- The scan finds one sealed child exactly when there is a lone one, and
then remembers it. -/
theorem scanChildren_sealed (nd : TrieNode n V H) :
    (nd.loneSealed = none ∧ (scanChildren nd.children).numSealed ≠ 1) ∨
      ∃ i e, nd.loneSealed = some (i, e) ∧
        (scanChildren nd.children).numSealed = 1 ∧
        (scanChildren nd.children).lastSealed = some i := by
  rw [scanChildren, Scan.foldl_edge]
  dsimp only
  unfold loneSealed
  cases nd.children.iterPresent.filter fun ie => ie.2.hash.isSome with
  | nil => simp
  | cons a l =>
      cases l with
      | nil => exact Or.inr ⟨a.1, a.2, rfl, rfl, rfl⟩
      | cons b l => simp

theorem scanChildren_of_lone {i : Fin n} {e : Edge n V H}
    (hlone : nd.loneSealed = some (i, e)) :
    (scanChildren nd.children).numSealed = 1 ∧
      (scanChildren nd.children).lastSealed = some i := by
  rcases scanChildren_sealed nd with ⟨hnone, -⟩ | ⟨j, f, hlone', h⟩
  · rw [hlone] at hnone
    cases hnone
  · rw [hlone] at hlone'
    cases hlone'
    exact h

/-- Every sealed edge leads to a node whose children are all sealed. -/
def Node.Tidy (nd : TrieNode n V H) : Prop :=
  Everywhere (fun _ m => ∀ i e, m.children.get i = some e →
    e.hash ≠ none → e.node.AllSealed) [] nd

/-- What can make the walk fail: a read, or the materializing of a lone sealed
child with an inline child of its own. -/
def WalkFails (store : EdgeStore n V H σ ε) (nd : TrieNode n V H) : Prop :=
  (∃ s e x, (store.read s e).1 = .error x) ∨
    (∃ s e x, (store.materialize s e).1 = .error x) ∧ ¬ nd.Tidy

theorem WalkFails.not_neverFails {store : EdgeStore n V H σ ε}
    (h : WalkFails store nd) : ¬ store.NeverFails := by
  intro hstore
  rcases h with ⟨s, e, x, hx⟩ | ⟨⟨s, e, x, hx⟩, -⟩
  · exact hstore.read s e x hx
  · exact hstore.materialize s e x hx

theorem WalkFails.of_read {store : EdgeStore n V H σ ε} {s s' : σ}
    {e : Edge n V H} {x : ε} (h : store.read s e = (.error x, s')) :
    WalkFails store nd :=
  Or.inl ⟨s, e, x, by rw [h]⟩

theorem WalkFails.of_materialize {store : EdgeStore n V H σ ε} {s s' : σ}
    {e e' : Edge n V H} {x : ε}
    (h : store.materialize s e = (.error x, e', s')) (hnd : ¬ nd.Tidy) :
    WalkFails store nd :=
  Or.inr ⟨⟨s, e, x, by rw [h]⟩, hnd⟩

/-- A walk that fails beneath a child fails. -/
theorem WalkFails.parent {store : EdgeStore n V H σ ε} {i : Fin n}
    {e : Edge n V H} (he : nd.children.get i = some e)
    (h : WalkFails store e.node) : WalkFails store nd := by
  rcases h with hread | ⟨hm, htidy⟩
  · exact Or.inl hread
  · refine Or.inr ⟨hm, ?_⟩
    intro hnd
    exact htidy (everywhere_of_const (hnd.child he))

variable (hasher : TrieHasher n V H) (store : EdgeStore n V H σ ε)

/-- The frame of a node with some of its children still to hash. -/
def walkFrame (L : Path n) (nd : TrieNode n V H) (index : Option (Fin n))
    (siblings : ℕ) (pending : Bitmap n) : HashFrame n where
  indexInParent := index
  leadingLen := L.length
  siblings := siblings
  count := nd.children.count
  pending := pending

theorem take_slot (L : Path n) (nd : TrieNode n V H) (i : Fin n) :
    L.take L.length ++ nd.partialPath ++ [i] = slotPath L nd i := by
  simp [slotPath]

theorem take_slotPath (L : Path n) (nd : TrieNode n V H) (i : Fin n) :
    (slotPath L nd i).take L.length = L := by
  simp [slotPath]

theorem inlineSlots_setChild_sealed {i : Fin n} {e : Edge n V H}
    (he : nd.children.get i = some e) (hs : e.hash ≠ none)
    (m : TrieNode n V H) (h : H) :
    (nd.setChild i (.mk m (some h))).inlineSlots = nd.inlineSlots := by
  ext j
  rw [mem_inlineSlots, mem_inlineSlots, setChild_children, ChildMap.get_set]
  split
  · next hj =>
      subst j
      simp [he, hs]
  · rfl

theorem inlineSlots_setChild_inline {i : Fin n} (m : TrieNode n V H) :
    (nd.setChild i (.mk m none)).inlineSlots =
      Bitmap.withBit nd.inlineSlots i := by
  ext j
  rw [Bitmap.withBit, Finset.mem_insert, mem_inlineSlots, mem_inlineSlots,
    setChild_children, ChildMap.get_set]
  split
  · next hj => simp [hj]
  · next hj => simp [hj]

section Cases

variable {L : Path n} {index : Option (Fin n)} {siblings : ℕ} {i : Fin n}
  {e : Edge n V H} {s s₁ s₂ : σ}

/-- With nothing to rehash a node is prepared by the scan alone. -/
theorem prepare_same (h : nd.loneSealed = none ∨
      hasher.siblingSensitive L nd.partialPath = false) :
    prepare hasher store nd index L.length siblings L s =
      .ok (.ok (walkFrame L nd index siblings nd.inlineSlots), nd, L, s) := by
  have hskip : (scanChildren nd.children).numSealed ≠ 1 ∨
      hasher.siblingSensitive L nd.partialPath = false := by
    rcases scanChildren_sealed nd with ⟨-, hnum⟩ | ⟨i, e, hlone, -, -⟩
    · exact Or.inl hnum
    · rcases h with hnone | hinsens
      · rw [hlone] at hnone
        cases hnone
      · exact Or.inr hinsens
  rcases hskip with hnum | hinsens
  · simp [prepare, hnum, walkFrame, scanChildren_count,
      scanChildren_pending]
  · simp [prepare, hinsens, walkFrame, scanChildren_count,
      scanChildren_pending]

variable (hsens : hasher.siblingSensitive L nd.partialPath = true)
  (hlone : nd.loneSealed = some (i, e))

include hsens hlone

/-- The buffer holds the path of a lone sealed child while it is hashed. -/
theorem prepare_read_error {x : ε} (hread : store.read s e = (.error x, s₁)) :
    prepare hasher store nd index L.length siblings L s =
      .ok (.error x, nd, slotPath L nd i, s₁) := by
  obtain ⟨hnum, hlast⟩ := scanChildren_of_lone hlone
  have he := (loneSealed_eq_some hlone).1
  simp [prepare, hnum, hsens, hlast, he, hread, slotPath]

theorem prepare_rehashed (hread : store.read s e = (.ok e.node, s₁))
    (hall : e.node.AllSealed) :
    ∃ s', prepare hasher store nd index L.length siblings L s =
      .ok (.ok (walkFrame L nd index siblings nd.inlineSlots),
        nd.setChild i (.mk e.node (some
          (e.node.selfHash hasher (slotPath L nd i) nd.children.count))),
        L, s') := by
  obtain ⟨hnum, hlast⟩ := scanChildren_of_lone hlone
  have he := (loneSealed_eq_some hlone).1
  have hself := hashSealedNode_of_allSealed hasher hall (slotPath L nd i)
    nd.children.count
  have hedge := store.sealEdge_edge s₁ e
    (e.node.selfHash hasher (slotPath L nd i) nd.children.count)
  refine ⟨(store.sealEdge s₁ e
    (e.node.selfHash hasher (slotPath L nd i) nd.children.count)).2, ?_⟩
  simp only [prepare, hnum, hsens, hlast, he, hread, if_true, sliceTo_length,
    ok_bind, expect_some, take_slot, take_slotPath, scanChildren_count,
    scanChildren_pending, hself, hedge, pure_eq_ok, walkFrame]

theorem prepare_opened_error {x : ε}
    (hread : store.read s e = (.ok e.node, s₁)) (hall : ¬ e.node.AllSealed)
    (hm : store.materialize s₁ e = (.error x, e, s₂)) :
    prepare hasher store nd index L.length siblings L s =
      .ok (.error x, nd, L, s₂) := by
  obtain ⟨hnum, hlast⟩ := scanChildren_of_lone hlone
  have he := (loneSealed_eq_some hlone).1
  have hself := hashSealedNode_of_inline hasher hall (slotPath L nd i)
    nd.children.count
  simp only [prepare, hnum, hsens, hlast, he, hread, if_true, sliceTo_length,
    ok_bind, expect_some, take_slot, take_slotPath, scanChildren_count, hself,
    hm, pure_eq_ok, setChild_get he]

theorem prepare_opened (hread : store.read s e = (.ok e.node, s₁))
    (hall : ¬ e.node.AllSealed)
    (hm : store.materialize s₁ e = (.ok (), .mk e.node none, s₂)) :
    prepare hasher store nd index L.length siblings L s =
      .ok (.ok (walkFrame L nd index siblings
        (Bitmap.withBit nd.inlineSlots i)),
        nd.setChild i (.mk e.node none), L, s₂) := by
  obtain ⟨hnum, hlast⟩ := scanChildren_of_lone hlone
  have he := (loneSealed_eq_some hlone).1
  have hself := hashSealedNode_of_inline hasher hall (slotPath L nd i)
    nd.children.count
  simp only [prepare, hnum, hsens, hlast, he, hread, if_true, sliceTo_length,
    ok_bind, expect_some, take_slot, take_slotPath, scanChildren_count,
    scanChildren_pending, hself, hm, pure_eq_ok, walkFrame]

end Cases

/-- The two ways the preparation of a node can end. -/
theorem prepare_cases (L : Path n) (nd : TrieNode n V H)
    (index : Option (Fin n)) (siblings : ℕ) (s : σ) :
    (∃ x buf s', WalkFails store nd ∧
      prepare hasher store nd index L.length siblings L s =
        .ok (.error x, nd, buf, s')) ∨
    ∃ s', prepare hasher store nd index L.length siblings L s =
      .ok (.ok (walkFrame L nd index siblings
        (nd.reseal hasher L).inlineSlots), nd.reseal hasher L, L, s') := by
  have hresealed := nd.reseal_resealed hasher L
  generalize nd.reseal hasher L = m at hresealed ⊢
  cases hresealed with
  | same h => exact Or.inr ⟨s, prepare_same hasher store h⟩
  | @rehashed i e hsens hlone hall =>
      obtain ⟨he, hs, -⟩ := loneSealed_eq_some hlone
      rcases store.read_cases s e with ⟨x, s₁, hread⟩ | ⟨s₁, hread⟩
      · exact Or.inl ⟨x, _, s₁, .of_read hread,
          prepare_read_error hasher store hsens hlone hread⟩
      · obtain ⟨s', hp⟩ :=
          prepare_rehashed hasher store hsens hlone hread hall
        refine Or.inr ⟨s', ?_⟩
        rw [hp, inlineSlots_setChild_sealed he hs]
  | @opened i e hsens hlone hall =>
      obtain ⟨he, hs, -⟩ := loneSealed_eq_some hlone
      rcases store.read_cases s e with ⟨x, s₁, hread⟩ | ⟨s₁, hread⟩
      · exact Or.inl ⟨x, _, s₁, .of_read hread,
          prepare_read_error hasher store hsens hlone hread⟩
      · have htidy : ¬ nd.Tidy := fun h => hall (h.root i e he hs)
        rcases store.materialize_cases s₁ e with ⟨x, s₂, hm⟩ | ⟨s₂, hm⟩
        · exact Or.inl ⟨x, L, s₂, .of_materialize hm htidy,
            prepare_opened_error hasher store hsens hlone hread hall hm⟩
        · refine Or.inr ⟨s₂, ?_⟩
          rw [prepare_opened hasher store hsens hlone hread hall hm,
            inlineSlots_setChild_inline]

end Prepare

/-! ## The walk -/

/-- What a failed walk makes of a node: nothing while it is being prepared;
afterwards some children are hashed and one is in the middle of its turn. -/
inductive Halted (hasher : TrieHasher n V H) :
    Path n → TrieNode n V H → TrieNode n V H → Prop
  | prepare (L : Path n) (nd : TrieNode n V H) : Halted hasher L nd nd
  | slot {L : Path n} {nd m m₁ : TrieNode n V H} {pending : Bitmap n}
      {i : Fin n} (hi : (nd.reseal hasher L).children.get i =
        some (.mk m none))
      (hm : Halted hasher (slotPath L nd i) m m₁) :
      Halted hasher L nd
        ((walked hasher L nd pending).setChild i (.mk m₁ none))

section Walk

variable {hasher : TrieHasher n V H} {store : EdgeStore n V H σ ε}
  {L : Path n} {nd : TrieNode n V H}

/-- With nothing hashed yet the node is as prepared. -/
theorem walked_inlineSlots (hasher : TrieHasher n V H) (L : Path n)
    (nd : TrieNode n V H) :
    walked hasher L nd (nd.reseal hasher L).inlineSlots =
      nd.reseal hasher L := by
  apply Node.ext
  · simp
  · simp
  · apply ChildMap.ext_get
    intro i
    rw [walked_get]
    split
    · rfl
    · next hi =>
        cases he : (nd.reseal hasher L).children.get i with
        | none => rfl
        | some e =>
            have hs : e.hash.isSome := by
              rw [Option.isSome_iff_ne_none]
              intro hnone
              exact hi (mem_inlineSlots.mpr ⟨e, he, hnone⟩)
            simp [hashedEdge, hs]

/-- Sealing a child with its hash is one step of the node's turn. -/
theorem walked_setChild {pending : Bitmap n} {i : Fin n}
    {m : TrieNode n V H}
    (hi : (nd.reseal hasher L).children.get i = some (.mk m none)) :
    (walked hasher L nd pending).setChild i (.mk
        (merkle hasher (slotPath L nd i) nd.children.count m).2
        (some (merkle hasher (slotPath L nd i) nd.children.count m).1)) =
      walked hasher L nd (Bitmap.withoutBit pending i) := by
  apply Node.ext
  · rfl
  · rfl
  · apply ChildMap.ext_get
    intro j
    rw [setChild_children, walked_get]
    by_cases hj : j = i
    · subst j
      rw [ChildMap.get_set_self, if_neg (by simp [Bitmap.withoutBit]), hi]
      rfl
    · rw [ChildMap.get_set_of_ne _ hj, walked_get]
      simp only [Bitmap.withoutBit, Finset.mem_erase, hj, ne_eq,
        not_false_eq_true, true_and]

theorem walked_allSealed (hasher : TrieHasher n V H) (L : Path n)
    (nd : TrieNode n V H) : (walked hasher L nd ∅).AllSealed := by
  intro i e he
  rw [walked_get, if_neg (Finset.notMem_empty i)] at he
  obtain ⟨f, -, rfl⟩ := Option.map_eq_some_iff.mp he
  unfold hashedEdge
  split
  · next hs => exact Option.isSome_iff_ne_none.mp hs
  · simp

/-- A pending slot holds the node that was there before. -/
theorem exists_of_inlineSlot {i : Fin n}
    (hi : i ∈ (nd.reseal hasher L).inlineSlots) :
    ∃ e, nd.children.get i = some e ∧
      (nd.reseal hasher L).children.get i = some (.mk e.node none) := by
  obtain ⟨f, hf, hnone⟩ := mem_inlineSlots.mp hi
  obtain ⟨e, h, he, rfl⟩ := get_of_reseal hf
  obtain rfl : h = none := hnone
  exact ⟨e, he, hf⟩

/-- The walk, from an arbitrary stack. -/
def hashWalk (hasher : TrieHasher n V H) (store : EdgeStore n V H σ ε)
    (frames : Frames n V H (HashFrame n)) (buf : Path n) (s : σ) :
    Checked (Except ε H × Trie n V H × σ) :=
  run (hashBody hasher store) _ (hashBody_decreases hasher store)
    (frames, buf, s)

/-- A child whose children are all sealed is hashed and sealed through its
parent. -/
theorem hashWalk_seal (store : EdgeStore n V H σ ε) {m : TrieNode n V H}
    {pending : Bitmap n} {i : Fin n} (index : Option (Fin n))
    (siblings : ℕ) (slot : Option (Fin n))
    (rest : Frames n V H (HashFrame n)) {buf : Path n} (s : σ)
    (hi : (nd.reseal hasher L).children.get i = some (.mk m none))
    (hpending : i ∈ pending)
    (hbuf : buf.take (slotPath L nd i).length = slotPath L nd i) :
    ∃ s', hashWalk hasher store
      ({ slot := some i, node := walked hasher (slotPath L nd i) m ∅,
         extra := walkFrame (slotPath L nd i) m (some i)
           nd.children.count ∅ } ::
       { slot, node := walked hasher L nd pending,
         extra := walkFrame L nd index siblings
           (Bitmap.withoutBit pending i) } :: rest) buf s =
      hashWalk hasher store
        ({ slot, node := walked hasher L nd (Bitmap.withoutBit pending i),
           extra := walkFrame L nd index siblings
             (Bitmap.withoutBit pending i) } :: rest)
        (slotPath L nd i) s' := by
  have hempty : Bitmap.select (∅ : Bitmap n) 0 = none :=
    Bitmap.select_zero_eq_none.mpr rfl
  have hget : (walked hasher L nd pending).children.get i =
      some (.mk m none) := by
    rw [walked_get, if_pos hpending, hi]
  have hfinish : finishNode hasher (walked hasher (slotPath L nd i) m ∅)
      (slotPath L nd i) nd.children.count =
        .ok (merkle hasher (slotPath L nd i) nd.children.count m) := by
    rw [finishNode_eq hasher (walked_allSealed hasher (slotPath L nd i) m),
      merkle_eq]
  have hseal := store.sealEdge_edge s
    (.mk (merkle hasher (slotPath L nd i) nd.children.count m).2 none)
    (merkle hasher (slotPath L nd i) nd.children.count m).1
  refine ⟨(store.sealEdge s
    (.mk (merkle hasher (slotPath L nd i) nd.children.count m).2 none)
    (merkle hasher (slotPath L nd i) nd.children.count m).1).2, ?_⟩
  rw [← walked_setChild hi]
  apply run_of_again
  simp [hashBody, walkFrame, hempty, hbuf, hfinish, Frame.absorb,
    writeChild_of_get hget, sealChild, hseal]

/-- What a failure to prepare a node says of the node and of every node above
it. -/
structure Blame (hasher : TrieHasher n V H) (store : EdgeStore n V H σ ε)
    (Fails : TrieNode n V H → Prop) : Prop where
  prepare : ∀ (L : Path n) (nd : TrieNode n V H) (index : Option (Fin n))
    (siblings : ℕ) (s : σ),
    (∃ x buf s', Fails nd ∧
      prepare hasher store nd index L.length siblings L s =
        .ok (.error x, nd, buf, s')) ∨
    ∃ s', prepare hasher store nd index L.length siblings L s =
      .ok (.ok (walkFrame L nd index siblings
        (nd.reseal hasher L).inlineSlots), nd.reseal hasher L, L, s')
  parent : ∀ {nd : TrieNode n V H} {i : Fin n} {e : Edge n V H},
    nd.children.get i = some e → Fails e.node → Fails nd

theorem WalkFails.blame (hasher : TrieHasher n V H)
    (store : EdgeStore n V H σ ε) : Blame hasher store (WalkFails store) :=
  ⟨prepare_cases hasher store, fun he h => h.parent he⟩

/-- One pass that prepares and pushes a child. -/
theorem hashWalk_push {store : EdgeStore n V H σ ε}
    {Fails : TrieNode n V H → Prop} (hblame : Blame hasher store Fails)
    {m : TrieNode n V H} {pending : Bitmap n} {i : Fin n}
    {index : Option (Fin n)} {siblings : ℕ} {slot : Option (Fin n)}
    {rest : Frames n V H (HashFrame n)} {buf : Path n} {s : σ}
    (hselect : Bitmap.select pending 0 = some i)
    (hi : (nd.reseal hasher L).children.get i = some (.mk m none))
    (hbuf : buf.take L.length = L) :
    (∃ x d s', Fails m ∧
      hashWalk hasher store
        ({ slot, node := walked hasher L nd pending,
           extra := walkFrame L nd index siblings pending } :: rest) buf s =
        .ok (.error x, some (Frames.close
          { slot
            node := (walked hasher L nd pending).setChild i (.mk m none)
            extra := d } rest), s')) ∨
    ∃ s', hashWalk hasher store
      ({ slot, node := walked hasher L nd pending,
         extra := walkFrame L nd index siblings pending } :: rest) buf s =
      hashWalk hasher store
        ({ slot := some i
           node := walked hasher (slotPath L nd i) m
            (m.reseal hasher (slotPath L nd i)).inlineSlots
           extra := walkFrame (slotPath L nd i) m (some i)
            nd.children.count
            (m.reseal hasher (slotPath L nd i)).inlineSlots } ::
         { slot, node := walked hasher L nd pending,
           extra := walkFrame L nd index siblings
            (Bitmap.withoutBit pending i) } :: rest)
        (slotPath L nd i) s' := by
  have hget : (walked hasher L nd pending).children.get i =
      some (.mk m none) := by
    rw [walked_get, if_pos (Bitmap.mem_of_select_zero hselect), hi]
  have hslot : L ++ (walked hasher L nd pending).partialPath ++ [i] =
      slotPath L nd i := rfl
  rcases hblame.prepare (slotPath L nd i) m (some i)
      nd.children.count s with ⟨x, buf', s', hfails, hp⟩ | ⟨s', hp⟩
  · refine Or.inl ⟨x, walkFrame L nd index siblings
      (Bitmap.withoutBit pending i), s', hfails, ?_⟩
    apply run_of_leave
    simp only [hashBody, Frames.top_cons, Frames.setTopExtra_cons, ok_bind,
      walkFrame, hselect, hbuf, hslot, pushPendingChild,
      Frames.tryPushChild, hget, expect_some, Edge.asInline_mk_none, hp,
      pure_eq_ok, Frames.trie_cons, writeChild_of_get hget, Edge.hash_mk]
  · refine Or.inr ⟨s', ?_⟩
    apply run_of_again
    simp only [hashBody, Frames.top_cons, Frames.setTopExtra_cons, ok_bind,
      walkFrame, hselect, hbuf, hslot, pushPendingChild,
      Frames.tryPushChild, hget, expect_some, Edge.asInline_mk_none, hp,
      pure_eq_ok, walked_inlineSlots]

/-- The turn of a node, by induction on the trie: its pending children are
hashed one by one, unless the store fails beneath it. -/
theorem hashWalk_node {store : EdgeStore n V H σ ε}
    {Fails : TrieNode n V H → Prop} (hblame : Blame hasher store Fails)
    (L : Path n) (nd : TrieNode n V H)
    (index : Option (Fin n)) (siblings : ℕ) (slot : Option (Fin n))
    (rest : Frames n V H (HashFrame n)) {pending : Bitmap n}
    (hsub : pending ⊆ (nd.reseal hasher L).inlineSlots)
    {buf : Path n} (hbuf : buf.take L.length = L) (s : σ) :
    (∃ x m d s', Fails nd ∧ Halted hasher L nd m ∧
      hashWalk hasher store
        ({ slot, node := walked hasher L nd pending,
           extra := walkFrame L nd index siblings pending } :: rest) buf s =
        .ok (.error x, some (Frames.close { slot, node := m, extra := d }
          rest), s')) ∨
    ∃ buf' s', buf'.take L.length = L ∧
      hashWalk hasher store
        ({ slot, node := walked hasher L nd pending,
           extra := walkFrame L nd index siblings pending } :: rest) buf s =
      hashWalk hasher store
        ({ slot, node := walked hasher L nd ∅,
           extra := walkFrame L nd index siblings ∅ } :: rest) buf' s' := by
  induction nd using induct generalizing L index siblings slot rest pending
    buf s with
  | step nd ih =>
      induction pending using Finset.strongInduction generalizing buf s with
      | H pending ihp =>
          cases hselect : Bitmap.select pending 0 with
          | none =>
              obtain rfl := Bitmap.select_zero_eq_none.mp hselect
              exact Or.inr ⟨buf, s, hbuf, rfl⟩
          | some i =>
              have hmem := Bitmap.mem_of_select_zero hselect
              obtain ⟨e, he, hf⟩ := exists_of_inlineSlot (hsub hmem)
              have hsmaller : Bitmap.withoutBit pending i ⊂ pending :=
                Finset.erase_ssubset hmem
              rcases hashWalk_push hblame hselect hf hbuf with
                ⟨x, d, s', hfails, hrun⟩ | ⟨s', hrun⟩
              · exact Or.inl ⟨x, _, d, s', hblame.parent he hfails,
                  Halted.slot hf (Halted.prepare _ _), hrun⟩
              · rw [hrun]
                rcases ih i e he (slotPath L nd i) (some i)
                    nd.children.count (some i) _ (Finset.Subset.refl _)
                    (List.take_length) s' with
                  ⟨x, m, d, s'', hfails, hm, hrun'⟩ |
                    ⟨buf', s'', hbuf', hrun'⟩
                · refine Or.inl ⟨x, (walked hasher L nd pending).setChild i
                    (.mk m none), walkFrame L nd index siblings
                    (Bitmap.withoutBit pending i), s'', hblame.parent he hfails,
                    Halted.slot hf hm, ?_⟩
                  have hget : (walked hasher L nd pending).children.get i =
                      some (.mk e.node none) := by
                    rw [walked_get, if_pos hmem, hf]
                  rw [hrun']
                  simp only [Frames.close, Frame.absorb,
                    writeChild_of_get hget, Edge.hash_mk]
                · obtain ⟨s₃, hseal⟩ := hashWalk_seal store index
                    siblings slot rest s'' hf hmem hbuf'
                  rw [hrun', hseal]
                  refine ihp _ hsmaller (hsmaller.subset.trans hsub) ?_ s₃
                  simp [slotPath]

/-- Hashing a trie computes `merkle` at the root, unless it fails. -/
theorem Blame.hash_cases {store : EdgeStore n V H σ ε}
    {Fails : TrieNode n V H → Prop} (hblame : Blame hasher store Fails)
    (root : TrieNode n V H) (s : σ) :
    (∃ x m s', Fails root ∧ Halted hasher [] root m ∧
      hash hasher store root s = .ok (.error x, some m, s')) ∨
    ∃ s', hash hasher store root s =
      .ok (.ok (merkle hasher [] 0 root).1,
        some (merkle hasher [] 0 root).2, s') := by
  rcases hblame.prepare [] root none 0 s with
    ⟨x, buf, s', hfails, hp⟩ | ⟨s', hp⟩
  · refine Or.inl ⟨x, root, s', hfails, Halted.prepare _ _, ?_⟩
    simp only [List.length_nil] at hp
    simp only [hash, hp, ok_bind, pure_eq_ok]
  · have hrun : hash hasher store root s = hashWalk hasher store
        [{ slot := none
           node := walked hasher [] root
            (root.reseal hasher []).inlineSlots
           extra := walkFrame [] root none 0
            (root.reseal hasher []).inlineSlots }] [] s' := by
      simp only [List.length_nil] at hp
      simp only [hash, hp, ok_bind, hashWalk, Frames.new, walked_inlineSlots]
    rw [hrun]
    rcases hashWalk_node hblame [] root none 0 none []
        (Finset.Subset.refl _) (rfl : ([] : Path n).take 0 = []) s' with
      ⟨x, m, d, s'', hfails, hm, hwalk⟩ | ⟨buf', s'', -, hwalk⟩
    · exact Or.inl ⟨x, m, s'', hfails, hm, hwalk⟩
    · refine Or.inr ⟨s'', ?_⟩
      rw [hwalk]
      have hempty : Bitmap.select (∅ : Bitmap n) 0 = none :=
        Bitmap.select_zero_eq_none.mpr rfl
      have hfinish := finishNode_eq hasher
        (walked_allSealed hasher [] root) [] 0
      apply run_of_leave
      simp [hashBody, walkFrame, hempty, hfinish, merkle_eq]

/-- Hashing a trie computes `merkle` at the root, unless the store fails. -/
theorem hash_cases (hasher : TrieHasher n V H)
    (store : EdgeStore n V H σ ε) (root : TrieNode n V H) (s : σ) :
    (∃ x m s', WalkFails store root ∧ Halted hasher [] root m ∧
      hash hasher store root s = .ok (.error x, some m, s')) ∨
    ∃ s', hash hasher store root s =
      .ok (.ok (merkle hasher [] 0 root).1,
        some (merkle hasher [] 0 root).2, s') :=
  (WalkFails.blame hasher store).hash_cases root s

end Walk

end ArityTries
