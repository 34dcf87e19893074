import ArityArrays.Tries.Hashing.HashWalk
import ArityArrays.Tries.Mutation.Mutations
import ArityArrays.Tries.Mutation.Opening

/-!
# What every call keeps

A node that an edit touches keeps its full path, and the children it gains are
inline.  So a property that looks at the full path and the sealed children only
is kept by every call, provided that the hash walk keeps it.  This is proved
here once, for edits, for opening edges and for a hash walk, finished or halted.
-/

namespace ArityTries

open Node

variable {n : ℕ} {V H ρ : Type}

/-- `P` holds of every node of the trie at leading path `L`. -/
def Trie.Throughout (P : Path n → TrieNode n V H → Prop) (L : Path n) :
    Trie n V H → Prop
  | none => True
  | some nd => Everywhere P L nd

namespace Node

variable {hasher : TrieHasher n V H} {L L' : Path n}
  {nd nd' : TrieNode n V H} {P : Path n → TrieNode n V H → Prop}

/-! ## The middle of a hash walk -/

/-- A sealed child in the middle of the turn of a node: prepared, or just
hashed. -/
theorem walked_get_sealed {pending : Bitmap n} {i : Fin n}
    {m : TrieNode n V H} {c : H}
    (hi : (walked hasher L nd pending).children.get i =
      some (.mk m (some c))) :
    (nd.reseal hasher L).children.get i = some (.mk m (some c)) ∨
      ∃ e, nd.children.get i = some e ∧
        m = (merkle hasher (slotPath L nd i) nd.children.count e.node).2 ∧
        c = (merkle hasher (slotPath L nd i) nd.children.count e.node).1 := by
  rw [walked_get] at hi
  split at hi
  · exact Or.inl hi
  · obtain ⟨f, hf, hedge⟩ := Option.map_eq_some_iff.mp hi
    unfold hashedEdge at hedge
    split at hedge
    · subst f
      exact Or.inl hf
    · obtain ⟨e, h, he, rfl⟩ := get_of_reseal hf
      cases hedge
      exact Or.inr ⟨e, he, rfl, rfl⟩

theorem walked_count (hasher : TrieHasher n V H) (L : Path n)
    (nd : TrieNode n V H) (pending : Bitmap n) :
    (walked hasher L nd pending).children.count = nd.children.count := by
  have hpresent : (walked hasher L nd pending).children.present =
      nd.children.present := by
    ext i
    rw [ChildMap.mem_present, ChildMap.mem_present, walked_get]
    rcases nd.reseal_get hasher L i with ⟨hnone, hnone'⟩ | ⟨e, h, he, he'⟩
    · simp [hnone, hnone']
    · by_cases hi : i ∈ pending
      · simp [hi, he, he']
      · simp [hi, he, he']
  rw [ChildMap.count_eq_card, ChildMap.count_eq_card, hpresent]

/-- The node behind a slot in the middle of the turn of its parent. -/
theorem walked_get_node {pending : Bitmap n} {i : Fin n} {f : Edge n V H}
    (hf : (walked hasher L nd pending).children.get i = some f) :
    ∃ e, nd.children.get i = some e ∧ (f.node = e.node ∨ f.node =
      (merkle hasher (slotPath L nd i) nd.children.count e.node).2) := by
  rw [walked_get] at hf
  split at hf
  · obtain ⟨e, c, he, rfl⟩ := get_of_reseal hf
    exact ⟨e, he, Or.inl rfl⟩
  · obtain ⟨g, hg, rfl⟩ := Option.map_eq_some_iff.mp hf
    obtain ⟨e, c, he, rfl⟩ := get_of_reseal hg
    refine ⟨e, he, ?_⟩
    unfold hashedEdge
    split
    · exact Or.inl rfl
    · exact Or.inr rfl

/-- A property of nodes at their leading paths that every call keeps.  It is
about the full path and the sealed children, of which there may become fewer,
and holds in the middle of a hash walk of a trie of such nodes. -/
structure Stable (hasher : TrieHasher n V H)
    (P : Path n → TrieNode n V H → Prop) : Prop where
  mono : ∀ {L L' nd nd'}, P L nd →
    L' ++ nd'.partialPath = L ++ nd.partialPath →
    (∀ i m c, nd'.children.get i = some (.mk m (some c)) →
      nd.children.get i = some (.mk m (some c))) → P L' nd'
  inline : ∀ {L nd}, (∀ i e, nd.children.get i = some e → e.hash = none) →
    P L nd
  walked : ∀ {L nd}, Everywhere P L nd → ∀ pending,
    P L (walked hasher L nd pending)

namespace Stable

/-! ## Edits -/

/-- A node that keeps its full path may lose sealed children and gain inline
ones. -/
theorem everywhere (hP : Stable hasher P) (h : Everywhere P L nd)
    (hpath : L' ++ nd'.partialPath = L ++ nd.partialPath)
    (hchild : ∀ i e, nd'.children.get i = some e →
      nd.children.get i = some e ∨
        e.hash = none ∧ Everywhere P (slotPath L' nd' i) e.node) :
    Everywhere P L' nd' := by
  refine everywhere_iff.mpr ⟨hP.mono h.root hpath ?_, ?_⟩
  · intro i m c hi
    rcases hchild i _ hi with hget | ⟨hnone, -⟩
    · exact hget
    · cases hnone
  · intro i e he
    rcases hchild i e he with hget | ⟨-, hinline⟩
    · have hslot : slotPath L' nd' i = slotPath L nd i := by
        simp only [slotPath, hpath]
      rw [hslot]
      exact h.child hget
    · exact hinline

theorem of_inline (hP : Stable hasher P)
    (hchild : ∀ i e, nd.children.get i = some e →
      e.hash = none ∧ Everywhere P (slotPath L nd i) e.node) :
    Everywhere P L nd :=
  everywhere_iff.mpr ⟨hP.inline fun i e he => (hchild i e he).1,
    fun i e he => (hchild i e he).2⟩

theorem repath (hP : Stable hasher P) (h : Everywhere P L nd)
    (hpath : L' ++ nd'.partialPath = L ++ nd.partialPath)
    (hc : nd'.children = nd.children) : Everywhere P L' nd' := by
  refine hP.everywhere h hpath ?_
  intro i e he
  rw [hc] at he
  exact Or.inl he

theorem setChild (hP : Stable hasher P) (h : Everywhere P L nd)
    {i : Fin n} {m : TrieNode n V H}
    (hm : Everywhere P (slotPath L nd i) m) :
    Everywhere P L (nd.setChild i (.mk m none)) := by
  refine hP.everywhere h rfl ?_
  intro j e he
  rw [setChild_children, ChildMap.get_set] at he
  split at he
  · next hj =>
      subst j
      cases he
      exact Or.inr ⟨rfl, hm⟩
  · exact Or.inl he

theorem eraseChild (hP : Stable hasher P) (h : Everywhere P L nd)
    (i : Fin n) : Everywhere P L (nd.eraseChild i) := by
  refine hP.everywhere h rfl ?_
  intro j e he
  rw [eraseChild_children, ChildMap.get_erase] at he
  split at he
  · cases he
  · exact Or.inl he

theorem leaf (hP : Stable hasher P) (L p : Path n) (v : V) :
    Everywhere P L (leaf p v : TrieNode n V H) := by
  apply hP.of_inline
  intro i e he
  cases he

theorem merged (hP : Stable hasher P) (h : Everywhere P L nd)
    (hc : nd.children.count = 1) : Everywhere P L nd.merged := by
  obtain ⟨i, e, he⟩ := ChildMap.exists_only_child hc
  rw [merged_of_get hc he]
  refine hP.repath (h.child he) ?_ rfl
  simp [slotPath]

theorem lift (hP : Stable hasher P) (h : Everywhere P L nd)
    {i : Fin n} {e : Edge n V H} (he : nd.children.get i = some e)
    {fate : Fate n V H ρ}
    (hfate : fate.trie.Throughout P (slotPath L nd i)) :
    (nd.lift i fate).trie.Throughout P L := by
  cases fate with
  | stays m r => exact hP.setChild h hfate
  | leaves r =>
      have herase := hP.eraseChild h i
      have hcount := ChildMap.count_erase he
      simp only [Node.lift, detach]
      split
      · exact herase
      · split
        · next htwo =>
            refine hP.merged herase ?_
            rw [eraseChild_children]
            omega
        · trivial

/-- An edit keeps the property when its stopping case does. -/
theorem edit (hP : Stable hasher P)
    {stop : TrieNode n V H → Path n → Fate n V H ρ}
    (hstop : ∀ L nd key, Everywhere P L nd →
      (stop nd key).trie.Throughout P L)
    (h : Everywhere P L nd) (key : Path n) :
    (Node.edit stop nd key).trie.Throughout P L := by
  induction nd, key using walkInduct generalizing L with
  | stop nd key hs =>
      rw [edit_of_stops hs]
      exact hstop L nd key h
  | descend nd i keyRest e he ih =>
      rw [edit_below he]
      exact hP.lift h he (ih (h.child he))

theorem pushDown (hP : Stable hasher P) (h : Everywhere P L nd)
    {shared : Path n} {ni : Fin n} {nodeRest : Path n}
    (hp : nd.partialPath = shared ++ ni :: nodeRest) (v : Option V) :
    Everywhere P L (nd.pushDown shared v ni nodeRest) := by
  apply hP.of_inline
  intro i e he
  by_cases hi : i = ni
  · subst i
    rw [pushDown_get_self, Option.some.injEq] at he
    subst e
    refine ⟨rfl, hP.repath h ?_ rfl⟩
    simp [slotPath, hp]
  · rw [pushDown_get_of_ne _ _ _ _ _ hi] at he
    cases he

theorem insertAt (hP : Stable hasher P) (h : Everywhere P L nd)
    (value : V) (key : Path n) :
    (Node.insertAt value nd key).trie.Throughout P L := by
  rcases descent_cases key nd.partialPath with
    rfl | ⟨ni, nr, hp⟩ | ⟨i, kr, rfl⟩ | ⟨sh, ki, kr, ni, nr, hne, rfl, hp⟩
  · simp only [Node.insertAt, descent_self, Fate.trie_stays]
    exact hP.repath h rfl rfl
  · simp only [Node.insertAt, hp, descent_above, Fate.trie_stays]
    exact hP.pushDown h hp (some value)
  · simp only [Node.insertAt, descent_below, Fate.trie_stays]
    exact hP.setChild h (hP.leaf _ kr value)
  · simp only [Node.insertAt, hp, descent_fork sh hne, Fate.trie_stays]
    exact hP.setChild (hP.pushDown h hp none) (hP.leaf _ kr value)

theorem removeAt (hP : Stable hasher P) (h : Everywhere P L nd)
    (key : Path n) : (Node.removeAt nd key).trie.Throughout P L := by
  have hcleared : Everywhere P L ({ nd with value := none } :
      TrieNode n V H) := hP.repath h rfl rfl
  unfold Node.removeAt
  split
  · split
    · exact h
    · split
      · trivial
      · next hcount => exact hP.merged hcleared hcount
      · exact hcleared
  · exact h

theorem removePrefixAt (h : Everywhere P L nd) (key : Path n) :
    (Node.removePrefixAt nd key).trie.Throughout P L := by
  unfold Node.removePrefixAt
  split
  · trivial
  · trivial
  · exact h

/-! ## Opening -/

theorem opened (hP : Stable hasher P) (ho : Opened nd nd')
    (h : Everywhere P L nd) : Everywhere P L nd' := by
  induction ho generalizing L with
  | refl _ => exact h
  | slot _ he _ ih ihm =>
      have hparent := ih h
      exact hP.setChild hparent (ihm (hparent.child he))

/-- With every edge inline there is nothing to keep. -/
theorem inlined (hP : Stable hasher P) (L : Path n) (nd : TrieNode n V H) :
    Everywhere P L nd.inlined := by
  induction nd using induct generalizing L with
  | step nd ih =>
      apply hP.of_inline
      intro i e he
      rw [inlined_get] at he
      obtain ⟨f, hf, rfl⟩ := Option.map_eq_some_iff.mp he
      exact ⟨rfl, ih i f hf _⟩

/-! ## Hashing -/

theorem walked_of (hP : Stable hasher P) (h : Everywhere P L nd)
    (hmerkle : ∀ i e, nd.children.get i = some e →
      Everywhere P (slotPath L nd i)
        (Node.merkle hasher (slotPath L nd i) nd.children.count e.node).2)
    (pending : Bitmap n) : Everywhere P L (Node.walked hasher L nd pending) := by
  refine everywhere_iff.mpr ⟨hP.walked h pending, ?_⟩
  intro i f hf
  obtain ⟨e, he, hnode | hnode⟩ := walked_get_node hf
  · rw [hnode]
    exact h.child he
  · rw [hnode]
    exact hmerkle i e he

theorem merkle (hP : Stable hasher P) (L : Path n) (siblings : ℕ)
    {nd : TrieNode n V H} (h : Everywhere P L nd) :
    Everywhere P L (Node.merkle hasher L siblings nd).2 := by
  induction nd using induct generalizing L siblings with
  | step nd ih =>
      have hwalked := hP.walked_of h
        (fun i e he => ih i e he _ _ (h.child he)) ∅
      rw [merkle_eq]
      exact hP.repath hwalked rfl rfl

/-- A walk that halts keeps the property. -/
theorem halted (hP : Stable hasher P) (hm : Halted hasher L nd nd')
    (h : Everywhere P L nd) : Everywhere P L nd' := by
  induction hm with
  | prepare L nd => exact h
  | @slot L nd m m₁ pending i hi _ ih =>
      have hwalked := hP.walked_of h
        (fun i e he => hP.merkle _ _ (h.child he)) pending
      refine hP.setChild hwalked (ih ?_)
      obtain ⟨e, c, he, heq⟩ := get_of_reseal hi
      cases heq
      exact h.child he

end Stable

/-! ## Tidy nodes -/

theorem Tidy.child (h : nd.Tidy) {i : Fin n} {e : Edge n V H}
    (he : nd.children.get i = some e) : e.node.Tidy :=
  everywhere_of_const (Everywhere.child h he)

/-- In a tidy trie every edge beneath a sealed one is sealed. -/
theorem Tidy.sealed_below (h : nd.Tidy) (hs : nd.AllSealed) (L : Path n) :
    ∀ se ∈ edges L nd, se.2.hash ≠ none := by
  induction nd using induct generalizing L with
  | step nd ih =>
      refine (forall_edges fun e => e.hash ≠ none).mpr fun i e he => ?_
      exact ⟨hs i e he,
        ih i e he (h.child he) (h.root i e he (hs i e he)) _⟩

theorem merkle_allSealed (hasher : TrieHasher n V H) (L : Path n)
    (siblings : ℕ) (nd : TrieNode n V H) :
    (merkle hasher L siblings nd).2.AllSealed := by
  rw [merkle_eq]
  exact walked_allSealed hasher L nd

/-- A child that is sealed once its parent is prepared was sealed before, or is
the lone one, hashed again. -/
theorem allSealed_of_reseal
    (h : ∀ i e, nd.children.get i = some e → e.hash ≠ none →
      e.node.AllSealed) {i : Fin n} {m : TrieNode n V H} {c : H}
    (hi : (nd.reseal hasher L).children.get i = some (.mk m (some c))) :
    m.AllSealed := by
  have hkept : nd.children.get i = some (.mk m (some c)) → m.AllSealed :=
    fun hget => h i _ hget (Option.some_ne_none c)
  have hresealed := nd.reseal_resealed hasher L
  generalize nd.reseal hasher L = nd' at hi hresealed
  cases hresealed with
  | same _ => exact hkept hi
  | @rehashed j e _ _ hall =>
      rw [setChild_children, ChildMap.get_set] at hi
      split at hi
      · cases hi
        exact hall
      · exact hkept hi
  | @opened j e _ _ _ =>
      rw [setChild_children, ChildMap.get_set] at hi
      split at hi
      · cases hi
      · exact hkept hi

/-- Every call keeps tidy nodes tidy, whatever the scheme hashes them to. -/
theorem tidy_stable (hasher : TrieHasher n V H) :
    Stable hasher fun _ (nd : TrieNode n V H) => ∀ i e,
      nd.children.get i = some e → e.hash ≠ none → e.node.AllSealed where
  mono h _ hsub := by
    rintro i ⟨m, c⟩ he hs
    cases c with
    | none => exact (hs rfl).elim
    | some c => exact h i _ (hsub i m c he) (Option.some_ne_none c)
  inline hinline := by
    intro i e he hs
    exact (hs (hinline i e he)).elim
  walked h pending := by
    rintro i ⟨m, c⟩ he hs
    cases c with
    | none => exact (hs rfl).elim
    | some c =>
        rcases walked_get_sealed he with hreseal | ⟨e, -, rfl, -⟩
        · exact allSealed_of_reseal h.root hreseal
        · exact merkle_allSealed hasher _ _ _

end Node

/-- Every sealed edge of the trie leads to a node whose children are all
sealed. -/
def Trie.Tidy : Trie n V H → Prop
  | none => True
  | some nd => nd.Tidy

/-! ## Tries -/

namespace Trie

variable {hasher : TrieHasher n V H} {t : Trie n V H}
  {P : Path n → TrieNode n V H → Prop}

theorem tidy_iff : t.Tidy ↔ t.Throughout (fun _ nd => ∀ i e,
    nd.children.get i = some e → e.hash ≠ none → e.node.AllSealed) [] := by
  cases t <;> exact Iff.rfl

theorem Throughout.inserted (hP : Stable hasher P) (h : t.Throughout P [])
    (key : Path n) (value : V) : (t.inserted key value).2.Throughout P [] := by
  cases t with
  | none => exact hP.leaf [] key value
  | some nd =>
      exact hP.edit (fun L nd key h => hP.insertAt h value key) h key

theorem Throughout.removed (hP : Stable hasher P) (h : t.Throughout P [])
    (key : Path n) : (t.removed key).2.Throughout P [] := by
  cases t with
  | none => trivial
  | some nd => exact hP.edit (fun L nd key h => hP.removeAt h key) h key

theorem Throughout.prefixRemoved (hP : Stable hasher P)
    (h : t.Throughout P []) (keyPrefix : Path n) :
    (t.prefixRemoved keyPrefix).2.Throughout P [] := by
  cases t with
  | none => trivial
  | some nd =>
      exact hP.edit (fun L nd key h => Stable.removePrefixAt h key) h keyPrefix

end Trie

end ArityTries
