import ArityArrays.Tries.Mutation.Edit

/-!
# What the three mutations do to contents and shape

Each stopping case of `insert`, `remove` and `remove_prefix` is shown to
replace the right keys and to keep a settled node settled; the edit lemmas
carry both facts up the walk.
-/

namespace ArityTries

open Node

variable {n : ℕ} {V H ρ : Type}

/-! ## The mutations of a trie -/

/-- The trie an edit of the root leaves, with its result. -/
def Fate.close : Fate n V H ρ → ρ × Trie n V H :=
  fun fate => (fate.result, fate.trie)

namespace Trie

/-- What `insert` computes. -/
def inserted (key : Path n) (value : V) :
    Trie n V H → Option V × Trie n V H
  | none => (none, some (leaf key value))
  | some nd => (edit (insertAt value) nd key).close

/-- What `remove` computes. -/
def removed (key : Path n) : Trie n V H → Option V × Trie n V H
  | none => (none, none)
  | some nd => (edit removeAt nd key).close

/-- What `remove_prefix` computes. -/
def prefixRemoved (keyPrefix : Path n) : Trie n V H → Unit × Trie n V H
  | none => ((), none)
  | some nd => (edit removePrefixAt nd keyPrefix).close

end Trie

/-! ## Contents -/

/-- A node split in two holds what it held, but for the path where it is
split. -/
theorem contents_pushDown {nd : TrieNode n V H} {shared nodeRest key : Path n}
    {value : Option V} {ni : Fin n}
    (hp : nd.partialPath = shared ++ ni :: nodeRest)
    (hv : key = shared → value = none) :
    contents (some (nd.pushDown shared value ni nodeRest)) key =
      contents (some nd) key := by
  have hself := nd.pushDown_get_self shared value ni nodeRest
  have hup : (nd.pushDown shared value ni nodeRest).partialPath = shared :=
    rfl
  rcases descent_cases key shared with
    rfl | ⟨mi, mr, hp'⟩ | ⟨j, kr, rfl⟩ | ⟨sh, ki, kr, mi, mr, hne, rfl, hp'⟩
  · rw [contents_above hp]
    exact (contents_hit (nd.pushDown key value ni nodeRest)).trans (hv rfl)
  · have hp'' : nd.partialPath = key ++ mi :: (mr ++ ni :: nodeRest) := by
      simp [hp, hp']
    rw [contents_above (hup.trans hp'), contents_above hp'']
  · by_cases hj : j = ni
    · subst j
      have hprepend := contents_prepend (shared ++ [ni])
        { nd with partialPath := nodeRest } kr
      have hback : (shared ++ [ni]) ++ nodeRest = nd.partialPath := by
        simp [hp]
      rw [hback] at hprepend
      have hbelow := contents_of_get hself kr
      rw [hup, Edge.node_mk, ← hprepend] at hbelow
      rw [hbelow]
      simp
    · have hnone := contents_of_get_none
        (nd.pushDown_get_of_ne shared value ni nodeRest hj) kr
      rw [hup] at hnone
      rw [hnone, contents_fork hj hp]
  · have hp'' : nd.partialPath = sh ++ mi :: (mr ++ ni :: nodeRest) := by
      simp [hp, hp']
    rw [contents_fork hne (hup.trans hp'), contents_fork hne hp'']

/-- A leaf in a free slot holds its key and nothing else. -/
theorem replaces_setChild_leaf {nd : TrieNode n V H} {i : Fin n}
    (hi : nd.children.get i = none) (keyRest : Path n) (value : V) :
    Replaces (· = nd.partialPath ++ i :: keyRest) (some value) (some nd)
      (some (nd.setChild i (.mk (leaf keyRest value) none))) := by
  have hslot : (nd.setChild i (.mk (leaf keyRest value) none)).children.get
      i = some (.mk (leaf keyRest value) none) := ChildMap.get_set_self _ _ _
  intro k
  constructor
  · rintro rfl
    have hnew := contents_of_get hslot keyRest
    rw [Edge.node_mk, contents_leaf, if_pos rfl] at hnew
    exact hnew
  · intro hk
    refine contents_congr_at (nd.setChild_partialPath i _) (fun _ => rfl) ?_
    rintro j kr rfl
    by_cases hj : j = i
    · subst j
      have hne : kr ≠ keyRest := by
        rintro rfl
        exact hk rfl
      rw [childTrie_setChild_self, Edge.node_mk, contents_leaf, if_neg hne,
        childTrie_of_none hi, contents_none]
    · rw [childTrie_setChild_of_ne nd hj]

namespace Node

theorem insertAt_replaces {value : V} {nd : TrieNode n V H} {key : Path n}
    (hstop : Stops nd key) :
    Replaces (· = key) (some value) (some nd)
      (insertAt value nd key).trie := by
  rcases descent_cases key nd.partialPath with
    rfl | ⟨ni, nr, hp⟩ | ⟨i, kr, rfl⟩ | ⟨sh, ki, kr, ni, nr, hne, rfl, hp⟩
  · simp only [insertAt, descent_self, Fate.trie_stays]
    intro k
    constructor
    · rintro rfl
      exact contents_hit { nd with value := some value }
    · intro hk
      exact contents_congr_at rfl (fun h => (hk h).elim) (fun _ _ _ => rfl)
  · simp only [insertAt, hp, descent_above, Fate.trie_stays]
    intro k
    constructor
    · rintro rfl
      exact contents_hit (nd.pushDown k (some value) ni nr)
    · intro hk
      exact contents_pushDown hp fun h => (hk h).elim
  · simp only [insertAt, descent_below, Fate.trie_stays]
    exact replaces_setChild_leaf (hstop i kr rfl) kr value
  · simp only [insertAt, hp, descent_fork sh hne, Fate.trie_stays]
    have hleaf := replaces_setChild_leaf
      (nd.pushDown_get_of_ne sh none ni nr hne) kr value
    intro k
    rw [← contents_pushDown hp (fun _ => rfl)]
    exact hleaf k

theorem removeAt_replaces {nd : TrieNode n V H} {key : Path n}
    (hstop : Stops nd key) :
    Replaces (· = key) none (some nd) (removeAt nd key).trie := by
  -- Off the node's own path nothing is held at the key to begin with.
  have habsent : contents (some nd) key = none →
      Replaces (· = key) none (some nd) (some nd) := by
    intro hkey k
    constructor
    · rintro rfl
      exact hkey
    · intro _
      rfl
  rcases descent_cases key nd.partialPath with
    rfl | ⟨ni, nr, hp⟩ | ⟨i, kr, rfl⟩ | ⟨sh, ki, kr, ni, nr, hne, rfl, hp⟩
  · have hcleared : Replaces (· = nd.partialPath) none (some nd)
        (some { nd with value := none }) := by
      intro k
      constructor
      · rintro rfl
        exact contents_hit { nd with value := none }
      · intro hk
        exact contents_congr_at rfl (fun h => (hk h).elim) (fun _ _ _ => rfl)
    simp only [removeAt, descent_self]
    split
    · next hv =>
        apply habsent
        rw [contents_hit]
        exact Option.isNone_iff_eq_none.mp hv
    · split
      · next hcount =>
          intro k
          have hempty : contents (some { nd with value := none }) k =
              none := by
            refine contents_of_no_child rfl ?_ k
            exact ChildMap.count_eq_zero.mp hcount
          have hk := hcleared k
          rw [hempty] at hk
          exact hk
      · next hcount =>
          have hmerged : contents (some { nd with value := none }.merged) =
              contents (some { nd with value := none }) :=
            contents_merged rfl hcount
          intro k
          rw [Fate.trie_stays, hmerged]
          exact hcleared k
      · exact hcleared
  · simp only [removeAt, hp, descent_above, Fate.trie_stays]
    exact habsent (contents_above hp)
  · simp only [removeAt, descent_below, Fate.trie_stays]
    exact habsent (contents_of_get_none (hstop i kr rfl) kr)
  · simp only [removeAt, hp, descent_fork sh hne, Fate.trie_stays]
    exact habsent (contents_fork hne hp)

theorem removePrefixAt_replaces {nd : TrieNode n V H} {key : Path n}
    (hstop : Stops nd key) :
    Replaces (key <+: ·) none (some nd) (removePrefixAt nd key).trie := by
  -- A prefix of the node's partial path starts each of its keys, and a
  -- prefix off that path starts none.
  have hall : key <+: nd.partialPath →
      Replaces (key <+: ·) none (some nd) none := by
    intro hkey k
    refine ⟨fun _ => rfl, ?_⟩
    intro hk
    cases hv : contents (some nd) k with
    | none => rfl
    | some v => exact (hk (hkey.trans (prefix_of_contents hv))).elim
  have hnone : (∀ k, contents (some nd) (key ++ k) = none) →
      Replaces (key <+: ·) none (some nd) (some nd) := by
    intro hkey k
    refine ⟨?_, fun _ => rfl⟩
    rintro ⟨k, rfl⟩
    exact hkey k
  rcases descent_cases key nd.partialPath with
    rfl | ⟨ni, nr, hp⟩ | ⟨i, kr, rfl⟩ | ⟨sh, ki, kr, ni, nr, hne, rfl, hp⟩
  · simp only [removePrefixAt, descent_self, Fate.trie_leaves]
    exact hall (List.prefix_refl _)
  · simp only [removePrefixAt, hp, descent_above, Fate.trie_leaves]
    exact hall ⟨ni :: nr, hp.symm⟩
  · simp only [removePrefixAt, descent_below, Fate.trie_stays]
    apply hnone
    intro k
    rw [List.append_assoc, List.cons_append]
    exact contents_of_get_none (hstop i kr rfl) _
  · simp only [removePrefixAt, hp, descent_fork sh hne, Fate.trie_stays]
    apply hnone
    intro k
    rw [List.append_assoc, List.cons_append]
    exact contents_fork hne hp

end Node

theorem inserted_replaces (key : Path n) (value : V) (t : Trie n V H) :
    Replaces (· = key) (some value) t (t.inserted key value).2 := by
  cases t with
  | none =>
      intro k
      constructor
      · rintro rfl
        exact contents_hit (leaf k value)
      · intro hk
        exact (contents_leaf key value k).trans (if_neg hk)
  | some nd =>
      refine edit_replaces (T := fun key k => k = key)
        (fun nd key h => insertAt_replaces h) ?_ ?_ nd key
      · intro p key key'
        exact List.append_right_inj p
      · rintro p i keyRest key' rfl
        exact ⟨keyRest, by simp⟩

theorem removed_replaces (key : Path n) (t : Trie n V H) :
    Replaces (· = key) none t (t.removed key).2 := by
  cases t with
  | none => exact fun k => ⟨fun _ => rfl, fun _ => rfl⟩
  | some nd =>
      refine edit_replaces (T := fun key k => k = key)
        (fun nd key h => removeAt_replaces h) ?_ ?_ nd key
      · intro p key key'
        exact List.append_right_inj p
      · rintro p i keyRest key' rfl
        exact ⟨keyRest, by simp⟩

theorem prefixRemoved_replaces (keyPrefix : Path n) (t : Trie n V H) :
    Replaces (keyPrefix <+: ·) none t (t.prefixRemoved keyPrefix).2 := by
  cases t with
  | none => exact fun k => ⟨fun _ => rfl, fun _ => rfl⟩
  | some nd =>
      refine edit_replaces (T := fun key k => key <+: k)
        (fun nd key h => removePrefixAt_replaces h) ?_ ?_ nd keyPrefix
      · intro p key key'
        exact List.prefix_append_right_inj p
      · rintro p i keyRest key' ⟨k, rfl⟩
        exact ⟨keyRest ++ k, by simp⟩

/-- The value `insert` returns is the one it displaces. -/
theorem inserted_result (key : Path n) (value : V) (t : Trie n V H) :
    (t.inserted key value).1 = contents t key := by
  cases t with
  | none => rfl
  | some nd =>
      refine edit_result (R := fun nd key => contents (some nd) key)
        ?_ ?_ nd key
      · intro nd key hstop
        rcases descent_cases key nd.partialPath with
          rfl | ⟨ni, nr, hp⟩ | ⟨i, kr, rfl⟩ |
            ⟨sh, ki, kr, ni, nr, hne, rfl, hp⟩
        · simp [insertAt]
        · simp [insertAt, hp, contents_above hp]
        · simp [insertAt, contents_of_get_none (hstop i kr rfl)]
        · simp [insertAt, hp, descent_fork sh hne, contents_fork hne hp]
      · intro nd i keyRest e he
        exact contents_of_get he keyRest

/-- The value `remove` returns is the one it removes. -/
theorem removed_result (key : Path n) (t : Trie n V H) :
    (t.removed key).1 = contents t key := by
  cases t with
  | none => rfl
  | some nd =>
      refine edit_result (R := fun nd key => contents (some nd) key)
        ?_ ?_ nd key
      · intro nd key hstop
        rcases descent_cases key nd.partialPath with
          rfl | ⟨ni, nr, hp⟩ | ⟨i, kr, rfl⟩ |
            ⟨sh, ki, kr, ni, nr, hne, rfl, hp⟩
        · simp only [removeAt, descent_self, contents_hit]
          split
          · next hv => exact (Option.isNone_iff_eq_none.mp hv).symm
          · split <;> rfl
        · simp [removeAt, hp, contents_above hp]
        · simp [removeAt, contents_of_get_none (hstop i kr rfl)]
        · simp [removeAt, hp, descent_fork sh hne, contents_fork hne hp]
      · intro nd i keyRest e he
        exact contents_of_get he keyRest

/-! ## Settled tries -/

namespace Node

theorem Settled.of_root {nd nd' : TrieNode n V H} (h : nd.Settled)
    (hc : nd'.children = nd.children)
    (hroot : nd'.value = none → 2 ≤ nd.children.count) : nd'.Settled := by
  refine settled_iff.mpr ⟨by rwa [hc], ?_⟩
  intro i e he
  exact h.child (hc ▸ he)

theorem settled_leaf (p : Path n) (v : V) :
    (leaf p v : TrieNode n V H).Settled := by
  refine settled_iff.mpr ⟨?_, ?_⟩
  · intro hv
    cases hv
  · intro i e he
    cases he

theorem Settled.setChild {nd : TrieNode n V H} (h : nd.Settled) {i : Fin n}
    {e : Edge n V H} (he : e.node.Settled) : (nd.setChild i e).Settled := by
  refine settled_iff.mpr ⟨?_, ?_⟩
  · intro hv
    have hroot := h.root hv
    rw [setChild_children]
    cases hi : nd.children.get i with
    | none =>
        rw [ChildMap.count_set_of_none hi]
        omega
    | some f => rwa [ChildMap.count_set_of_mem hi]
  · exact ChildMap.forall_get_set he fun j f hf => h.child hf

theorem Settled.merged {nd : TrieNode n V H} (hc : nd.children.count = 1)
    (hchild : ∀ i e, nd.children.get i = some e → e.node.Settled) :
    nd.merged.Settled := by
  obtain ⟨i, e, he⟩ := ChildMap.exists_only_child hc
  have hchild := hchild i e he
  rw [merged_of_get hc he]
  exact hchild.of_root rfl hchild.root

theorem Settled.detach {nd : TrieNode n V H} (h : nd.Settled) {i : Fin n}
    {e : Edge n V H} (he : nd.children.get i = some e) (r : ρ) :
    (nd.detach i r).trie.Settled := by
  have hcount := ChildMap.count_erase he
  have hchild : ∀ j f, (nd.eraseChild i).children.get j = some f →
      f.node.Settled := by
    intro j f hf
    rw [eraseChild_children, ChildMap.get_erase] at hf
    split at hf
    · cases hf
    · exact h.child hf
  unfold Node.detach
  split
  · next hkeep =>
      refine settled_iff.mpr ⟨?_, hchild⟩
      intro hv
      have hnone : nd.value = none := hv
      simp only [hnone, Option.isSome_none, Bool.false_eq_true,
        false_or] at hkeep
      rw [eraseChild_children]
      omega
  · split
    · next htwo =>
        refine Settled.merged ?_ hchild
        rw [eraseChild_children]
        omega
    · trivial

theorem Settled.lift {nd : TrieNode n V H} (h : nd.Settled) {i : Fin n}
    {e : Edge n V H} (he : nd.children.get i = some e)
    {fate : Fate n V H ρ} (hfate : fate.trie.Settled) :
    (nd.lift i fate).trie.Settled := by
  cases fate with
  | leaves r => exact h.detach he r
  | stays m r => exact h.setChild hfate

/-- An edit keeps settled tries settled when its stopping case does. -/
theorem Settled.edit {stop : TrieNode n V H → Path n → Fate n V H ρ}
    (hstop : ∀ nd key, Stops nd key → nd.Settled →
      (stop nd key).trie.Settled)
    {nd : TrieNode n V H} (h : nd.Settled) (key : Path n) :
    (Node.edit stop nd key).trie.Settled := by
  induction nd, key using walkInduct with
  | stop nd key hs =>
      rw [edit_of_stops hs]
      exact hstop nd key hs h
  | descend nd i keyRest e he ih =>
      rw [edit_below he]
      exact h.lift he (ih (h.child he))

theorem Settled.insertAt {nd : TrieNode n V H} (h : nd.Settled)
    (value : V) (key : Path n) :
    (Node.insertAt value nd key).trie.Settled := by
  have hchild : ∀ (shared : Path n) (v : Option V) ni (nodeRest : Path n) i e,
      (nd.pushDown shared v ni nodeRest).children.get i = some e →
        e.node.Settled := by
    intro shared v ni nodeRest
    refine ChildMap.forall_get_set ?_ ?_
    · exact h.of_root rfl h.root
    · intro i e he
      cases he
  rcases descent_cases key nd.partialPath with
    rfl | ⟨ni, nr, hp⟩ | ⟨i, kr, rfl⟩ | ⟨sh, ki, kr, ni, nr, hne, rfl, hp⟩
  · simp only [Node.insertAt, descent_self, Fate.trie_stays]
    exact h.of_root rfl (fun hv => by cases hv)
  · simp only [Node.insertAt, hp, descent_above, Fate.trie_stays]
    refine settled_iff.mpr ⟨?_, ?_⟩
    · intro hv
      cases hv
    · exact hchild key (some value) ni nr
  · simp only [Node.insertAt, descent_below, Fate.trie_stays]
    exact h.setChild (settled_leaf kr value)
  · simp only [Node.insertAt, hp, descent_fork sh hne, Fate.trie_stays]
    refine settled_iff.mpr ⟨?_, ?_⟩
    · intro _
      rw [setChild_children, ChildMap.count_set_of_none
        (pushDown_get_of_ne _ _ _ _ _ hne), pushDown_count]
    · exact ChildMap.forall_get_set (settled_leaf kr value)
        (hchild sh none ni nr)

theorem Settled.removeAt {nd : TrieNode n V H} (h : nd.Settled)
    (key : Path n) : (Node.removeAt nd key).trie.Settled := by
  unfold Node.removeAt
  split
  · split
    · exact h
    · split
      · trivial
      · next hcount =>
          refine Settled.merged hcount ?_
          intro i e he
          exact h.child he
      · next hzero hone =>
          refine h.of_root rfl ?_
          intro _
          have hzero : nd.children.count ≠ 0 := hzero
          have hone : nd.children.count ≠ 1 := hone
          omega
  · exact h

theorem Settled.removePrefixAt {nd : TrieNode n V H} (h : nd.Settled)
    (key : Path n) : (Node.removePrefixAt nd key).trie.Settled := by
  unfold Node.removePrefixAt
  split
  · trivial
  · trivial
  · exact h

end Node

namespace Trie

theorem Settled.inserted {t : Trie n V H} (h : t.Settled) (key : Path n)
    (value : V) : (t.inserted key value).2.Settled := by
  cases t with
  | none => exact settled_leaf key value
  | some nd =>
      exact Node.Settled.edit
        (fun nd key _ h => h.insertAt value key) h key

theorem Settled.removed {t : Trie n V H} (h : t.Settled) (key : Path n) :
    (t.removed key).2.Settled := by
  cases t with
  | none => trivial
  | some nd => exact Node.Settled.edit (fun nd key _ h => h.removeAt key) h key

theorem Settled.prefixRemoved {t : Trie n V H} (h : t.Settled)
    (keyPrefix : Path n) : (t.prefixRemoved keyPrefix).2.Settled := by
  cases t with
  | none => trivial
  | some nd =>
      exact Node.Settled.edit (fun nd key _ h => h.removePrefixAt key) h
        keyPrefix

/-- A settled trie is empty exactly when it holds no key. -/
theorem Settled.eq_none_iff {t : Trie n V H} (h : t.Settled) :
    t = none ↔ ∀ key, contents t key = none := by
  constructor
  · rintro rfl key
    rfl
  · intro hkeys
    cases t with
    | none => rfl
    | some nd =>
        obtain ⟨key, v, hkey⟩ := Node.Settled.exists_key h
        rw [hkeys key] at hkey
        cases hkey

end Trie

end ArityTries
