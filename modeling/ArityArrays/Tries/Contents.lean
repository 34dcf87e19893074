import ArityArrays.Tries.Node

/-!
# What a trie holds

The contents of a trie are the finite map from the full path of a valued node
to its value, read off the list of its nodes.  `nodeAt` finds the node at a
full path by recursion along the path, and gives the contents their recursive
form: a key is the partial path, or continues into one child, or is absent.
-/

namespace ArityTries

variable {n : ℕ} {V H : Type}

namespace Node

/-- The key-value pairs of a trie in pre-order, by full path. -/
def entries (L : Path n) (nd : TrieNode n V H) : List (Path n × V) :=
  (nodes L nd).filterMap fun sm =>
    sm.2.value.map fun v => (sm.1 ++ sm.2.partialPath, v)

/-- The node whose full path is `key`, valued or not. -/
def nodeAt (nd : TrieNode n V H) (key : Path n) :
    Option (TrieNode n V H) :=
  match descent key nd.partialPath with
  | .hit => some nd
  | .below i keyRest =>
      match _he : nd.children.get i with
      | none => none
      | some e => nodeAt e.node keyRest
  | _ => none
termination_by nd.size
decreasing_by exact size_lt_of_get _he

/-- What hangs off the slot at `i`, as a trie. -/
def childTrie (nd : TrieNode n V H) (i : Fin n) : Trie n V H :=
  (nd.children.get i).map Edge.node

end Node

/-- Every node of a trie in pre-order, with its leading path. -/
def Trie.nodes : Trie n V H → List (Path n × TrieNode n V H)
  | none => []
  | some nd => Node.nodes [] nd

/-- Every edge of a trie in pre-order, with the full path of its slot. -/
def Trie.edges : Trie n V H → List (Path n × Edge n V H)
  | none => []
  | some nd => Node.edges [] nd

/-- The map from full path to value that a trie holds. -/
def contents : Trie n V H → Path n → Option V
  | none, _ => none
  | some nd, key =>
      ((nd.entries []).find? fun kv => decide (kv.1 = key)).map Prod.snd

namespace Node

theorem childTrie_of_get {nd : TrieNode n V H} {i : Fin n}
    {e : Edge n V H} (he : nd.children.get i = some e) :
    nd.childTrie i = some e.node := by
  simp [childTrie, he]

theorem childTrie_of_none {nd : TrieNode n V H} {i : Fin n}
    (hi : nd.children.get i = none) : nd.childTrie i = none := by
  simp [childTrie, hi]

/-! ## The node at a full path -/

@[simp] theorem nodeAt_hit (nd : TrieNode n V H) :
    nd.nodeAt nd.partialPath = some nd := by
  rw [nodeAt, descent_self]

theorem nodeAt_below (nd : TrieNode n V H) (i : Fin n) (keyRest : Path n) :
    nd.nodeAt (nd.partialPath ++ i :: keyRest) =
      (nd.childTrie i).bind fun m => m.nodeAt keyRest := by
  rw [nodeAt, descent_below, childTrie]
  dsimp only
  split <;> simp_all

theorem nodeAt_above {nd : TrieNode n V H} {key : Path n} {ni : Fin n}
    {nodeRest : Path n} (hp : nd.partialPath = key ++ ni :: nodeRest) :
    nd.nodeAt key = none := by
  rw [nodeAt, hp, descent_above]

theorem nodeAt_fork {nd : TrieNode n V H} {shared : Path n} {ki ni : Fin n}
    {keyRest nodeRest : Path n} (hne : ki ≠ ni)
    (hp : nd.partialPath = shared ++ ni :: nodeRest) :
    nd.nodeAt (shared ++ ki :: keyRest) = none := by
  rw [nodeAt, hp, descent_fork shared hne]

/-- `nodeAt` finds exactly the nodes of the trie, by full path. -/
theorem nodeAt_eq_some_iff {nd m : TrieNode n V H} {key : Path n} :
    nd.nodeAt key = some m ↔
      ∃ s, (s, m) ∈ nodes [] nd ∧ s ++ m.partialPath = key := by
  induction nd using induct generalizing key with
  | step nd ih =>
      constructor
      · intro h
        rcases descent_cases key nd.partialPath with
          rfl | ⟨ni, nr, hp⟩ | ⟨i, kr, rfl⟩ | ⟨sh, ki, kr, ni, nr, hne, rfl, hp⟩
        · rw [nodeAt_hit, Option.some.injEq] at h
          subst m
          exact ⟨[], self_mem_nodes [] nd, rfl⟩
        · simp [nodeAt_above hp] at h
        · rw [nodeAt_below, childTrie] at h
          obtain ⟨f, hf, hm⟩ : ∃ f, nd.children.get i = some f ∧
              f.node.nodeAt kr = some m := by
            cases hf : nd.children.get i with
            | none => simp [hf] at h
            | some f => exact ⟨f, rfl, by simpa [hf] using h⟩
          obtain ⟨s, hs, rfl⟩ := (ih i f hf).mp hm
          refine ⟨nd.partialPath ++ i :: s, ?_, by simp⟩
          refine mem_nodes.mpr (Or.inr ⟨i, f, hf, ?_⟩)
          have hmem := (mem_nodes_append (L := slotPath [] nd i) (M := [])).mpr
            ⟨s, rfl, hs⟩
          simpa [slotPath] using hmem
        · simp [nodeAt_fork hne hp] at h
      · rintro ⟨s, hs, rfl⟩
        rcases mem_nodes.mp hs with heq | ⟨i, f, hf, hmem⟩
        · obtain ⟨rfl, rfl⟩ := Prod.mk.inj heq
          simp
        · rw [← List.append_nil (slotPath [] nd i)] at hmem
          obtain ⟨s', rfl, hs'⟩ := mem_nodes_append.mp hmem
          have hkey : slotPath [] nd i ++ s' ++ m.partialPath =
              nd.partialPath ++ i :: (s' ++ m.partialPath) := by
            simp [slotPath]
          rw [hkey, nodeAt_below, childTrie, hf]
          exact (ih i f hf).mpr ⟨s', hs', rfl⟩

theorem mem_entries {nd : TrieNode n V H} {key : Path n} {v : V} :
    (key, v) ∈ nd.entries [] ↔
      (nd.nodeAt key).bind Node.value = some v := by
  rw [entries, List.mem_filterMap, Option.bind_eq_some_iff]
  constructor
  · rintro ⟨⟨s, m⟩, hm, hv⟩
    obtain ⟨v', hv', heq⟩ := Option.map_eq_some_iff.mp hv
    obtain ⟨rfl, rfl⟩ := Prod.mk.inj heq
    exact ⟨m, nodeAt_eq_some_iff.mpr ⟨s, hm, rfl⟩, hv'⟩
  · rintro ⟨m, hm, hv⟩
    obtain ⟨s, hs, rfl⟩ := nodeAt_eq_some_iff.mp hm
    exact ⟨(s, m), hs, by simp [hv]⟩

end Node

/-! ## The recursive form of the contents -/

open Node

theorem contents_eq_some_iff {nd : TrieNode n V H} {key : Path n} {v : V} :
    contents (some nd) key = some v ↔ (key, v) ∈ nd.entries [] := by
  rw [contents, Option.map_eq_some_iff]
  constructor
  · rintro ⟨⟨k, w⟩, hfind, rfl⟩
    have hk : k = key := by simpa using List.find?_some hfind
    subst k
    exact List.mem_of_find?_eq_some hfind
  · intro hmem
    cases hfind : (nd.entries []).find? fun kv => decide (kv.1 = key) with
    | none =>
        have := List.find?_eq_none.mp hfind (key, v) hmem
        simp at this
    | some kw =>
        obtain ⟨k, w⟩ := kw
        have hk : k = key := by simpa using List.find?_some hfind
        subst k
        have hw := mem_entries.mp (List.mem_of_find?_eq_some hfind)
        rw [mem_entries.mp hmem] at hw
        exact ⟨(key, w), rfl, (Option.some.inj hw).symm⟩

theorem contents_some (nd : TrieNode n V H) (key : Path n) :
    contents (some nd) key = (nd.nodeAt key).bind Node.value := by
  ext v
  rw [contents_eq_some_iff, mem_entries]

@[simp] theorem contents_none (key : Path n) :
    contents (none : Trie n V H) key = none := rfl

@[simp] theorem contents_hit (nd : TrieNode n V H) :
    contents (some nd) nd.partialPath = nd.value := by
  simp [contents_some]

theorem contents_below (nd : TrieNode n V H) (i : Fin n)
    (keyRest : Path n) :
    contents (some nd) (nd.partialPath ++ i :: keyRest) =
      contents (nd.childTrie i) keyRest := by
  rw [contents_some, nodeAt_below]
  cases nd.childTrie i with
  | none => rfl
  | some m => simp [contents_some]

theorem contents_of_get {nd : TrieNode n V H} {i : Fin n}
    {e : Edge n V H} (he : nd.children.get i = some e) (keyRest : Path n) :
    contents (some nd) (nd.partialPath ++ i :: keyRest) =
      contents (some e.node) keyRest := by
  rw [contents_below, childTrie_of_get he]

theorem contents_of_get_none {nd : TrieNode n V H} {i : Fin n}
    (hi : nd.children.get i = none) (keyRest : Path n) :
    contents (some nd) (nd.partialPath ++ i :: keyRest) = none := by
  rw [contents_below, childTrie_of_none hi, contents_none]

theorem contents_above {nd : TrieNode n V H} {key : Path n} {ni : Fin n}
    {nodeRest : Path n} (hp : nd.partialPath = key ++ ni :: nodeRest) :
    contents (some nd) key = none := by
  simp [contents_some, nodeAt_above hp]

theorem contents_fork {nd : TrieNode n V H} {shared : Path n}
    {ki ni : Fin n} {keyRest nodeRest : Path n} (hne : ki ≠ ni)
    (hp : nd.partialPath = shared ++ ni :: nodeRest) :
    contents (some nd) (shared ++ ki :: keyRest) = none := by
  simp [contents_some, nodeAt_fork hne hp]

/-- Every key of a node extends its partial path. -/
theorem prefix_of_contents {nd : TrieNode n V H} {key : Path n} {v : V}
    (hkey : contents (some nd) key = some v) : nd.partialPath <+: key := by
  rcases descent_cases key nd.partialPath with
    rfl | ⟨ni, nr, hp⟩ | ⟨i, kr, rfl⟩ | ⟨sh, ki, kr, ni, nr, hne, rfl, hp⟩
  · exact List.prefix_refl _
  · simp [contents_above hp] at hkey
  · exact List.prefix_append _ _
  · simp [contents_fork hne hp] at hkey

/-- What a node holds at a key is decided by its partial path and by the value
or the slot that the key leads to. -/
theorem contents_congr_at {nd nd' : TrieNode n V H} {key : Path n}
    (hp : nd'.partialPath = nd.partialPath)
    (hv : key = nd.partialPath → nd'.value = nd.value)
    (hc : ∀ i keyRest, key = nd.partialPath ++ i :: keyRest →
      contents (nd'.childTrie i) keyRest = contents (nd.childTrie i) keyRest) :
    contents (some nd') key = contents (some nd) key := by
  rcases descent_cases key nd.partialPath with
    rfl | ⟨ni, nr, hp'⟩ | ⟨i, kr, rfl⟩ | ⟨sh, ki, kr, ni, nr, hne, rfl, hp'⟩
  · rw [← hp, contents_hit, hp, contents_hit, hv rfl]
  · rw [contents_above (hp.trans hp'), contents_above hp']
  · rw [← hp, contents_below, hp, contents_below, hc i kr rfl]
  · rw [contents_fork hne (hp.trans hp'), contents_fork hne hp']

/-- The contents of a node are decided by its partial path, its value and the
contents of its slots. -/
theorem contents_congr {nd nd' : TrieNode n V H}
    (hp : nd'.partialPath = nd.partialPath) (hv : nd'.value = nd.value)
    (hc : ∀ i, contents (nd'.childTrie i) = contents (nd.childTrie i)) :
    contents (some nd') = contents (some nd) := by
  funext key
  apply contents_congr_at hp
  · intro _
    exact hv
  · intro i keyRest _
    rw [hc i]

namespace Node

@[simp] theorem childTrie_setChild_self (nd : TrieNode n V H) (i : Fin n)
    (e : Edge n V H) : (nd.setChild i e).childTrie i = some e.node := by
  simp [childTrie]

theorem childTrie_setChild_of_ne (nd : TrieNode n V H) {i j : Fin n}
    (hij : j ≠ i) (e : Edge n V H) :
    (nd.setChild i e).childTrie j = nd.childTrie j := by
  simp [childTrie, ChildMap.get_set_of_ne _ hij]

@[simp] theorem childTrie_eraseChild_self (nd : TrieNode n V H)
    (i : Fin n) : (nd.eraseChild i).childTrie i = none := by
  simp [childTrie]

theorem childTrie_eraseChild_of_ne (nd : TrieNode n V H) {i j : Fin n}
    (hij : j ≠ i) : (nd.eraseChild i).childTrie j = nd.childTrie j := by
  simp [childTrie, ChildMap.get_erase_of_ne _ hij]

end Node

end ArityTries
