import ArityArrays.Tries.Contents

/-!
# The shape of a trie

A trie is settled when no valueless node has fewer than two children.  This
module proves that a settled trie is determined, up to the state of its edges,
by its contents: the partial path of a settled node is the longest prefix its
keys share.
-/

namespace ArityTries

variable {n : ℕ} {V H : Type}

namespace Node

/-! ## Properties of every node -/

/-- `P` holds of every node of a trie at its leading path. -/
def Everywhere (P : Path n → TrieNode n V H → Prop) (L : Path n)
    (nd : TrieNode n V H) : Prop :=
  ∀ sm ∈ nodes L nd, P sm.1 sm.2

theorem everywhere_iff {P : Path n → TrieNode n V H → Prop} {L : Path n}
    {nd : TrieNode n V H} :
    Everywhere P L nd ↔
      P L nd ∧ ∀ i e, nd.children.get i = some e →
        Everywhere P (slotPath L nd i) e.node := by
  constructor
  · intro h
    refine ⟨h (L, nd) (self_mem_nodes L nd), ?_⟩
    intro i e he sm hsm
    exact h sm (mem_nodes.mpr (Or.inr ⟨i, e, he, hsm⟩))
  · rintro ⟨hroot, hchild⟩ ⟨s, m⟩ hsm
    rcases mem_nodes.mp hsm with heq | ⟨i, e, he, hmem⟩
    · obtain ⟨rfl, rfl⟩ := Prod.mk.inj heq
      exact hroot
    · exact hchild i e he (s, m) hmem

theorem Everywhere.root {P : Path n → TrieNode n V H → Prop} {L : Path n}
    {nd : TrieNode n V H} (h : Everywhere P L nd) : P L nd :=
  (everywhere_iff.mp h).1

theorem Everywhere.child {P : Path n → TrieNode n V H → Prop} {L : Path n}
    {nd : TrieNode n V H} (h : Everywhere P L nd) {i : Fin n}
    {e : Edge n V H} (he : nd.children.get i = some e) :
    Everywhere P (slotPath L nd i) e.node :=
  (everywhere_iff.mp h).2 i e he

/-- What holds of every node holds of every node beneath any of them. -/
theorem Everywhere.beneath {P : Path n → TrieNode n V H → Prop}
    {L s : Path n} {nd m : TrieNode n V H} (h : Everywhere P L nd)
    (hm : (s, m) ∈ nodes L nd) : Everywhere P s m := by
  induction nd using induct generalizing L with
  | step nd ih =>
      rcases mem_nodes.mp hm with heq | ⟨i, e, he, hmem⟩
      · obtain ⟨rfl, rfl⟩ := Prod.mk.inj heq
        exact h
      · exact ih i e he (h.child he) hmem

/-! ## Settled tries -/

/-- Every node without a value has at least two children. -/
def Settled (nd : TrieNode n V H) : Prop :=
  Everywhere (fun _ m => m.value = none → 2 ≤ m.children.count) [] nd

end Node

/-- A trie is settled when it is empty or every node of it without a value
has at least two children. -/
def Trie.Settled : Trie n V H → Prop
  | none => True
  | some nd => nd.Settled

namespace Node

/-- A property that ignores leading paths may be checked from any of them. -/
theorem everywhere_of_const {P : TrieNode n V H → Prop} {L L' : Path n}
    {nd : TrieNode n V H} (h : Everywhere (fun _ m => P m) L nd) :
    Everywhere (fun _ m => P m) L' nd := by
  induction nd using induct generalizing L L' with
  | step nd ih =>
      refine everywhere_iff.mpr ⟨h.root, ?_⟩
      intro i e he
      exact ih i e he (h.child he)

theorem settled_iff {nd : TrieNode n V H} :
    nd.Settled ↔
      (nd.value = none → 2 ≤ nd.children.count) ∧
        ∀ i e, nd.children.get i = some e → e.node.Settled := by
  rw [Settled, everywhere_iff]
  refine and_congr Iff.rfl ?_
  refine forall_congr' fun i => forall_congr' fun e => imp_congr_right ?_
  intro he
  exact ⟨everywhere_of_const, everywhere_of_const⟩

theorem Settled.root {nd : TrieNode n V H} (h : nd.Settled) :
    nd.value = none → 2 ≤ nd.children.count :=
  (settled_iff.mp h).1

theorem Settled.child {nd : TrieNode n V H} (h : nd.Settled) {i : Fin n}
    {e : Edge n V H} (he : nd.children.get i = some e) : e.node.Settled :=
  (settled_iff.mp h).2 i e he

/-- Two distinct children of a valueless settled node. -/
theorem Settled.exists_two_children {nd : TrieNode n V H}
    (h : nd.Settled) (hv : nd.value = none) :
    ∃ i e j f, i ≠ j ∧ nd.children.get i = some e ∧
      nd.children.get j = some f := by
  have hcount : 1 < nd.children.present.card := by
    have := h.root hv
    rw [ChildMap.count_eq_card] at this
    omega
  obtain ⟨i, hi, j, hj, hij⟩ := Finset.one_lt_card.mp hcount
  obtain ⟨e, he⟩ := ChildMap.mem_present.mp hi
  obtain ⟨f, hf⟩ := ChildMap.mem_present.mp hj
  exact ⟨i, e, j, f, hij, he, hf⟩

/-- A settled node holds at least one key. -/
theorem Settled.exists_key {nd : TrieNode n V H} (h : nd.Settled) :
    ∃ key v, contents (some nd) key = some v := by
  induction nd using induct with
  | step nd ih =>
      cases hv : nd.value with
      | some v => exact ⟨nd.partialPath, v, by rw [contents_hit, hv]⟩
      | none =>
          obtain ⟨i, e, _, _, _, he, _⟩ := h.exists_two_children hv
          obtain ⟨key, v, hkey⟩ := ih i e he (h.child he)
          refine ⟨nd.partialPath ++ i :: key, v, ?_⟩
          rw [contents_of_get he, hkey]

/-- A path that starts every key of a settled node is no longer than the
node's partial path. -/
theorem Settled.prefix_partialPath {nd : TrieNode n V H} (h : nd.Settled)
    {p : Path n}
    (hp : ∀ key v, contents (some nd) key = some v → p <+: key) :
    p <+: nd.partialPath := by
  cases hv : nd.value with
  | some v => exact hp nd.partialPath v (by rw [contents_hit, hv])
  | none =>
      obtain ⟨i, e, j, f, hij, he, hf⟩ := h.exists_two_children hv
      obtain ⟨key, v, hkey⟩ := (h.child he).exists_key
      obtain ⟨key', v', hkey'⟩ := (h.child hf).exists_key
      have hi : p <+: nd.partialPath ++ i :: key := by
        apply hp _ v
        rw [contents_of_get he, hkey]
      have hj : p <+: nd.partialPath ++ j :: key' := by
        apply hp _ v'
        rw [contents_of_get hf, hkey']
      -- Two keys that part right after the partial path leave no room for
      -- a longer common prefix.
      rcases List.prefix_or_prefix_of_prefix hi
          (List.prefix_append nd.partialPath (i :: key)) with hle | ⟨q, rfl⟩
      · exact hle
      · rw [List.prefix_append_right_inj] at hi hj
        cases q with
        | nil => simp
        | cons x q =>
            have hx : x = i := (List.cons_prefix_cons.mp hi).1
            have hx' : x = j := (List.cons_prefix_cons.mp hj).1
            exact (hij (hx.symm.trans hx')).elim

/-! ## Tries up to the state of their edges -/

/-- The trie with every edge inline. -/
def inlined (nd : TrieNode n V H) : TrieNode n V H :=
  { nd with
    children := ⟨fun i =>
      match _he : nd.children.get i with
      | none => none
      | some e => some (.mk (inlined e.node) none)⟩ }
termination_by nd.size
decreasing_by exact size_lt_of_get _he

@[simp] theorem inlined_partialPath (nd : TrieNode n V H) :
    nd.inlined.partialPath = nd.partialPath := by
  rw [inlined]

@[simp] theorem inlined_value (nd : TrieNode n V H) :
    nd.inlined.value = nd.value := by
  rw [inlined]

theorem inlined_get (nd : TrieNode n V H) (i : Fin n) :
    nd.inlined.children.get i =
      (nd.children.get i).map fun e => .mk e.node.inlined none := by
  rw [inlined, ChildMap.get]
  dsimp only
  split <;> simp_all

theorem inlined_childTrie (nd : TrieNode n V H) (i : Fin n) :
    nd.inlined.childTrie i = (nd.childTrie i).map inlined := by
  rw [childTrie, childTrie, inlined_get]
  cases nd.children.get i <;> rfl

/-- Two nodes with equal paths and values whose slots inline alike. -/
theorem inlined_congr {nd nd' : TrieNode n V H}
    (hp : nd.partialPath = nd'.partialPath) (hv : nd.value = nd'.value)
    (hc : ∀ i, (nd.childTrie i).map inlined = (nd'.childTrie i).map inlined) :
    nd.inlined = nd'.inlined := by
  have hchildren : nd.inlined.children = nd'.inlined.children := by
    apply ChildMap.ext_get
    intro i
    have hi := hc i
    rw [inlined_get, inlined_get]
    unfold childTrie at hi
    cases he : nd.children.get i <;> cases hf : nd'.children.get i <;>
      simp_all
  apply Node.ext
  · simpa using hp
  · simpa using hv
  · exact hchildren

@[simp] theorem inlined_inlined (nd : TrieNode n V H) :
    nd.inlined.inlined = nd.inlined := by
  induction nd using induct with
  | step nd ih =>
      refine inlined_congr (inlined_partialPath nd) (inlined_value nd) ?_
      intro i
      rw [inlined_childTrie, childTrie]
      cases he : nd.children.get i with
      | none => rfl
      | some e => simp [ih i e he]

end Node

open Node

theorem contents_inlined (nd : TrieNode n V H) :
    contents (some nd.inlined) = contents (some nd) := by
  induction nd using induct with
  | step nd ih =>
      refine contents_congr (inlined_partialPath nd) (inlined_value nd) ?_
      intro i
      rw [inlined_childTrie, childTrie]
      cases he : nd.children.get i with
      | none => rfl
      | some e => simpa using ih i e he

theorem contents_eq_of_inlined_eq {nd nd' : TrieNode n V H}
    (h : nd.inlined = nd'.inlined) :
    contents (some nd) = contents (some nd') := by
  rw [← contents_inlined nd, h, contents_inlined]

namespace Node

/-- The contents of a slot, read off the contents of the node. -/
theorem contents_childTrie_eq {nd nd' : TrieNode n V H}
    (hp : nd.partialPath = nd'.partialPath)
    (hc : contents (some nd) = contents (some nd')) (i : Fin n) :
    contents (nd.childTrie i) = contents (nd'.childTrie i) := by
  funext key
  rw [← contents_below, ← contents_below, hp, hc]

/-- A settled trie is determined by its contents, up to the state of its
edges. -/
theorem inlined_eq_of_contents_eq {nd nd' : TrieNode n V H}
    (h : nd.Settled) (h' : nd'.Settled)
    (hc : contents (some nd) = contents (some nd')) :
    nd.inlined = nd'.inlined := by
  induction nd using induct generalizing nd' with
  | step nd ih =>
      have hle : nd.partialPath <+: nd'.partialPath := by
        apply h'.prefix_partialPath
        intro key v hkey
        exact prefix_of_contents (hc ▸ hkey)
      have hge : nd'.partialPath <+: nd.partialPath := by
        apply h.prefix_partialPath
        intro key v hkey
        exact prefix_of_contents (hc ▸ hkey)
      have hp : nd.partialPath = nd'.partialPath :=
        hle.eq_of_length (Nat.le_antisymm hle.length_le hge.length_le)
      have hv : nd.value = nd'.value := by
        rw [← contents_hit nd, hc, hp, contents_hit]
      refine inlined_congr hp hv ?_
      intro i
      have hslot := contents_childTrie_eq hp hc i
      -- A settled subtree has a key, so a slot is present in both or in
      -- neither.
      cases he : nd.children.get i with
      | none =>
          cases hf : nd'.children.get i with
          | none => rw [childTrie_of_none he, childTrie_of_none hf]
          | some f =>
              obtain ⟨key, v, hkey⟩ := (h'.child hf).exists_key
              rw [childTrie_of_none he, childTrie_of_get hf] at hslot
              rw [← hslot] at hkey
              simp at hkey
      | some e =>
          cases hf : nd'.children.get i with
          | none =>
              obtain ⟨key, v, hkey⟩ := (h.child he).exists_key
              rw [childTrie_of_get he, childTrie_of_none hf] at hslot
              rw [hslot] at hkey
              simp at hkey
          | some f =>
              rw [childTrie_of_get he, childTrie_of_get hf] at hslot ⊢
              have heq := ih i e he (h.child he) (h'.child hf) hslot
              simp [heq]

end Node

end ArityTries
