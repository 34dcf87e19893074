import Mathlib.Algebra.BigOperators.Fin
import ArityArrays.Tries.Mutation.Edit
import ArityArrays.Tries.Mutation.Opening

/-!
# Counting edges

How many edges of a trie have a property, and how much each change to a node
changes that number.
-/

namespace ArityTries

namespace Node

variable {n : ℕ} {V H : Type}

/-- The number of edges beneath a node with a property. -/
def countEdges (p : Edge n V H → Bool) (nd : TrieNode n V H) : ℕ :=
  (edges [] nd).countP fun se => p se.2

/-- The number of edges with a property at and beneath a slot. -/
def countSlot (p : Edge n V H → Bool) (o : Option (Edge n V H)) : ℕ :=
  (slotEdges [] o).countP fun se => p se.2

/-- The number of inline edges of a trie. -/
def inlineEdges (nd : TrieNode n V H) : ℕ :=
  countEdges (·.hash.isNone) nd

/-- The number of sealed edges of a trie. -/
def sealedCount (nd : TrieNode n V H) : ℕ :=
  countEdges (·.hash.isSome) nd

variable {p : Edge n V H → Bool} {nd nd' : TrieNode n V H} {i : Fin n}
  {e : Edge n V H}

/-- Leading paths do not count. -/
theorem countP_edges (p : Edge n V H → Bool) (L : Path n)
    (nd : TrieNode n V H) :
    ((edges L nd).countP fun se => p se.2) = countEdges p nd := by
  have happend := edges_append L [] nd
  rw [List.append_nil] at happend
  rw [happend, List.countP_map]
  rfl

@[simp] theorem countSlot_none :
    countSlot p (none : Option (Edge n V H)) = 0 := rfl

theorem countSlot_some :
    countSlot p (some e) = (if p e then 1 else 0) + countEdges p e.node := by
  rw [countSlot, slotEdges_some, List.countP_cons, countP_edges, add_comm]

@[simp] theorem countSlot_inline (m : TrieNode n V H) :
    countSlot (·.hash.isNone) (some (Edge.mk m none)) = 1 + inlineEdges m := by
  rw [countSlot_some]
  rfl

@[simp] theorem countSlot_sealed_inline (m : TrieNode n V H) :
    countSlot (·.hash.isSome) (some (Edge.mk m none)) = sealedCount m := by
  rw [countSlot_some]
  exact Nat.zero_add _

/-- An edge counts once, besides what is beneath it. -/
theorem countSlot_le : countSlot p (some e) ≤ 1 + countEdges p e.node := by
  rw [countSlot_some]
  split <;> omega

/-- The edges of a node, slot by slot. -/
theorem countEdges_eq_sum (p : Edge n V H → Bool) (nd : TrieNode n V H) :
    countEdges p nd = ∑ i, countSlot p (nd.children.get i) := by
  have hslot : ∀ (L : Path n) (o : Option (Edge n V H)),
      ((slotEdges L o).countP fun se => p se.2) = countSlot p o := by
    intro L o
    cases o with
    | none => rfl
    | some e =>
        rw [countSlot, slotEdges_some, slotEdges_some, List.countP_cons,
          List.countP_cons, countP_edges, countP_edges]
  rw [countEdges, edges_eq, List.countP_flatMap, Fin.sum_univ_def]
  simp only [Function.comp_def, hslot]

/-- Only the children count. -/
theorem countEdges_congr (hc : nd'.children = nd.children) :
    countEdges p nd' = countEdges p nd := by
  rw [countEdges_eq_sum, countEdges_eq_sum, hc]

theorem countEdges_eq_add (p : Edge n V H → Bool) (nd : TrieNode n V H)
    (i : Fin n) :
    countEdges p nd = countSlot p (nd.children.get i) +
      ∑ j ∈ Finset.univ.erase i, countSlot p (nd.children.get j) := by
  rw [countEdges_eq_sum]
  exact (Finset.add_sum_erase _ (fun j => countSlot p (nd.children.get j))
    (Finset.mem_univ i)).symm

/-- Two nodes that differ in one slot. -/
theorem countEdges_slot (hc : ∀ j, j ≠ i →
      nd'.children.get j = nd.children.get j) :
    countEdges p nd' + countSlot p (nd.children.get i) =
      countEdges p nd + countSlot p (nd'.children.get i) := by
  have hbeside : ∑ j ∈ Finset.univ.erase i,
      countSlot p (nd'.children.get j) =
        ∑ j ∈ Finset.univ.erase i, countSlot p (nd.children.get j) := by
    refine Finset.sum_congr rfl ?_
    intro j hj
    rw [hc j (Finset.ne_of_mem_erase hj)]
  rw [countEdges_eq_add p nd' i, countEdges_eq_add p nd i, hbeside]
  omega

theorem countEdges_setChild (p : Edge n V H → Bool) (nd : TrieNode n V H)
    (i : Fin n) (e : Edge n V H) :
    countEdges p (nd.setChild i e) + countSlot p (nd.children.get i) =
      countEdges p nd + countSlot p (some e) := by
  have hslot : countEdges p (nd.setChild i e) +
      countSlot p (nd.children.get i) = countEdges p nd +
        countSlot p ((nd.setChild i e).children.get i) :=
    countEdges_slot fun j hj => ChildMap.get_set_of_ne _ hj e
  rwa [setChild_children, ChildMap.get_set_self] at hslot

theorem countEdges_eraseChild (p : Edge n V H → Bool)
    (nd : TrieNode n V H) (i : Fin n) :
    countEdges p (nd.eraseChild i) + countSlot p (nd.children.get i) =
      countEdges p nd := by
  have hslot : countEdges p (nd.eraseChild i) +
      countSlot p (nd.children.get i) = countEdges p nd +
        countSlot p ((nd.eraseChild i).children.get i) :=
    countEdges_slot fun j hj => ChildMap.get_erase_of_ne _ hj
  rwa [eraseChild_children, ChildMap.get_erase_self] at hslot

theorem countEdges_of_no_child (hempty : ∀ i, nd.children.get i = none) :
    countEdges p nd = 0 := by
  rw [countEdges_eq_sum]
  refine Finset.sum_eq_zero ?_
  intro i _
  rw [hempty i]
  rfl

@[simp] theorem countEdges_leaf (p : Edge n V H → Bool) (q : Path n)
    (v : V) : countEdges p (leaf q v : TrieNode n V H) = 0 :=
  countEdges_of_no_child fun _ => rfl

theorem countEdges_le_of_get (he : nd.children.get i = some e) :
    countEdges p e.node ≤ countEdges p nd := by
  have hslot := countEdges_eq_add p nd i
  rw [he, countSlot_some] at hslot
  omega

/-- A node with its only child merged into it has the edges of the child. -/
theorem countEdges_merged (p : Edge n V H → Bool)
    (hc : nd.children.count = 1) :
    countEdges p nd.merged ≤ countEdges p nd ∧
      countEdges p nd ≤ countEdges p nd.merged + 1 := by
  obtain ⟨i, e, he⟩ := ChildMap.exists_only_child hc
  have hbelow : countEdges p nd.merged = countEdges p e.node := by
    rw [merged_of_get hc he]
    exact countEdges_congr rfl
  have hslot : countEdges p nd = countSlot p (some e) := by
    rw [countEdges_eq_add p nd i, he, Nat.add_eq_left]
    refine Finset.sum_eq_zero ?_
    intro j hj
    rw [ChildMap.get_of_only_child hc he (Finset.ne_of_mem_erase hj)]
    rfl
  have hone := countSlot_le (p := p) (e := e)
  have hle := countEdges_le_of_get (p := p) he
  omega

/-- The node pushed beneath a new one takes its edges along. -/
theorem countEdges_pushDown (p : Edge n V H → Bool) (nd : TrieNode n V H)
    (shared : Path n) (value : Option V) (ni : Fin n) (nodeRest : Path n) :
    countEdges p (nd.pushDown shared value ni nodeRest) =
      countSlot p (some
        (.mk { nd with partialPath := nodeRest } none)) := by
  rw [countEdges_eq_add p _ ni, pushDown_get_self, Nat.add_eq_left]
  refine Finset.sum_eq_zero ?_
  intro j hj
  rw [pushDown_get_of_ne _ _ _ _ _ (Finset.ne_of_mem_erase hj)]
  rfl

/-! ## Inline and sealed edges -/

/-- Every edge is inline or sealed. -/
theorem inlineEdges_add_sealedCount (nd : TrieNode n V H) :
    inlineEdges nd + sealedCount nd = (edges [] nd).length := by
  have hsplit := List.length_eq_countP_add_countP
    (fun se : Path n × Edge n V H => se.2.hash.isNone) (l := edges [] nd)
  have hnot : ∀ se : Path n × Edge n V H,
      decide (¬ (se.2.hash.isNone = true)) = se.2.hash.isSome := by
    intro se
    cases se.2.hash <;> rfl
  simp only [hnot] at hsplit
  exact hsplit.symm

/-- The multiset of the sealed edges has this many members. -/
theorem card_sealedEdges (L : Path n) (nd : TrieNode n V H) :
    (sealedEdges L nd).card = sealedCount nd := by
  rw [sealedEdges, Multiset.coe_card, ← List.countP_eq_length_filter]
  exact countP_edges (fun e => e.hash.isSome) L nd

theorem inlineEdges_eq_zero_iff :
    inlineEdges nd = 0 ↔ ∀ se ∈ edges [] nd, se.2.hash ≠ none := by
  rw [inlineEdges, countEdges, List.countP_eq_zero]
  refine forall_congr' fun se => imp_congr_right fun _ => ?_
  rw [Option.isNone_iff_eq_none]

end Node

/-- The number of edges of a trie with a property. -/
def Trie.countEdges {n : ℕ} {V H : Type} (p : Edge n V H → Bool) :
    Trie n V H → ℕ
  | none => 0
  | some nd => nd.countEdges p

@[simp] theorem Trie.countEdges_none {n : ℕ} {V H : Type}
    (p : Edge n V H → Bool) :
    Trie.countEdges p (none : Trie n V H) = 0 := rfl

@[simp] theorem Trie.countEdges_some {n : ℕ} {V H : Type}
    (p : Edge n V H → Bool) (nd : TrieNode n V H) :
    Trie.countEdges p (some nd) = nd.countEdges p := rfl

end ArityTries
