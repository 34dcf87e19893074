import Mathlib.Data.List.Lex
import ArityArrays.Tries.Contents

/-!
# Pre-order is ascending order

A node's full path is a proper prefix of every full path beneath it, and the
children are visited by ascending index.  The nodes of a trie in pre-order are
therefore strictly ascending by full path, in lexicographic order.
-/

namespace ArityTries

open Node

/-! ## Lexicographic order -/

section Lex

variable {α : Type} [LinearOrder α]

theorem lt_append_cons (p : List α) (x : α) (xs : List α) :
    p < p ++ x :: xs := by
  have hnil : List.Lex (· < ·) [] (x :: xs) := List.Lex.nil
  have happend := List.Lex.append_left (· < ·) hnil p
  rwa [List.append_nil] at happend

theorem append_cons_lt (p : List α) {x y : α} (hxy : x < y)
    (xs ys : List α) : p ++ x :: xs < p ++ y :: ys :=
  List.Lex.append_left (· < ·) (List.Lex.rel hxy) p

theorem le_of_isPrefix {p q : List α} (h : p <+: q) : p ≤ q := by
  obtain ⟨r, rfl⟩ := h
  cases r with
  | nil => rw [List.append_nil]
  | cons x xs => exact (lt_append_cons p x xs).le

end Lex

variable {n : ℕ} {V H : Type}

namespace Node

/-! ## Full paths -/

/-- The full path of a listed node. -/
def fullPath (sm : Path n × TrieNode n V H) : Path n :=
  sm.1 ++ sm.2.partialPath

@[simp] theorem fullPath_mk (L : Path n) (nd : TrieNode n V H) :
    fullPath (L, nd) = L ++ nd.partialPath := rfl

/-- The full path of a node at or beneath `L` extends `L`. -/
theorem prefix_fullPath {L : Path n} {nd : TrieNode n V H}
    {sm : Path n × TrieNode n V H} (h : sm ∈ nodes L nd) :
    L ++ nd.partialPath <+: fullPath sm := by
  induction nd using induct generalizing L with
  | step nd ih =>
      rcases mem_nodes.mp h with heq | ⟨i, e, he, hmem⟩
      · obtain rfl : sm = (L, nd) := heq
        exact List.prefix_refl _
      · have hslot : L ++ nd.partialPath <+: slotPath L nd i :=
          List.prefix_append _ _
        have hchild := (List.prefix_append _ _).trans (ih i e he hmem)
        exact hslot.trans hchild

/-- The nodes at or beneath one slot lie beneath its path. -/
theorem prefix_of_mem_slotNodes {L : Path n} {o : Option (Edge n V H)}
    {sm : Path n × TrieNode n V H} (h : sm ∈ slotNodes L o) :
    L <+: fullPath sm := by
  cases o with
  | none => cases h
  | some e => exact (List.prefix_append _ _).trans (prefix_fullPath h)

/-- The nodes of a trie in pre-order are strictly ascending by full path. -/
theorem nodes_ascending (L : Path n) (nd : TrieNode n V H) :
    (nodes L nd).Pairwise fun a b => fullPath a < fullPath b := by
  induction nd using induct generalizing L with
  | step nd ih =>
      rw [nodes_eq, List.pairwise_cons, List.pairwise_flatMap]
      refine ⟨?_, ?_, ?_⟩
      · intro sm hsm
        obtain ⟨i, -, hi⟩ := List.mem_flatMap.mp hsm
        obtain ⟨r, hr⟩ := prefix_of_mem_slotNodes hi
        have hlt := lt_append_cons (L ++ nd.partialPath) i r
        rw [fullPath_mk, ← hr, slotPath, List.append_assoc _ [i],
          List.singleton_append]
        exact hlt
      · intro i _
        cases he : nd.children.get i with
        | none => exact List.Pairwise.nil
        | some e => exact ih i e he _
      · refine (List.pairwise_lt_finRange n).imp ?_
        intro i j hij a ha b hb
        obtain ⟨r, hr⟩ := prefix_of_mem_slotNodes ha
        obtain ⟨q, hq⟩ := prefix_of_mem_slotNodes hb
        have hlt := append_cons_lt (L ++ nd.partialPath) hij r q
        rw [← hr, ← hq, slotPath, slotPath, List.append_assoc _ [i],
          List.append_assoc _ [j], List.singleton_append,
          List.singleton_append]
        exact hlt

/-! ## Keys -/

/-- The keys of a trie are listed in ascending order. -/
theorem entries_ascending (L : Path n) (nd : TrieNode n V H) :
    (nd.entries L).Pairwise fun a b => a.1 < b.1 := by
  refine List.Pairwise.filterMap _ ?_ (nodes_ascending L nd)
  intro a b hab kv hkv kv' hkv'
  obtain ⟨v, -, rfl⟩ := Option.map_eq_some_iff.mp hkv
  obtain ⟨v', -, rfl⟩ := Option.map_eq_some_iff.mp hkv'
  exact hab

theorem entries_nodup (L : Path n) (nd : TrieNode n V H) :
    ((nd.entries L).map Prod.fst).Nodup :=
  (List.pairwise_map.mpr (entries_ascending L nd)).imp ne_of_lt

end Node

end ArityTries
