import ArityArrays.Tries.Lookup
import ArityArrays.Tries.NoPanic
import ArityArrays.Tries.Walking.Reads

/-!
# What lookups read

A lookup reads the edges on its key, from the root down and each once.
-/

namespace ArityTries

open Checked Loop Node

variable {n : ℕ} {V H σ ε : Type}

/-- The edges a lookup of `key` has to read: those at the slots on it. -/
def readsOn (t : Trie n V H) (key : Path n) : List (Path n × Edge n V H) :=
  t.edges.filter fun se => decide (se.1 <+: key)

/-- A listed edge seen from further up. -/
def shiftSlot (L : Path n) (se : Path n × Edge n V H) : Path n × Edge n V H :=
  (L ++ se.1, se.2)

@[simp] theorem map_snd_shiftSlot (L : Path n)
    (ses : List (Path n × Edge n V H)) :
    (ses.map (shiftSlot L)).map Prod.snd = ses.map Prod.snd := by
  rw [List.map_map]
  rfl

theorem map_shiftSlot_append (L M : Path n)
    (ses : List (Path n × Edge n V H)) :
    ses.map (shiftSlot (L ++ M)) =
      (ses.map (shiftSlot M)).map (shiftSlot L) := by
  rw [List.map_map]
  refine List.map_congr_left fun se _ => ?_
  simp [shiftSlot]

section Lookup

variable {nd : TrieNode n V H} {key : Path n}

theorem readsOn_of_stop (hstop : Stops nd key) :
    readsOn (some nd) key = [] := by
  refine List.filter_eq_nil_iff.mpr ?_
  rintro se hse hbelow
  rw [Trie.edges, edges_eq_beneath, List.nil_append] at hse
  obtain ⟨i, hi, hslot⟩ := slot_of_mem_edgesBeneath hse
  obtain ⟨kr, hkr⟩ := hslot.trans (of_decide_eq_true hbelow)
  have hnone := hstop i kr (by rw [← hkr, ← List.append_cons])
  obtain ⟨e, he⟩ := ChildMap.mem_present.mp hi
  rw [hnone] at he
  cases he

/-- Of the slots beneath a node only the one at the next index is on the
key. -/
theorem filter_edgesBeneath {p kr : Path n} {i : Fin n} {bits : Bitmap n}
    (hi : i ∈ bits) :
    ((edgesBeneath p nd bits).filter fun se =>
        decide (se.1 <+: p ++ i :: kr)) =
      (slotEdges (p ++ [i]) (nd.children.get i)).filter fun se =>
        decide (se.1 <+: p ++ i :: kr) := by
  have hbits : (Bitmap.bits bits).filter (fun j => j == i) = [i] := by
    have hnodup : (Bitmap.bits bits).Nodup :=
      (List.nodup_finRange n).sublist List.filter_sublist
    rw [List.filter_beq, List.count_eq_one_of_mem hnodup
      (Bitmap.mem_bits.mpr hi), List.replicate_one]
  have hothers : ∀ j ∈ Bitmap.bits bits, (j == i) = false →
      ((slotEdges (p ++ [j]) (nd.children.get j)).filter fun se =>
        decide (se.1 <+: p ++ i :: kr)) = [] := by
    intro j _ hj
    refine List.filter_eq_nil_iff.mpr ?_
    intro se hse hbelow
    have hslot := (slot_of_mem_slotEdges hse).trans
      (of_decide_eq_true hbelow)
    rw [List.prefix_append_right_inj, List.cons_prefix_cons] at hslot
    rw [hslot.1, beq_self_eq_true] at hj
    cases hj
  rw [edgesBeneath, List.filter_flatMap, ← flatMap_filter_of_nil hothers,
    hbits, List.flatMap_singleton]

/-- Below a node the lookup goes on in the child at the next index. -/
theorem readsOn_of_get {i : Fin n} {keyRest : Path n} {e : Edge n V H}
    (he : nd.children.get i = some e) :
    readsOn (some nd) (nd.partialPath ++ i :: keyRest) =
      (nd.partialPath ++ [i], e) ::
        (readsOn (some e.node) keyRest).map
          (shiftSlot (nd.partialPath ++ [i])) := by
  have hedges : edges (nd.partialPath ++ [i]) e.node =
      (edges [] e.node).map (shiftSlot (nd.partialPath ++ [i])) := by
    have hshift := edges_append (nd.partialPath ++ [i]) [] e.node
    rwa [List.append_nil] at hshift
  have hbelow : ∀ q : Path n,
      nd.partialPath ++ [i] ++ q <+: nd.partialPath ++ i :: keyRest ↔
        q <+: keyRest := by
    intro q
    rw [List.append_assoc, List.prefix_append_right_inj,
      List.singleton_append, List.cons_prefix_cons]
    exact and_iff_right rfl
  have hhead : decide (nd.partialPath ++ [i] <+:
      nd.partialPath ++ i :: keyRest) = true := by
    have hnil := (hbelow []).mpr List.nil_prefix
    rw [List.append_nil] at hnil
    exact decide_eq_true hnil
  rw [readsOn, Trie.edges, edges_eq_beneath, List.nil_append,
    filter_edgesBeneath (ChildMap.mem_present.mpr ⟨e, he⟩), he,
    slotEdges_some, List.filter_cons_of_pos (by exact hhead), hedges,
    List.filter_map]
  congr 2
  refine List.filter_congr fun se _ => ?_
  exact decide_eq_decide.mpr (hbelow se.1)

/-- A lookup that goes no further reads nothing. -/
theorem getNodeBody_stops (store : EdgeStore n V H σ ε)
    (hstop : Stops nd key) (chain : List (TrieNode n V H)) (s : σ) :
    ∃ o, getNodeBody store (chain, nd, key, s) = .ok (.leave (.ok o, s)) := by
  rcases descent_cases key nd.partialPath with
    rfl | ⟨ni, nr, hp⟩ | ⟨i, kr, rfl⟩ | ⟨sh, ki, kr, ni, nr, hne, rfl, hp⟩
  · exact ⟨_, by simp [getNodeBody]; rfl⟩
  · exact ⟨_, by simp [getNodeBody, hp]; rfl⟩
  · exact ⟨_, by simp [getNodeBody, hstop i kr rfl]; rfl⟩
  · exact ⟨_, by simp [getNodeBody, hp, commonPrefix_fork sh hne]; rfl⟩

/-- The reads of the lookup from an arbitrary chain of handles. -/
theorem getNodeBody_reads {store : EdgeStore n V H σ ε}
    {seen : σ → List (Edge n V H)} (hseen : Lists store seen)
    (nd : TrieNode n V H) (key : Path n) (chain : List (TrieNode n V H))
    (s : σ) {r : Except ε (Option (NodeRef n V H))} {s' : σ}
    (hrun : run (getNodeBody store) _ (getNodeBody_decreases store)
      (chain, nd, key, s) = .ok (r, s')) :
    ∃ read, seen s' = seen s ++ read.map Prod.snd ∧
      read <+: readsOn (some nd) key ∧
      ∀ o, r = .ok o → read = readsOn (some nd) key := by
  induction nd, key using walkInduct generalizing chain s with
  | stop nd key hstop =>
      rw [readsOn_of_stop hstop]
      obtain ⟨o, hleave⟩ := getNodeBody_stops store hstop chain s
      rw [run_of_leave hleave] at hrun
      cases hrun
      exact ⟨[], by simp, List.prefix_refl _, fun _ _ => rfl⟩
  | descend nd i keyRest e he ih =>
      rw [readsOn_of_get he]
      have hread := hseen s e
      rcases store.read_cases s e with ⟨x, s₁, hr⟩ | ⟨s₁, hr⟩
      · rw [hr] at hread
        have hfail : run (getNodeBody store) _ (getNodeBody_decreases store)
            (chain, nd, nd.partialPath ++ i :: keyRest, s) =
              .ok (.error x, s₁) := by
          apply run_of_leave
          simp [getNodeBody, he, hr]
        rw [hfail] at hrun
        cases hrun
        exact ⟨[(nd.partialPath ++ [i], e)], hread,
          List.cons_prefix_cons.mpr ⟨rfl, List.nil_prefix⟩,
          fun o ho => by cases ho⟩
      · rw [hr] at hread
        have hstep : run (getNodeBody store) _ (getNodeBody_decreases store)
            (chain, nd, nd.partialPath ++ i :: keyRest, s) =
          run (getNodeBody store) _ (getNodeBody_decreases store)
            (e.node :: chain, e.node, keyRest, s₁) := by
          apply run_of_again
          simp [getNodeBody, he, hr]
        rw [hstep] at hrun
        obtain ⟨read, hs', hbelow, hall⟩ := ih (e.node :: chain) s₁ hrun
        refine ⟨(nd.partialPath ++ [i], e) ::
          read.map (shiftSlot (nd.partialPath ++ [i])), ?_, ?_, ?_⟩
        · rw [hs', hread, List.append_assoc, List.map_cons, map_snd_shiftSlot]
          rfl
        · exact List.cons_prefix_cons.mpr ⟨rfl, hbelow.map _⟩
        · intro o ho
          rw [hall o ho]

end Lookup

/-- A lookup reads the edges at the slots on its key, from the root down, up
to the read that fails, if one does. -/
theorem lookup_reads (store : EdgeStore n V H σ ε) (t : Trie n V H)
    (key : Path n) (s : σ) :
    ∃ r s' read, getNode store.listed t key (s, []) =
        .ok (r, s', read.map Prod.snd) ∧
      read <+: readsOn t key ∧ ∀ o, r = .ok o → read = readsOn t key := by
  cases t with
  | none =>
      refine ⟨_, s, [], rfl, List.nil_prefix, ?_⟩
      rintro o -
      rfl
  | some nd =>
      obtain ⟨⟨r, s', seen⟩, hrun⟩ := getNode_safe store.listed (some nd) key (s, [])
      obtain ⟨read, hseen, hbelow, hall⟩ :=
        getNodeBody_reads (listed_lists store) nd key [] (s, []) hrun
      obtain rfl : seen = read.map Prod.snd := by simpa using hseen
      exact ⟨r, s', read, hrun, hbelow, hall⟩

end ArityTries
