import ArityArrays.Tries.Shape

/-!
# Mutations as edits along a path

What the mutations compute, with the store left out.  An edit walks down its
key, acts on the node where the walk stops, and repairs the nodes it came
through on the way back: every edge on the way is inline afterwards, and a
child that leaves its slot may take its parent with it or leave a survivor
that is merged into the parent.  The three mutations differ in what they do
where the walk stops.
-/

namespace ArityTries

variable {n : ℕ} {V H ρ : Type}

/-- What becomes of a node under an edit: it stays, changed, or it leaves its
slot.  Either way the edit has a result. -/
inductive Fate (n : ℕ) (V H ρ : Type) where
  | stays (nd : TrieNode n V H) (r : ρ)
  | leaves (r : ρ)

namespace Fate

def trie : Fate n V H ρ → Trie n V H
  | stays nd _ => some nd
  | leaves _ => none

def result : Fate n V H ρ → ρ
  | stays _ r => r
  | leaves r => r

@[simp] theorem trie_stays (nd : TrieNode n V H) (r : ρ) :
    (stays nd r).trie = some nd := rfl

@[simp] theorem trie_leaves (r : ρ) :
    (leaves r : Fate n V H ρ).trie = none := rfl

@[simp] theorem result_stays (nd : TrieNode n V H) (r : ρ) :
    (stays nd r).result = r := rfl

@[simp] theorem result_leaves (r : ρ) :
    (leaves r : Fate n V H ρ).result = r := rfl

end Fate

namespace Node

/-- The node with its only child merged into it. -/
def merged (nd : TrieNode n V H) : TrieNode n V H :=
  match nd.children.takeOnlyChild.1 with
  | none => nd
  | some (i, e) =>
      { e.node with partialPath := nd.partialPath ++ i :: e.node.partialPath }

/-- What becomes of a node whose child at `i` leaves. -/
def detach (nd : TrieNode n V H) (i : Fin n) (r : ρ) : Fate n V H ρ :=
  if nd.value.isSome ∨ 3 ≤ nd.children.count then
    .stays (nd.eraseChild i) r
  else if nd.children.count = 2 then .stays (nd.eraseChild i).merged r
  else .leaves r

/-- What becomes of a node whose child at `i` meets a fate. -/
def lift (nd : TrieNode n V H) (i : Fin n) :
    Fate n V H ρ → Fate n V H ρ
  | .stays m r => .stays (nd.setChild i (.mk m none)) r
  | .leaves r => nd.detach i r

/-- Walk down `key` and act where the walk stops. -/
def edit (stop : TrieNode n V H → Path n → Fate n V H ρ)
    (nd : TrieNode n V H) (key : Path n) : Fate n V H ρ :=
  match descent key nd.partialPath with
  | .below i keyRest =>
      match _he : nd.children.get i with
      | some e => nd.lift i (edit stop e.node keyRest)
      | none => stop nd key
  | _ => stop nd key
termination_by nd.size
decreasing_by exact size_lt_of_get _he

/-- A node that takes over the first part of the partial path of `nd`, which
hangs beneath it with the rest. -/
def pushDown (nd : TrieNode n V H) (shared : Path n) (value : Option V)
    (ni : Fin n) (nodeRest : Path n) : TrieNode n V H where
  partialPath := shared
  value := value
  children := ChildMap.empty.set ni
    (.mk { nd with partialPath := nodeRest } none)

/-- Where `insert` stops. -/
def insertAt (value : V) (nd : TrieNode n V H) (key : Path n) :
    Fate n V H (Option V) :=
  match descent key nd.partialPath with
  | .hit => .stays { nd with value := some value } nd.value
  | .above shared ni nodeRest =>
      .stays (nd.pushDown shared (some value) ni nodeRest) none
  | .below ki keyRest =>
      .stays (nd.setChild ki (.mk (leaf keyRest value) none)) none
  | .fork shared ki keyRest ni nodeRest =>
      .stays ((nd.pushDown shared none ni nodeRest).setChild ki
        (.mk (leaf keyRest value) none)) none

/-- Where `remove` stops. -/
def removeAt (nd : TrieNode n V H) (key : Path n) :
    Fate n V H (Option V) :=
  match descent key nd.partialPath with
  | .hit =>
      if nd.value.isNone then .stays nd none
      else
        match nd.children.count with
        | 0 => .leaves nd.value
        | 1 => .stays { nd with value := none }.merged nd.value
        | _ => .stays { nd with value := none } nd.value
  | _ => .stays nd none

/-- Where `remove_prefix` stops. -/
def removePrefixAt (nd : TrieNode n V H) (key : Path n) :
    Fate n V H Unit :=
  match descent key nd.partialPath with
  | .hit => .leaves ()
  | .above .. => .leaves ()
  | _ => .stays nd ()

end Node

/-! ## The walk -/

namespace Node

section PushDown

variable (nd : TrieNode n V H) (shared : Path n) (value : Option V)
  (ni : Fin n) (nodeRest : Path n)

@[simp] theorem pushDown_partialPath :
    (nd.pushDown shared value ni nodeRest).partialPath = shared := rfl

@[simp] theorem pushDown_value :
    (nd.pushDown shared value ni nodeRest).value = value := rfl

@[simp] theorem pushDown_get_self :
    (nd.pushDown shared value ni nodeRest).children.get ni =
      some (.mk { nd with partialPath := nodeRest } none) :=
  ChildMap.get_set_self _ _ _

theorem pushDown_get_of_ne {j : Fin n} (hj : j ≠ ni) :
    (nd.pushDown shared value ni nodeRest).children.get j = none :=
  ChildMap.get_set_of_ne _ hj _

theorem pushDown_count :
    (nd.pushDown shared value ni nodeRest).children.count = 1 := by
  rw [pushDown, ChildMap.count_set_of_none (ChildMap.get_empty ni),
    ChildMap.count_empty]

end PushDown

/-- The walk down `key` goes no further than `nd`. -/
def Stops (nd : TrieNode n V H) (key : Path n) : Prop :=
  ∀ i keyRest, key = nd.partialPath ++ i :: keyRest →
    nd.children.get i = none

theorem stops_partialPath (nd : TrieNode n V H) :
    Stops nd nd.partialPath := by
  intro i keyRest h
  simp at h

/-- Induction along a walk: it stops, or goes on into a child. -/
@[elab_as_elim]
theorem walkInduct {P : TrieNode n V H → Path n → Prop}
    (stop : ∀ nd key, Stops nd key → P nd key)
    (descend : ∀ nd i keyRest e, nd.children.get i = some e →
      P e.node keyRest → P nd (nd.partialPath ++ i :: keyRest))
    (nd : TrieNode n V H) (key : Path n) : P nd key := by
  induction nd using induct generalizing key with
  | step nd ih =>
      by_cases hstop : Stops nd key
      · exact stop nd key hstop
      · unfold Stops at hstop
        push Not at hstop
        obtain ⟨i, keyRest, rfl, hi⟩ := hstop
        obtain ⟨e, he⟩ := Option.ne_none_iff_exists'.mp hi
        exact descend nd i keyRest e he (ih i e he keyRest)

theorem edit_of_stops {stop : TrieNode n V H → Path n → Fate n V H ρ}
    {nd : TrieNode n V H} {key : Path n} (h : Stops nd key) :
    edit stop nd key = stop nd key := by
  rw [edit]
  rcases descent_cases key nd.partialPath with
    rfl | ⟨ni, nr, hp⟩ | ⟨i, kr, rfl⟩ | ⟨sh, ki, kr, ni, nr, hne, rfl, hp⟩
  · simp
  · simp [hp]
  · have hi := h i kr rfl
    simp only [descent_below]
    split <;> simp_all
  · simp [hp, descent_fork sh hne]

theorem edit_below {stop : TrieNode n V H → Path n → Fate n V H ρ}
    {nd : TrieNode n V H} {i : Fin n} {e : Edge n V H}
    (he : nd.children.get i = some e) (keyRest : Path n) :
    edit stop nd (nd.partialPath ++ i :: keyRest) =
      nd.lift i (edit stop e.node keyRest) := by
  rw [edit]
  simp only [descent_below]
  split <;> simp_all

/-- The repair after a child ignores how the slot looked before. -/
theorem lift_setChild {nd : TrieNode n V H} {i : Fin n} {e : Edge n V H}
    (he : nd.children.get i = some e) (e' : Edge n V H)
    (fate : Fate n V H ρ) :
    (nd.setChild i e').lift i fate = nd.lift i fate := by
  cases fate with
  | stays m r => simp [lift]
  | leaves r =>
      have hcount : (nd.setChild i e').children.count = nd.children.count :=
        ChildMap.count_set_of_mem he e'
      simp only [lift, detach, hcount, setChild_value, eraseChild_setChild]

@[simp] theorem lift_result (nd : TrieNode n V H) (i : Fin n)
    (fate : Fate n V H ρ) : (nd.lift i fate).result = fate.result := by
  cases fate with
  | stays m r => rfl
  | leaves r =>
      simp only [lift, detach]
      split
      · rfl
      · split <;> rfl

/-- A result that follows the walk is the result of the edit. -/
theorem edit_result {stop : TrieNode n V H → Path n → Fate n V H ρ}
    {R : TrieNode n V H → Path n → ρ}
    (hstop : ∀ nd key, Stops nd key → (stop nd key).result = R nd key)
    (hbelow : ∀ nd i keyRest e, nd.children.get i = some e →
      R nd (nd.partialPath ++ i :: keyRest) = R e.node keyRest)
    (nd : TrieNode n V H) (key : Path n) :
    (edit stop nd key).result = R nd key := by
  induction nd, key using walkInduct with
  | stop nd key h => rw [edit_of_stops h, hstop nd key h]
  | descend nd i keyRest e he ih =>
      rw [edit_below he, lift_result, ih, hbelow nd i keyRest e he]

end Node

/-! ## Contents -/

open Node

theorem contents_leaf (p : Path n) (v : V) (key : Path n) :
    contents (some (leaf p v : TrieNode n V H)) key =
      if key = p then some v else none := by
  have hpath : (leaf p v : TrieNode n V H).partialPath = p := rfl
  have hslot : ∀ i, (leaf p v : TrieNode n V H).childTrie i = none :=
    fun i => rfl
  rcases descent_cases key p with
    rfl | ⟨ni, nr, hp⟩ | ⟨i, kr, rfl⟩ | ⟨sh, ki, kr, ni, nr, hne, rfl, hp⟩
  · rw [if_pos rfl]
    exact contents_hit (leaf key v)
  · rw [contents_above (hpath.trans hp)]
    simp [hp]
  · have hbelow := contents_below (leaf p v : TrieNode n V H) i kr
    rw [hslot, contents_none] at hbelow
    rw [if_neg (by simp)]
    exact hbelow
  · rw [contents_fork hne (hpath.trans hp)]
    simp [hp, hne]

/-- Moving a node beneath a longer partial path moves its keys. -/
theorem contents_prepend (q : Path n) (m : TrieNode n V H) (key : Path n) :
    contents (some { m with partialPath := q ++ m.partialPath })
      (q ++ key) = contents (some m) key := by
  rcases descent_cases key m.partialPath with
    rfl | ⟨ni, nr, hp⟩ | ⟨i, kr, rfl⟩ | ⟨sh, ki, kr, ni, nr, hne, rfl, hp⟩
  · rw [contents_hit m]
    exact contents_hit { m with partialPath := q ++ m.partialPath }
  · rw [contents_above hp]
    have habove : q ++ m.partialPath = (q ++ key) ++ ni :: nr := by
      simp [hp]
    exact contents_above habove
  · rw [contents_below, ← List.append_assoc]
    exact contents_below { m with partialPath := q ++ m.partialPath } i kr
  · rw [contents_fork hne hp, ← List.append_assoc]
    have hfork : q ++ m.partialPath = (q ++ sh) ++ ni :: nr := by
      simp [hp]
    exact contents_fork hne hfork

namespace Node

/-- A valueless node with one child holds the keys of that child alone. -/
theorem contents_of_only_child {nd : TrieNode n V H} {i : Fin n}
    (hv : nd.value = none)
    (hother : ∀ j, j ≠ i → nd.children.get j = none) {key : Path n}
    (hkey : ¬ nd.partialPath ++ [i] <+: key) :
    contents (some nd) key = none := by
  rcases descent_cases key nd.partialPath with
    rfl | ⟨ni, nr, hp⟩ | ⟨j, kr, rfl⟩ | ⟨sh, ki, kr, ni, nr, hne, rfl, hp⟩
  · rw [contents_hit, hv]
  · exact contents_above hp
  · have hj : j ≠ i := by
      rintro rfl
      exact hkey ⟨kr, by simp⟩
    exact contents_of_get_none (hother j hj) kr
  · exact contents_fork hne hp

theorem contents_of_no_child {nd : TrieNode n V H} (hv : nd.value = none)
    (hempty : ∀ i, nd.children.get i = none) (key : Path n) :
    contents (some nd) key = none := by
  rcases descent_cases key nd.partialPath with
    rfl | ⟨ni, nr, hp⟩ | ⟨i, kr, rfl⟩ | ⟨sh, ki, kr, ni, nr, hne, rfl, hp⟩
  · rw [contents_hit, hv]
  · exact contents_above hp
  · exact contents_of_get_none (hempty i) kr
  · exact contents_fork hne hp

theorem merged_of_get {nd : TrieNode n V H} (hc : nd.children.count = 1)
    {i : Fin n} {e : Edge n V H} (he : nd.children.get i = some e) :
    nd.merged = { e.node with
      partialPath := nd.partialPath ++ i :: e.node.partialPath } := by
  simp [merged, ChildMap.takeOnlyChild_of_only_child hc he]

/-- Merging the only child into a valueless node keeps the contents. -/
theorem contents_merged {nd : TrieNode n V H} (hv : nd.value = none)
    (hc : nd.children.count = 1) :
    contents (some nd.merged) = contents (some nd) := by
  obtain ⟨i, e, he⟩ := ChildMap.exists_only_child hc
  have hother : ∀ j, j ≠ i → nd.children.get j = none := by
    intro j hj
    exact ChildMap.get_of_only_child hc he hj
  have hpath : nd.partialPath ++ i :: e.node.partialPath =
      (nd.partialPath ++ [i]) ++ e.node.partialPath := by simp
  rw [merged_of_get hc he, hpath]
  funext key
  by_cases hkey : nd.partialPath ++ [i] <+: key
  · obtain ⟨k, rfl⟩ := hkey
    rw [contents_prepend, List.append_assoc, List.singleton_append,
      contents_of_get he]
  · rw [contents_of_only_child hv hother hkey]
    cases hmerged : contents (some { e.node with
        partialPath := (nd.partialPath ++ [i]) ++ e.node.partialPath }) key with
    | none => rfl
    | some v =>
        have hle := prefix_of_contents hmerged
        exact (hkey ((List.prefix_append _ _).trans hle)).elim

/-- A node whose child at `i` leaves holds what it would hold with that slot
empty. -/
theorem contents_detach {nd : TrieNode n V H} {i : Fin n} {e : Edge n V H}
    (he : nd.children.get i = some e) (r : ρ) :
    contents (nd.detach i r).trie = contents (some (nd.eraseChild i)) := by
  have hcount := ChildMap.count_erase he
  have hpos := ChildMap.count_pos_of_get he
  unfold detach
  split
  · rfl
  · next hkeep =>
      rw [not_or, Bool.not_eq_true, Option.isSome_eq_false_iff,
        Option.isNone_iff_eq_none] at hkeep
      obtain ⟨hv, hthree⟩ := hkeep
      split
      · next htwo =>
          have hv' : (nd.eraseChild i).value = none := hv
          have hone : (nd.eraseChild i).children.count = 1 := by
            rw [eraseChild_children]
            omega
          exact contents_merged hv' hone
      · next htwo =>
          have hv' : (nd.eraseChild i).value = none := hv
          have hempty : ∀ j, (nd.eraseChild i).children.get j = none := by
            apply ChildMap.count_eq_zero.mp
            rw [eraseChild_children]
            omega
          funext key
          rw [Fate.trie_leaves, contents_none, eq_comm]
          exact contents_of_no_child hv' hempty key

/-- Beneath the slot at `i`, a node holds what the fate of its child holds. -/
theorem contents_lift_below {nd : TrieNode n V H} {i : Fin n}
    {e : Edge n V H} (he : nd.children.get i = some e)
    (fate : Fate n V H ρ) (key : Path n) :
    contents (nd.lift i fate).trie (nd.partialPath ++ i :: key) =
      contents fate.trie key := by
  cases fate with
  | stays m r =>
      have hbelow := contents_below (nd.setChild i (.mk m none)) i key
      rwa [childTrie_setChild_self] at hbelow
  | leaves r =>
      have hbelow := contents_below (nd.eraseChild i) i key
      rw [childTrie_eraseChild_self] at hbelow
      rw [lift, contents_detach he]
      exact hbelow

/-- Elsewhere the fate of a child changes nothing. -/
theorem contents_lift_of_not_below {nd : TrieNode n V H} {i : Fin n}
    {e : Edge n V H} (he : nd.children.get i = some e)
    (fate : Fate n V H ρ) {key : Path n}
    (hkey : ¬ nd.partialPath ++ [i] <+: key) :
    contents (nd.lift i fate).trie key = contents (some nd) key := by
  have hne : ∀ j keyRest, key = nd.partialPath ++ j :: keyRest → j ≠ i := by
    rintro j keyRest rfl rfl
    exact hkey ⟨keyRest, by simp⟩
  cases fate with
  | stays m r =>
      refine contents_congr_at (nd.setChild_partialPath i _) (fun _ => rfl) ?_
      intro j keyRest hj
      rw [childTrie_setChild_of_ne nd (hne j keyRest hj)]
  | leaves r =>
      rw [lift, contents_detach he]
      refine contents_congr_at (nd.eraseChild_partialPath i) (fun _ => rfl) ?_
      intro j keyRest hj
      rw [childTrie_eraseChild_of_ne nd (hne j keyRest hj)]

end Node

/-- `t'` holds `w` at every key in `T`, and what `t` holds elsewhere. -/
def Replaces (T : Path n → Prop) (w : Option V) (t t' : Trie n V H) : Prop :=
  ∀ key, (T key → contents t' key = w) ∧
    (¬ T key → contents t' key = contents t key)

namespace Node

/-- An edit replaces the keys its stopping case replaces, when the set of
these keys follows the walk. -/
theorem edit_replaces {stop : TrieNode n V H → Path n → Fate n V H ρ}
    {T : Path n → Path n → Prop} {w : Option V}
    (hstop : ∀ nd key, Stops nd key →
      Replaces (T key) w (some nd) (stop nd key).trie)
    (happend : ∀ p key key', T (p ++ key) (p ++ key') ↔ T key key')
    (hbelow : ∀ p i keyRest key', T (p ++ i :: keyRest) key' →
      p ++ [i] <+: key')
    (nd : TrieNode n V H) (key : Path n) :
    Replaces (T key) w (some nd) (edit stop nd key).trie := by
  induction nd, key using walkInduct with
  | stop nd key h =>
      rw [edit_of_stops h]
      exact hstop nd key h
  | descend nd i keyRest e he ih =>
      rw [edit_below he]
      intro key
      by_cases hkey : nd.partialPath ++ [i] <+: key
      · obtain ⟨k, rfl⟩ := hkey
        rw [List.append_assoc, List.singleton_append,
          contents_lift_below he, contents_of_get he]
        have hk : T (nd.partialPath ++ i :: keyRest)
            (nd.partialPath ++ i :: k) ↔ T keyRest k := by
          simpa using happend (nd.partialPath ++ [i]) keyRest k
        rw [hk]
        exact ih k
      · rw [contents_lift_of_not_below he _ hkey]
        constructor
        · intro hT
          exact (hkey (hbelow _ _ _ _ hT)).elim
        · intro _
          rfl

end Node

end ArityTries
