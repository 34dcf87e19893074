import ArityArrays.Tries.Node

/-!
# Edge stores

A store resolves edges to nodes and moves them between the inline and the
sealed state.  Its own state, its failures and what it records are arbitrary;
the contract of the trait is carried by the structure, so every value of
`EdgeStore` is a store that honours it.
-/

namespace ArityTries

/-- The application's node store, with own state `σ` and failures `ε`. -/
structure EdgeStore (n : ℕ) (V H σ ε : Type) where
  /-- Resolve any edge, inline or sealed, to its node. -/
  read : σ → Edge n V H → Except ε (TrieNode n V H) × σ
  /-- Turn an edge inline in place; returns the edge as the call leaves it. -/
  materialize : σ → Edge n V H → Except ε Unit × Edge n V H × σ
  /-- A fresh inline edge around a node. -/
  inline : σ → TrieNode n V H → Edge n V H × σ
  /-- Mark an edge sealed with a hash, in place. -/
  sealEdge : σ → Edge n V H → H → Edge n V H × σ
  read_ok : ∀ s e m, (read s e).1 = .ok m → m = e.node
  materialize_ok : ∀ s e u, (materialize s e).1 = .ok u →
    (materialize s e).2.1 = .mk e.node none
  materialize_error : ∀ s e x, (materialize s e).1 = .error x →
    (materialize s e).2.1 = e
  inline_edge : ∀ s m, (inline s m).1 = .mk m none
  sealEdge_edge : ∀ s e h, (sealEdge s e h).1 = .mk e.node (some h)

namespace EdgeStore

variable {n : ℕ} {V H σ ε : Type}

/-- No call of the store fails. -/
structure NeverFails (store : EdgeStore n V H σ ε) : Prop where
  read : ∀ s e x, (store.read s e).1 ≠ .error x
  materialize : ∀ s e x, (store.materialize s e).1 ≠ .error x

/-- The outcomes of a `materialize` call. -/
theorem materialize_cases (store : EdgeStore n V H σ ε) (s : σ)
    (e : Edge n V H) :
    (∃ x s', store.materialize s e = (.error x, e, s')) ∨
      ∃ s', store.materialize s e = (.ok (), .mk e.node none, s') := by
  have hok := store.materialize_ok s e
  have herr := store.materialize_error s e
  cases hm : store.materialize s e with
  | mk r es =>
      obtain ⟨e', s'⟩ := es
      rw [hm] at hok herr
      cases r with
      | error x =>
          obtain rfl : e' = e := herr x rfl
          exact Or.inl ⟨x, s', rfl⟩
      | ok u =>
          obtain rfl : e' = .mk e.node none := hok u rfl
          exact Or.inr ⟨s', rfl⟩

/-- The outcomes of a `read` call. -/
theorem read_cases (store : EdgeStore n V H σ ε) (s : σ)
    (e : Edge n V H) :
    (∃ x s', store.read s e = (.error x, s')) ∨
      ∃ s', store.read s e = (.ok e.node, s') := by
  have hok := store.read_ok s e
  cases hr : store.read s e with
  | mk r s' =>
      rw [hr] at hok
      cases r with
      | error x => exact Or.inl ⟨x, s', rfl⟩
      | ok m =>
          obtain rfl : m = e.node := hok m rfl
          exact Or.inr ⟨s', rfl⟩

/-- The reference in-memory store: no state, no failures. -/
def inMemory (n : ℕ) (V H : Type) : EdgeStore n V H Unit Empty where
  read _ e := (.ok e.node, ())
  materialize _ e := (.ok (), .mk e.node none, ())
  inline _ m := (.mk m none, ())
  sealEdge _ e h := (.mk e.node (some h), ())
  read_ok := by
    intro s e m hm
    simpa using hm.symm
  materialize_ok := by simp
  materialize_error := by simp
  inline_edge := by simp
  sealEdge_edge := by simp

theorem inMemory_neverFails (n : ℕ) (V H : Type) :
    (inMemory n V H).NeverFails :=
  ⟨fun _ _ x => x.elim, fun _ _ x => x.elim⟩

/-- The in-memory store that fails one `read` call and one `materialize`
call, counting from one; `0` fails none. -/
def failing (n : ℕ) (V H : Type) (failReadAt failMaterializeAt : ℕ) :
    EdgeStore n V H (ℕ × ℕ) String where
  read s e :=
    if s.1 + 1 = failReadAt then (.error "read", (s.1 + 1, s.2))
    else (.ok e.node, (s.1 + 1, s.2))
  materialize s e :=
    if s.2 + 1 = failMaterializeAt then
      (.error "materialize", e, (s.1, s.2 + 1))
    else (.ok (), .mk e.node none, (s.1, s.2 + 1))
  inline s m := (.mk m none, s)
  sealEdge s e h := (.mk e.node (some h), s)
  read_ok := by
    intro s e m hm
    split at hm <;> simp_all
  materialize_ok := by
    intro s e u hu
    split at hu <;> simp_all
  materialize_error := by
    intro s e x hx
    split at hx <;> simp_all
  inline_edge := by simp
  sealEdge_edge := by simp

/-- The store that also notes every read with what it returned. -/
def noting {L : Type} (store : EdgeStore n V H σ ε)
    (note : L → Edge n V H → Except ε (TrieNode n V H) → L) :
    EdgeStore n V H (σ × L) ε where
  read s e :=
    let (r, s') := store.read s.1 e
    (r, s', note s.2 e r)
  materialize s e :=
    let (r, e', s') := store.materialize s.1 e
    (r, e', s', s.2)
  inline s m :=
    let (e, s') := store.inline s.1 m
    (e, s', s.2)
  sealEdge s e h :=
    let (e', s') := store.sealEdge s.1 e h
    (e', s', s.2)
  read_ok s e := store.read_ok s.1 e
  materialize_ok s e := store.materialize_ok s.1 e
  materialize_error s e := store.materialize_error s.1 e
  inline_edge s m := store.inline_edge s.1 m
  sealEdge_edge s e h := store.sealEdge_edge s.1 e h

/-- The store that also lists every sealed edge passed to a successful
`materialize` call, in call order. -/
def logged (store : EdgeStore n V H σ ε) :
    EdgeStore n V H (σ × List (Edge n V H)) ε where
  read s e :=
    let (r, s') := store.read s.1 e
    (r, s', s.2)
  materialize s e :=
    match store.materialize s.1 e with
    | (.error x, e', s') => (.error x, e', s', s.2)
    | (.ok u, e', s') =>
        (.ok u, e', s', if e.hash.isSome then s.2 ++ [e] else s.2)
  inline s m :=
    let (e, s') := store.inline s.1 m
    (e, s', s.2)
  sealEdge s e h :=
    let (e', s') := store.sealEdge s.1 e h
    (e', s', s.2)
  read_ok s e := store.read_ok s.1 e
  materialize_ok := by
    intro s e u hu
    rcases store.materialize_cases s.1 e with ⟨x, s', hm⟩ | ⟨s', hm⟩ <;>
      simp_all
  materialize_error := by
    intro s e x hx
    rcases store.materialize_cases s.1 e with ⟨y, s', hm⟩ | ⟨s', hm⟩ <;>
      simp_all
  inline_edge s m := store.inline_edge s.1 m
  sealEdge_edge s e h := store.sealEdge_edge s.1 e h

end EdgeStore

end ArityTries
