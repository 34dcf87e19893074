import ArityArrays.Tries.Lookup
import ArityArrays.Tries.Mutation.Insert
import ArityArrays.Tries.Mutation.Remove
import ArityArrays.Tries.Mutation.RemovePrefix
import ArityArrays.Tries.Hashing.Rehash

/-!
# Sequences of calls

A caller's run is a list of calls on one trie under one hash scheme, each of
which may fail in the store.  `Op.ideal` is what a call computes when it does
not fail, and `Op.Interrupted` what it leaves behind when it does; every
property of runs is proved from these two.
-/

namespace ArityTries

open Checked Node

variable {n : ℕ} {V H σ ε : Type}

/-- A call on a trie. -/
inductive Op (n : ℕ) (V : Type) where
  | get (key : Path n)
  | insert (key : Path n) (value : V)
  | remove (key : Path n)
  | removePrefix (keyPrefix : Path n)
  | materializeSubtree
  | hash
  deriving DecidableEq

/-- What a call returns. -/
inductive Answer (V H : Type) where
  | value (v : Option V)
  | done
  | root (h : H)

namespace Op

/-- The calls that materialize edges. -/
def mutates : Op n V → Bool
  | get _ => false
  | hash => false
  | _ => true

/-- Perform a call.  An empty trie has no node to materialize or hash. -/
def perform (hasher : TrieHasher n V H) (store : EdgeStore n V H σ ε) :
    Op n V → Trie n V H → σ →
      Checked (Except ε (Answer V H) × Trie n V H × σ)
  | get key, t, s => do
      let (r, s) ← ArityTries.get store t key s
      return (r.map .value, t, s)
  | insert key value, t, s => do
      let (r, t, s) ← ArityTries.insert store t key value s
      return (r.map .value, t, s)
  | remove key, t, s => do
      let (r, t, s) ← ArityTries.remove store t key s
      return (r.map .value, t, s)
  | removePrefix keyPrefix, t, s => do
      let (r, t, s) ← ArityTries.removePrefix store t keyPrefix s
      return (r.map fun _ => .done, t, s)
  | materializeSubtree, none, s => .ok (.ok .done, none, s)
  | materializeSubtree, some root, s => do
      let (r, root, s) ← ArityTries.materializeSubtree store root s
      return (r.map fun _ => .done, some root, s)
  | hash, none, s => .ok (.ok .done, none, s)
  | hash, some root, s => do
      let (r, t, s) ← ArityTries.hash hasher store root s
      return (r.map .root, t, s)

/-- What a call returns and leaves when the store does not fail. -/
def ideal (hasher : TrieHasher n V H) :
    Op n V → Trie n V H → Answer V H × Trie n V H
  | get key, t => (.value (contents t key), t)
  | insert key value, t =>
      (.value (t.inserted key value).1, (t.inserted key value).2)
  | remove key, t => (.value (t.removed key).1, (t.removed key).2)
  | removePrefix keyPrefix, t => (.done, (t.prefixRemoved keyPrefix).2)
  | materializeSubtree, t => (.done, t.map inlined)
  | hash, none => (.done, none)
  | hash, some root =>
      (.root (merkle hasher [] 0 root).1, some (merkle hasher [] 0 root).2)

/-- What a call leaves when the store fails: a reader leaves the trie alone, a
mutation opens it without changing what the call computes, and a hash walk
halts. -/
inductive Interrupted (hasher : TrieHasher n V H) :
    Op n V → Trie n V H → Trie n V H → Prop
  | read (key : Path n) (t : Trie n V H) :
      Interrupted hasher (.get key) t t
  | opened {op : Op n V} {nd nd₁ : TrieNode n V H}
      (hop : op.mutates = true) (hopen : Opened nd nd₁)
      (hsame : op.ideal hasher (some nd₁) = op.ideal hasher (some nd)) :
      Interrupted hasher op (some nd) (some nd₁)
  | halted {nd m : TrieNode n V H} (hm : Halted hasher [] nd m) :
      Interrupted hasher .hash (some nd) (some m)

/-- The two ways a call can end, with the sealed edges a mutation replaced. -/
inductive Outcome (hasher : TrieHasher n V H) (store : EdgeStore n V H σ ε)
    (op : Op n V) (t : Trie n V H) (s : σ) :
    Checked (Except ε (Answer V H) × Trie n V H × σ) → Prop
  | failed {x : ε} {t' : Trie n V H} {s' : σ}
      (hfail : ¬ store.NeverFails) (hleft : op.Interrupted hasher t t')
      (hacc : op.mutates = true →
        Accounts store s s' t.sealedEdges t'.sealedEdges) :
      Outcome hasher store op t s (.ok (.error x, t', s'))
  | done {r : Answer V H} {t' : Trie n V H} {s' : σ}
      (hideal : op.ideal hasher t = (r, t'))
      (hacc : op.mutates = true →
        Accounts store s s' t.sealedEdges t'.sealedEdges) :
      Outcome hasher store op t s (.ok (.ok r, t', s'))

/-- A mutation as a call: its result is wrapped in an answer. -/
theorem outcome_of_mutation {ρ : Type} {hasher : TrieHasher n V H}
    {store : EdgeStore n V H σ ε} {ideal : Trie n V H → ρ × Trie n V H}
    {op : Op n V} {answer : ρ → Answer V H} (hop : op.mutates = true)
    (hideal : ∀ t, op.ideal hasher t = (answer (ideal t).1, (ideal t).2))
    {t : Trie n V H} {s : σ}
    {c : Checked (Except ε ρ × Trie n V H × σ)}
    (hc : MutationOutcome store ideal t s c) :
    Outcome hasher store op t s (do
      let (r, t, s) ← c
      return (r.map answer, t, s)) := by
  cases hc with
  | @failed x nd nd₁ s' ht hfail hopen hsame =>
      subst t
      refine .failed hfail (.opened hop hopen.opened ?_) ?_
      · rw [hideal, hideal, hsame]
      · intro _
        exact hopen.accounts
  | done hacc => exact .done (hideal t) fun _ => hacc

/-- Every call ends in one of the two ways. -/
theorem perform_outcome (hasher : TrieHasher n V H)
    (store : EdgeStore n V H σ ε) (op : Op n V) (t : Trie n V H) (s : σ) :
    Outcome hasher store op t s (op.perform hasher store t s) := by
  cases op with
  | get key =>
      rcases get_cases store t key s with ⟨x, s', hfail, hget⟩ | ⟨s', hget⟩
      · simp only [perform, hget, ok_bind, pure_eq_ok]
        exact .failed hfail (.read key t) (fun h => by cases h)
      · simp only [perform, hget, ok_bind, pure_eq_ok]
        exact .done rfl (fun h => by cases h)
  | insert key value =>
      exact outcome_of_mutation rfl (fun _ => rfl)
        (insert_outcome store t key value s)
  | remove key =>
      exact outcome_of_mutation rfl (fun _ => rfl)
        (remove_outcome store t key s)
  | removePrefix keyPrefix =>
      exact outcome_of_mutation rfl (fun _ => rfl)
        (removePrefix_outcome store t keyPrefix s)
  | materializeSubtree =>
      cases t with
      | none => exact .done rfl fun _ => .refl s _
      | some root =>
          rcases materializeSubtree_cases store [] root s with
            ⟨x, nd₁, s', hfail, hopen, hm⟩ | ⟨s', hopen, hm⟩
          · simp only [perform, hm, ok_bind, pure_eq_ok]
            refine .failed hfail (.opened rfl hopen.opened ?_) ?_
            · simp only [ideal, Option.map_some, hopen.opened.inlined_eq]
            · intro _
              exact hopen.accounts
          · simp only [perform, hm, ok_bind, pure_eq_ok]
            exact .done rfl fun _ => hopen.accounts
  | hash =>
      cases t with
      | none => exact .done rfl (fun h => by cases h)
      | some root =>
          rcases hash_cases hasher store root s with
            ⟨x, m, s', hfails, hm, hrun⟩ | ⟨s', hrun⟩
          · simp only [perform, hrun, ok_bind, pure_eq_ok]
            exact .failed hfails.not_neverFails (.halted hm)
              (fun h => by cases h)
          · simp only [perform, hrun, ok_bind, pure_eq_ok]
            exact .done rfl (fun h => by cases h)

/-- What a call can make of a trie. -/
inductive Step (hasher : TrieHasher n V H) (op : Op n V) (t : Trie n V H) :
    Trie n V H → Prop
  | failed {t' : Trie n V H} (hleft : op.Interrupted hasher t t') :
      Step hasher op t t'
  | done : Step hasher op t (op.ideal hasher t).2

/-- A call never panics, and makes of the trie what a step can. -/
theorem perform_step (hasher : TrieHasher n V H)
    (store : EdgeStore n V H σ ε) (op : Op n V) (t : Trie n V H) (s : σ) :
    ∃ r t' s', op.perform hasher store t s = .ok (r, t', s') ∧
      Step hasher op t t' := by
  have houtcome := op.perform_outcome hasher store t s
  generalize op.perform hasher store t s = c at houtcome
  cases houtcome with
  | failed _ hleft _ => exact ⟨_, _, _, rfl, .failed hleft⟩
  | @done r t' s' hideal _ =>
      have ht' : t' = (op.ideal hasher t).2 := by
        rw [hideal]
      exact ⟨_, _, _, rfl, ht' ▸ .done⟩

/-- A store that never fails lets every call through. -/
theorem perform_of_neverFails (hasher : TrieHasher n V H)
    {store : EdgeStore n V H σ ε} (hstore : store.NeverFails) (op : Op n V)
    (t : Trie n V H) (s : σ) :
    ∃ s', op.perform hasher store t s =
      .ok (.ok (op.ideal hasher t).1, (op.ideal hasher t).2, s') := by
  have houtcome := op.perform_outcome hasher store t s
  generalize op.perform hasher store t s = c at houtcome
  cases houtcome with
  | failed hfail _ _ => exact (hfail hstore).elim
  | @done r t' s' hideal _ => exact ⟨s', by rw [hideal]⟩

end Op

/-! ## Runs -/

/-- Perform calls in order, on the trie and the store each leaves. -/
def performAll (hasher : TrieHasher n V H) (store : EdgeStore n V H σ ε) :
    List (Op n V) → Trie n V H → σ →
      Checked (List (Except ε (Answer V H)) × Trie n V H × σ)
  | [], t, s => .ok ([], t, s)
  | op :: ops, t, s => do
      let (r, t, s) ← op.perform hasher store t s
      let (rs, t, s) ← performAll hasher store ops t s
      return (r :: rs, t, s)

/-- The answers and the trie of a run in which no call fails. -/
def idealAll (hasher : TrieHasher n V H) :
    List (Op n V) → Trie n V H → List (Answer V H) × Trie n V H
  | [], t => ([], t)
  | op :: ops, t =>
      let rest := idealAll hasher ops (op.ideal hasher t).2
      ((op.ideal hasher t).1 :: rest.1, rest.2)

/-- What every step keeps holds at the end of every run. -/
theorem performAll_invariant (hasher : TrieHasher n V H)
    {P : Trie n V H → Prop} (store : EdgeStore n V H σ ε)
    (hstep : ∀ op t t', P t → Op.Step hasher op t t' → P t')
    (ops : List (Op n V)) {t : Trie n V H} (ht : P t) (s : σ) :
    ∃ rs t' s', performAll hasher store ops t s = .ok (rs, t', s') ∧
      P t' := by
  induction ops generalizing t s with
  | nil => exact ⟨[], t, s, rfl, ht⟩
  | cons op ops ih =>
      obtain ⟨r, t₁, s₁, hop, hstep₁⟩ := op.perform_step hasher store t s
      obtain ⟨rs, t', s', hops, ht'⟩ := ih (hstep op t t₁ ht hstep₁) s₁
      refine ⟨r :: rs, t', s', ?_, ht'⟩
      simp only [performAll, hop, hops, ok_bind, pure_eq_ok]

/-- What holds of the trie some run ends with holds of the one it ends
with. -/
theorem performAll_final {P : Trie n V H → Prop}
    {c : Checked (List (Except ε (Answer V H)) × Trie n V H × σ)}
    (h : ∃ rs t s', c = .ok (rs, t, s') ∧ P t)
    {rs : List (Except ε (Answer V H))} {t : Trie n V H} {s' : σ}
    (hc : c = .ok (rs, t, s')) : P t := by
  obtain ⟨rs₁, t₁, s₁, hc₁, ht₁⟩ := h
  rw [hc] at hc₁
  cases hc₁
  exact ht₁

/-- A run over a store that never fails. -/
theorem performAll_of_neverFails (hasher : TrieHasher n V H)
    {store : EdgeStore n V H σ ε} (hstore : store.NeverFails)
    (ops : List (Op n V)) (t : Trie n V H) (s : σ) :
    ∃ s', performAll hasher store ops t s =
      .ok ((idealAll hasher ops t).1.map .ok, (idealAll hasher ops t).2,
        s') := by
  induction ops generalizing t s with
  | nil => exact ⟨s, rfl⟩
  | cons op ops ih =>
      obtain ⟨s₁, hop⟩ := op.perform_of_neverFails hasher hstore t s
      obtain ⟨s', hops⟩ := ih (op.ideal hasher t).2 s₁
      refine ⟨s', ?_⟩
      simp only [performAll, hop, hops, ok_bind, pure_eq_ok, idealAll,
        List.map_cons]

/-! ## Invariants of a step -/

namespace Op

variable {hasher : TrieHasher n V H} {op : Op n V} {t t' : Trie n V H}

/-- Every call keeps settled tries settled, also when it fails. -/
theorem Step.settled (hstep : Step hasher op t t') (h : t.Settled) :
    t'.Settled := by
  cases hstep with
  | failed hleft =>
      cases hleft with
      | read => exact h
      | opened _ hopen _ => exact Node.Settled.opened hopen h
      | halted hm => exact Node.Settled.halted hm h
  | done =>
      cases op with
      | get key => exact h
      | insert key value => exact h.inserted key value
      | remove key => exact h.removed key
      | removePrefix keyPrefix => exact h.prefixRemoved keyPrefix
      | materializeSubtree =>
          cases t with
          | none => exact h
          | some nd => exact settled_inlined.mpr h
      | hash =>
          cases t with
          | none => exact h
          | some nd => exact Node.Settled.merkle hasher [] 0 h

/-- Every call keeps what is stable, also when it fails. -/
theorem Step.throughout {P : Path n → TrieNode n V H → Prop}
    (hP : Node.Stable hasher P) (hstep : Step hasher op t t')
    (h : t.Throughout P []) : t'.Throughout P [] := by
  cases hstep with
  | failed hleft =>
      cases hleft with
      | read => exact h
      | opened _ hopen _ => exact hP.opened hopen h
      | halted hm => exact hP.halted hm h
  | done =>
      cases op with
      | get key => exact h
      | insert key value => exact h.inserted hP key value
      | remove key => exact h.removed hP key
      | removePrefix keyPrefix => exact h.prefixRemoved hP keyPrefix
      | materializeSubtree =>
          cases t with
          | none => exact h
          | some nd => exact hP.inlined [] nd
      | hash =>
          cases t with
          | none => exact h
          | some nd => exact hP.merkle [] 0 h

theorem Step.hashValid (hd : hasher.Documented)
    (hstep : Step hasher op t t') (h : t.HashValid hasher []) :
    t'.HashValid hasher [] :=
  Trie.hashValid_iff.mpr
    (hstep.throughout (Node.vouched_stable hd) (Trie.hashValid_iff.mp h))

theorem Step.tidy (hstep : Step hasher op t t') (h : t.Tidy) : t'.Tidy :=
  Trie.tidy_iff.mpr
    (hstep.throughout (Node.tidy_stable hasher) (Trie.tidy_iff.mp h))

end Op

end ArityTries
