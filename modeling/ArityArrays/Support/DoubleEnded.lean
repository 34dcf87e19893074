import Mathlib.Data.List.Basic
import Mathlib.Data.List.Induction
import Mathlib.Data.Nat.Basic
import ArityArrays.Support.Checked

/-!
# Double-ended iterators

An iterator is a state with one checked step for each end and a size that no
step increases and every yielding step decreases, so folding it is a total
function.  What an iterator should do is what a deque does: yield the first or
the last of the items that are left.  `Refines` is that simulation, and the
runs and folds of an iterator follow from it.

Nothing here refers to a particular program.
-/

/-- The two ends of a deque. -/
inductive End where
  | front
  | back
  deriving DecidableEq, Repr

/-! ## Deques -/

namespace Deque

variable {α : Type}

/-- Take the item at one end of a list. -/
def pull : End → List α → Option α × List α
  | .front, xs => (xs.head?, xs.tail)
  | .back, xs => (xs.getLast?, xs.dropLast)

/-- Take one item for every end in turn. -/
def pulls : List End → List α → List (Option α) × List α
  | [], xs => ([], xs)
  | e :: es, xs =>
      let out := pull e xs
      let rest := pulls es out.2
      (out.1 :: rest.1, rest.2)

/-- The items that are left, in the order one end meets them. -/
def seenFrom : End → List α → List α
  | .front, xs => xs
  | .back, xs => xs.reverse

@[simp] theorem pull_nil (e : End) : pull e ([] : List α) = (none, []) := by
  cases e <;> rfl

@[simp] theorem pull_front_cons (x : α) (xs : List α) :
    pull .front (x :: xs) = (some x, xs) := rfl

@[simp] theorem pull_back_append (xs : List α) (x : α) :
    pull .back (xs ++ [x]) = (some x, xs) := by
  simp [pull]

theorem pull_map {β : Type} (f : α → β) (e : End) (xs : List α) :
    pull e (xs.map f) = ((pull e xs).1.map f, (pull e xs).2.map f) := by
  cases e with
  | front => simp [pull]
  | back => simp [pull, List.dropLast_eq_take]

theorem pulls_map {β : Type} (f : α → β) (es : List End) (xs : List α) :
    pulls es (xs.map f) =
      ((pulls es xs).1.map (Option.map f), (pulls es xs).2.map f) := by
  induction es generalizing xs with
  | nil => simp [pulls]
  | cons e es ih => simp [pulls, pull_map, ih]

@[simp] theorem pulls_nil (es : List End) :
    pulls es ([] : List α) = (es.map fun _ => none, []) := by
  induction es with
  | nil => rfl
  | cons e es ih => simp [pulls, ih]

theorem mem_of_pull (e : End) (xs : List α) :
    (∀ x, (pull e xs).1 = some x → x ∈ xs) ∧ (pull e xs).2 ⊆ xs := by
  cases e with
  | front => exact ⟨fun x hx => List.mem_of_mem_head? hx, fun _ => List.mem_of_mem_tail⟩
  | back => exact ⟨fun x hx => List.mem_of_mem_getLast? hx,
      List.dropLast_subset xs⟩

theorem mem_of_pulls {es : List End} {xs : List α} {x : α}
    (hx : x ∈ (pulls es xs).1.filterMap id) : x ∈ xs := by
  induction es generalizing xs with
  | nil => simp [pulls] at hx
  | cons e es ih =>
      obtain ⟨hfirst, hrest⟩ := mem_of_pull e xs
      rw [pulls, List.filterMap_cons] at hx
      cases hpull : (pull e xs).1 with
      | none =>
          simp only [hpull, id] at hx
          exact hrest (ih hx)
      | some y =>
          simp only [hpull, id, List.mem_cons] at hx
          rcases hx with rfl | hx
          · exact hfirst x hpull
          · exact hrest (ih hx)

theorem pull_perm (e : End) (xs : List α) :
    ((pull e xs).1.toList ++ (pull e xs).2).Perm xs := by
  cases e with
  | front => cases xs <;> simp [pull]
  | back =>
      rcases List.eq_nil_or_concat xs with rfl | ⟨ys, y, rfl⟩
      · simp [pull]
      · rw [List.concat_eq_append, pull_back_append]
        exact List.perm_append_comm

/-- Every item is either yielded once or left once. -/
theorem pulls_perm (es : List End) (xs : List α) :
    ((pulls es xs).1.filterMap id ++ (pulls es xs).2).Perm xs := by
  induction es generalizing xs with
  | nil => simp [pulls]
  | cons e es ih =>
      have hhead : (pulls (e :: es) xs).1.filterMap id =
          (pull e xs).1.toList ++
            (pulls es (pull e xs).2).1.filterMap id := by
        rw [pulls, List.filterMap_cons]
        cases (pull e xs).1 with
        | none => rfl
        | some x => rfl
      rw [hhead, List.append_assoc]
      exact ((ih (pull e xs).2).append_left _).trans (pull_perm e xs)

end Deque

/-! ## Iterators -/

/-- A double-ended iterator with states `σ` and items `α`. -/
structure DoubleEnded (σ α : Type) where
  pull : End → σ → Checked (Option α × σ)
  size : σ → ℕ
  size_pull : ∀ {e s o s'}, pull e s = .ok (o, s') →
    size s' + o.toList.length ≤ size s

namespace DoubleEnded

open Checked Loop

variable {σ α β γ : Type}

def next (it : DoubleEnded σ α) (s : σ) : Checked (Option α × σ) :=
  it.pull .front s

def nextBack (it : DoubleEnded σ α) (s : σ) : Checked (Option α × σ) :=
  it.pull .back s

/-- One call for every end in turn. -/
def pulls (it : DoubleEnded σ α) :
    List End → σ → Checked (List (Option α) × σ)
  | [], s => .ok ([], s)
  | e :: es, s => do
      let out ← it.pull e s
      let rest ← it.pulls es out.2
      return (out.1 :: rest.1, rest.2)

/-- One pass of a consuming loop: take an item at `e` and hand it to `f`. -/
def visit (it : DoubleEnded σ α) (e : End) (f : β → α → Checked β)
    (acc : β × σ) : Checked (Pass (β × σ) β) := do
  let out ← it.pull e acc.2
  match out.1 with
  | none => return .leave acc.1
  | some a =>
      let b ← f acc.1 a
      return .again (b, out.2)

theorem visit_decreases (it : DoubleEnded σ α) (e : End)
    (f : β → α → Checked β) :
    Decreases (it.visit e f) fun acc => it.size acc.2 := by
  intro acc acc' h
  obtain ⟨⟨o, s'⟩, hpull, h⟩ := bind_eq_ok.mp h
  cases o with
  | none => cases h
  | some a =>
      obtain ⟨b, -, h⟩ := bind_eq_ok.mp h
      cases h
      exact it.size_pull hpull

/-- Consume the iterator from one end. -/
def foldFrom (it : DoubleEnded σ α) (e : End) (f : β → α → Checked β)
    (b : β) (s : σ) : Checked β :=
  run (it.visit e f) (fun acc => it.size acc.2) (it.visit_decreases e f) (b, s)

def fold (it : DoubleEnded σ α) (f : β → α → Checked β) (b : β) (s : σ) :
    Checked β :=
  it.foldFrom .front f b s

def rfold (it : DoubleEnded σ α) (f : β → α → Checked β) (b : β) (s : σ) :
    Checked β :=
  it.foldFrom .back f b s

/-- The items the iterator yields, in order. -/
def collect (it : DoubleEnded σ α) (s : σ) : Checked (List α) :=
  it.fold (fun xs a => .ok (xs ++ [a])) [] s

/-! ### Simulation by a deque -/

/-- Related states yield what the deque of the related list yields. -/
structure Refines (it : DoubleEnded σ α) (R : σ → List α → Prop) : Prop where
  nil : ∀ {e s}, R s [] → ∃ s', it.pull e s = .ok (none, s') ∧ R s' []
  front : ∀ {s x xs}, R s (x :: xs) →
    ∃ s', it.pull .front s = .ok (some x, s') ∧ R s' xs
  back : ∀ {s xs x}, R s (xs ++ [x]) →
    ∃ s', it.pull .back s = .ok (some x, s') ∧ R s' xs

section Simulation

variable {it : DoubleEnded σ α} {R : σ → List α → Prop} {s : σ} {xs : List α}

theorem Refines.pull (h : it.Refines R) (hs : R s xs) (e : End) :
    ∃ s', it.pull e s = .ok ((Deque.pull e xs).1, s') ∧
      R s' (Deque.pull e xs).2 := by
  cases e with
  | front =>
      cases xs with
      | nil => exact h.nil hs
      | cons x xs => exact h.front hs
  | back =>
      rcases List.eq_nil_or_concat xs with rfl | ⟨ys, y, rfl⟩
      · exact h.nil hs
      · rw [List.concat_eq_append] at hs ⊢
        rw [Deque.pull_back_append]
        exact h.back hs

/-- An iterator whose calls, from the states it can be in, are those of another
on a view of its states is related to what that one is related to. -/
theorem Refines.comapOn {τ : Type} {it' : DoubleEnded τ α} (h : it.Refines R)
    (view : τ → σ) {I : τ → Prop}
    (hview : ∀ e t xs, I t → R (view t) xs → ∃ o t',
      it'.pull e t = .ok (o, t') ∧ it.pull e (view t) = .ok (o, view t') ∧
        I t') :
    it'.Refines fun t xs => I t ∧ R (view t) xs where
  nil := by
    rintro e t ⟨hI, ht⟩
    obtain ⟨o, t', hpull', hpull, hI'⟩ := hview e t _ hI ht
    obtain ⟨s', hs, hs'⟩ := h.nil ht (e := e)
    rw [hpull] at hs
    cases hs
    exact ⟨t', hpull', hI', hs'⟩
  front := by
    rintro t x xs ⟨hI, ht⟩
    obtain ⟨o, t', hpull', hpull, hI'⟩ := hview .front t _ hI ht
    obtain ⟨s', hs, hs'⟩ := h.front ht
    rw [hpull] at hs
    cases hs
    exact ⟨t', hpull', hI', hs'⟩
  back := by
    rintro t xs x ⟨hI, ht⟩
    obtain ⟨o, t', hpull', hpull, hI'⟩ := hview .back t _ hI ht
    obtain ⟨s', hs, hs'⟩ := h.back ht
    rw [hpull] at hs
    cases hs
    exact ⟨t', hpull', hI', hs'⟩

theorem Refines.comap {τ : Type} {it' : DoubleEnded τ α} (h : it.Refines R)
    (view : τ → σ)
    (hview : ∀ e t, ∃ o t', it'.pull e t = .ok (o, t') ∧
      it.pull e (view t) = .ok (o, view t')) :
    it'.Refines fun t xs => R (view t) xs := by
  have hon : it'.Refines fun t xs => True ∧ R (view t) xs := by
    apply h.comapOn view
    intro e t _ _ _
    obtain ⟨o, t', hpull', hpull⟩ := hview e t
    exact ⟨o, t', hpull', hpull, trivial⟩
  simpa only [true_and] using hon

/-- Any run of calls returns what the deque returns. -/
theorem Refines.pulls (h : it.Refines R) (hs : R s xs) (es : List End) :
    ∃ s', it.pulls es s = .ok ((Deque.pulls es xs).1, s') ∧
      R s' (Deque.pulls es xs).2 := by
  induction es generalizing s xs with
  | nil => exact ⟨s, rfl, hs⟩
  | cons e es ih =>
      obtain ⟨t, hpull, ht⟩ := h.pull hs e
      obtain ⟨s', hpulls, hs'⟩ := ih ht
      refine ⟨s', ?_, hs'⟩
      simp only [DoubleEnded.pulls, hpull, hpulls, ok_bind, pure_eq_ok,
        Deque.pulls]

/-- Consuming from one end visits what is left, in that end's order. -/
theorem Refines.foldFrom (h : it.Refines R) (hs : R s xs) (e : End)
    (f : β → α → Checked β) (b : β) :
    it.foldFrom e f b s = (Deque.seenFrom e xs).foldlM f b := by
  have hnil : ∀ {b : β} {s : σ}, R s [] → it.foldFrom e f b s = .ok b := by
    intro b s hs
    obtain ⟨s', hpull, -⟩ := h.nil (e := e) hs
    exact run_of_leave (by simp [visit, hpull])
  have hcons : ∀ {b : β} {s s' : σ} {x : α},
      it.pull e s = .ok (some x, s') →
      it.foldFrom e f b s = f b x >>= fun b' => it.foldFrom e f b' s' := by
    intro b s s' x hpull
    unfold DoubleEnded.foldFrom
    rw [run_eq]
    cases hf : f b x with
    | error p => simp [visit, hpull, hf, bind, Except.bind]
    | ok b' => simp [visit, hpull, hf]
  cases e with
  | front =>
      induction xs generalizing b s with
      | nil => simpa [Deque.seenFrom] using hnil hs
      | cons x xs ih =>
          obtain ⟨s', hpull, hs'⟩ := h.front hs
          simp only [Deque.seenFrom] at ih ⊢
          rw [hcons hpull, List.foldlM_cons]
          exact congrArg (f b x >>= ·) (funext fun b' => ih hs' b')
  | back =>
      induction xs using List.reverseRecOn generalizing b s with
      | nil => simpa [Deque.seenFrom] using hnil hs
      | append_singleton xs x ih =>
          obtain ⟨s', hpull, hs'⟩ := h.back hs
          simp only [Deque.seenFrom, List.reverse_append, List.reverse_cons,
            List.reverse_nil, List.nil_append, List.cons_append] at ih ⊢
          rw [hcons hpull, List.foldlM_cons]
          exact congrArg (f b x >>= ·) (funext fun b' => ih hs' b')

theorem Refines.fold (h : it.Refines R) (hs : R s xs)
    (f : β → α → Checked β) (b : β) : it.fold f b s = xs.foldlM f b :=
  h.foldFrom hs .front f b

theorem Refines.rfold (h : it.Refines R) (hs : R s xs)
    (f : β → α → Checked β) (b : β) : it.rfold f b s = xs.reverse.foldlM f b :=
  h.foldFrom hs .back f b

end Simulation

/-- After any calls, which return what the deque `xs` returns, the iterator
knows how many items are left, a fold from either end visits these, and an
exhausted iterator yields nothing more. -/
def ActsAs (it : DoubleEnded σ α) (len : σ → Checked ℕ)
    (foldFrom : ∀ β : Type, End → (β → α → Checked β) → β → σ → Checked β)
    (s : σ) (xs : List α) : Prop :=
  ∀ es : List End, ∃ s', it.pulls es s = .ok ((Deque.pulls es xs).1, s') ∧
    len s' = .ok (Deque.pulls es xs).2.length ∧
    (∀ (β : Type) (e : End) (f : β → α → Checked β) (b : β),
      foldFrom β e f b s' =
        (Deque.seenFrom e (Deque.pulls es xs).2).foldlM f b) ∧
    ((Deque.pulls es xs).2 = [] → ∀ e, ∃ s'', it.pull e s' = .ok (none, s''))

theorem Refines.actsAs {it : DoubleEnded σ α} {R : σ → List α → Prop}
    (h : it.Refines R) {len : σ → Checked ℕ}
    (hlen : ∀ {s xs}, R s xs → len s = .ok xs.length)
    {foldFrom : ∀ β : Type, End → (β → α → Checked β) → β → σ → Checked β}
    (hfold : ∀ {s xs}, R s xs → ∀ β e f b,
      foldFrom β e f b s = it.foldFrom e f b s)
    {s : σ} {xs : List α} (hs : R s xs) : it.ActsAs len foldFrom s xs := by
  intro es
  obtain ⟨s', hpulls, hs'⟩ := h.pulls hs es
  refine ⟨s', hpulls, hlen hs', ?_, ?_⟩
  · intro β e f b
    rw [hfold hs', h.foldFrom hs']
  · intro hnil e
    rw [hnil] at hs'
    obtain ⟨s'', hpull, -⟩ := h.nil (e := e) hs'
    exact ⟨s'', hpull⟩

/-- A fold that never fails is the fold of the plain function. -/
theorem foldlM_ok (f : β → α → β) (xs : List α) (b : β) :
    (xs.foldlM (fun b a => (.ok (f b a) : Checked β)) b) =
      .ok (xs.foldl f b) := by
  induction xs generalizing b with
  | nil => rfl
  | cons x xs ih =>
      rw [List.foldlM_cons, ok_bind]
      exact ih (f b x)

theorem Refines.collect {it : DoubleEnded σ α} {R : σ → List α → Prop}
    (h : it.Refines R) {s : σ} {xs : List α} (hs : R s xs) :
    it.collect s = .ok xs := by
  unfold DoubleEnded.collect
  rw [h.fold hs, foldlM_ok, List.foldl_append_eq_append, ← List.flatMap_def,
    List.flatMap_singleton', List.nil_append]

/-! ### Iterators driven by another -/

/-- Draw indices from `driver` and turn each into an item with `give`, which
keeps a state of its own. -/
def attach (driver : DoubleEnded σ β) (give : End → β → γ → Checked (α × γ)) :
    DoubleEnded (σ × γ) α where
  pull e s := do
    let out ← driver.pull e s.1
    match out.1 with
    | none => return (none, (out.2, s.2))
    | some i =>
        let got ← give e i s.2
        return (some got.1, (out.2, got.2))
  size s := driver.size s.1
  size_pull := by
    intro e s o s' h
    obtain ⟨⟨i, t⟩, hpull, h⟩ := bind_eq_ok.mp h
    cases i with
    | none =>
        cases h
        exact driver.size_pull hpull
    | some i =>
        obtain ⟨got, -, h⟩ := bind_eq_ok.mp h
        cases h
        exact driver.size_pull hpull

/-- The attached state serves the items `zs` for their indices. -/
structure Serves (give : End → β → γ → Checked (α × γ)) (key : α → β)
    (A : γ → List α → Prop) : Prop where
  front : ∀ {r z zs}, A r (z :: zs) →
    ∃ r', give .front (key z) r = .ok (z, r') ∧ A r' zs
  back : ∀ {r zs z}, A r (zs ++ [z]) →
    ∃ r', give .back (key z) r = .ok (z, r') ∧ A r' zs

/-- The driver has the indices of `zs` left and the attached state serves
them. -/
def Attached (R : σ → List β → Prop) (A : γ → List α → Prop) (key : α → β)
    (s : σ × γ) (zs : List α) : Prop :=
  R s.1 (zs.map key) ∧ A s.2 zs

theorem Refines.attach {driver : DoubleEnded σ β} {R : σ → List β → Prop}
    {give : End → β → γ → Checked (α × γ)} {key : α → β}
    {A : γ → List α → Prop}
    (h : driver.Refines R) (hserves : Serves give key A) :
    (driver.attach give).Refines (Attached R A key) where
  nil := by
    rintro e ⟨d, r⟩ ⟨hd, hr⟩
    obtain ⟨d', hpull, hd'⟩ := h.nil (e := e) hd
    exact ⟨(d', r), by simp [DoubleEnded.attach, hpull], hd', hr⟩
  front := by
    rintro ⟨d, r⟩ z zs ⟨hd, hr⟩
    obtain ⟨d', hpull, hd'⟩ := h.front hd
    obtain ⟨r', hgive, hr'⟩ := hserves.front hr
    exact ⟨(d', r'), by simp [DoubleEnded.attach, hpull, hgive], hd', hr'⟩
  back := by
    rintro ⟨d, r⟩ zs z ⟨hd, hr⟩
    rw [List.map_append] at hd
    obtain ⟨d', hpull, hd'⟩ := h.back hd
    obtain ⟨r', hgive, hr'⟩ := hserves.back hr
    exact ⟨(d', r'), by simp [DoubleEnded.attach, hpull, hgive], hd', hr'⟩

/-! ### Streams of elements -/

/-- `take` yields the elements `xs` of a state from either end. -/
structure Supplies (take : End → γ → Checked (α × γ))
    (S : γ → List α → Prop) : Prop where
  front : ∀ {r x xs}, S r (x :: xs) →
    ∃ r', take .front r = .ok (x, r') ∧ S r' xs
  back : ∀ {r xs x}, S r (xs ++ [x]) →
    ∃ r', take .back r = .ok (x, r') ∧ S r' xs

/-- Take an item that is asserted to be left. -/
def demand (it : DoubleEnded σ α) (message : End → String) (e : End) (s : σ) :
    Checked (α × σ) := do
  let out ← it.pull e s
  let a ← expect out.1 (message e)
  return (a, out.2)

theorem Refines.demand {it : DoubleEnded σ α} {R : σ → List α → Prop}
    (h : it.Refines R) (message : End → String) :
    Supplies (it.demand message) R where
  front := by
    intro s x xs hs
    obtain ⟨s', hpull, hs'⟩ := h.front hs
    exact ⟨s', by simp [DoubleEnded.demand, hpull], hs'⟩
  back := by
    intro s xs x hs
    obtain ⟨s', hpull, hs'⟩ := h.back hs
    exact ⟨s', by simp [DoubleEnded.demand, hpull], hs'⟩

/-- Taking the image of what `take` yields. -/
theorem Supplies.map {take : End → γ → Checked (α × γ)}
    {takeImage : End → γ → Checked (β × γ)} {S : γ → List α → Prop}
    (h : Supplies take S) (f : α → β)
    (htake : ∀ e r,
      takeImage e r = take e r >>= fun out => .ok (f out.1, out.2)) :
    Supplies takeImage fun r ys => ∃ xs, S r xs ∧ ys = xs.map f where
  front := by
    rintro r y ys ⟨xs, hr, hxs⟩
    obtain ⟨x, xs, rfl, rfl, rfl⟩ := List.map_eq_cons_iff.mp hxs.symm
    obtain ⟨r', hx, hr'⟩ := h.front hr
    exact ⟨r', by rw [htake, hx, ok_bind], xs, hr', rfl⟩
  back := by
    rintro r ys y ⟨xs, hr, hxs⟩
    obtain ⟨xs, zs, rfl, rfl, hzs⟩ := List.map_eq_append_iff.mp hxs.symm
    obtain ⟨x, rfl, rfl⟩ := List.map_eq_singleton_iff.mp hzs
    obtain ⟨r', hx, hr'⟩ := h.back hr
    exact ⟨r', by rw [htake, hx, ok_bind], xs, hr', rfl⟩

/-- Pair every index with the next element. -/
def paired (take : End → γ → Checked (α × γ)) (e : End) (i : β) (r : γ) :
    Checked ((β × α) × γ) := do
  let out ← take e r
  return ((i, out.1), out.2)

theorem Supplies.paired {take : End → γ → Checked (α × γ)}
    {S : γ → List α → Prop} (h : Supplies take S) :
    Serves (DoubleEnded.paired (β := β) take) Prod.fst
      fun r zs => S r (zs.map Prod.snd) where
  front := by
    rintro r ⟨i, x⟩ zs hr
    obtain ⟨r', htake, hr'⟩ := h.front hr
    exact ⟨r', by simp [DoubleEnded.paired, htake], hr'⟩
  back := by
    rintro r zs ⟨i, x⟩ hr
    rw [List.map_append] at hr
    obtain ⟨r', htake, hr'⟩ := h.back hr
    exact ⟨r', by simp [DoubleEnded.paired, htake], hr'⟩

/-- Folding over the indices while drawing the elements is folding over the
pairs. -/
theorem Supplies.foldlM_paired {take : End → γ → Checked (α × γ)}
    {S : γ → List α → Prop} (h : Supplies take S) {δ : Type} {r : γ}
    {zs : List (β × α)} (hr : S r (zs.map Prod.snd)) (e : End)
    (f : δ → β × α → Checked δ) (b : δ) :
    ((Deque.seenFrom e (zs.map Prod.fst)).foldlM (fun acc i => do
      let v ← take e acc.2
      let b ← f acc.1 (i, v.1)
      return (b, v.2)) (b, r) >>= fun out => (.ok out.1 : Checked δ)) =
      (Deque.seenFrom e zs).foldlM f b := by
  cases e with
  | front =>
      simp only [Deque.seenFrom]
      induction zs generalizing b r with
      | nil => rfl
      | cons z zs ih =>
          obtain ⟨r', htake, hr'⟩ := h.front hr
          rw [List.map_cons, List.foldlM_cons, List.foldlM_cons]
          cases hf : f b z with
          | error p => simp [htake, hf, bind, Except.bind]
          | ok b' => simpa [htake, hf] using ih hr' b'
  | back =>
      simp only [Deque.seenFrom]
      induction zs using List.reverseRecOn generalizing b r with
      | nil => rfl
      | append_singleton zs z ih =>
          rw [List.map_append] at hr
          obtain ⟨r', htake, hr'⟩ := h.back hr
          rw [List.map_append, List.map_singleton, List.reverse_append,
            List.reverse_append, List.reverse_singleton,
            List.reverse_singleton, List.singleton_append,
            List.singleton_append, List.foldlM_cons, List.foldlM_cons]
          cases hf : f b z with
          | error p => simp [htake, hf, bind, Except.bind]
          | ok b' => simpa [htake, hf] using ih hr' b'

/-! ### Two iterators in step -/

section Zip

variable {τ : Type}

/-- Drop `k` items off the back. -/
def skipBack (it : DoubleEnded σ α) : ℕ → σ → Checked σ
  | 0, s => .ok s
  | k + 1, s => do
      let out ← it.nextBack s
      it.skipBack k out.2

theorem size_skipBack (it : DoubleEnded σ α) {k : ℕ} {s s' : σ}
    (h : it.skipBack k s = .ok s') : it.size s' ≤ it.size s := by
  induction k generalizing s with
  | zero =>
      cases h
      exact le_rfl
  | succ k ih =>
      obtain ⟨out, hpull, h⟩ := bind_eq_ok.mp h
      have hout := it.size_pull hpull
      have hrest := ih h
      omega

/-- The pairs of two iterators that know how many items they have left. -/
def zip (a : DoubleEnded σ α) (lenA : σ → Checked ℕ)
    (b : DoubleEnded τ β) (lenB : τ → Checked ℕ) :
    DoubleEnded (σ × τ) (α × β) where
  pull
    | .front, s => do
        let x ← a.next s.1
        match x.1 with
        | none => return (none, (x.2, s.2))
        | some i =>
            let y ← b.next s.2
            return (y.1.map fun v => (i, v), (x.2, y.2))
    | .back, s => do
        -- The longer one is trimmed first.
        let m ← lenA s.1
        let n ← lenB s.2
        let s₁ ← a.skipBack (m - n) s.1
        let s₂ ← b.skipBack (n - m) s.2
        let x ← a.nextBack s₁
        let y ← b.nextBack s₂
        match x.1, y.1 with
        | some i, some v => return (some (i, v), (x.2, y.2))
        | none, none => return (none, (x.2, y.2))
        | _, _ => .error ⟨"internal error: entered unreachable code"⟩
  size s := a.size s.1
  size_pull := by
    intro e s o s' h
    cases e with
    | front =>
        obtain ⟨⟨i, t⟩, hx, h⟩ := bind_eq_ok.mp h
        have hsize := a.size_pull hx
        cases i with
        | none =>
            cases h
            exact hsize
        | some i =>
            obtain ⟨⟨v, u⟩, -, h⟩ := bind_eq_ok.mp h
            cases h
            cases v with
            | none => exact Nat.le_trans (Nat.le_add_right _ _) hsize
            | some v => exact hsize
    | back =>
        obtain ⟨m, -, h⟩ := bind_eq_ok.mp h
        obtain ⟨n, -, h⟩ := bind_eq_ok.mp h
        obtain ⟨s₁, hskip, h⟩ := bind_eq_ok.mp h
        obtain ⟨s₂, -, h⟩ := bind_eq_ok.mp h
        obtain ⟨⟨i, t⟩, hx, h⟩ := bind_eq_ok.mp h
        obtain ⟨⟨v, u⟩, -, h⟩ := bind_eq_ok.mp h
        have hsize := Nat.le_trans (a.size_pull hx) (a.size_skipBack hskip)
        cases i with
        | none =>
            cases v with
            | none =>
                cases h
                exact hsize
            | some v => cases h
        | some i =>
            cases v with
            | none => cases h
            | some v =>
                cases h
                exact hsize

/-- As many items are left on either side, and the pairs of them. -/
def Zipped (R : σ → List α → Prop) (S : τ → List β → Prop) (s : σ × τ)
    (zs : List (α × β)) : Prop :=
  R s.1 (zs.map Prod.fst) ∧ S s.2 (zs.map Prod.snd)

variable {a : DoubleEnded σ α} {lenA : σ → Checked ℕ}
variable {b : DoubleEnded τ β} {lenB : τ → Checked ℕ}
variable {R : σ → List α → Prop} {S : τ → List β → Prop}

theorem Refines.zip (ha : a.Refines R) (hb : b.Refines S)
    (hlenA : ∀ {s xs}, R s xs → lenA s = .ok xs.length)
    (hlenB : ∀ {s xs}, S s xs → lenB s = .ok xs.length) :
    (a.zip lenA b lenB).Refines (Zipped R S) where
  nil := by
    rintro e ⟨s, t⟩ ⟨hs, ht⟩
    obtain ⟨s', hx, hs'⟩ := ha.nil (e := e) hs
    cases e with
    | front =>
        exact ⟨(s', t), by simp [DoubleEnded.zip, next, hx], hs', ht⟩
    | back =>
        obtain ⟨t', hy, ht'⟩ := hb.nil (e := .back) ht
        refine ⟨(s', t'), ?_, hs', ht'⟩
        simp [DoubleEnded.zip, nextBack, skipBack, hlenA hs, hlenB ht, hx, hy]
  front := by
    rintro ⟨s, t⟩ ⟨i, v⟩ zs ⟨hs, ht⟩
    obtain ⟨s', hx, hs'⟩ := ha.front hs
    obtain ⟨t', hy, ht'⟩ := hb.front ht
    exact ⟨(s', t'), by simp [DoubleEnded.zip, next, hx, hy], hs', ht'⟩
  back := by
    rintro ⟨s, t⟩ zs ⟨i, v⟩ ⟨hs, ht⟩
    have hm := hlenA hs
    have hn := hlenB ht
    simp only [List.map_append, List.map_cons, List.map_nil] at hs ht
    obtain ⟨s', hx, hs'⟩ := ha.back hs
    obtain ⟨t', hy, ht'⟩ := hb.back ht
    refine ⟨(s', t'), ?_, hs', ht'⟩
    simp only [List.length_map] at hm hn
    simp [DoubleEnded.zip, nextBack, skipBack, hm, hn, hx, hy]

end Zip

/-! ### Filtered iterators -/

/-- One pass of the search for an item that `f` keeps. -/
def search (it : DoubleEnded σ α) (e : End) (f : α → Option β) (s : σ) :
    Checked (Pass σ (Option β × σ)) := do
  let out ← it.pull e s
  match out.1 with
  | none => return .leave (none, out.2)
  | some a =>
      match f a with
      | none => return .again out.2
      | some b => return .leave (some b, out.2)

theorem search_decreases (it : DoubleEnded σ α) (e : End)
    (f : α → Option β) : Decreases (it.search e f) it.size := by
  intro s s' h
  obtain ⟨⟨o, t⟩, hpull, h⟩ := bind_eq_ok.mp h
  cases o with
  | none => cases h
  | some a =>
      have hsize := it.size_pull hpull
      cases hf : f a with
      | none =>
          simp only [hf, pure_eq_ok] at h
          cases h
          exact hsize
      | some b =>
          simp only [hf, pure_eq_ok] at h
          cases h

/-- The items that `f` keeps. -/
def filterMap (it : DoubleEnded σ α) (f : α → Option β) : DoubleEnded σ β where
  pull e s := run (it.search e f) it.size (it.search_decreases e f) s
  size := it.size
  size_pull := by
    intro e s o s' h
    refine run_eq_ok_of_invariant (I := fun t => it.size t ≤ it.size s)
      (Q := fun r => it.size r.2 + r.1.toList.length ≤ it.size s)
      ?_ ?_ le_rfl h
    · intro t t' ht hagain
      exact Nat.le_trans (Nat.le_of_lt (it.search_decreases e f t t' hagain)) ht
    · intro t r ht hleave
      obtain ⟨⟨o, u⟩, hpull, hleave⟩ := bind_eq_ok.mp hleave
      have hsize := it.size_pull hpull
      cases o with
      | none =>
          cases hleave
          exact Nat.le_trans hsize ht
      | some a =>
          cases hf : f a with
          | none => simp [hf] at hleave
          | some b =>
              simp only [hf, pure_eq_ok] at hleave
              cases hleave
              exact Nat.le_trans hsize ht

/-- The underlying iterator has items left that filter to `ys`. -/
def Filtered (R : σ → List α → Prop) (f : α → Option β) (s : σ)
    (ys : List β) : Prop :=
  ∃ xs, R s xs ∧ ys = xs.filterMap f

section FilterMap

variable {it : DoubleEnded σ α} {R : σ → List α → Prop}

private theorem search_of_skip {e : End} {f : α → Option β} {s t : σ} {a : α}
    (hpull : it.pull e s = .ok (some a, t)) (hf : f a = none) :
    (it.filterMap f).pull e s = (it.filterMap f).pull e t :=
  run_of_again (by simp [search, hpull, hf])

private theorem search_of_keep {e : End} {f : α → Option β} {s t : σ} {a : α}
    {b : β} (hpull : it.pull e s = .ok (some a, t)) (hf : f a = some b) :
    (it.filterMap f).pull e s = .ok (some b, t) :=
  run_of_leave (by simp [search, hpull, hf])

private theorem search_of_end {e : End} {f : α → Option β} {s t : σ}
    (hpull : it.pull e s = .ok (none, t)) :
    (it.filterMap f).pull e s = .ok (none, t) :=
  run_of_leave (by simp [search, hpull])

theorem Refines.filterMap (h : it.Refines R) (f : α → Option β) :
    (it.filterMap f).Refines (Filtered R f) where
  nil := by
    rintro e s ⟨xs, hs, hnil⟩
    have hskip : ∀ a ∈ xs, f a = none := List.filterMap_eq_nil_iff.mp hnil.symm
    induction hlen : xs.length generalizing s xs with
    | zero =>
        obtain rfl := List.length_eq_zero_iff.mp hlen
        obtain ⟨s', hpull, hs'⟩ := h.nil (e := e) hs
        exact ⟨s', search_of_end hpull, [], hs', rfl⟩
    | succ k ih =>
        obtain ⟨s', hpull, hs'⟩ := h.pull hs e
        cases e with
        | front =>
            cases xs with
            | nil => simp at hlen
            | cons x xs =>
                rw [Deque.pull_front_cons] at hpull hs'
                rw [search_of_skip hpull (hskip x (by simp))]
                have hrest : ∀ a ∈ xs, f a = none :=
                  fun a ha => hskip a (List.mem_cons_of_mem _ ha)
                exact ih xs hs' (List.filterMap_eq_nil_iff.mpr hrest).symm
                  hrest (by simpa using hlen)
        | back =>
            rcases List.eq_nil_or_concat xs with rfl | ⟨ys, y, rfl⟩
            · simp at hlen
            · rw [List.concat_eq_append] at hpull hs' hskip hlen
              rw [Deque.pull_back_append] at hpull hs'
              rw [search_of_skip hpull (hskip y (by simp))]
              have hrest : ∀ a ∈ ys, f a = none :=
                fun a ha => hskip a (by simp [ha])
              exact ih ys hs' (List.filterMap_eq_nil_iff.mpr hrest).symm
                hrest (by simpa using hlen)
  front := by
    rintro s y ys ⟨xs, hs, hcons⟩
    induction xs generalizing s with
    | nil => simp at hcons
    | cons x xs ih =>
        obtain ⟨s', hpull, hs'⟩ := h.front hs
        cases hf : f x with
        | none =>
            rw [search_of_skip hpull hf]
            exact ih hs' (by simpa [hf] using hcons)
        | some b =>
            obtain ⟨rfl, rfl⟩ : y = b ∧ ys = xs.filterMap f := by
              simpa [hf] using hcons
            exact ⟨s', search_of_keep hpull hf, xs, hs', rfl⟩
  back := by
    rintro s ys y ⟨xs, hs, hsnoc⟩
    induction xs using List.reverseRecOn generalizing s with
    | nil => simp at hsnoc
    | append_singleton xs x ih =>
        obtain ⟨s', hpull, hs'⟩ := h.back hs
        rw [List.filterMap_append] at hsnoc
        cases hf : f x with
        | none =>
            rw [search_of_skip hpull hf]
            exact ih hs' (by simpa [hf] using hsnoc)
        | some b =>
            obtain ⟨rfl, rfl⟩ : ys = xs.filterMap f ∧ y = b := by
              simpa [hf, List.append_inj_right'] using hsnoc
            exact ⟨s', search_of_keep hpull hf, xs, hs', rfl⟩

end FilterMap

end DoubleEnded
