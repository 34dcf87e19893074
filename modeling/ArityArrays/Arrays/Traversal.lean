import ArityArrays.Arrays.Programs

/-!
# Traversing an array from both ends

Every iterator of an array a program has reached answers as a deque of the
entries, or of all slots, whatever calls are made on it from either end.  The
items of a mutable iterator carry references to pairwise different slots, which
hold the values.
-/

namespace ArityArrays

open ArityTries Checked DoubleEnded

variable {T : Type} {A : Arity} {m : ChildMap A.LEN T}

/-- The slots `pos` of a block hold the values of `m`, in order. -/
structure HoldsAt (b : Block T) (m : ChildMap A.LEN T) (pos : A.Index → ℕ) :
    Prop where
  value : ∀ i ∈ m.present, b.slot (pos i) = m.get i
  mono : ∀ i ∈ m.present, ∀ j ∈ m.present, i < j → pos i < pos j

namespace PackedArray

/-- The iterators of a packed array with the entries of `m`. -/
structure Traversed (a : PackedArray T A) (m : ChildMap A.LEN T) : Prop where
  iterPresent : PresentIter.ActsAs (fun s => s.1.len)
    (fun _ => PresentIter.foldFrom) a.iterPresent m.iterPresent
  iter : Iter.ActsAs (fun s => s.1.len) (fun _ => Iter.foldFrom) a.iter
    m.entries
  intoIter : IntoIter.ActsAs (fun s => s.1.len) (fun _ => IntoIter.foldFrom)
    a.intoIter m.iterPresent
  mutable : ∃ pos, HoldsAt a.data m pos ∧
    (∃ s, a.iterPresentMut = .ok s ∧
      PresentIterMut.ActsAs PresentIterMut.len
        (fun _ => PresentIterMut.foldFrom) s (places m pos).iterPresent) ∧
    ∃ s, a.iterMut = .ok s ∧
      IterMut.ActsAs (fun s => s.1.len) (fun _ => IterMut.foldFrom) s
        (places m pos).entries

variable {a : PackedArray T A}

theorem Holds.holdsAt (h : a.Holds m) :
    HoldsAt a.data m (Bitmap.rank m.present) where
  value i hi := by
    rcases h with ⟨-, rfl⟩ | ⟨inner, hinner, -, -, hdense⟩
    · simp at hi
    · rw [data, hinner]
      exact hdense.placed.value i hi
  mono i hi j _ hij := Bitmap.rank_lt_rank hi hij

theorem Holds.traversed (h : a.Holds m) : a.Traversed m where
  iterPresent := h.iterPresent
  iter := h.iter
  intoIter := h.intoIter
  mutable := ⟨_, h.holdsAt, h.iterPresentMut, h.iterMut⟩

end PackedArray

namespace GappedArray

/-- The iterators of a gapped array with the entries of `m`. -/
structure Traversed (g : GappedArray T A) (m : ChildMap A.LEN T) : Prop where
  iterPresent : PresentIter.ActsAs (fun s => s.1.len)
    (fun _ => PresentIter.foldFrom) g.iterPresent m.iterPresent
  iter : Iter.ActsAs (fun s => s.1.len) (fun _ => Iter.foldFrom) g.iter
    m.entries
  intoIter : IntoIter.ActsAs (fun s => s.1.len) (fun _ => IntoIter.foldFrom)
    g.intoIter m.iterPresent
  mutable : ∃ pos, HoldsAt g.data m pos ∧
    PresentIterMut.ActsAs (fun s => s.1.len)
      (fun _ => PresentIterMut.foldFrom) g.iterPresent
      (places m pos).iterPresent ∧
    IterMut.ActsAs (fun s => s.1.len) (fun _ => IterMut.foldFrom) g.iter
      (places m pos).entries

theorem Holds.traversed {g : GappedArray T A} (h : g.Holds m) :
    g.Traversed m where
  iterPresent := h.iterPresent
  iter := h.iter
  intoIter := h.intoIter
  mutable := by
    obtain ⟨pos, hvalue, hmono, hleft⟩ := h.exists_pos
    exact ⟨pos, ⟨hvalue, hmono⟩, h.iterPresentMut hleft, h.iterMut hleft⟩

end GappedArray

/-- In every state a program reaches, all iterators of both arrays answer as
deques: of the present entries, or of all slots. -/
theorem iterators_act_as_deques {s : Vars T A} (hs : s.Reached) :
    ∃ m, s.Reads m ∧ s.packed.Traversed m.1 ∧ s.gapped.Traversed m.2 := by
  obtain ⟨m, hm⟩ := hs.hold
  exact ⟨m, hm.reads, hm.1.traversed, hm.2.traversed⟩

/-- Two entries stored out of order, taken from both ends. -/
theorem iterators_act_as_deques_pair :
    ∃ s : Vars ℕ .arity8, s.Reached ∧
      ∃ s', GappedArray.PresentIter.pulls [.back, .front, .back]
        s.gapped.iterPresent = .ok ([some (5, 9), some (3, 7), none], s') := by
  obtain ⟨s, hs, hhold⟩ := Vars.reached_of_calls
    ([.gapped (.extend [(5, 9), (3, 7)])] : List (Call ℕ .arity8))
  obtain ⟨m, hreads, -, htraversed⟩ := iterators_act_as_deques hs
  obtain ⟨s', hpulls, -⟩ := htraversed.iterPresent [.back, .front, .back]
  rw [hreads.unique hhold.reads] at hpulls
  exact ⟨s, hs, s', hpulls⟩

end ArityArrays
