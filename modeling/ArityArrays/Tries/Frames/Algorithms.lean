import ArityArrays.Tries.Frames.Nesting
import ArityArrays.Tries.Hash
import ArityArrays.Tries.Ops

/-!
# The mutations and the hash as clients of the frame stack

One pass of each loop, from what the loop keeps beside the stack.  A pass goes
round again or leaves with the loop's result; the trie is whatever the stack
leaves behind.  `remove_prefix` goes through three loops, the second of them on
a stack of its own.
-/

namespace ArityTries

open Checked Loop

variable {n : ℕ} {V H X R σ ε : Type}

namespace Client

/-- Go on with the result of a computation. -/
def lift {A : Type} (c : Checked A) (next : A → Client n V H X R) :
    Client n V H X R :=
  match c with
  | .error p => .panic p
  | .ok a => next a

@[simp] theorem onNodes_lift {A : Type} (c : Checked A)
    (next : A → Client n V H X R) (fs : Frames n V H X) (t : Trie n V H) :
    (lift c next).onNodes fs t = c >>= fun a => (next a).onNodes fs t := by
  cases c <;> rfl

@[simp] theorem onNodes_done (r : R) (fs : Frames n V H X) (t : Trie n V H) :
    (done r).onNodes fs t = .ok (r, fs, t) := rfl

@[simp] theorem onNodes_setTop_cons (nd : TrieNode n V H)
    (next : Client n V H X R) (f : Frame n V H X) (rest : Frames n V H X)
    (t : Trie n V H) :
    (setTop nd next).onNodes (f :: rest) t =
      next.onNodes ({ f with node := nd } :: rest) t := rfl

/-- Materialize the child at `i` of the top node and push it. -/
def descend (store : EdgeStore n V H σ ε) (i : Fin n) (s : σ)
    (next : Except ε Unit → σ → Client n V H (Descended n) R) :
    Client n V H (Descended n) R :=
  .setTopExtra (some i) <| .tryPushChild
    (fun cur => do
      let edge ← expect (cur.children.get i) "checked present"
      match store.materialize s edge with
      | (.error x, edge, s) =>
          return ((.error x, s), .inl (cur.setChild i edge))
      | (.ok _, edge, s) =>
          return ((.ok (), s), .inr {
            parent := cur.setChild i edge
            slot := i
            child := edge.node
            extra := none
            occupied := by simp }))
    fun (r, s) => next r s

/-- One pass of `insert`. -/
def insertPass (store : EdgeStore n V H σ ε) (value : V) :
    Path n × σ → Client n V H (Descended n)
      (Pass (Path n × σ) (Except ε (Option V) × σ))
  | (rest, s) => .top fun cur _ =>
      lift (Split.of rest cur) fun split =>
      lift (split.below rest) fun below =>
      match below, split.above with
      | none, none =>
          let (old, cur) := cur.setValue (some value)
          .setTop cur (.done (.leave (.ok old, s)))
      | none, some (ni, nodeRest) =>
          lift (sliceTo rest split.sharedLen) fun shared =>
          let (_, old) := cur.setPartialPath nodeRest
          let (edge, s) := store.inline s old
          let (_, children) := ChildMap.empty.insert ni edge
          .setTop { partialPath := shared, value := some value, children }
            (.done (.leave (.ok none, s)))
      | some (ki, keyRest), none =>
          if (cur.children.get ki).isNone then
            let (edge, s) := store.inline s (Node.leaf keyRest value)
            let (_, children) := cur.children.insert ki edge
            .setTop { cur with children } (.done (.leave (.ok none, s)))
          else descend store ki s fun r s =>
            match r with
            | .error x => .done (.leave (.error x, s))
            | .ok _ => .done (.again (keyRest, s))
      | some (ki, keyRest), some (ni, nodeRest) =>
          lift (sliceTo rest split.sharedLen) fun shared =>
          let (_, old) := cur.setPartialPath nodeRest
          let (edge, s) := store.inline s old
          let (_, children) := ChildMap.empty.insert ni edge
          let (edge, s) := store.inline s (Node.leaf keyRest value)
          let (_, children) := children.insert ki edge
          .setTop { partialPath := shared, value := none, children }
            (.done (.leave (.ok none, s)))

/-- One step of the descent to the node at a key. -/
def descendToPass (store : EdgeStore n V H σ ε) (rest : Path n) (s : σ)
    (again : Path n → σ → Client n V H (Descended n) R)
    (next : Except ε Bool → σ → Client n V H (Descended n) R) :
    Client n V H (Descended n) R :=
  .top fun cur _ =>
    lift (Split.of rest cur) fun split =>
    if split.above.isSome then next (.ok false) s
    else lift (split.below rest) fun below =>
      match below with
      | none => next (.ok true) s
      | some (i, keyRest) =>
          if (cur.children.get i).isNone then next (.ok false) s
          else descend store i s fun r s =>
            match r with
            | .error x => next (.error x) s
            | .ok _ => again keyRest s

/-- One step of the unwind: discard the top frame and repair its parent. -/
def unwindRemovePass (store : EdgeStore n V H σ ε) (s : σ)
    (again : σ → Client n V H (Descended n) R)
    (next : Except ε (Detached n V H) → σ →
      Client n V H (Descended n) R) : Client n V H (Descended n) R :=
  .pop fun popped =>
    match popped with
    | none => next (.ok .root) s
    | some _ => .top fun parent descended =>
        lift (expect descended "descended into a child") fun i =>
        if parent.value.isSome || 3 ≤ parent.children.count then
          let (edge, children) := parent.children.remove i
          lift (expect edge "present") fun edge =>
          .setTop { parent with children } (next (.ok (.edge edge)) s)
        else if parent.children.count = 2 then
          lift (expect (parent.children.iterPresent.find? fun jf =>
            decide (jf.1 ≠ i)) "two children") fun (survivor, _) =>
          lift (expect (parent.children.get survivor) "present") fun edge =>
          match store.materialize s edge with
          | (.error x, edge, s) =>
              .setTop (parent.setChild survivor edge) (next (.error x) s)
          | (.ok _, edge, s) =>
              let parent := parent.setChild survivor edge
              let (edge, children) := parent.children.remove i
              lift (expect edge "present") fun edge =>
              lift (mergeOnlyChild { parent with children }) fun parent =>
              .setTop parent (next (.ok (.edge edge)) s)
        else again s

/-- Where `remove` is. -/
inductive RemoveAt (n : ℕ) where
  | descending (rest : Path n)
  | found
  | unwinding

/-- What `remove` does after the descent. -/
def removeDescended : Except ε Bool → σ → Client n V H (Descended n)
    (Pass (RemoveAt n × σ) (Except ε (Option V) × Bool × σ))
  | .error x, s => .done (.leave (.error x, false, s))
  | .ok false, s => .done (.leave (.ok none, false, s))
  | .ok true, s => .done (.again (.found, s))

/-- What `remove` does after the unwind. -/
def removeUnwound : Except ε (Detached n V H) → σ →
    Client n V H (Descended n)
      (Pass (RemoveAt n × σ) (Except ε (Option V) × Bool × σ))
  | .error x, s => .done (.leave (.error x, false, s))
  | .ok .root, s => .top fun node _ =>
      lift (recover node) fun v => .done (.leave (.ok v, true, s))
  | .ok (.edge edge), s =>
      match edge.asInline with
      | none => .done (.leave (.ok none, false, s))
      | some node =>
          lift (recover node) fun v => .done (.leave (.ok v, false, s))

/-- One pass of `remove`.  It leaves with its result and whether the root is
taken from the trie. -/
def removePass (store : EdgeStore n V H σ ε) :
    RemoveAt n × σ → Client n V H (Descended n)
      (Pass (RemoveAt n × σ) (Except ε (Option V) × Bool × σ))
  | (.descending rest, s) => descendToPass store rest s
      (fun keyRest s => .done (.again (.descending keyRest, s)))
      removeDescended
  | (.found, s) => .top fun cur _ =>
      if cur.value.isNone then .done (.leave (.ok none, false, s))
      else
        match cur.children.count with
        | 0 => .done (.again (.unwinding, s))
        | 1 => lift (clearAndMerge store cur s) fun (r, cur, s) =>
            .setTop cur (.done (.leave (r, false, s)))
        | _ =>
            let (old, cur) := cur.setValue none
            .setTop cur (.done (.leave (.ok old, false, s)))
  | (.unwinding, s) => unwindRemovePass store s
      (fun s => .done (.again (.unwinding, s))) removeUnwound

/-- What a step of the descent of `remove_prefix` comes to: a child, the node
whose subtree leaves, with the children to materialize first, or the result. -/
inductive Sought (n : ℕ) (ε : Type) where
  | below (rest : Path n)
  | here (remaining : Bitmap n)
  | leave (r : Except ε Unit)

/-- One step of the descent of `remove_prefix`. -/
def removePrefixPass (store : EdgeStore n V H σ ε) (rest : Path n) (s : σ) :
    Client n V H (Descended n) (Sought n ε × σ) :=
  .top fun cur _ =>
    lift (Split.of rest cur) fun split =>
    lift (split.below rest) fun below =>
    match below with
    | none => .done (.here cur.children.present, s)
    | some (i, prefixRest) =>
        if split.above.isSome || (cur.children.get i).isNone then
          .done (.leave (.ok ()), s)
        else descend store i s fun r s =>
          match r with
          | .error x => .done (.leave (.error x), s)
          | .ok _ => .done (.below prefixRest, s)

/-- What `remove_prefix` does after the unwind.  It leaves with its result and
whether the root is taken from the trie. -/
def removePrefixUnwound : Except ε (Detached n V H) → σ →
    Client n V H (Descended n) (Pass σ (Except ε Unit × Bool × σ))
  | .error x, s => .done (.leave (.error x, false, s))
  | .ok .root, s => .done (.leave (.ok (), true, s))
  | .ok (.edge _), s => .done (.leave (.ok (), false, s))

/-- One pass of the unwind of `remove_prefix`. -/
def removePrefixUnwindPass (store : EdgeStore n V H σ ε) (s : σ) :
    Client n V H (Descended n) (Pass σ (Except ε Unit × Bool × σ)) :=
  unwindRemovePass store s (fun s => .done (.again s)) removePrefixUnwound

/-- One pass of the walk that materializes a subtree. -/
def materializeSubtreePass (store : EdgeStore n V H σ ε) (s : σ) :
    Client n V H (Bitmap n) (Pass σ (Except ε Unit × σ)) :=
  .top fun _ remaining =>
    match Bitmap.select remaining 0 with
    | none => .pop fun popped =>
        match popped with
        | none => .done (.leave (.ok (), s))
        | some _ => .done (.again s)
    | some i =>
        .setTopExtra (Bitmap.withoutBit remaining i) <|
          .tryPushChild (A := Except ε Unit × σ) (fun cur => do
            let edge ← expect (cur.children.get i) "present"
            match store.materialize s edge with
            | (.error x, edge, s) =>
                return ((.error x, s), .inl (cur.setChild i edge))
            | (.ok _, edge, s) =>
                return ((.ok (), s), .inr {
                  parent := cur.setChild i edge
                  slot := i
                  child := edge.node
                  extra := edge.node.children.present
                  occupied := by simp }))
          fun (r, s) =>
            match r with
            | .error x => .done (.leave (.error x, s))
            | .ok _ => .done (.again s)

/-- Push the inline child at `i` of the top node. -/
def pushPendingChild (hasher : TrieHasher n V H)
    (store : EdgeStore n V H σ ε) (i : Fin n) (siblings : ℕ) (buf : Path n)
    (s : σ) (next : Except ε Unit → Path n → σ →
      Client n V H (HashFrame n) R) : Client n V H (HashFrame n) R :=
  .tryPushChild
    (fun parent =>
      match hedge : parent.children.get i with
      | none => .error ⟨"present"⟩
      | some edge => do
          let child ← expect edge.asInline "pending children are inline"
          let (r, child, buf, s) ←
            prepare hasher store child (some i) buf.length siblings buf s
          match r with
          | .error x =>
              return ((.error x, buf, s), .inl (parent.writeChild i child))
          | .ok frame => return ((.ok (), buf, s), .inr {
              parent
              slot := i
              child
              extra := frame
              occupied := by simp [hedge] }))
    fun (r, buf, s) => next r buf s

/-- One pass of `hash`. -/
def hashPass (hasher : TrieHasher n V H) (store : EdgeStore n V H σ ε) :
    Path n × σ → Client n V H (HashFrame n)
      (Pass (Path n × σ) (Except ε H × σ))
  | (buf, s) => .top fun node frame =>
      match Bitmap.select frame.pending 0 with
      | some i =>
          let buf := buf.take frame.leadingLen ++ node.partialPath ++ [i]
          .setTopExtra
            { frame with pending := Bitmap.withoutBit frame.pending i } <|
          pushPendingChild hasher store i frame.count buf s fun r buf s =>
            match r with
            | .error x => .done (.leave (.error x, s))
            | .ok _ => .done (.again (buf, s))
      | none =>
          let buf := buf.take frame.leadingLen
          .popWith (fun node frame => do
            let (h, node) ← finishNode hasher node buf frame.siblings
            return ((h, frame.indexInParent), node)) fun (h, indexInParent) =>
          match indexInParent with
          | none => .done (.leave (.ok h, s))
          | some i => .top fun parent _ =>
              lift (sealChild store parent i h s) fun (parent, s) =>
              .setTop parent (.done (.again (buf, s)))

end Client

namespace Raw

/-- Where `remove_prefix` is on pointers.  While it materializes a subtree, the
walk has a stack of its own, made from the top of the frames beneath. -/
inductive RemovePrefixAt (n : ℕ) (V H σ : Type) where
  | descending (rest : Path n) (s : σ) (fs : Frames n V H (Descended n))
  | materializing (s : σ)
      (frames : List (Borrows.Pointer (Fin n) × Descended n))
      (walk : Frames n V H (Bitmap n))
  | unwinding (s : σ) (fs : Frames n V H (Descended n))

/-- One pass of `remove_prefix` on pointers. -/
def removePrefixBody (store : EdgeStore n V H σ ε) :
    RemovePrefixAt n V H σ → Checked (Pass (RemovePrefixAt n V H σ)
      ((Except ε Unit × Bool × σ) × Frames n V H (Descended n)))
  | .descending rest s fs => do
      let ((sought, s), fs) ←
        (Client.removePrefixPass store rest s).onPointers fs
      match sought with
      | .below rest => return .again (.descending rest s fs)
      | .here remaining =>
          let walk ← fs.nested remaining
          return .again (.materializing s fs.frames walk)
      | .leave r => return .leave ((r, false, s), fs)
  | .materializing s frames walk => do
      let (pass, walk) ←
        (Client.materializeSubtreePass store s).onPointers walk
      match pass with
      | .again s => return .again (.materializing s frames walk)
      | .leave (.error x, s) =>
          return .leave ((.error x, false, s), ⟨frames, walk.memory⟩)
      | .leave (.ok _, s) =>
          return .again (.unwinding s ⟨frames, walk.memory⟩)
  | .unwinding s fs => do
      let (pass, fs) ← (Client.removePrefixUnwindPass store s).onPointers fs
      match pass with
      | .again s => return .again (.unwinding s fs)
      | .leave r => return .leave (r, fs)

end Raw

end ArityTries
