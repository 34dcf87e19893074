import ArityArrays.Tries.Iter
import ArityArrays.Tries.Order

/-!
# What a walk still has to visit

`Walk.todo` reads the nodes a walk has left off its frames, in the order it
will visit them.  A step takes the first of them; seeking drops those that
sort before the start.  `Walk.Pending` states the whole contract of a walk
between two calls of `advance`.
-/

namespace ArityTries

open Checked Loop Node

variable {n : ℕ} {V H σ ε : Type}

/-- Whether a full path is at or after an optional start. -/
def atOrAfter (start : Option (Path n)) (q : Path n) : Prop :=
  ∀ st ∈ start, st ≤ q

instance (start : Option (Path n)) (q : Path n) :
    Decidable (atOrAfter start q) :=
  inferInstanceAs (Decidable (∀ st ∈ start, st ≤ q))

/-- The listed nodes whose full path is at or after the start. -/
def nodesFrom (start : Option (Path n))
    (pending : List (Path n × TrieNode n V H)) :
    List (Path n × TrieNode n V H) :=
  pending.filter fun sm => decide (atOrAfter start (fullPath sm))

theorem nodesFrom_none (pending : List (Path n × TrieNode n V H)) :
    nodesFrom none pending = pending := by
  refine List.filter_eq_self.mpr ?_
  intro sm _
  simp [atOrAfter]

theorem nodesFrom_append (start : Option (Path n))
    (xs ys : List (Path n × TrieNode n V H)) :
    nodesFrom start (xs ++ ys) = nodesFrom start xs ++ nodesFrom start ys :=
  List.filter_append _ _

/-- Nothing is dropped from nodes that are all at or after the start. -/
theorem nodesFrom_of_le {st : Path n}
    {pending : List (Path n × TrieNode n V H)}
    (h : ∀ sm ∈ pending, st ≤ fullPath sm) :
    nodesFrom (some st) pending = pending := by
  refine List.filter_eq_self.mpr ?_
  intro sm hsm
  simpa [atOrAfter] using h sm hsm

/-- Everything is dropped from nodes that all sort before the start. -/
theorem nodesFrom_of_lt {st : Path n}
    {pending : List (Path n × TrieNode n V H)}
    (h : ∀ sm ∈ pending, fullPath sm < st) :
    nodesFrom (some st) pending = [] := by
  refine List.filter_eq_nil_iff.mpr ?_
  intro sm hsm
  simpa [atOrAfter] using h sm hsm

/-! ## The nodes beneath a frame -/

/-- Indices that contribute nothing may be filtered out. -/
theorem flatMap_filter_of_nil {α β : Type} {keep : α → Bool}
    {f : α → List β} {xs : List α}
    (h : ∀ x ∈ xs, keep x = false → f x = []) :
    (xs.filter keep).flatMap f = xs.flatMap f := by
  induction xs with
  | nil => rfl
  | cons x xs ih =>
      have hrest := ih fun y hy => h y (List.mem_cons_of_mem x hy)
      by_cases hx : keep x = true
      · rw [List.filter_cons_of_pos hx, List.flatMap_cons, hrest,
          List.flatMap_cons]
      · have hnil := h x List.mem_cons_self (by simpa using hx)
        rw [List.filter_cons_of_neg hx, hrest, List.flatMap_cons, hnil,
          List.nil_append]

/-- The node behind a listed edge. -/
def behind (se : Path n × Edge n V H) : Path n × TrieNode n V H :=
  (se.1, se.2.node)

theorem slotNodes_eq_map (L : Path n) (o : Option (Edge n V H)) :
    slotNodes L o = (slotEdges L o).map behind := by
  cases o <;> rfl

/-- The edges to the children in `bits` of a node with full path `p`, and
beneath them. -/
def edgesBeneath (p : Path n) (nd : TrieNode n V H) (bits : Bitmap n) :
    List (Path n × Edge n V H) :=
  (Bitmap.bits bits).flatMap fun i =>
    slotEdges (p ++ [i]) (nd.children.get i)

/-- The nodes beneath the children in `bits` of a node with full path `p`. -/
def beneath (p : Path n) (nd : TrieNode n V H) (bits : Bitmap n) :
    List (Path n × TrieNode n V H) :=
  (Bitmap.bits bits).flatMap fun i =>
    slotNodes (p ++ [i]) (nd.children.get i)

theorem beneath_eq_map (p : Path n) (nd : TrieNode n V H) (bits : Bitmap n) :
    beneath p nd bits = (edgesBeneath p nd bits).map behind := by
  rw [beneath, edgesBeneath, List.map_flatMap]
  simp only [slotNodes_eq_map]

theorem mem_beneath {p : Path n} {nd : TrieNode n V H} {bits : Bitmap n}
    {sm : Path n × TrieNode n V H} :
    sm ∈ beneath p nd bits ↔
      ∃ i ∈ bits, sm ∈ slotNodes (p ++ [i]) (nd.children.get i) := by
  simp only [beneath, List.mem_flatMap, Bitmap.mem_bits]

theorem edgesBeneath_of_select_none {p : Path n} {nd : TrieNode n V H}
    {bits : Bitmap n} (hbits : Bitmap.select bits 0 = none) :
    edgesBeneath p nd bits = [] := by
  rw [Bitmap.select_zero_eq_none.mp hbits]
  simp [edgesBeneath, Bitmap.bits]

theorem edgesBeneath_of_select {p : Path n} {nd : TrieNode n V H}
    {bits : Bitmap n} {i : Fin n} (hi : Bitmap.select bits 0 = some i) :
    edgesBeneath p nd bits = slotEdges (p ++ [i]) (nd.children.get i) ++
      edgesBeneath p nd (Bitmap.withoutBit bits i) := by
  rw [edgesBeneath, Bitmap.bits_of_select_zero hi, List.flatMap_cons]
  rfl

theorem beneath_of_select_none {p : Path n} {nd : TrieNode n V H}
    {bits : Bitmap n} (hbits : Bitmap.select bits 0 = none) :
    beneath p nd bits = [] := by
  rw [beneath_eq_map, edgesBeneath_of_select_none hbits, List.map_nil]

theorem beneath_of_select {p : Path n} {nd : TrieNode n V H}
    {bits : Bitmap n} {i : Fin n} (hi : Bitmap.select bits 0 = some i) :
    beneath p nd bits = slotNodes (p ++ [i]) (nd.children.get i) ++
      beneath p nd (Bitmap.withoutBit bits i) := by
  rw [beneath_eq_map, edgesBeneath_of_select hi, List.map_append,
    ← slotNodes_eq_map, ← beneath_eq_map]

/-- Beneath all its present children are the edges beneath a node. -/
theorem edges_eq_beneath (L : Path n) (nd : TrieNode n V H) :
    edges L nd =
      edgesBeneath (L ++ nd.partialPath) nd nd.children.present := by
  rw [edges_eq, edgesBeneath, Bitmap.bits, flatMap_filter_of_nil]
  · rfl
  · intro i _ hi
    rw [ChildMap.notMem_present.mp (by simpa using hi), slotEdges_none]

/-- Beneath all its present children are the nodes beneath a node. -/
theorem nodes_eq_beneath (L : Path n) (nd : TrieNode n V H) :
    nodes L nd =
      (L, nd) :: beneath (L ++ nd.partialPath) nd nd.children.present := by
  rw [beneath_eq_map, ← edges_eq_beneath]
  rfl

/-- A node beneath the child at `i` continues `p` with `i`. -/
theorem fullPath_of_mem_beneath {p : Path n} {nd : TrieNode n V H}
    {bits : Bitmap n} {sm : Path n × TrieNode n V H}
    (h : sm ∈ beneath p nd bits) :
    ∃ i ∈ bits, ∃ r, fullPath sm = p ++ i :: r := by
  obtain ⟨i, hi, hsm⟩ := mem_beneath.mp h
  obtain ⟨r, hr⟩ := prefix_of_mem_slotNodes hsm
  refine ⟨i, hi, r, ?_⟩
  rw [← hr, List.append_assoc, List.singleton_append]

/-- Dropping the children before the next index of the start drops only nodes
that sort before it. -/
theorem nodesFrom_beneath {p kr : Path n} {si : Fin n}
    (nd : TrieNode n V H) (bits : Bitmap n) :
    nodesFrom (some (p ++ si :: kr)) (beneath p nd bits) =
      nodesFrom (some (p ++ si :: kr))
        (beneath p nd (Bitmap.dropBefore si bits)) := by
  rw [nodesFrom, nodesFrom, beneath, beneath, List.filter_flatMap,
    List.filter_flatMap, Bitmap.bits_dropBefore, flatMap_filter_of_nil]
  intro i _ hi
  have hlt : i < si := by simpa using hi
  refine nodesFrom_of_lt ?_
  intro sm hsm
  obtain ⟨r, hr⟩ := prefix_of_mem_slotNodes hsm
  rw [← hr, List.append_assoc, List.singleton_append]
  exact append_cons_lt p hlt r kr

/-- Nodes beneath children after the next index of the start come after it. -/
theorem le_of_mem_beneath {p kr : Path n} {si : Fin n}
    {nd : TrieNode n V H} {bits : Bitmap n} (hbits : ∀ i ∈ bits, si < i)
    {sm : Path n × TrieNode n V H} (h : sm ∈ beneath p nd bits) :
    p ++ si :: kr ≤ fullPath sm := by
  obtain ⟨i, hi, r, hr⟩ := fullPath_of_mem_beneath h
  rw [hr]
  exact (append_cons_lt p (hbits i hi) kr r).le

/-! ## The nodes a walk has left -/

namespace Walk

/-- The edges beneath a stack of frames, in the order of the visit. -/
def edgesAhead (buf : Path n) (frames : List (PathFrame n V H)) :
    List (Path n × Edge n V H) :=
  frames.flatMap fun f =>
    edgesBeneath (buf.take f.pathLen) f.node f.remaining

@[simp] theorem edgesAhead_cons (buf : Path n) (f : PathFrame n V H)
    (rest : List (PathFrame n V H)) :
    edgesAhead buf (f :: rest) =
      edgesBeneath (buf.take f.pathLen) f.node f.remaining ++
        edgesAhead buf rest := rfl

/-- The nodes beneath a stack of frames, in the order of the visit. -/
def todo (buf : Path n) (frames : List (PathFrame n V H)) :
    List (Path n × TrieNode n V H) :=
  frames.flatMap fun f => beneath (buf.take f.pathLen) f.node f.remaining

@[simp] theorem todo_nil (buf : Path n) :
    todo buf ([] : List (PathFrame n V H)) = [] := rfl

@[simp] theorem todo_cons (buf : Path n) (f : PathFrame n V H)
    (rest : List (PathFrame n V H)) :
    todo buf (f :: rest) =
      beneath (buf.take f.pathLen) f.node f.remaining ++ todo buf rest := rfl

theorem todo_eq_map (buf : Path n) (frames : List (PathFrame n V H)) :
    todo buf frames = (edgesAhead buf frames).map behind := by
  rw [todo, edgesAhead, List.map_flatMap]
  simp only [beneath_eq_map]

/-- The frames of a walk share one buffer and own a handle each, but for the
root's frame. -/
structure Aligned (chain : List (TrieNode n V H))
    (frames : List (PathFrame n V H)) (buf : Path n) : Prop where
  within : ∀ f ∈ frames, f.pathLen ≤ buf.length
  nested : frames.Pairwise fun f g => g.pathLen ≤ f.pathLen
  present : ∀ f ∈ frames, f.remaining ⊆ f.node.children.present
  handles : chain = (frames.map PathFrame.node).dropLast

theorem Aligned.popFrame {w : Walk n V H} {f : PathFrame n V H}
    {rest : List (PathFrame n V H)}
    (hw : Aligned w.chain w.frames w.buf) (hframes : w.frames = f :: rest) :
    Aligned w.popFrame.chain rest w.buf := by
  rw [hframes] at hw
  refine ⟨?_, hw.nested.of_cons, ?_, ?_⟩
  · intro g hg
    exact hw.within g (List.mem_cons_of_mem f hg)
  · intro g hg
    exact hw.present g (List.mem_cons_of_mem f hg)
  · have hchain := hw.handles
    cases rest with
    | nil => simpa [Walk.popFrame, hframes] using hchain
    | cons g rest => simp [Walk.popFrame, hframes, hchain]

/-- Only the children a frame has left may change. -/
theorem Aligned.setRemaining {chain : List (TrieNode n V H)}
    {f : PathFrame n V H} {rest : List (PathFrame n V H)} {buf : Path n}
    (hw : Aligned chain (f :: rest) buf) {remaining : Bitmap n}
    (hsub : remaining ⊆ f.remaining) :
    Aligned chain ({ f with remaining } :: rest) buf := by
  refine ⟨?_, ?_, ?_, ?_⟩
  · simpa using hw.within
  · simpa using hw.nested
  · have hpresent := hw.present
    simp only [List.forall_mem_cons] at hpresent ⊢
    exact ⟨hsub.trans hpresent.1, hpresent.2⟩
  · simpa using hw.handles

/-- Appending to the part of the buffer a frame keeps leaves the paths of the
frames beneath it in place. -/
theorem take_append_take {f g : PathFrame n V H} {buf : Path n}
    (hf : f.pathLen ≤ buf.length) (hg : g.pathLen ≤ f.pathLen)
    (r : Path n) :
    (buf.take f.pathLen ++ r).take g.pathLen = buf.take g.pathLen := by
  rw [List.take_append_of_le_length, List.take_take, min_eq_left hg]
  rw [List.length_take, min_eq_left hf]
  exact hg

section Entered

variable {w : Walk n V H} {f : PathFrame n V H}
  {rest : List (PathFrame n V H)} {i : Fin n}

theorem entered_buf (child : TrieNode n V H) :
    (w.entered f rest i child).buf =
      w.buf.take f.pathLen ++ [i] ++ child.partialPath := rfl

theorem Aligned.entered (hw : Aligned w.chain w.frames w.buf)
    (hframes : w.frames = f :: rest) (child : TrieNode n V H) :
    Aligned (w.entered f rest i child).chain
      (w.entered f rest i child).frames (w.entered f rest i child).buf := by
  rw [hframes] at hw
  have hf := hw.within f List.mem_cons_self
  have hle : f.pathLen ≤ (w.entered f rest i child).buf.length := by
    rw [entered_buf, List.append_assoc, List.length_append,
      List.length_take, min_eq_left hf]
    exact Nat.le_add_right _ _
  have hnested := List.pairwise_cons.mp hw.nested
  have hbelow : ∀ g ∈ { f with
      remaining := Bitmap.withoutBit f.remaining i } :: rest,
      g.pathLen ≤ f.pathLen :=
    List.forall_mem_cons.mpr ⟨le_refl f.pathLen, hnested.1⟩
  have hparent := hw.setRemaining (Finset.erase_subset i f.remaining)
  refine ⟨?_, ?_, ?_, ?_⟩
  · refine List.forall_mem_cons.mpr ⟨le_refl _, ?_⟩
    intro g hg
    exact (hbelow g hg).trans hle
  · refine List.pairwise_cons.mpr ⟨?_, hparent.nested⟩
    intro g hg
    exact (hbelow g hg).trans hle
  · exact List.forall_mem_cons.mpr
      ⟨Finset.Subset.refl _, hparent.present⟩
  · have hchain := hw.handles
    simp [Walk.entered, hchain]

/-- Under the entered child, its parent and the frames beneath it have their
other edges left. -/
theorem entered_ahead (hw : Aligned w.chain w.frames w.buf)
    (hframes : w.frames = f :: rest) (child : TrieNode n V H) :
    edgesAhead (w.entered f rest i child).buf
        ({ f with remaining := Bitmap.withoutBit f.remaining i } :: rest) =
      edgesBeneath (w.buf.take f.pathLen) f.node
        (Bitmap.withoutBit f.remaining i) ++ edgesAhead w.buf rest := by
  rw [hframes] at hw
  have hf := hw.within f List.mem_cons_self
  have hnested := List.pairwise_cons.mp hw.nested
  have htake : ∀ g : PathFrame n V H, g.pathLen ≤ f.pathLen →
      (w.entered f rest i child).buf.take g.pathLen =
        w.buf.take g.pathLen := by
    intro g hg
    rw [entered_buf, List.append_assoc]
    exact take_append_take hf hg _
  have hrest : edgesAhead (w.entered f rest i child).buf rest =
      edgesAhead w.buf rest := by
    refine List.flatMap_congr ?_
    intro g hg
    rw [htake g (hnested.1 g hg)]
  rw [edgesAhead_cons, htake _ (le_refl f.pathLen), hrest]

/-- Entering a child makes its edge the next one read. -/
theorem entered_ahead_cons (hw : Aligned w.chain w.frames w.buf)
    (hframes : w.frames = f :: rest)
    (hi : Bitmap.select f.remaining 0 = some i) {e : Edge n V H}
    (he : f.node.children.get i = some e) :
    edgesAhead w.buf w.frames = (w.buf.take f.pathLen ++ [i], e) ::
      edgesAhead (w.entered f rest i e.node).buf
        (w.entered f rest i e.node).frames := by
  have htop : (w.entered f rest i e.node).frames = {
      node := e.node
      pathLen := (w.entered f rest i e.node).buf.length
      remaining := e.node.children.present } ::
        { f with remaining := Bitmap.withoutBit f.remaining i } :: rest :=
    rfl
  rw [htop, edgesAhead_cons, List.take_length, entered_ahead hw hframes, hframes,
    edgesAhead_cons, edgesBeneath_of_select hi, he, slotEdges_some,
    edges_eq_beneath, List.append_assoc, List.cons_append, entered_buf]

theorem entered_todo (hw : Aligned w.chain w.frames w.buf)
    (hframes : w.frames = f :: rest) (child : TrieNode n V H) :
    todo (w.entered f rest i child).buf
        ({ f with remaining := Bitmap.withoutBit f.remaining i } :: rest) =
      beneath (w.buf.take f.pathLen) f.node
        (Bitmap.withoutBit f.remaining i) ++ todo w.buf rest := by
  rw [todo_eq_map, entered_ahead hw hframes, List.map_append,
    ← beneath_eq_map, ← todo_eq_map]

/-- Entering a child makes its node the next one visited. -/
theorem entered_todo_cons (hw : Aligned w.chain w.frames w.buf)
    (hframes : w.frames = f :: rest)
    (hi : Bitmap.select f.remaining 0 = some i) {e : Edge n V H}
    (he : f.node.children.get i = some e) :
    todo w.buf w.frames = (w.buf.take f.pathLen ++ [i], e.node) ::
      todo (w.entered f rest i e.node).buf
        (w.entered f rest i e.node).frames := by
  rw [todo_eq_map, todo_eq_map, entered_ahead_cons hw hframes hi he]
  rfl

end Entered

/-! ## A step -/

/-- How a step over the nodes `pending` ends: the first of them is found, with
its full path in the buffer, and the others are left. -/
inductive Found (store : EdgeStore n V H σ ε)
    (pending : List (Path n × TrieNode n V H)) :
    Except ε (Option (TrieNode n V H)) × Walk n V H × σ → Prop
  | failed {x : ε} {w : Walk n V H} {s : σ}
      (hfail : ¬ store.NeverFails) : Found store pending (.error x, w, s)
  | ended {w : Walk n V H} {s : σ} (hpending : pending = []) :
      Found store pending (.ok none, w, s)
  | node {L : Path n} {m : TrieNode n V H} {w : Walk n V H} {s : σ}
      (hw : Aligned w.chain w.frames w.buf)
      (hbuf : w.buf = L ++ m.partialPath) (hstate : w.state = .walking)
      (hpending : pending = (L, m) :: todo w.buf w.frames) :
      Found store pending (.ok (some m), w, s)

/-- Entering the next child of the top frame, or failing to read it. -/
theorem step_enter (store : EdgeStore n V H σ ε) {w : Walk n V H}
    {f : PathFrame n V H} {rest : List (PathFrame n V H)} {i : Fin n}
    (hw : Aligned w.chain w.frames w.buf) (hframes : w.frames = f :: rest)
    (hi : Bitmap.select f.remaining 0 = some i) (s : σ) :
    ∃ e, f.node.children.get i = some e ∧
      ((∃ x w' s', ¬ store.NeverFails ∧
          step store w s = .ok (.error x, w', s')) ∨
        ∃ s', step store w s =
          .ok (.ok (some e.node), w.entered f rest i e.node, s')) := by
  rw [hframes] at hw
  have hmem := hw.present f List.mem_cons_self (Bitmap.mem_of_select_zero hi)
  obtain ⟨e, he⟩ := ChildMap.mem_present.mp hmem
  refine ⟨e, he, ?_⟩
  rw [step_of_select hframes hi, he, expect_some, ok_bind]
  rcases store.read_cases s e with ⟨x, s', hr⟩ | ⟨s', hr⟩
  · rw [hr]
    refine Or.inl ⟨x, _, s', ?_, rfl⟩
    intro hstore
    exact hstore.read s e x (by rw [hr])
  · rw [hr]
    exact Or.inr ⟨s', rfl⟩

/-- A step finds the first node a walk has left. -/
theorem step_found (store : EdgeStore n V H σ ε) {w : Walk n V H}
    (hw : Aligned w.chain w.frames w.buf) (hstate : w.state = .walking)
    (s : σ) :
    ∃ out, step store w s = .ok out ∧
      Found store (todo w.buf w.frames) out := by
  induction hframes : w.frames generalizing w with
  | nil => exact ⟨_, step_of_nil hframes, .ended rfl⟩
  | cons f rest ih =>
      cases hi : Bitmap.select f.remaining 0 with
      | none =>
          rw [step_of_exhausted hframes hi, todo_cons,
            beneath_of_select_none hi, List.nil_append]
          have hpop := popFrame_frames hframes
          have hw' := hw.popFrame hframes
          rw [← hpop] at hw'
          exact ih hw' hstate hpop
      | some i =>
          obtain ⟨e, he, ⟨x, w', s', hfail, hstep⟩ | ⟨s', hstep⟩⟩ :=
            step_enter store hw hframes hi s
          · exact ⟨_, hstep, .failed hfail⟩
          · refine ⟨_, hstep, .node (hw.entered hframes e.node) rfl
              hstate ?_⟩
            rw [← hframes]
            exact entered_todo_cons hw hframes hi he

/-! ## Seeking -/

/-- A walk seeking `st`, at the node `top` with leading path `L`: no child of
it is visited, and the frames beneath it have only later nodes left. -/
structure Seeking (st : Path n) (w : Walk n V H) (L : Path n)
    (top : TrieNode n V H) (rest : List (PathFrame n V H)) : Prop where
  aligned : Aligned w.chain w.frames w.buf
  frames : w.frames = {
    node := top
    pathLen := w.buf.length
    remaining := top.children.present } :: rest
  buf : w.buf = L ++ top.partialPath
  later : ∀ sm ∈ todo w.buf rest, st ≤ fullPath sm

/-- What a seeking walk has left at or after the start. -/
def target (st : Path n) (w : Walk n V H) (L : Path n)
    (top : TrieNode n V H) (rest : List (PathFrame n V H)) :
    List (Path n × TrieNode n V H) :=
  nodesFrom (some st) (nodes L top) ++ todo w.buf rest

section SeekPass

variable {st : Path n} {w : Walk n V H} {L : Path n}
  {top : TrieNode n V H} {rest : List (PathFrame n V H)}

/-- Every full path at or beneath the top node continues the buffer. -/
theorem Seeking.fullPath_eq (hw : Seeking st w L top rest)
    {sm : Path n × TrieNode n V H} (h : sm ∈ nodes L top) :
    ∃ r, fullPath sm = w.buf ++ r := by
  obtain ⟨r, hr⟩ := prefix_fullPath h
  exact ⟨r, by rw [← hr, hw.buf]⟩

/-- The top node is found when nothing at or beneath it sorts before the
start. -/
theorem Seeking.found_top (hw : Seeking st w L top rest)
    (hle : ∀ sm ∈ nodes L top, st ≤ fullPath sm)
    (store : EdgeStore n V H σ ε) (s : σ) :
    Found store (target st w L top rest)
      (.ok (some top), { w with state := .walking }, s) := by
  refine .node (L := L) hw.aligned hw.buf rfl ?_
  rw [target, nodesFrom_of_le hle, nodes_eq_beneath, hw.frames, todo_cons,
    List.take_length, hw.buf, List.cons_append]

/-- The top node's subtree is left when all of it sorts before the start. -/
theorem Seeking.found_beneath (hw : Seeking st w L top rest)
    (hlt : ∀ sm ∈ nodes L top, fullPath sm < st)
    (store : EdgeStore n V H σ ε) (s : σ) :
    ∃ out, step store { w with state := .walking }.popFrame s = .ok out ∧
      Found store (target st w L top rest) out := by
  rw [target, nodesFrom_of_lt hlt, List.nil_append]
  have hframes : ({ w with state := .walking } : Walk n V H).frames =
      _ :: rest := hw.frames
  have hpop := popFrame_frames hframes
  have hw' := Aligned.popFrame (w := { w with state := .walking })
    hw.aligned hframes
  rw [← hpop] at hw' ⊢
  exact step_found store hw' rfl s

theorem Seeking.aligned_dropped (hw : Seeking st w L top rest)
    (si : Fin n) :
    Aligned w.chain ({
      node := top
      pathLen := w.buf.length
      remaining := Bitmap.dropBefore si top.children.present } :: rest)
      w.buf := by
  have haligned := hw.aligned
  rw [hw.frames] at haligned
  exact haligned.setRemaining
    (Bitmap.dropBefore_subset si top.children.present)

/-- The top node after its children before `si` are dropped. -/
theorem Seeking.dropped (hw : Seeking st w L top rest) {si : Fin n}
    {kr : Path n} (hst : st = w.buf ++ si :: kr) :
    target st w L top rest =
      nodesFrom (some st) (beneath w.buf top
        (Bitmap.dropBefore si top.children.present)) ++ todo w.buf rest := by
  have hself : nodesFrom (some st) [(L, top)] = [] := by
    refine nodesFrom_of_lt ?_
    intro sm hsm
    rw [List.mem_singleton.mp hsm, fullPath_mk, ← hw.buf, hst]
    exact lt_append_cons w.buf si kr
  rw [target, nodes_eq_beneath, ← List.singleton_append, nodesFrom_append,
    hself, List.nil_append, ← hw.buf, hst, nodesFrom_beneath]

/-- Without a child at the start's next index, the children left all sort
after the start. -/
theorem Seeking.found_after (hw : Seeking st w L top rest) {si : Fin n}
    {kr : Path n} (hst : st = w.buf ++ si :: kr)
    (hsi : si ∉ Bitmap.dropBefore si top.children.present)
    (store : EdgeStore n V H σ ε) (s : σ) :
    ∃ out, step store { w.setRemaining
        (Bitmap.dropBefore si top.children.present) with
          state := .walking } s = .ok out ∧
      Found store (target st w L top rest) out := by
  have hgt : ∀ i ∈ Bitmap.dropBefore si top.children.present, si < i := by
    intro i hi
    refine lt_of_le_of_ne (Bitmap.mem_dropBefore.mp hi).2 ?_
    rintro rfl
    exact hsi hi
  have hlater : ∀ sm ∈ beneath w.buf top
      (Bitmap.dropBefore si top.children.present), st ≤ fullPath sm := by
    intro sm hsm
    rw [hst]
    exact le_of_mem_beneath hgt hsm
  rw [hw.dropped hst, nodesFrom_of_le hlater,
    setRemaining_of_frames hw.frames]
  have hfound := step_found store (w := {
    w with
    frames := {
      node := top
      pathLen := w.buf.length
      remaining := Bitmap.dropBefore si top.children.present } :: rest
    state := .walking }) (hw.aligned_dropped si) rfl s
  rwa [todo_cons, List.take_length] at hfound

/-- With a child at the start's next index, the walk enters it and seeks on
from there. -/
theorem Seeking.enter (hw : Seeking st w L top rest) {si : Fin n}
    {kr : Path n} (hst : st = w.buf ++ si :: kr)
    (hsi : si ∈ Bitmap.dropBefore si top.children.present)
    (store : EdgeStore n V H σ ε) (s : σ) :
    (∃ x w' s', ¬ store.NeverFails ∧ step store (w.setRemaining
        (Bitmap.dropBefore si top.children.present)) s =
          .ok (.error x, w', s')) ∨
      ∃ m w' s' L' top' rest', step store (w.setRemaining
          (Bitmap.dropBefore si top.children.present)) s =
            .ok (.ok (some m), w', s') ∧
        Seeking st w' L' top' rest' ∧
        target st w' L' top' rest' = target st w L top rest := by
  have hmin : Bitmap.select
      (Bitmap.dropBefore si top.children.present) 0 = some si := by
    refine Bitmap.select_zero_eq_some.mpr ⟨hsi, ?_⟩
    intro j hj
    exact (Bitmap.mem_dropBefore.mp hj).2
  let f : PathFrame n V H := {
    node := top
    pathLen := w.buf.length
    remaining := Bitmap.dropBefore si top.children.present }
  let w₁ : Walk n V H := { w with frames := f :: rest }
  have hw₁ : Aligned w₁.chain w₁.frames w₁.buf := hw.aligned_dropped si
  have hbuf : w.buf.take f.pathLen = w.buf := List.take_length
  rw [setRemaining_of_frames hw.frames]
  obtain ⟨e, he, ⟨x, w', s', hfail, hstep⟩ | ⟨s', hstep⟩⟩ :=
    step_enter store hw₁ (rfl : w₁.frames = f :: rest) hmin s
  · exact Or.inl ⟨x, w', s', hfail, hstep⟩
  -- The children after `si` sort after the start, like the frames beneath.
  have hgt : ∀ i ∈ Bitmap.withoutBit f.remaining si, si < i := by
    intro i hi
    obtain ⟨hne, hmem⟩ := Finset.mem_erase.mp hi
    exact lt_of_le_of_ne (Bitmap.mem_dropBefore.mp hmem).2 hne.symm
  have hsiblings : ∀ sm ∈ beneath w.buf top
      (Bitmap.withoutBit f.remaining si), st ≤ fullPath sm := by
    intro sm hsm
    rw [hst]
    exact le_of_mem_beneath hgt hsm
  have htodo := entered_todo (i := si) hw₁ rfl e.node
  rw [hbuf] at htodo
  refine Or.inr ⟨e.node, w₁.entered f rest si e.node, s', w.buf ++ [si],
    e.node, { f with remaining := Bitmap.withoutBit f.remaining si } :: rest,
    hstep, ⟨hw₁.entered rfl e.node, rfl, ?_, ?_⟩, ?_⟩
  · rw [entered_buf, hbuf]
  · rw [htodo]
    exact List.forall_mem_append.mpr ⟨hsiblings, hw.later⟩
  · rw [target, htodo, hw.dropped hst, beneath_of_select hmin, he,
      slotNodes_some, nodesFrom_append, nodesFrom_of_le hsiblings,
      List.append_assoc]

/-- A pass of the seek leaves with the first node at or after the start, or
goes on in a child with the same nodes left. -/
theorem Seeking.pass (hw : Seeking st w L top rest)
    (store : EdgeStore n V H σ ε) (s : σ) :
    (∃ ws, seekBody store st (w, s) = .ok (.again ws) ∧
      ∃ L' top' rest', Seeking st ws.1 L' top' rest' ∧
        target st ws.1 L' top' rest' = target st w L top rest) ∨
      ∃ out, seekBody store st (w, s) = .ok (.leave out) ∧
        Found store (target st w L top rest) out := by
  have hhead : w.frames.head? = some {
      node := top
      pathLen := w.buf.length
      remaining := top.children.present } := by
    rw [hw.frames, List.head?_cons]
  rcases descent_cases st w.buf with
    heq | ⟨ni, nr, hbuf⟩ | ⟨si, kr, hst⟩ | ⟨sh, ki, kr, ni, nr, hne, hst, hbuf⟩
  · -- The start is the top node's full path.
    have hle : ∀ sm ∈ nodes L top, st ≤ fullPath sm := by
      intro sm hsm
      obtain ⟨r, hr⟩ := hw.fullPath_eq hsm
      rw [hr, heq]
      exact le_of_isPrefix (List.prefix_append _ _)
    refine Or.inr ⟨_, ?_, hw.found_top hle store s⟩
    simp [seekBody, hhead, heq]
  · -- The start ends inside the top node's full path.
    have hle : ∀ sm ∈ nodes L top, st ≤ fullPath sm := by
      intro sm hsm
      obtain ⟨r, hr⟩ := hw.fullPath_eq hsm
      rw [hr, hbuf, List.append_assoc]
      exact le_of_isPrefix (List.prefix_append _ _)
    refine Or.inr ⟨_, ?_, hw.found_top hle store s⟩
    simp [seekBody, hhead, hbuf]
  · -- The top node's full path is a proper prefix of the start.
    by_cases hsi : si ∈ Bitmap.dropBefore si top.children.present
    · rcases hw.enter hst hsi store s with
        ⟨x, w', s', hfail, hstep⟩ |
          ⟨m, w', s', L', top', rest', hstep, hw', htarget⟩
      · refine Or.inr ⟨(.error x, w', s'), ?_, .failed hfail⟩
        simp [seekBody, hhead, hst, Bitmap.test, hsi, hstep]
      · refine Or.inl ⟨(w', s'), ?_, L', top', rest', hw', htarget⟩
        simp [seekBody, hhead, hst, Bitmap.test, hsi, hstep]
    · obtain ⟨out, hstep, hfound⟩ := hw.found_after hst hsi store s
      refine Or.inr ⟨out, ?_, hfound⟩
      simp [seekBody, hhead, hst, Bitmap.test, hsi, hstep]
  · -- The two diverge: the subtree is on one side of the start.
    have hcp := commonPrefix_fork sh hne.symm nr kr
    rw [← hst, ← hbuf] at hcp
    by_cases hgt : ni > ki
    · have hle : ∀ sm ∈ nodes L top, st ≤ fullPath sm := by
        intro sm hsm
        obtain ⟨r, hr⟩ := hw.fullPath_eq hsm
        rw [hr, hst, hbuf, List.append_assoc, List.cons_append]
        exact (append_cons_lt sh hgt _ _).le
      refine Or.inr ⟨_, ?_, hw.found_top hle store s⟩
      simp [seekBody, hhead, hcp, hgt]
    · have hlt : ∀ sm ∈ nodes L top, fullPath sm < st := by
        intro sm hsm
        obtain ⟨r, hr⟩ := hw.fullPath_eq hsm
        rw [hr, hst, hbuf, List.append_assoc, List.cons_append]
        exact append_cons_lt sh (lt_of_le_of_ne (not_lt.mp hgt) hne.symm) _ _
      obtain ⟨out, hstep, hfound⟩ := hw.found_beneath hlt store s
      refine Or.inr ⟨out, ?_, hfound⟩
      simp [seekBody, hhead, hcp, hgt, hstep]

/-- Seeking finds the first node at or after the start. -/
theorem Seeking.seek_found (hw : Seeking st { w with start := none } L top rest)
    (hstart : w.start = some st) (store : EdgeStore n V H σ ε) (s : σ) :
    ∃ out, seek store w s = .ok out ∧
      Found store (target st { w with start := none } L top rest) out := by
  rw [seek, hstart, expect_some, ok_bind]
  refine run_of_invariant
    (I := fun ws => ∃ L' top' rest', Seeking st ws.1 L' top' rest' ∧
      target st ws.1 L' top' rest' =
        target st { w with start := none } L top rest) ?_ _
    ⟨L, top, rest, hw, rfl⟩
  rintro ⟨w₁, s₁⟩ ⟨L₁, top₁, rest₁, hw₁, htarget⟩
  rw [← htarget]
  exact hw₁.pass store s₁

end SeekPass

/-! ## Between two calls -/

/-- What a walk has left between two calls of `advance`. -/
inductive Pending : Walk n V H → List (Path n × TrieNode n V H) → Prop
  | fresh (root : Trie n V H) (start : Option (Path n)) :
      Pending (new root start) (nodesFrom start root.nodes)
  | walking {w : Walk n V H} (hw : Aligned w.chain w.frames w.buf)
      (hstate : w.state = .walking) : Pending w (todo w.buf w.frames)
  | done {w : Walk n V H} (hstate : w.state = .done) : Pending w []

/-- How a call of `advance` ends: the first node left is handed out with its
full path; after the last one, or a failure, nothing is left. -/
inductive Advanced (store : EdgeStore n V H σ ε)
    (pending : List (Path n × TrieNode n V H)) :
    Except ε (Option (Path n × TrieNode n V H)) × Walk n V H × σ → Prop
  | failed {x : ε} {w : Walk n V H} {s : σ}
      (hfail : ¬ store.NeverFails) (hw : Pending w []) :
      Advanced store pending (.error x, w, s)
  | ended {w : Walk n V H} {s : σ} (hpending : pending = [])
      (hw : Pending w []) : Advanced store pending (.ok none, w, s)
  | node {sm : Path n × TrieNode n V H} {w : Walk n V H} {s : σ}
      {rest : List (Path n × TrieNode n V H)}
      (hpending : pending = sm :: rest) (hw : Pending w rest) :
      Advanced store pending (.ok (some (fullPath sm, sm.2)), w, s)

theorem Found.handOut {store : EdgeStore n V H σ ε}
    {pending : List (Path n × TrieNode n V H)}
    {out : Except ε (Option (TrieNode n V H)) × Walk n V H × σ}
    (h : Found store pending out) :
    Advanced store pending (Walk.handOut out) := by
  cases h with
  | failed hfail => exact .failed hfail (.done rfl)
  | ended hpending => exact .ended hpending (.done rfl)
  | @node L m w s hw hbuf hstate hpending =>
      have hadvanced : Advanced store pending
          (.ok (some (fullPath (L, m), m)), w, s) :=
        .node hpending (.walking hw hstate)
      rwa [fullPath_mk, ← hbuf] at hadvanced

/-- The walk that has taken its root. -/
theorem seeking_root (root : TrieNode n V H) (st : Path n)
    (state : WalkState) :
    Seeking st {
      chain := []
      frames := [{
        node := root
        pathLen := root.partialPath.length
        remaining := root.children.present }]
      buf := root.partialPath
      root := none
      state
      start := none } [] root [] := by
  refine ⟨⟨?_, ?_, ?_, rfl⟩, rfl, rfl, ?_⟩
  · simp
  · simp
  · simp
  · simp

/-- Every call of `advance` hands out the first node a walk has left. -/
theorem Pending.advance {w : Walk n V H}
    {pending : List (Path n × TrieNode n V H)} (hw : Pending w pending)
    (store : EdgeStore n V H σ ε) (s : σ) :
    ∃ out, w.advance store s = .ok out ∧ Advanced store pending out := by
  cases hw with
  | fresh root start =>
      cases root with
      | none => exact ⟨_, rfl, .ended rfl (.done rfl)⟩
      | some root =>
          cases start with
          | none =>
              have hroot := seeking_root root [] .walking
              refine ⟨_, rfl, Found.handOut (.node (L := [])
                hroot.aligned rfl rfl ?_)⟩
              simp [nodesFrom_none, Trie.nodes, nodes_eq_beneath, Walk.new]
          | some st =>
              obtain ⟨out, hseek, hfound⟩ := Seeking.seek_found
                (w := {
                  chain := []
                  frames := [{
                    node := root
                    pathLen := root.partialPath.length
                    remaining := root.children.present }]
                  buf := root.partialPath
                  root := none
                  state := .seeking
                  start := some st })
                (seeking_root root st .seeking) rfl store s
              refine ⟨Walk.handOut out, ?_, ?_⟩
              · simp [Walk.advance, Walk.new, hseek]
              · simpa [target, Trie.nodes] using hfound.handOut
  | walking hw hstate =>
      obtain ⟨out, hstep, hfound⟩ := step_found store hw hstate s
      refine ⟨Walk.handOut out, ?_, hfound.handOut⟩
      simp [Walk.advance, hstate, hstep]
  | done hstate =>
      refine ⟨(.ok none, w, s), ?_, .ended rfl (.done hstate)⟩
      simp [Walk.advance, hstate]

end Walk

end ArityTries
