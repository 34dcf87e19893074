import ArityArrays.Tries.Walking.Iteration

/-!
# What a seek reads

A walk reads the edges it descends through.  From a start these are the edges
whose slot may still lead to a key at or after the start: a pass of the seek
reads the child on the start, and a step the first node left.
-/

namespace ArityTries

open Checked Loop Node Walk

variable {n : ℕ} {V H σ ε : Type}

/-! ## Slots that lead to a key at or after the start -/

/-- Whether the subtree at a slot may hold a key at or after the start. -/
def reaches (start : Option (Path n)) (q : Path n) : Prop :=
  ∀ st ∈ start, st ≤ q ∨ q <+: st

instance (start : Option (Path n)) (q : Path n) :
    Decidable (reaches start q) :=
  inferInstanceAs (Decidable (∀ st ∈ start, st ≤ q ∨ q <+: st))

/-- The listed edges whose slot may lead to a key at or after the start. -/
def reachesFrom (start : Option (Path n))
    (pending : List (Path n × Edge n V H)) : List (Path n × Edge n V H) :=
  pending.filter fun se => decide (reaches start se.1)

/-- The edges a scan from `start` has to read. -/
def readsFrom (t : Trie n V H) (start : Option (Path n)) :
    List (Path n × Edge n V H) :=
  reachesFrom start t.edges

theorem reachesFrom_append (start : Option (Path n))
    (xs ys : List (Path n × Edge n V H)) :
    reachesFrom start (xs ++ ys) =
      reachesFrom start xs ++ reachesFrom start ys :=
  List.filter_append _ _

theorem reachesFrom_none (pending : List (Path n × Edge n V H)) :
    reachesFrom none pending = pending := by
  refine List.filter_eq_self.mpr ?_
  intro se _
  simp [reaches]

theorem reachesFrom_cons {start : Option (Path n)}
    {se : Path n × Edge n V H} (h : reaches start se.1)
    (rest : List (Path n × Edge n V H)) :
    reachesFrom start (se :: rest) = se :: reachesFrom start rest :=
  List.filter_cons_of_pos (decide_eq_true h)

/-- Every slot is kept that continues a path at or after the start. -/
theorem reachesFrom_of_le {st p : Path n}
    {pending : List (Path n × Edge n V H)} (hle : st ≤ p)
    (hpending : ∀ se ∈ pending, p <+: se.1) :
    reachesFrom (some st) pending = pending := by
  refine List.filter_eq_self.mpr ?_
  intro se hse
  have hreaches : reaches (some st) se.1 := by
    intro st' hst
    cases hst
    exact Or.inl (hle.trans (le_of_isPrefix (hpending se hse)))
  exact decide_eq_true hreaches

/-- Every slot is dropped that continues a path with a smaller index than the
start has there. -/
theorem reachesFrom_of_fork {sh nr kr : Path n} {ni ki : Fin n}
    {pending : List (Path n × Edge n V H)} (hlt : ni < ki)
    (hpending : ∀ se ∈ pending, sh ++ ni :: nr <+: se.1) :
    reachesFrom (some (sh ++ ki :: kr)) pending = [] := by
  refine List.filter_eq_nil_iff.mpr ?_
  intro se hse
  obtain ⟨r, hr⟩ := hpending se hse
  have hnot : ¬ reaches (some (sh ++ ki :: kr)) se.1 := by
    intro hreaches
    rw [← hr, List.append_assoc, List.cons_append] at hreaches
    rcases hreaches _ rfl with hle | hprefix
    · exact absurd (append_cons_lt sh hlt _ _) hle.not_gt
    · have htail := (List.prefix_append_right_inj sh).mp hprefix
      exact hlt.ne (List.cons_prefix_cons.mp htail).1
  simpa using hnot

theorem slot_of_mem_slotEdges {L : Path n} {o : Option (Edge n V H)}
    {se : Path n × Edge n V H} (h : se ∈ slotEdges L o) :
    L <+: se.1 := by
  cases o with
  | none => cases h
  | some e =>
      rcases List.mem_cons.mp h with rfl | h
      · exact List.prefix_refl _
      · rw [← L.append_nil, edges_append] at h
        obtain ⟨se', -, rfl⟩ := List.mem_map.mp h
        exact List.prefix_append _ _

/-- The slots beneath the child at `i` continue `p` with `i`. -/
theorem slot_of_mem_edgesBeneath {p : Path n} {nd : TrieNode n V H}
    {bits : Bitmap n} {se : Path n × Edge n V H}
    (h : se ∈ edgesBeneath p nd bits) : ∃ i ∈ bits, p ++ [i] <+: se.1 := by
  obtain ⟨i, hi, hse⟩ := List.mem_flatMap.mp h
  exact ⟨i, Bitmap.mem_bits.mp hi, slot_of_mem_slotEdges hse⟩

/-- The slots before the next index of the start are dropped. -/
theorem reachesFrom_beneath {p kr : Path n} {si : Fin n}
    (nd : TrieNode n V H) (bits : Bitmap n) :
    reachesFrom (some (p ++ si :: kr)) (edgesBeneath p nd bits) =
      reachesFrom (some (p ++ si :: kr))
        (edgesBeneath p nd (Bitmap.dropBefore si bits)) := by
  rw [reachesFrom, reachesFrom, edgesBeneath, edgesBeneath,
    List.filter_flatMap, List.filter_flatMap, Bitmap.bits_dropBefore,
    flatMap_filter_of_nil]
  intro i _ hi
  have hlt : i < si := by simpa using hi
  exact reachesFrom_of_fork hlt fun se hse => slot_of_mem_slotEdges hse

/-- The slots after the next index of the start are all kept. -/
theorem reachesFrom_of_later {p kr : Path n} {si : Fin n}
    {nd : TrieNode n V H} {bits : Bitmap n} (hbits : ∀ i ∈ bits, si < i) :
    reachesFrom (some (p ++ si :: kr)) (edgesBeneath p nd bits) =
      edgesBeneath p nd bits := by
  refine List.filter_eq_self.mpr ?_
  intro se hse
  obtain ⟨i, hi, r, hr⟩ := slot_of_mem_edgesBeneath hse
  have hreaches : reaches (some (p ++ si :: kr)) se.1 := by
    intro st hst
    cases hst
    rw [← hr, List.append_assoc, List.singleton_append]
    exact Or.inl (append_cons_lt p (hbits i hi) kr r).le
  exact decide_eq_true hreaches

/-! ## The reads of a step -/

/-- The states of a store list the edges read. -/
def Lists (store : EdgeStore n V H σ ε) (seen : σ → List (Edge n V H)) :
    Prop :=
  ∀ s e, seen (store.read s e).2 = seen s ++ [e]

/-- The store that also lists every edge it is asked to read. -/
def EdgeStore.listed (store : EdgeStore n V H σ ε) :
    EdgeStore n V H (σ × List (Edge n V H)) ε :=
  store.noting fun log e _ => log ++ [e]

theorem listed_lists (store : EdgeStore n V H σ ε) :
    Lists store.listed Prod.snd :=
  fun _ _ => rfl

namespace Walk

/-- How a step over the edges `left` ends: it has read the first of them, if
there is one. -/
inductive Stepped (store : EdgeStore n V H σ ε)
    (seen : σ → List (Edge n V H)) (left : List (Path n × Edge n V H))
    (s : σ) : Except ε (Option (TrieNode n V H)) × Walk n V H × σ → Prop
  | failed {x : ε} {w : Walk n V H} {s' : σ} {se : Path n × Edge n V H}
      {rest : List (Path n × Edge n V H)}
      (hfail : ¬ store.NeverFails) (hleft : left = se :: rest)
      (hseen : seen s' = seen s ++ [se.2]) :
      Stepped store seen left s (.error x, w, s')
  | ended {w : Walk n V H} {s' : σ} (hleft : left = [])
      (hseen : seen s' = seen s) : Stepped store seen left s (.ok none, w, s')
  | node {L : Path n} {e : Edge n V H} {w : Walk n V H} {s' : σ}
      (hw : Aligned w.chain w.frames w.buf)
      (hbuf : w.buf = L ++ e.node.partialPath) (hstate : w.state = .walking)
      (hleft : left = (L, e) :: edgesAhead w.buf w.frames)
      (hseen : seen s' = seen s ++ [e]) :
      Stepped store seen left s (.ok (some e.node), w, s')

section Lists

variable {store : EdgeStore n V H σ ε} {seen : σ → List (Edge n V H)}

/-- Entering the next child of the top frame reads it. -/
theorem enter_seen (hseen : Lists store seen) {w : Walk n V H}
    {f : PathFrame n V H} {rest : List (PathFrame n V H)} {i : Fin n}
    (hw : Aligned w.chain w.frames w.buf) (hframes : w.frames = f :: rest)
    (hi : Bitmap.select f.remaining 0 = some i) (s : σ) :
    ∃ e, f.node.children.get i = some e ∧ ∃ s', seen s' = seen s ++ [e] ∧
      ((∃ x w', ¬ store.NeverFails ∧
          step store w s = .ok (.error x, w', s')) ∨
        step store w s =
          .ok (.ok (some e.node), w.entered f rest i e.node, s')) := by
  rw [hframes] at hw
  have hmem := hw.present f List.mem_cons_self (Bitmap.mem_of_select_zero hi)
  obtain ⟨e, he⟩ := ChildMap.mem_present.mp hmem
  refine ⟨e, he, ?_⟩
  rw [step_of_select hframes hi, he, expect_some, ok_bind]
  have hread := hseen s e
  rcases store.read_cases s e with ⟨x, s', hr⟩ | ⟨s', hr⟩
  · rw [hr] at hread ⊢
    refine ⟨s', hread, Or.inl ⟨x, _, ?_, rfl⟩⟩
    intro hstore
    exact hstore.read s e x (by rw [hr])
  · rw [hr] at hread ⊢
    exact ⟨s', hread, Or.inr rfl⟩

/-- A step reads the first edge a walk has left. -/
theorem step_stepped (hseen : Lists store seen) {w : Walk n V H}
    (hw : Aligned w.chain w.frames w.buf) (hstate : w.state = .walking)
    (s : σ) :
    ∃ out, step store w s = .ok out ∧
      Stepped store seen (edgesAhead w.buf w.frames) s out := by
  induction hframes : w.frames generalizing w with
  | nil => exact ⟨_, step_of_nil hframes, .ended rfl rfl⟩
  | cons f rest ih =>
      cases hi : Bitmap.select f.remaining 0 with
      | none =>
          rw [step_of_exhausted hframes hi, edgesAhead_cons,
            edgesBeneath_of_select_none hi, List.nil_append]
          have hpop := popFrame_frames hframes
          have hw' := hw.popFrame hframes
          rw [← hpop] at hw'
          exact ih hw' hstate hpop
      | some i =>
          obtain ⟨e, he, s', hs', hstep⟩ := enter_seen hseen hw hframes hi s
          have hleft := entered_ahead_cons hw hframes hi he
          rw [hframes] at hleft
          rcases hstep with ⟨x, w', hfail, hstep⟩ | hstep
          · exact ⟨_, hstep, .failed hfail hleft hs'⟩
          · exact ⟨_, hstep, .node (hw.entered hframes e.node) rfl hstate
              hleft hs'⟩

end Lists

/-! ## The reads of a seek -/

/-- What a seeking walk has to read from its top node on. -/
def need (st : Path n) (w : Walk n V H) (top : TrieNode n V H)
    (rest : List (PathFrame n V H)) : List (Path n × Edge n V H) :=
  reachesFrom (some st) (edgesBeneath w.buf top top.children.present) ++
    edgesAhead w.buf rest

section Seek

variable {store : EdgeStore n V H σ ε} {seen : σ → List (Edge n V H)}
  {st : Path n} {w : Walk n V H} {L : Path n} {top : TrieNode n V H}
  {rest : List (PathFrame n V H)} {s : σ}

/-- How a pass of the seek ends: it enters and reads the child the start leads
to, finds the node it is at, or takes one step over nodes that are all at or
after the start. -/
inductive Sought (store : EdgeStore n V H σ ε)
    (seen : σ → List (Edge n V H)) (st : Path n) (w : Walk n V H)
    (L : Path n) (top : TrieNode n V H) (rest : List (PathFrame n V H))
    (s : σ) : Pass (Walk n V H × σ)
      (Except ε (Option (TrieNode n V H)) × Walk n V H × σ) → Prop
  | enter {w' : Walk n V H} {L' : Path n} {e : Edge n V H}
      {rest' : List (PathFrame n V H)} {s' : σ}
      (hw : Seeking st w' L' e.node rest')
      (htarget : target st w' L' e.node rest' = target st w L top rest)
      (hneed : need st w top rest = (L', e) :: need st w' e.node rest')
      (hseen : seen s' = seen s ++ [e]) :
      Sought store seen st w L top rest s (.again (w', s'))
  | failed {x : ε} {w' : Walk n V H} {s' : σ}
      {se : Path n × Edge n V H} {left : List (Path n × Edge n V H)}
      (hfail : ¬ store.NeverFails) (hneed : need st w top rest = se :: left)
      (hseen : seen s' = seen s ++ [se.2]) :
      Sought store seen st w L top rest s (.leave (.error x, w', s'))
  | top (htarget : target st w L top rest = (L, top) :: todo w.buf w.frames)
      (hneed : need st w top rest = edgesAhead w.buf w.frames) :
      Sought store seen st w L top rest s
        (.leave (.ok (some top), { w with state := .walking }, s))
  | stepped {out : Except ε (Option (TrieNode n V H)) × Walk n V H × σ}
      (hout : Stepped store seen (need st w top rest) s out)
      (htarget : target st w L top rest =
        (need st w top rest).map behind) :
      Sought store seen st w L top rest s (.leave out)

/-- A top node at or after the start is handed out, and everything beneath it
is to be read. -/
theorem Seeking.sought_top (hw : Seeking st w L top rest)
    (hle : st ≤ w.buf) :
    Sought store seen st w L top rest s
      (.leave (.ok (some top), { w with state := .walking }, s)) := by
  have hahead : edgesAhead w.buf w.frames =
      edgesBeneath w.buf top top.children.present ++
        edgesAhead w.buf rest := by
    rw [hw.frames, edgesAhead_cons, List.take_length]
  refine .top ?_ ?_
  · have hnodes : ∀ sm ∈ nodes L top, st ≤ fullPath sm := by
      intro sm hsm
      obtain ⟨r, hr⟩ := hw.fullPath_eq hsm
      rw [hr]
      exact hle.trans (le_of_isPrefix (List.prefix_append _ _))
    rw [target, nodesFrom_of_le hnodes, nodes_eq_beneath, ← hw.buf,
      hw.frames, todo_cons, List.take_length, List.cons_append]
  · rw [need, reachesFrom_of_le hle, hahead]
    intro se hse
    obtain ⟨i, -, hprefix⟩ := slot_of_mem_edgesBeneath hse
    exact (List.prefix_append _ _).trans hprefix

/-- The subtree of a top node that forks off before the start is left
unread. -/
theorem Seeking.sought_beneath (hseen : Lists store seen)
    (hw : Seeking st w L top rest) {sh nr kr : Path n} {ni ki : Fin n}
    (hlt : ni < ki) (hbuf : w.buf = sh ++ ni :: nr)
    (hst : st = sh ++ ki :: kr) :
    ∃ out, step store { w with state := .walking }.popFrame s = .ok out ∧
      Sought store seen st w L top rest s (.leave out) := by
  have hdropped : need st w top rest = edgesAhead w.buf rest := by
    rw [need, hst, reachesFrom_of_fork hlt, List.nil_append]
    intro se hse
    obtain ⟨i, -, hprefix⟩ := slot_of_mem_edgesBeneath hse
    rw [← hbuf]
    exact (List.prefix_append _ _).trans hprefix
  have htarget : target st w L top rest =
      (need st w top rest).map behind := by
    rw [hdropped, ← todo_eq_map, target, nodesFrom_of_lt, List.nil_append]
    intro sm hsm
    obtain ⟨r, hr⟩ := hw.fullPath_eq hsm
    rw [hr, hst, hbuf, List.append_assoc, List.cons_append]
    exact append_cons_lt sh hlt _ _
  have hframes : ({ w with state := .walking } : Walk n V H).frames =
      _ :: rest := hw.frames
  have hpop := popFrame_frames hframes
  have hw' := Aligned.popFrame (w := { w with state := .walking })
    hw.aligned hframes
  rw [← hpop] at hw'
  obtain ⟨out, hstep, hout⟩ := step_stepped hseen hw' rfl s
  rw [hpop] at hout
  refine ⟨out, hstep, .stepped ?_ htarget⟩
  rw [hdropped]
  exact hout

/-- Without a child at the start's next index, the next edge read is that of a
later child. -/
theorem Seeking.sought_after (hseen : Lists store seen)
    (hw : Seeking st w L top rest) {si : Fin n} {kr : Path n}
    (hst : st = w.buf ++ si :: kr)
    (hsi : si ∉ Bitmap.dropBefore si top.children.present) :
    ∃ out, step store { w.setRemaining
        (Bitmap.dropBefore si top.children.present) with
          state := .walking } s = .ok out ∧
      Sought store seen st w L top rest s (.leave out) := by
  have hgt : ∀ i ∈ Bitmap.dropBefore si top.children.present, si < i := by
    intro i hi
    refine lt_of_le_of_ne (Bitmap.mem_dropBefore.mp hi).2 ?_
    rintro rfl
    exact hsi hi
  have hlater : ∀ sm ∈ beneath w.buf top
      (Bitmap.dropBefore si top.children.present), st ≤ fullPath sm := by
    intro sm hsm
    rw [hst]
    exact le_of_mem_beneath hgt hsm
  have hneed : need st w top rest = edgesBeneath w.buf top
      (Bitmap.dropBefore si top.children.present) ++
        edgesAhead w.buf rest := by
    rw [need, hst, reachesFrom_beneath, reachesFrom_of_later hgt]
  obtain ⟨out, hstep, hout⟩ := step_stepped hseen (w := {
    w with
    frames := {
      node := top
      pathLen := w.buf.length
      remaining := Bitmap.dropBefore si top.children.present } :: rest
    state := .walking }) (hw.aligned_dropped si) rfl s
  rw [setRemaining_of_frames hw.frames]
  rw [edgesAhead_cons, List.take_length, ← hneed] at hout
  refine ⟨out, hstep, .stepped hout ?_⟩
  rw [hw.dropped hst, nodesFrom_of_le hlater, hneed, List.map_append,
    ← beneath_eq_map, ← todo_eq_map]

/-- With a child at the start's next index, the walk reads it and seeks on from
there. -/
theorem Seeking.sought_enter (hseen : Lists store seen)
    (hw : Seeking st w L top rest) {si : Fin n} {kr : Path n}
    (hst : st = w.buf ++ si :: kr)
    (hsi : si ∈ Bitmap.dropBefore si top.children.present) :
    (∃ x w' s', step store (w.setRemaining
        (Bitmap.dropBefore si top.children.present)) s =
          .ok (.error x, w', s') ∧
        Sought store seen st w L top rest s (.leave (.error x, w', s'))) ∨
      ∃ m w' s', step store (w.setRemaining
          (Bitmap.dropBefore si top.children.present)) s =
            .ok (.ok (some m), w', s') ∧
        Sought store seen st w L top rest s (.again (w', s')) := by
  have hmin : Bitmap.select
      (Bitmap.dropBefore si top.children.present) 0 = some si := by
    refine Bitmap.select_zero_eq_some.mpr ⟨hsi, ?_⟩
    intro j hj
    exact (Bitmap.mem_dropBefore.mp hj).2
  let f : PathFrame n V H := {
    node := top
    pathLen := w.buf.length
    remaining := Bitmap.dropBefore si top.children.present }
  let w₁ : Walk n V H := { w with frames := f :: rest }
  have hw₁ : Aligned w₁.chain w₁.frames w₁.buf := hw.aligned_dropped si
  have hbuf : w.buf.take f.pathLen = w.buf := List.take_length
  have hgt : ∀ i ∈ Bitmap.withoutBit f.remaining si, si < i := by
    intro i hi
    obtain ⟨hne, hmem⟩ := Finset.mem_erase.mp hi
    exact lt_of_le_of_ne (Bitmap.mem_dropBefore.mp hmem).2 hne.symm
  rw [setRemaining_of_frames hw.frames]
  obtain ⟨e, he, s', hs', hstep⟩ :=
    enter_seen hseen hw₁ (rfl : w₁.frames = f :: rest) hmin s
  have hahead := entered_ahead (i := si) hw₁ rfl e.node
  rw [hbuf] at hahead
  -- The child at `si`, what the start leads to beneath it, and the rest.
  have hneed : need st w top rest = (w.buf ++ [si], e) ::
      (reachesFrom (some st) (edgesBeneath
        (w.buf ++ [si] ++ e.node.partialPath) e.node
          e.node.children.present) ++
      (edgesBeneath w.buf top (Bitmap.withoutBit f.remaining si) ++
        edgesAhead w.buf rest)) := by
    have hreaches : reaches (some (w.buf ++ si :: kr)) (w.buf ++ [si]) := by
      rintro st' ⟨⟩
      refine Or.inr ⟨kr, ?_⟩
      rw [List.append_assoc, List.singleton_append]
    rw [need, hst, reachesFrom_beneath, edgesBeneath_of_select hmin,
      reachesFrom_append, reachesFrom_of_later hgt, he, slotEdges_some,
      edges_eq_beneath, reachesFrom_cons hreaches, List.append_assoc,
      List.cons_append]
  rcases hstep with ⟨x, w', hfail, hstep⟩ | hstep
  · exact Or.inl ⟨x, w', s', hstep, .failed hfail hneed hs'⟩
  · obtain ⟨x, w₂, s₂, -, hstep'⟩ |
        ⟨m, w₂, s₂, L', top', rest', hstep', hw₂, htarget⟩ :=
      hw.enter hst hsi store s
    · rw [setRemaining_of_frames hw.frames, hstep] at hstep'
      cases hstep'
    · rw [setRemaining_of_frames hw.frames, hstep] at hstep'
      cases hstep'
      obtain ⟨htop, rfl⟩ := List.cons.inj hw₂.frames
      obtain rfl : e.node = top' := congrArg PathFrame.node htop
      have hbuf' : w.buf ++ [si] ++ e.node.partialPath =
          L' ++ e.node.partialPath := by
        rw [← hw₂.buf, entered_buf, hbuf]
      obtain rfl := List.append_cancel_right hbuf'
      refine Or.inr ⟨e.node, _, s', hstep, .enter hw₂ htarget ?_ hs'⟩
      rw [hneed, need, hahead, entered_buf, hbuf]

/-- Every pass of the seek ends in one of these ways. -/
theorem Seeking.sought (hseen : Lists store seen)
    (hw : Seeking st w L top rest) (s : σ) :
    ∃ pass, seekBody store st (w, s) = .ok pass ∧
      Sought store seen st w L top rest s pass := by
  have hhead : w.frames.head? = some {
      node := top
      pathLen := w.buf.length
      remaining := top.children.present } := by
    rw [hw.frames, List.head?_cons]
  rcases descent_cases st w.buf with
    heq | ⟨ni, nr, hbuf⟩ | ⟨si, kr, hst⟩ | ⟨sh, ki, kr, ni, nr, hne, hst, hbuf⟩
  · refine ⟨_, ?_, hw.sought_top heq.le⟩
    simp [seekBody, hhead, heq]
  · refine ⟨_, ?_, hw.sought_top ?_⟩
    · simp [seekBody, hhead, hbuf]
    · rw [hbuf]
      exact le_of_isPrefix (List.prefix_append _ _)
  · by_cases hsi : si ∈ Bitmap.dropBefore si top.children.present
    · rcases hw.sought_enter (s := s) hseen hst hsi with
        ⟨x, w', s', hstep, hsought⟩ | ⟨m, w', s', hstep, hsought⟩
      · refine ⟨_, ?_, hsought⟩
        simp [seekBody, hhead, hst, Bitmap.test, hsi, hstep]
      · refine ⟨_, ?_, hsought⟩
        simp [seekBody, hhead, hst, Bitmap.test, hsi, hstep]
    · obtain ⟨out, hstep, hsought⟩ :=
        hw.sought_after (s := s) hseen hst hsi
      refine ⟨_, ?_, hsought⟩
      simp [seekBody, hhead, hst, Bitmap.test, hsi, hstep]
  · have hcp := commonPrefix_fork sh hne.symm nr kr
    rw [← hst, ← hbuf] at hcp
    by_cases hgt : ni > ki
    · refine ⟨_, ?_, hw.sought_top ?_⟩
      · simp [seekBody, hhead, hcp, hgt]
      · rw [hst, hbuf]
        exact (append_cons_lt sh hgt _ _).le
    · have hlt : ni < ki := lt_of_le_of_ne (not_lt.mp hgt) hne.symm
      obtain ⟨out, hstep, hsought⟩ :=
        hw.sought_beneath (s := s) hseen hlt hbuf hst
      refine ⟨_, ?_, hsought⟩
      simp [seekBody, hhead, hcp, hgt, hstep]

end Seek

end Walk

end ArityTries
