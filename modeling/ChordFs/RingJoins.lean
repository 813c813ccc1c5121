import ChordFs.Lib.Walk
import ChordFs.RingFixed

/-! # A ring that newcomers join

While nobody fails, whatever joins and rounds do at the same time, the successors stay connected:
there is a walk round the circle from one of the first members, and everyone's successors lead to
it.  A predecessor always has a walk to its member, which is why taking it over as a closer
successor keeps every walk (`Walk.shorten`).  From then on a member's successor and predecessor only
come closer.

`joinDiscipline` adds to this what is known of every member's state from some time on (`Q`); with
nothing known it is kept from the start (`keeps_joinDiscipline`). -/

namespace ChordFs

open Circle Dialogue Function

/-- Whom a member has for its successor. -/
def Ring.succ (ρ : Ring) (p : Peer) : Peer := (ρ.node p).succ

/-- The successors lead from `p` to `q` within one turn. -/
abbrev Ring.Walks (ρ : Ring) : Peer → Peer → Prop := Walk Peer.id ρ.succ

/-- How far behind a member its predecessor is. -/
def predGap (s : NodeState) : ℕ :=
  match s.pred with
  | none => 2 ^ ID_BITS + 1
  | some q => steps q.id s.self.id

/-- A member's tables name members, and its predecessor has a walk to it. -/
structure Placed (r : ℕ) (ρ : Ring) (p : Peer) (s : NodeState) : Prop where
  self_eq : s.self = p
  r_eq : s.r = r
  orphaned : s.orphaned = false
  ne_nil : s.succs ≠ []
  length_le : s.succs.length ≤ r
  succs_mem : ∀ q ∈ s.succs, q ∈ ρ.members
  fingers_mem : ∀ q ∈ s.fingers, q ∈ ρ.members
  pred_walk : ∀ q, s.pred = some q → q ∈ ρ.members ∧ q ≠ p ∧ ρ.Walks q p

/-- The ring hangs together: from `a` there is a walk round, and everyone gets to `a`.  `U` holds of
all who take part. -/
structure Connected (U : Peer → Prop) (r : ℕ) (a : Peer) (ρ : Ring) : Prop where
  used : ∀ p ∈ ρ.members, U p
  start : a ∈ ρ.members
  placed : ∀ p ∈ ρ.members, Placed r ρ p (ρ.node p)
  round : ρ.Walks a a
  leads : ∀ p ∈ ρ.members, Leads ρ.succ p a

/-- Nobody has left, no walk is lost, and neither successors nor predecessors have moved away. -/
structure Closer (ρ ρ' : Ring) : Prop where
  members : ρ.members ⊆ ρ'.members
  walks : ∀ p ∈ ρ.members, ∀ q, ρ.Walks p q → ρ'.Walks p q
  succ : ∀ p ∈ ρ.members, steps p.id (ρ'.succ p).id ≤ steps p.id (ρ.succ p).id
  pred : ∀ p ∈ ρ.members, predGap (ρ'.node p) ≤ predGap (ρ.node p)

section placed
variable {U : Peer → Prop} {r : ℕ} {a p q c : Peer} {ρ ρ' : Ring} {s s' : NodeState}

section
variable (h : Placed r ρ p s)
include h

theorem Placed.within : Within (· ∈ ρ.members) s :=
  .of_tables h.ne_nil (fun q hq => (h.pred_walk q hq).1) h.succs_mem h.fingers_mem

theorem Placed.later (hl : Closer ρ ρ') : Placed r ρ' p s where
  self_eq := h.self_eq
  r_eq := h.r_eq
  orphaned := h.orphaned
  ne_nil := h.ne_nil
  length_le := h.length_le
  succs_mem q hq := hl.members (h.succs_mem q hq)
  fingers_mem q hq := hl.members (h.fingers_mem q hq)
  pred_walk q hq := by
    obtain ⟨hmem, hne, hwalk⟩ := h.pred_walk q hq
    exact ⟨hl.members hmem, hne, hl.walks q hmem p hwalk⟩

theorem Placed.same (hs : SameRouting s s') : Placed r ρ p s' where
  self_eq := hs.self.trans h.self_eq
  r_eq := hs.r.trans h.r_eq
  orphaned := hs.orphaned.trans h.orphaned
  ne_nil := by
    rw [hs.succs]
    exact h.ne_nil
  length_le := by
    rw [hs.succs]
    exact h.length_le
  succs_mem := by
    rw [hs.succs]
    exact h.succs_mem
  fingers_mem := by
    rw [hs.fingers]
    exact h.fingers_mem
  pred_walk := by
    rw [hs.pred]
    exact h.pred_walk

theorem Placed.withSuccs {succs : List Peer} {f : Peer} (hne : succs ≠ [])
    (hlen : succs.length ≤ r) (hmem : ∀ q ∈ succs, q ∈ ρ.members) (hf : f ∈ ρ.members) :
    Placed r ρ p { s with succs := succs, fingers := s.fingers.set 0 f } where
  self_eq := h.self_eq
  r_eq := h.r_eq
  orphaned := h.orphaned
  ne_nil := hne
  length_le := hlen
  succs_mem := hmem
  fingers_mem q hq := by
    rcases List.mem_or_eq_of_mem_set hq with hq | rfl
    · exact h.fingers_mem q hq
    · exact hf
  pred_walk := h.pred_walk

theorem Placed.withPred (hc : c ∈ ρ.members) (hne : c ≠ p) (hw : ρ.Walks c p)
    (strikes : SortedMap Str ℕ) : Placed r ρ p { s with pred := some c, strikes := strikes } where
  self_eq := h.self_eq
  r_eq := h.r_eq
  orphaned := h.orphaned
  ne_nil := h.ne_nil
  length_le := h.length_le
  succs_mem := h.succs_mem
  fingers_mem := h.fingers_mem
  pred_walk q hq := by
    cases hq
    exact ⟨hc, hne, hw⟩

theorem Placed.withFingers {fingers : List Peer}
    (hmem : ∀ q ∈ fingers, q ∈ ρ.members) : Placed r ρ p { s with fingers := fingers } :=
  { h with fingers_mem := hmem }

end

theorem Closer.refl (ρ : Ring) : Closer ρ ρ where
  members := List.Subset.refl _
  walks _ _ _ h := h
  succ _ _ := le_rfl
  pred _ _ := le_rfl

theorem closer_answer (ρ : Ring) (q : Call) : Closer ρ (ρ.answer q) where
  members := List.Subset.refl _
  walks _ _ _ h := h
  succ _ _ := le_rfl
  pred _ _ := le_rfl

theorem Connected.answer (h : Connected U r a ρ) (q : Call) : Connected U r a (ρ.answer q) where
  used := h.used
  start := h.start
  placed p hp := (h.placed p hp).later (closer_answer ρ q)
  round := h.round
  leads := h.leads

theorem Connected.succ_mem (h : Connected U r a ρ) (hp : p ∈ ρ.members) : ρ.succ p ∈ ρ.members :=
  (h.placed p hp).within.succ

/-! ### One member changes -/

/-- What a section does to a member: it stays placed, and what it points to comes closer. -/
structure Draws (r : ℕ) (ρ : Ring) (p : Peer) (s s' : NodeState) : Prop where
  placed : Placed r ρ p s'
  succ : s'.succ = s.succ ∨
    ρ.Walks s'.succ s.succ ∧ steps p.id s'.succ.id < steps p.id s.succ.id
  pred : predGap s' ≤ predGap s

theorem Draws.refl (h : Placed r ρ p s) : Draws r ρ p s s := ⟨h, .inl rfl, le_rfl⟩

theorem Draws.same (h : Draws r ρ p s s') {s'' : NodeState} (hs : SameRouting s' s'') :
    Draws r ρ p s s'' where
  placed := h.placed.same hs
  succ := by
    have hsucc : s''.succ = s'.succ := by rw [NodeState.succ, NodeState.succ, hs.succs, hs.self]
    rw [hsucc]
    exact h.succ
  pred := by
    have hgap : predGap s'' = predGap s' := by rw [predGap, predGap, hs.pred, hs.self]
    rw [hgap]
    exact h.pred

theorem Ring.succ_set (ρ : Ring) (p : Peer) (s : NodeState) :
    (ρ.set p s).succ = update ρ.succ p s.succ := by
  funext q
  by_cases hq : q = p
  · subst hq
    rw [Ring.succ, Ring.node_set_self, update_self]
  · rw [Ring.succ, Ring.node_set_ne _ _ hq, update_of_ne hq, Ring.succ]

theorem Draws.walks (h : Draws r ρ p (ρ.node p) s') {x y : Peer} (hw : ρ.Walks x y) :
    (ρ.set p s').Walks x y := by
  rw [Ring.Walks, Ring.succ_set]
  rcases h.succ with he | ⟨hwalk, hlt⟩
  · rw [he, show (ρ.node p).succ = ρ.succ p from rfl, update_eq_self]
    exact hw
  · exact Walk.shorten hwalk hlt hw

theorem Draws.leads (h : Draws r ρ p (ρ.node p) s') {x y : Peer} (hl : Leads ρ.succ x y) :
    Leads (ρ.set p s').succ x y := by
  rw [Ring.succ_set]
  rcases h.succ with he | ⟨hwalk, hlt⟩
  · rw [he, show (ρ.node p).succ = ρ.succ p from rfl, update_eq_self]
    exact hl
  · exact Leads.shorten hwalk hlt hl

theorem Draws.closer (h : Draws r ρ p (ρ.node p) s') : Closer ρ (ρ.set p s') where
  members := List.Subset.refl _
  walks _ _ _ hw := h.walks hw
  succ q _ := by
    rw [Ring.succ_set]
    by_cases hq : q = p
    · subst hq
      rw [update_self]
      rcases h.succ with he | ⟨_, hlt⟩
      · rw [he]
        exact le_rfl
      · exact Nat.le_of_lt hlt
    · rw [update_of_ne hq]
  pred q _ := by
    by_cases hq : q = p
    · subst hq
      rw [Ring.node_set_self]
      exact h.pred
    · rw [Ring.node_set_ne _ _ hq]

/-- **A section keeps the ring connected.** -/
theorem Connected.set (hI : Connected U r a ρ) (h : Draws r ρ p (ρ.node p) s') :
    Connected U r a (ρ.set p s') where
  used := hI.used
  start := hI.start
  placed q hq := by
    by_cases hqp : q = p
    · subst hqp
      rw [Ring.node_set_self]
      exact h.placed.later h.closer
    · rw [Ring.node_set_ne _ _ hqp]
      exact (hI.placed q hq).later h.closer
  round := h.walks hI.round
  leads q hq := h.leads (hI.leads q hq)

/-! ### A newcomer -/

theorem Ring.succ_listen (ρ : Ring) (p : Peer) (s : NodeState) :
    (ρ.listen p s).succ = update ρ.succ p s.succ :=
  ρ.succ_set p s

section
variable (hI : Connected U r a ρ) (hp : p ∉ ρ.members)
include hI hp

theorem Connected.listen_agrees (s : NodeState) (q : Peer)
    (hq : q ∈ ρ.members) : ρ.succ q ∈ ρ.members ∧ (ρ.listen p s).succ q = ρ.succ q := by
  refine ⟨hI.succ_mem hq, ?_⟩
  rw [Ring.succ_listen, update_of_ne]
  rintro rfl
  exact hp hq

theorem Connected.closer_listen (s : NodeState) : Closer ρ (ρ.listen p s) where
  members := List.subset_cons_self _ _
  walks q hq _ hw := hw.congr (hI.listen_agrees hp s) hq
  succ q hq := by rw [(hI.listen_agrees hp s q hq).2]
  pred q hq := by
    have hne : q ≠ p := by
      rintro rfl
      exact hp hq
    exact Nat.le_of_eq (congrArg predGap (ρ.node_set_ne s hne))

/-- **A newcomer keeps the ring connected.** -/
theorem Connected.listen (hU : U p) (hs : Placed r ρ p s) : Connected U r a (ρ.listen p s) where
  used q hq := by
    rcases List.mem_cons.mp hq with rfl | hq
    · exact hU
    · exact hI.used q hq
  start := List.mem_cons_of_mem _ hI.start
  placed q hq := by
    by_cases hqp : q = p
    · subst hqp
      rw [show (ρ.listen q s).node q = s from ρ.node_set_self q s]
      exact hs.later (hI.closer_listen hp s)
    · rw [show (ρ.listen p s).node q = ρ.node q from ρ.node_set_ne s hqp]
      exact (hI.placed q ((List.mem_cons.mp hq).resolve_left hqp)).later (hI.closer_listen hp s)
  round := hI.round.congr (hI.listen_agrees hp s) hI.start
  leads q hq := by
    have hold : ∀ q ∈ ρ.members, Leads (ρ.listen p s).succ q a := fun q hq =>
      (hI.leads q hq).congr (hI.listen_agrees hp s) hq
    rcases List.mem_cons.mp hq with rfl | hq
    · refine .head ?_ (hold s.succ hs.within.succ)
      rw [Ring.succ_listen, update_self]
    · exact hold q hq

end

end placed

/-! ### What a task has seen -/

/-- What is known of the dialogue of a member's task. -/
structure JoinTurns (Q : Peer → NodeState → Prop) (r : ℕ) (ρ : Ring) (p : Peer) (T : List Peer)
    (H : Turns) : Prop where
  mem : p ∈ ρ.members
  told : ∀ c ∈ T, c ∈ ρ.members ∧ c ≠ p ∧ ρ.Walks c p
  saw : ∀ s s', Turn.held s s' ∈ H → Placed r ρ p s ∧ ρ.Walks p s.succ ∧ Q p s ∧ Q p s'
  heard : ∀ (q : Call) (a : Exchanged), Turn.said q a ∈ H → q.node ∈ ρ.members ∧
    Honest (fun s => Placed r ρ q.node s ∧ Q q.node s) q a

/-- What is known of the dialogue of a newcomer. -/
def NewcomerTurns (r : ℕ) (ρ : Ring) (H : Turns) : Prop :=
  ∀ (q : Call) (a : Exchanged), Turn.said q a ∈ H → Honest (Placed r ρ q.node) q a ∨ Useless a

section turns
variable {Q : Peer → NodeState → Prop} {U : Peer → Prop} {r : ℕ} {ρ ρ' : Ring} {a p c : Peer}
  {T : List Peer} {H : Turns} {s s' : NodeState}

theorem JoinTurns.knows (h : JoinTurns Q r ρ p T H) {x : Peer} (hk : Knows p T H x) :
    x ∈ ρ.members := by
  refine @knows_mem (· ∈ ρ.members) x H p T h.mem (fun c hc => (h.told c hc).1) (fun s hs => ?_)
    (fun q a hq => .inl ?_) hk
  · obtain ⟨s', hs⟩ := hs
    exact ⟨(h.saw s s' hs).1.orphaned, (h.saw s s' hs).1.within⟩
  · exact (h.heard q a hq).2.mono fun s hs => hs.1.within

theorem Placed.drawsPred (hs : Placed r ρ p s) (hc : c ∈ ρ.members) (hne : c ≠ p) (hw : ρ.Walks c p)
    (hcloser : ∀ q, s.pred = some q → inRangeOo c.id q.id p.id = true) (strikes : SortedMap Str ℕ) :
    Draws r ρ p s { s with pred := some c, strikes := strikes } where
  placed := hs.withPred hc hne hw strikes
  succ := .inl rfl
  pred := by
    rw [predGap, predGap, hs.self_eq]
    dsimp only
    cases hp : s.pred with
    | none =>
      have := steps_le c.id p.id
      exact Nat.le_succ_of_le this
    | some q =>
      have hlt := inRangeOo_iff.mp (hcloser q hp)
      have := steps_pos q.id c.id
      dsimp only
      rw [steps_of_lt hlt]
      omega

theorem JoinTurns.minor (h : JoinTurns Q r ρ p T H) (hs : Placed r ρ p s) (hc : Minor p T H s s') :
    Draws r ρ p s s' ∧ s'.succs = s.succs := by
  cases hc with
  | idle hsame => exact ⟨(Draws.refl hs).same hsame.toSameRouting, hsame.succs⟩
  | clear _ _ _ =>
    exact ⟨⟨{ hs with }, .inl rfl, le_rfl⟩, rfl⟩
  | @report node line a _ hH hline hbad =>
    have := (h.heard ⟨node, line⟩ a (hH ▸ List.mem_cons_self)).2.checked (hline.imp_right (Or.imp_right fun hl => ⟨p, hl⟩))
    rw [hbad] at this
    cases this
  | @notify c _ _ _ _ hcT _ =>
    obtain ⟨hmem, hne, hw⟩ := h.told c hcT
    rcases notified_cases s c with ⟨he, _⟩ | ⟨_, _, _, _, he⟩ | ⟨hin, _, hsame⟩
    · rw [he]
      exact ⟨.refl hs, rfl⟩
    · rw [he]
      exact ⟨.refl hs, rfl⟩
    · rw [hs.self_eq] at hin
      exact ⟨(hs.drawsPred hmem hne hw hin _).same hsame, hsame.succs⟩
  | @fill c _ _ _ _ hcT _ hnone =>
    obtain ⟨hmem, hne, hw⟩ := h.told c hcT
    refine ⟨(hs.drawsPred hmem hne hw (fun q hq => ?_) s.strikes).same (sameRouting_takePred s c),
      (sameRouting_takePred s c).succs⟩
    rw [hnone] at hq
    cases hq
  | @suspect target a _ hH hrefused =>
    have := (h.heard ⟨target, "PING".toList⟩ a (hH ▸ List.mem_cons_self ..)).2.ok
    rw [hrefused] at this
    cases this

theorem Placed.merge (hs : Placed r ρ p s) (hr : 1 ≤ r) {nb : Neighbours}
    (hnb : ∀ q ∈ nb.succs, q ∈ ρ.members) : Draws r ρ p s (s.applyNeighbours s.succ nb).2 := by
  obtain ⟨rest, hrest⟩ := mergeSuccessors_eq_cons s.self s.succ nb.succs s.r
  have hsucc := hs.within.succ
  have hmem : ∀ q ∈ mergeSuccessors s.self s.succ nb.succs s.r, q ∈ ρ.members := by
    intro q hq
    rcases mem_mergeSuccessors hq with rfl | hq
    · exact hsucc
    · exact hnb q hq
  have hlen : (mergeSuccessors s.self s.succ nb.succs s.r).length ≤ r := by
    rw [hs.r_eq]
    exact length_mergeFrom (by rw [List.length_singleton]; exact hr)
  have hdraws : Draws r ρ p s (s.withMerged nb.succs) := by
    refine ⟨hs.withSuccs ?_ hlen hmem ?_, .inl ?_, le_rfl⟩
    · rw [hrest]
      simp
    · rw [hrest]
      exact hsucc
    · rw [NodeState.succ]
      dsimp only
      rw [hrest]
      rfl
  exact hdraws.same (sameRouting_applyNeighbours s nb)

theorem Placed.adopt (hs : Placed r ρ p s) (hr : 1 ≤ r) (hc : c ∈ ρ.members) (hw : ρ.Walks c s.succ)
    (hin : inRangeOo c.id p.id s.succ.id = true) : Draws r ρ p s (s.adopt s.succ c).2 := by
  have hcons : (c :: s.succs.filter fun q => q ≠ s.self).take (max s.r 1) =
      c :: (s.succs.filter fun q => q ≠ s.self).take (r - 1) := by
    rw [hs.r_eq, Nat.max_eq_left hr]
    obtain ⟨d, rfl⟩ : ∃ d, r = d + 1 := ⟨r - 1, by omega⟩
    rfl
  have hdraws : Draws r ρ p s { s with
      succs := (c :: s.succs.filter fun q => q ≠ s.self).take (max s.r 1)
      fingers := s.fingers.set 0 c } := by
    refine ⟨hs.withSuccs ?_ ?_ (fun q hq => ?_) hc, .inr ?_, le_rfl⟩
    · rw [hcons]
      simp
    · rw [List.length_take, hs.r_eq]
      omega
    · rcases List.mem_cons.mp (List.mem_of_mem_take hq) with rfl | hq
      · exact hc
      · exact hs.succs_mem q (List.mem_of_mem_filter hq)
    · rw [NodeState.succ]
      dsimp only
      rw [hcons]
      exact ⟨hw, inRangeOo_iff.mp hin⟩
  exact hdraws.same (sameRouting_adopt s c)

theorem Placed.fixFinger (hs : Placed r ρ p s) (i : ℕ) {owner : Peer} (ho : owner ∈ ρ.members)
    (path : List Peer) : Draws r ρ p s (s.fixFinger i ⟨.ok owner, path⟩) ∧
      (s.fixFinger i ⟨.ok owner, path⟩).succs = s.succs := by
  obtain ⟨fingers, hf, hsame⟩ := fixFinger_ok_mem s i owner path
  have hmem : ∀ q ∈ fingers, q ∈ ρ.members := by
    intro q hq
    rcases hf q hq with rfl | rfl | hq
    · exact ho
    · exact hs.within.succ
    · exact hs.fingers_mem q hq
  have hdraws : Draws r ρ p s { s with fingers := fingers } :=
    ⟨hs.withFingers hmem, .inl rfl, le_rfl⟩
  exact ⟨hdraws.same hsame, hsame.succs⟩

/-- What is learnt of the ring: a list or a closer successor; everything else leaves the list. -/
inductive Learns (Q : Peer → NodeState → Prop) (r : ℕ) (ρ : Ring) (s : NodeState) : NodeState → Prop
  | nothing {s' : NodeState} : s'.succs = s.succs → Learns Q r ρ s s'
  | list {s₀ : NodeState} : Placed r ρ s.succ s₀ → Q s.succ s₀ →
      Learns Q r ρ s (s.applyNeighbours s.succ ⟨s₀.pred, s₀.succs⟩).2
  | closer {c : Peer} : inRangeOo c.id s.self.id s.succ.id = true →
      Learns Q r ρ s (s.adopt s.succ c).2

/-- **What a section does to a member.** -/
theorem JoinTurns.change (h : JoinTurns Q r ρ p T H) (hr : 1 ≤ r) (hs : Placed r ρ p s)
    (hc : Section p T H s s') : Draws r ρ p s s' ∧ Learns Q r ρ s s' := by
  cases hc with
  | minor hm => exact ⟨(h.minor hs hm).1, .nothing (h.minor hs hm).2⟩
  | merge hH hgood =>
    obtain ⟨s₀, hs₀, hparse⟩ := (h.heard _ _ (heard_of_merge hH)).2.neighbours rfl
    rw [goodReply_parsed hgood hparse]
    exact ⟨hs.merge hr hs₀.1.succs_mem, .list hs₀.1 hs₀.2⟩
  | @adopt c _ _ _ _ _ _ _ _ _ hH _ hgood hpred _ hin =>
    obtain ⟨s₀, hs₀, hparse⟩ := (h.heard _ _ (heard_of_adopt hH)).2.neighbours rfl
    rw [goodReply_parsed hgood hparse] at hpred
    obtain ⟨hmem, _, hw⟩ := hs₀.1.pred_walk c hpred
    exact ⟨hs.adopt hr hmem hw hin, .closer (by rw [hs.self_eq]; exact hin)⟩
  | @finger k res i hk hres =>
    obtain ⟨outcome, path⟩ := res
    cases outcome with
    | ok owner =>
      obtain ⟨n, a, H', rfl, hj⟩ := hres
      have howner := h.knows (.named (heard_said _ _ _) (.inr hj))
      exact ⟨(hs.fixFinger i howner path).1, .nothing (hs.fixFinger i howner path).2⟩
    | error e =>
      obtain ⟨e, m⟩ := e
      rcases hres with he | ⟨n, a, H', rfl, _, hj⟩
      · subst he
        have hsame := sameRouting_fixFinger s i m path
        exact ⟨(Draws.refl hs).same hsame, .nothing hsame.succs⟩
      · exact absurd hj ((h.heard _ a (heard_said _ _ _)).2.not_fail rfl e m)
  | joined hs₀ horphan _ _ _ =>
    obtain ⟨s₁, hs₀⟩ := hs₀
    rw [(h.saw _ s₁ hs₀).1.orphaned] at horphan
    cases horphan

theorem JoinTurns.nil (hp : p ∈ ρ.members) (hT : ∀ c ∈ T, c ∈ ρ.members ∧ c ≠ p ∧ ρ.Walks c p) :
    JoinTurns Q r ρ p T [] where
  mem := hp
  told := hT
  saw s s' h := by cases h
  heard q a h := by cases h

theorem JoinTurns.later (h : JoinTurns Q r ρ p T H) (hl : Closer ρ ρ') : JoinTurns Q r ρ' p T H where
  mem := hl.members h.mem
  told c hc := by
    obtain ⟨hmem, hne, hw⟩ := h.told c hc
    exact ⟨hl.members hmem, hne, hl.walks c hmem p hw⟩
  saw s s' hmem := by
    obtain ⟨hs, hw, hQ⟩ := h.saw s s' hmem
    exact ⟨hs.later hl, hl.walks p h.mem _ hw, hQ⟩
  heard q a hmem := by
    obtain ⟨hq, honest⟩ := h.heard q a hmem
    exact ⟨hl.members hq, honest.mono fun s hs => ⟨hs.1.later hl, hs.2⟩⟩

theorem JoinTurns.cons (h : JoinTurns Q r ρ p T H) {e : MemberTurn}
    (he : match e with | .held s s' => Placed r ρ p s ∧ ρ.Walks p s.succ ∧ Q p s ∧ Q p s' | .said q a => q.node ∈ ρ.members ∧ Honest (fun s => Placed r ρ q.node s ∧ Q q.node s) q a) :
    JoinTurns Q r ρ p T (e :: H) where
  mem := h.mem
  told := h.told
  saw s s' hmem := by
    rcases List.mem_cons.mp hmem with heq | hmem
    · subst heq
      exact he
    · exact h.saw s s' hmem
  heard q a hmem := by
    rcases List.mem_cons.mp hmem with heq | hmem
    · subst heq
      exact he
    · exact h.heard q a hmem

/-! ### Newcomers -/

theorem NewcomerTurns.later (h : NewcomerTurns r ρ H) (hl : Closer ρ ρ') : NewcomerTurns r ρ' H :=
  fun q a hq => (h q a hq).imp_left fun honest => honest.mono fun _ hs => hs.later hl

theorem NewcomerTurns.held (h : NewcomerTurns r ρ H) (s s' : NodeState) :
    NewcomerTurns r ρ (.held s s' :: H) := by
  intro q a hq
  rcases List.mem_cons.mp hq with hq | hq
  · cases hq
  · exact h q a hq

theorem NewcomerTurns.said (h : NewcomerTurns r ρ H) {q : Call} {a : Exchanged}
    (ha : Honest (Placed r ρ q.node) q a ∨ Useless a) : NewcomerTurns r ρ (.said q a :: H) := by
  intro q' a' hq
  rcases List.mem_cons.mp hq with hq | hq
  · cases hq
    exact ha
  · exact h q' a' hq

theorem useless_absent (ρ : Ring) (n : Peer) (took : ℕ) : Useless (ρ.absent n took) := by
  rw [Ring.absent]
  split
  · refine ⟨fun m k x => ?_, fun nb _ => ?_⟩
    · rw [judge, if_neg (by simp), if_pos (.inr (by rfl))]
      simp
    · have hsplit : ∃ w rest, splitSingleSpaces ("ERR no ring member ".toList ++ idToHex n.id ++
          " here".toList) = "ERR".toList :: w :: rest := by
        refine ⟨"no".toList, splitSingleSpaces ("ring member ".toList ++ idToHex n.id ++
          " here".toList), ?_⟩
        rw [splitSingleSpaces, splitSingleSpaces]
        rfl
      obtain ⟨w, rest, hsplit⟩ := hsplit
      rw [parseNeighbours, parseNeighboursInto, hsplit]
      cases rest with
      | nil => simp
      | cons v vs =>
        dsimp only
        rw [if_pos (by decide)]
        simp
  · exact useless_refused rfl

/-- **A newcomer that has joined is placed.** -/
theorem NewcomerTurns.joined (h : NewcomerTurns r ρ H) (hr : 1 ≤ r) {known owner : Peer}
    {list : Option (List Peer)} (hj : Joins p H owner list) (hself : s.self = p)
    (hsr : s.r = r) : Placed r ρ p (s.joined known owner list) := by
  have howner : owner ∈ ρ.members := by
    obtain ⟨n, a, hn, hjudge⟩ := hj.named
    rcases h _ a hn with honest | huseless
    · exact (honest.mono fun _ hs => hs.within).named rfl (.inr hjudge)
    · exact absurd hjudge (huseless.judged n p.id owner).2
  have hlist : ∀ l, list = some l → ∀ q ∈ l, q ∈ ρ.members := by
    intro l hl q hq
    obtain ⟨a, nb, hn, hok, hparse, rfl⟩ := hj.listed l hl
    rcases h _ a hn with honest | huseless
    · obtain ⟨s₀, hs₀, hparse'⟩ := honest.neighbours rfl
      rw [hparse] at hparse'
      cases hparse'
      exact hs₀.succs_mem q hq
    · exact absurd hparse (huseless.parsed nb hok)
  refine Placed.same ?_ (sameRouting_joined s known owner list)
  refine ⟨hself, hsr, rfl, ?_, ?_, fun q hq => ?_, fun q hq => ?_, fun q hq => by cases hq⟩
  · cases list with
    | none => simp
    | some l =>
      obtain ⟨rest, hrest⟩ := mergeSuccessors_eq_cons s.self owner l s.r
      dsimp only
      rw [hrest]
      simp
  · cases list with
    | none => exact hr
    | some l =>
      dsimp only
      rw [hsr]
      exact length_mergeFrom (by rw [List.length_singleton]; exact hr)
  · cases list with
    | none =>
      rw [List.mem_singleton.mp hq]
      exact howner
    | some l =>
      rcases mem_mergeSuccessors hq with rfl | hq
      · exact howner
      · exact hlist l rfl q hq
  · rw [List.eq_of_mem_replicate hq]
    exact howner

end turns

/-! ### The discipline of a growing ring -/

/-- An answer in a ring whose members' states are all like `Q`. -/
structure Attested (Q : Peer → NodeState → Prop) (q : Call) (a : Exchanged) : Prop where
  honest : Honest (Q q.node) q a
  notified : ∀ c, q.line = notifyLine c → c.id ≠ q.node.id → ∃ s, s.self = q.node ∧ Q q.node s ∧
    Q q.node (s.notified c).2

def joinAssume (Q : Peer → NodeState → Prop) (p : Peer) (_ : Turns) : MemberTurn → Prop
  | .held s s' => s.self = p ∧ s.orphaned = false ∧ Q p s ∧ Q p s'
  | .said q a => Attested Q q a

/-- The ring is connected and every state is like `Q`; a round comes to its `goal`. -/
def joinDiscipline (U : Peer → Prop) (r : ℕ) (a : Peer) (Q : Peer → NodeState → Prop)
    (goal : Peer → Prop) : Discipline where
  Inv ρ := Connected U r a ρ ∧ ∀ p ∈ ρ.members, Q p (ρ.node p)
  Later := Closer
  Known ρ b p T H := match b with
    | true => NewcomerTurns r ρ H
    | false => JoinTurns Q r ρ p T H
  assume := joinAssume Q
  goal
    | .round p, _ => goal p
    | _, _ => True
  admits p r' := U p ∧ r' = r

section discipline
variable {U : Peer → Prop} {r : ℕ} {a : Peer} {Q : Peer → NodeState → Prop} {goal : Peer → Prop}

section
variable {ρ : Ring} {T : List Peer} {H : Turns} {q : Call} {h : Handled} (hk : JoinTurns Q r ρ q.node T H)
  (hr : r ≤ MAX_SUCCESSORS) (hs : Served q.node H q.line h) (took : ℕ)
include hk hr hs

theorem JoinTurns.honest : Honest (fun s => Placed r ρ q.node s ∧ Q q.node s) q ⟨.ok, h.reply, took⟩ := by
  refine hs.honest took fun s hsaw => ?_
  obtain ⟨s', hsaw⟩ := hsaw
  obtain ⟨hp, _, hQ, _⟩ := hk.saw s s' hsaw
  exact ⟨⟨hp, hQ⟩, hp.orphaned, hp.self_eq, List.length_pos_iff.mpr hp.ne_nil,
    hp.length_le.trans hr⟩

theorem JoinTurns.attested : Attested Q q ⟨.ok, h.reply, took⟩ := by
  refine ⟨(hk.honest hr hs took).mono fun s hs => hs.2, fun c hline hid => ?_⟩
  rw [hline] at hs
  generalize hl : notifyLine c = line at hs
  cases hs with
  | @orphan _ s hsaw ho =>
    obtain ⟨s', hsaw⟩ := hsaw
    rw [(hk.saw s s' hsaw).1.orphaned] at ho
    cases ho
  | ping => exact absurd hl (notifyLine_ne c).1
  | neighbours _ => exact absurd hl (notifyLine_ne c).2
  | find k _ => exact absurd hl.symm (findRequest_ne_notifyLine k c)
  | twin htwin =>
    rw [← notifyLine_injective hl] at htwin
    exact absurd htwin hid
  | @notify c' s hheld _ =>
    obtain ⟨hp, _, hQ⟩ := hk.saw _ _ hheld
    rw [notifyLine_injective hl]
    exact ⟨s, hp.self_eq, hQ⟩

end

theorem sound_joinDiscipline (hr : 1 ≤ r ∧ r ≤ MAX_SUCCESSORS)
    (hgoal : ∀ p, Sat (freeRules (joinAssume Q p)) (fun _ _ => goal p) [] (maintenanceRound p)) :
    (joinDiscipline U r a Q goal).Sound where
  later_refl ρ := .refl ρ
  members_subset h := h.members
  known_later {ρ ρ' b p T H} hl h := by
    cases b with
    | true => exact NewcomerTurns.later h hl
    | false => exact JoinTurns.later h hl
  self_eq hI hp := (hI.1.placed _ hp).self_eq
  known_round _ hp := JoinTurns.nil hp (by simp)
  known_join _ _ _ := fun _ _ h => by cases h
  goal_round p := hgoal p
  goal_joins := trivial
  goal_deferred _ _ := sat_of_stable (fun _ _ _ => trivial) trivial _
  change {ρ p T H s'} hI hI' hp hk hc := by
    have hs := hI.1.placed p hp
    obtain ⟨hdraws, _⟩ := JoinTurns.change hk hr.1 hs hc
    have hQ : Q p (ρ.node p) := hI.2 p hp
    have hQ' : Q p s' := by
      have := hI'.2 p hp
      rwa [Ring.node_set_self] at this
    refine ⟨hdraws.closer, ⟨hs.self_eq, hs.orphaned, hQ, hQ'⟩, ?_⟩
    refine (JoinTurns.later hk hdraws.closer).cons ⟨hs.later hdraws.closer, ?_, hQ, hQ'⟩
    exact hdraws.walks (.last rfl)
  asked {ρ b p T H q} hI hk hq hnew hmem := by
    by_cases hline : q.line = notifyLine p
    · cases b with
      | true => exact absurd hline (hnew rfl)
      | false =>
        refine ⟨[p], fun _ => List.mem_singleton.mpr rfl, JoinTurns.nil hmem fun c hc => ?_⟩
        rw [List.mem_singleton.mp hc]
        obtain ⟨s, ⟨s', hs⟩, hx, hne⟩ := hq.notified hline
        refine ⟨JoinTurns.mem hk, fun he => hne he.symm, ?_⟩
        rw [hx]
        exact (JoinTurns.saw hk s s' hs).2.1
    · exact ⟨[], fun h => absurd h hline, JoinTurns.nil hmem (by simp)⟩
  replied {ρ b p T T' H H' q h} took hI hmem hk' hs hk _ := by
    have honest := JoinTurns.honest hk' hr.2 hs took
    refine ⟨closer_answer ρ q, fun _ => JoinTurns.attested hk' hr.2 hs took, ?_⟩
    cases b with
    | true =>
      exact (NewcomerTurns.later hk (closer_answer ρ q)).said
        (.inl (honest.mono fun s hs => hs.1.later (closer_answer ρ q)))
    | false =>
      exact (JoinTurns.later hk (closer_answer ρ q)).cons
        ⟨hmem, honest.mono fun s hs => ⟨hs.1.later (closer_answer ρ q), hs.2⟩⟩
  absent {ρ b p T H q} took hI hmem hk hq := by
    cases b with
    | true =>
      exact ⟨fun h => (by cases h), NewcomerTurns.said hk (.inr (useless_absent ρ q.node took))⟩
    | false =>
      -- members know members only
      exact absurd (JoinTurns.knows hk hq.knows) hmem
  mine _ _ hk _ _ _ := NewcomerTurns.held hk _ _
  listens hI _ hp _ _ _ _ _ := hI.1.closer_listen hp _

/-- **The ring stays connected.** -/
theorem keeps_joinDiscipline (hr : 1 ≤ r) :
    (joinDiscipline U r a (fun _ _ => True) goal).Keeps where
  change {ρ p T H s'} hI hp hk hc := by
    obtain ⟨hdraws, _⟩ := JoinTurns.change hk hr (hI.1.placed p hp) hc
    exact ⟨hI.1.set hdraws, fun _ _ => trivial⟩
  answer hI := ⟨hI.1.answer _, fun _ _ => trivial⟩
  listens hI hp hadm hk hj hself hsr := by
    obtain ⟨hU, rfl⟩ := hadm
    exact ⟨hI.1.listen hp hU (NewcomerTurns.joined hk hr hj hself hsr), fun _ _ => trivial⟩

end discipline

/-! ### Where it starts -/

/-- A member on its own, as `init_alone` leaves it. -/
def aloneNet (p : Peer) (r : ℕ) : Net := ⟨⟨fun q => (NodeState.fresh q r).initAlone, [p], []⟩, []⟩

section start
variable {U : Peer → Prop} {r : ℕ}

theorem connected_wired {R : Members} {a : Peer} (hr : 1 ≤ r) (hU : ∀ p ∈ R, U p) (ha : a ∈ R) :
    Connected U r a (wiredNet R r).ring := by
  have hsucc : ∀ p ∈ R, (wiredNet R r).ring.succ p = successorOf (p.id + 1) R := fun p hp =>
    Wired.succ_eq (.refl _) hr hp
  have hwalk : ∀ p ∈ R, ∀ q ∈ R, (wiredNet R r).ring.Walks p q := by
    intro p hp q hq
    refine @walk_of_first _ _ _ _ p q (· ∈ R) (fun x y hx hy => Members.eq_of_id hx hy) (fun x hx => ?_)
      (fun x y hx hy => ?_) hp hq
    · rw [hsucc x hx]
      exact successorOf_mem _ R
    · rw [hsucc x hx]
      exact (first_successorOf hx).le y.id (Members.id_mem hy)
  refine ⟨hU, ha, fun p hp => ?_, hwalk a ha a ha, fun p hp => (hwalk p hp a ha).leads⟩
  have hw : Wired R r p (wired R r p) := .refl _
  have hlen := length_succList hr hp
  refine ⟨hw.self_eq, (sameRouting_wired R r p).r, hw.orphaned_eq, ?_, ?_, fun q hq => ?_,
    fun q hq => ?_, fun q hq => ?_⟩
  · rw [show ((wiredNet R r).ring.node p).succs = succList R r p from hw.succs_eq]
    exact List.ne_nil_of_length_pos hlen.1
  · rw [show ((wiredNet R r).ring.node p).succs = succList R r p from hw.succs_eq]
    exact hlen.2
  · exact hw.mem_of_holds hr hp (.inr (by simp [NodeState.holds, show q ∈ (wired R r p).succs from hq]))
  · exact hw.mem_of_holds hr hp
      (.inr (by simp [NodeState.holds, show q ∈ (wired R r p).fingers from hq]))
  · have hpred : (wired R r p).pred = some q := hq
    rw [hw.pred_eq] at hpred
    split at hpred
    · rename_i hlen
      cases hpred
      exact ⟨predecessorOf_mem _ R, predecessorOf_ne hp hlen,
        .last ((hsucc _ (predecessorOf_mem _ R)).trans (successorOf_predecessorOf hp))⟩
    · cases hpred

theorem connected_alone {p : Peer} (hr : 1 ≤ r) (hU : U p) : Connected U r p (aloneNet p r).ring where
  used q hq := by
    rw [List.mem_singleton.mp hq]
    exact hU
  start := List.mem_singleton.mpr rfl
  placed q hq := by
    rw [List.mem_singleton.mp hq]
    refine ⟨rfl, rfl, rfl, List.cons_ne_nil _ _, hr, fun x hx => hx, fun x hx => ?_, fun x hx => ?_⟩
    · rw [List.eq_of_mem_replicate hx]
      exact List.mem_singleton.mpr rfl
    · cases hx
  round := .last rfl
  leads q hq := by rw [List.mem_singleton.mp hq]

end start

end ChordFs
