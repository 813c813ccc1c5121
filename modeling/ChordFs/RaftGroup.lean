import ChordFs.RaftInputs

/-! # The group refines the protocol

`Rel P g w`: the group `w` is one the facts `g` describe.  Every step of the group is matched by
steps of the node it happens to (`Rel.step`), so every run of the group is matched by a run of the
abstract protocol (`Rel.steps`), and what the protocol guarantees holds of the group. -/

namespace ChordFs

open Consensus TermLog Function

variable {n : ℕ} {P : Str → Prop} {g g' : Facts n} {w w' : World n} {s : Raft n}

/-- An answer that grants something states a recorded fact. -/
def Answered (g : Facts n) : Answer n → Prop
  | .vote p req reply => reply.granted = true →
      ∃ c : Fin n, req.candidate = c ∧ ∃ l, g.ballot p req.term c l
  | .append p req reply => reply.success = true →
      g.acked p req.term (req.prevIndex + req.entries.length)

variable {i : Fin n} {d : Durable} {cfg : RaftConfig n}

theorem Answered.extends (he : Extends g g') {a : Answer n} (h : Answered g a) : Answered g' a := by
  cases a with
  | vote p req reply =>
    intro hg
    obtain ⟨c, hc, l, hl⟩ := h hg
    exact ⟨c, hc, l, he.ballot hl⟩
  | append p req reply => exact fun hs => he.acked (h hs)

theorem Agrees.extends (hi : RaftInv P g) (he : Extends g g') (ha : Apart i g g') {m : Machine n}
    (h : Agrees g i m) : Agrees g' i m := by
  cases m with
  | down d => exact (congrArg onDisk ha.node).trans h
  | up s =>
    obtain ⟨rfl, h1, h2, h3⟩ := h
    exact ⟨rfl, (congrArg onDisk ha.node).trans h1, fun hs => (h2 hs).extends hi he ha,
      fun hs => ⟨(h3 hs).1.extends hi he ha, (h3 hs).2⟩⟩

/-- The group `w` is one the facts `g` describe. -/
structure Rel (P : Str → Prop) (g : Facts n) (w : World n) : Prop where
  inv : RaftInv P g
  machine : ∀ i, Agrees g i (w.machine i)
  calls : ∀ c ∈ w.calls, Said g c.1 c.2
  answers : ∀ a ∈ w.answers, Answered g a
  seqs : ∀ {i s}, w.machine i = .up s → s.stopped = false → s.role = .leader →
    ∀ {p req}, (i, Outgoing.append p req) ∈ w.calls → req.term = s.term → req.seq ≤ s.seq

theorem Rel.init : Rel P State.init (World.init : World n) where
  inv := Inv.init
  machine _ := rfl
  calls c hc := by simp [World.init] at hc
  answers a ha := by simp [World.init] at ha
  seqs h := by simp [World.init] at h

section
variable (h : Rel P g w)
include h

variable {i p : Fin n} {s' : Raft n} {req : AppendRequest}

theorem Rel.cfg_id (hm : w.machine i = .up s) : s.cfg.id = i := by
  have := h.machine i
  rw [hm] at this
  exact this.1

/-- Steps of one node, and the machine it becomes, with what it adds to the network. -/
theorem Rel.advance {m : Machine n} (hst : RaftSteps P i g g') (hag : Agrees g' i m)
    (hm : w'.machine = update w.machine i m) (hc : ∀ c ∈ w'.calls, c ∈ w.calls ∨ c.1 = i ∧ Said g' i c.2)
    (ha : ∀ a ∈ w'.answers, a ∈ w.answers ∨ Answered g' a)
    (hq : ∀ {s'}, m = .up s' → s'.stopped = false → s'.role = .leader → ∀ {p req},
      (i, Outgoing.append p req) ∈ w'.calls → req.term = s'.term → req.seq ≤ s'.seq) :
    Rel P g' w' := by
  obtain ⟨hi', he⟩ := h.inv.steps hst
  refine ⟨hi', fun j => ?_, fun c hcm => ?_, fun a ham => ?_, fun {j s'} hj hrun hr p req hcm ht => ?_⟩
  · rw [hm]
    by_cases hj : j = i
    · subst hj; rw [update_self]; exact hag
    · rw [update_of_ne hj]
      exact (h.machine j).extends h.inv he (hst.apart hj)
  · rcases hc c hcm with h1 | ⟨h1, h2⟩
    · exact (h.calls c h1).extends h.inv he
    · rw [h1]; exact h2
  · exact (ha a ham).elim (fun h1 => (h.answers a h1).extends he) id
  · rw [hm] at hj
    by_cases hji : j = i
    · subst hji
      rw [update_self] at hj
      exact hq hj hrun hr hcm ht
    · rw [update_of_ne hji] at hj
      rcases hc _ hcm with h1 | ⟨h1, -⟩
      · exact h.seqs hj hrun hr h1 ht
      · exact absurd h1 hji

theorem Rel.answered {new : List (Answer n)} (hst : RaftSteps P i g g') (hag : Agrees g' i (.up s'))
    (hq : ∀ {p req}, s'.stopped = false → s'.role = .leader → (i, Outgoing.append p req) ∈ w.calls → req.term = s'.term → req.seq ≤ s'.seq)
    (hw : w'.machine = update w.machine i (.up s')) (hcs : w'.calls = w.calls)
    (ha : w'.answers = w.answers ++ new) (hnew : ∀ a ∈ new, Answered g' a) : Rel P g' w' := by
  refine h.advance hst hag hw (fun c hc => .inl (hcs ▸ hc)) (fun a ham => ?_) ?_
  · rw [ha] at ham
    exact (List.mem_append.mp ham).imp id (hnew a)
  · intro s'' heq hs hr p req hc ht
    cases heq
    exact hq hs hr (hcs ▸ hc) ht

theorem Rel.called {o : Outgoing n} (hc : ∃ c ∈ w.calls, c.2 = o) : ∃ j, Said g j o := by
  obtain ⟨c, hcm, rfl⟩ := hc
  exact ⟨c.1, h.calls c hcm⟩

theorem Rel.appendFact (hc : (i, Outgoing.append p req) ∈ w.calls) : AppendFact g i req := h.calls _ hc

/-- The calls a new or continuing leader finds in the network carry no higher number. -/
theorem Rel.seq_le {s : Raft n} (hm : w.machine i = .up s) (hrun : s.stopped = false)
    (hnew : s.role = .leader ∧ s.term = s'.term ∧ s.seq ≤ s'.seq ∨ g.lead s'.term ≠ some i)
    (hc : (i, Outgoing.append p req) ∈ w.calls) (ht : req.term = s'.term) : req.seq ≤ s'.seq := by
  rcases hnew with ⟨h1, h2, h3⟩ | h1
  · exact (h.seqs hm hrun h1 hc (ht.trans h2.symm)).trans h3
  · exact absurd (ht ▸ (h.appendFact hc).lead) h1

theorem Rel.finish {s s₁ : Raft n} (hm : w.machine i = .up s) (hrun : s.stopped = false)
    (hp : Prepared P g g' s s₁) (o : Saved) :
    ∃ g'', RaftSteps P i g g'' ∧ Agrees g'' i (.up (s₁.finish o)) ∧
      ((s₁.finish o).stopped = false → Extends g' g'' ∧ s₁.finish o = s₁.persisted.settle) ∧
      (∀ {p req}, (s₁.finish o).stopped = false → (s₁.finish o).role = .leader →
        (i, Outgoing.append p req) ∈ w.calls → req.term = (s₁.finish o).term →
        req.seq ≤ (s₁.finish o).seq) := by
  have hid : s₁.cfg.id = i := by rw [hp.cfg, h.cfg_id hm]
  obtain ⟨g'', hst, hag, hok⟩ := hp.finish h.inv o
  rw [hid] at hst hag
  refine ⟨g'', hst, hag, hok, fun {p req} hs hr hc ht => ?_⟩
  have hset := Raft.settles_settle s₁.persisted
  have heq := (hok hs).2
  rw [heq] at hr ht ⊢
  rw [hset.role] at hr
  rw [hset.term] at ht
  rw [hset.seq]
  have hnew := hp.newer hr
  rw [hid] at hnew
  exact h.seq_le hm hrun hnew hc ht

/-! ### One replica's input -/

theorem Rel.live (hm : w.machine i = .up s) (hs : s.stopped = false) : Live g s := by
  have := h.machine i
  rw [hm] at this
  exact this.2.2.1 hs

/-- The node's term is the one on the replica's disk, which the one in memory has reached. -/
theorem Rel.term_le (hm : w.machine i = .up s) : (g.node i).term ≤ s.term := by
  have hag := h.machine i
  rw [hm] at hag
  obtain ⟨rfl, hdisk, hlive, hhalt⟩ := hag
  cases hs : s.stopped with
  | false => exact (hlive hs).term.le
  | true =>
    have hle := (hhalt hs).2.2.2
    rwa [← hdisk] at hle

end

/-- The step of a group in which replica `i` becomes `m` and the network gains nothing. -/
def Quietly (w : World n) (i : Fin n) (m : Machine n) (w' : World n) : Prop :=
  w'.machine = Function.update w.machine i m ∧ w'.calls = w.calls ∧ w'.answers = w.answers

theorem Rel.still (h : Rel P g w) {s' : Raft n} (hm : w.machine i = .up s) (hrun : s.stopped = false)
    (hf : Raft.Frame s s') (hv : Volatile g s') (hr : s'.role = s.role) (hq : s.seq ≤ s'.seq)
    (hw : w'.machine = update w.machine i (.up s')) (ha : w'.answers = w.answers)
    (hc : ∀ c ∈ w'.calls, c ∈ w.calls ∨ c.1 = i ∧ c.2 ∈ s.out) :
    ∃ g', RaftSteps P i g g' ∧ Rel P g' w' := by
  have hl := h.live hm hrun
  have hid := h.cfg_id hm
  have hag := (hl.frame hf hv).agrees
  rw [hf.cfg, hid] at hag
  refine ⟨g, .refl, h.advance .refl hag hw ?_ (fun a ham => .inl (ha ▸ ham)) ?_⟩
  · intro c hcm
    rcases hc c hcm with h1 | ⟨h1, h2⟩
    · exact .inl h1
    · exact .inr ⟨h1, by have := hl.out _ h2; rwa [hid] at this⟩
  · intro s'' heq _ hr' p req hcm ht
    cases heq
    have hr0 : s.role = .leader := hr ▸ hr'
    rcases hc _ hcm with h1 | ⟨-, h2⟩
    · exact (h.seqs hm hrun hr0 h1 (ht.trans hf.term)).trans hq
    · exact (hl.seqs hr0 p req h2 (ht.trans hf.term)).trans hq

theorem Rel.handleVote (h : Rel P g w) (hm : w.machine i = .up s) (hrun : s.stopped = false)
    {req : VoteRequest} (hc : ∃ c ∈ w.calls, c.2 = Outgoing.vote i req) (now : Millis) (o : Saved)
    (hw : w'.machine = update w.machine i (.up (s.handleVote req now o).1)) (hcs : w'.calls = w.calls)
    (ha : w'.answers = w.answers ++ [.vote i req (s.handleVote req now o).2]) :
    ∃ g', RaftSteps P i g g' ∧ Rel P g' w' := by
  obtain ⟨j, hsaid⟩ := h.called hc
  obtain ⟨g₁, hp, hb⟩ := (h.live hm hrun).prepared_onVote h.inv hsaid now
  obtain ⟨g₂, hst, hag, hok, hq⟩ := h.finish hm hrun hp o
  simp only [Raft.handleVote, hrun, Bool.false_eq_true, if_false] at hw ha
  refine ⟨g₂, hst, h.answered hst hag hq hw hcs ha fun a ham => ?_⟩
  rw [List.mem_singleton.mp ham]
  intro hg
  simp only [Bool.and_eq_true, Bool.not_eq_true'] at hg
  obtain ⟨l, hl⟩ := hb hg.1
  rw [h.cfg_id hm] at hl
  exact ⟨j, hsaid.1, l, (hok hg.2).1.ballot hl⟩

theorem Rel.handleAppend (h : Rel P g w) (hm : w.machine i = .up s) (hrun : s.stopped = false)
    {req : AppendRequest} (hc : ∃ c ∈ w.calls, c.2 = Outgoing.append i req) (now : Millis) (o : Saved)
    (hw : w'.machine = update w.machine i (.up (s.handleAppend req now o).1)) (hcs : w'.calls = w.calls)
    (ha : w'.answers = w.answers ++ [.append i req (s.handleAppend req now o).2]) :
    ∃ g', RaftSteps P i g g' ∧ Rel P g' w' := by
  obtain ⟨j, hsaid⟩ := h.called hc
  have hl := h.live hm hrun
  have hid := h.cfg_id hm
  have hfact : ∀ {g' : Facts n} {r : AppendReply},
      (r.success = true → g'.acked i req.term (req.prevIndex + req.entries.length)) →
      ∀ a ∈ [Answer.append i req r], Answered g' a :=
    fun hr a ham => by rw [List.mem_singleton.mp ham]; exact hr
  unfold Raft.handleAppend at hw ha
  rw [if_neg (by simp [hrun])] at hw ha
  by_cases hlt : req.term < s.term
  · -- a deposed leader
    rw [if_pos hlt] at hw ha
    obtain ⟨g₂, hst, hag, -, hq⟩ := h.finish hm hrun hl.prepared o
    exact ⟨g₂, hst, h.answered hst hag hq hw hcs ha (hfact fun hsu => by cases hsu)⟩
  rw [if_neg hlt] at hw ha
  have hd := Raft.stepsDown_append s req now
  generalize (s.becomeFollower req.term req.leader now).resetElectionTimer now = s₁ at hd hw ha
  obtain ⟨g₁, hp, hsu, hterm⟩ := hl.prepared_onAppend h.inv hsaid hd (not_lt.mp hlt)
  obtain ⟨g₂, hst, hag, hok, hq⟩ := h.finish hm hrun hp o
  dsimp only at hw ha
  rw [if_neg (by simp [hp.tracks.running])] at hw ha
  by_cases hstop : ((s₁.onAppend req).1.finish o).stopped = true
  · rw [if_pos hstop] at ha
    exact ⟨g₂, hst, h.answered hst hag hq hw hcs ha (hfact fun hsu => by cases hsu)⟩
  rw [if_neg hstop] at ha
  have hrun' : ((s₁.onAppend req).1.finish o).stopped = false := Bool.eq_false_iff.mpr hstop
  obtain ⟨he, heq⟩ := hok hrun'
  have hset := Raft.settles_settle (s₁.onAppend req).1.persisted
  have hl2 := hag.2.2.1 hrun'
  have hterm2 : ((s₁.onAppend req).1.finish o).term = req.term := by
    rw [heq, hset.term]; exact hterm
  have hlog2 : ((s₁.onAppend req).1.finish o).log = (s₁.onAppend req).1.log := by
    rw [heq, hset.log]; rfl
  have hid2 : ((s₁.onAppend req).1.finish o).cfg.id = i := hag.1
  cases hsucc : (s₁.onAppend req).2.success with
  | false =>
    refine ⟨g₂, hst, h.answered hst hag hq hw hcs ha (hfact fun hsu => ?_)⟩
    rw [hsucc] at hsu; cases hsu
  | true =>
    -- the entries are durable: the node confirms them before the answer leaves
    obtain ⟨hlen, hpre⟩ := hsu hsucc
    have hi₂ := (h.inv.steps hst).1
    obtain ⟨g₃, hst₃, hl3, -, -, hack⟩ := hl2.ack hi₂
      (m := req.prevIndex + req.entries.length)
      (by rw [hterm2]; exact hlen.trans (he.ledger_prefix _).length_le)
      (by rw [hterm2, he.take_ledger hlen, hlog2]; exact hpre)
    rw [hid2] at hst₃ hack
    rw [hterm2] at hack
    have hag3 := hl3.agrees
    rw [hid2] at hag3
    exact ⟨g₃, hst.trans hst₃, h.answered (hst.trans hst₃) hag3 hq hw hcs ha (hfact fun _ => hack)⟩

section
variable (hP : P NOOP) (h : Rel P g w) {i : Fin n} (hm : w.machine i = .up s)
include hP h hm

variable {x : Input n} {o : Saved} {s₁ : Raft n}

theorem Rel.prepared (ha : w.admits i x) (hx : World.Proposes P (.input i x o))
    (hb : s.beforeFinish x = some s₁) : ∃ g', Prepared P g g' s s₁ := by
  have hrun := (Raft.input_of_beforeFinish hb .ok).2
  have hl := h.live hm hrun
  have hid := h.cfg_id hm
  cases x with
  | tick now =>
    obtain ⟨-, ⟨⟩⟩ := Option.ite_none_left_eq_some.mp hb
    rcases s.onTick_cases now with ⟨-, h1⟩ | ⟨-, h1⟩ | h1
    · rw [h1]; exact hl.prepared_startElection h.inv hP now
    · exact hl.prepared_stepsDown h.inv h1
    · exact ⟨g, hl.prepared_sends h1⟩
  | handleVote req now =>
    obtain ⟨-, ⟨⟩⟩ := Option.ite_none_left_eq_some.mp hb
    obtain ⟨j, hsaid⟩ := h.called ha
    obtain ⟨g₁, hp, -⟩ := hl.prepared_onVote h.inv hsaid now
    exact ⟨g₁, hp⟩
  | handleVoteReply p sent reply now =>
    obtain ⟨-, ⟨⟩⟩ := Option.ite_none_left_eq_some.mp hb
    refine hl.prepared_onVoteReply h.inv hP (fun hg => ?_) now
    obtain ⟨c, hc, l, hb⟩ := h.answers _ ha.2 hg
    have hci : sent.candidate = i := (h.calls _ ha.1).1
    have : c = i := Fin.ext (by rw [hc] at hci; omega)
    rw [hid, ← this]
    exact ⟨l, hb⟩
  | handleAppend req now =>
    simp only [Raft.beforeFinish, hrun, Bool.false_eq_true, if_false] at hb
    obtain ⟨j, hsaid⟩ := h.called ha
    split at hb
    · cases hb
      exact ⟨g, hl.prepared⟩
    · rename_i hlt
      have hd := Raft.stepsDown_append s req now
      obtain ⟨g₁, hp, -, -⟩ := hl.prepared_onAppend h.inv hsaid hd (not_lt.mp hlt)
      rw [if_neg (by simp [hp.tracks.running])] at hb
      cases hb
      exact ⟨g₁, hp⟩
  | handleAppendReply p sent reply now =>
    obtain ⟨-, ⟨⟩⟩ := Option.ite_none_left_eq_some.mp hb
    have hq := h.calls _ ha.1
    exact hl.prepared_onAppendReply h.inv (hid ▸ hq) (h.answers _ ha.2) now
  | propose command now =>
    obtain ⟨hr, ⟨⟩⟩ := Option.ite_none_left_eq_some.mp hb
    exact hl.prepared_onPropose h.inv (not_not.mp (not_or.mp hr).2) hx now
  | read id now =>
    obtain ⟨hr, ⟨⟩⟩ := Option.ite_none_left_eq_some.mp hb
    exact ⟨g, hl.prepared_onRead (not_not.mp (not_or.mp hr).2) id now⟩
  | callFailed | takeOutgoing | takeReads => cases hb

theorem Rel.finish_quietly (ha : w.admits i x) (hx : World.Proposes P (.input i x o))
    (hsilent : ∀ (w : World n) y, (w.record i x y).calls = w.calls ∧ (w.record i x y).answers = w.answers)
    (hb : s.beforeFinish x = some s₁) :
    ∃ g', RaftSteps P i g g' ∧
      Rel P g' ((w.setMachine i (.up (s.input x o).1)).record i x (s.input x o).2) := by
  obtain ⟨heq, hrun⟩ := Raft.input_of_beforeFinish hb o
  obtain ⟨g', hp⟩ := h.prepared hP hm ha hx hb
  obtain ⟨g'', hst, hag, -, hq⟩ := h.finish hm hrun hp o
  rw [heq]
  obtain ⟨hcs, hans⟩ := hsilent (w.setMachine i (.up (s₁.finish o))) (s.input x o).2
  exact ⟨g'', hst, h.answered hst hag hq (World.record_machine _ _ _ _) hcs
    (hans.trans (List.append_nil _).symm) (by simp)⟩

theorem Rel.input_live (hrun : s.stopped = false) (ha : w.admits i x) (hx : World.Proposes P (.input i x o)) :
    ∃ g', RaftSteps P i g g' ∧
      Rel P g' ((w.setMachine i (.up (s.input x o).1)).record i x (s.input x o).2) := by
  have hl := h.live hm hrun
  cases x with
  | handleVote req now => exact h.handleVote hm hrun ha now o rfl rfl rfl
  | handleAppend req now => exact h.handleAppend hm hrun ha now o rfl rfl rfl
  | tick | handleVoteReply | handleAppendReply =>
    exact h.finish_quietly hP hm ha hx (fun _ _ => ⟨rfl, rfl⟩) (if_neg (by simp [hrun]))
  | callFailed to_ sent now =>
    have hs := Raft.sends_callFailed s to_ sent now
    exact h.still hm hrun hs.toFrame (hl.toVolatile.sends hs) hs.role hs.seq rfl rfl
      fun c hc => .inl hc
  | propose | read =>
    by_cases hr : s.role = .leader
    · exact h.finish_quietly hP hm ha hx (fun _ _ => ⟨rfl, rfl⟩) (if_neg (by simp [hrun, hr]))
    · refine h.still hm hrun (Raft.Frame.refl s) hl.toVolatile rfl le_rfl ?_ rfl
        fun c hc => .inl hc
      simp [Raft.input, Raft.propose, Raft.read, hr, World.record, World.setMachine]
  | takeOutgoing =>
    have hf : Raft.Frame s s.takeOutgoing.1 := by
      constructor <;> rfl
    refine h.still hm hrun hf (hl.toVolatile.frame hf rfl rfl rfl rfl rfl fun _ ho => ?_) rfl le_rfl
      rfl rfl fun c hc => ?_
    · simp [Raft.takeOutgoing] at ho
    · refine (List.mem_append.mp hc).imp id fun h1 => ?_
      obtain ⟨o', ho', rfl⟩ := List.mem_map.mp h1
      exact ⟨rfl, ho'⟩
  | takeReads =>
    have hf : Raft.Frame s s.takeReads.1 := by
      constructor <;> rfl
    exact h.still hm hrun hf (hl.toVolatile.frame hf rfl rfl rfl rfl rfl fun _ ho => ho) rfl le_rfl
      rfl rfl fun c hc => .inl hc

end

theorem input_of_stopped (hs : s.stopped = true) (x : Input n) (o : Saved) :
    (∃ out results, (s.input x o).1 = { s with out := out, readResults := results } ∧
      (out = s.out ∨ out = []) ∧ (results = s.readResults ∨ results = [])) ∧
    (s.input x o).2.promises = false ∧
    ∀ out, x = .takeOutgoing → (s.input x o).2 = .calls out → out = s.out := by
  cases hb : s.beforeFinish x with
  | some s₁ => exact absurd ((Raft.input_of_beforeFinish hb o).2.symm.trans hs) Bool.false_ne_true
  | none =>
    have ha := Raft.unfinished_of_beforeFinish hb o
    generalize s.input x o = r at ha
    cases ha with
    | stops hrun => exact absurd (hrun.symm.trans hs) Bool.false_ne_true
    | fails to_ sent now =>
      refine ⟨⟨s.out, s.readResults, ?_, .inl rfl, .inl rfl⟩, rfl, fun out h => by cases h⟩
      cases sent with
      | vote => rfl
      | append => exact if_pos (.inl hs)
    | givesCalls =>
      exact ⟨⟨[], s.readResults, rfl, .inr rfl, .inl rfl⟩, rfl, fun out _ h => by cases h; rfl⟩
    | givesReads => exact ⟨⟨s.out, [], rfl, .inl rfl, .inr rfl⟩, rfl, fun out h => by cases h⟩
    | refuses | notLeading =>
      refine ⟨⟨s.out, s.readResults, rfl, .inl rfl, .inl rfl⟩, s.refusal_promises x, ?_⟩
      rintro out rfl h
      cases h

theorem Rel.input_stopped (h : Rel P g w) (hm : w.machine i = .up s) (hs : s.stopped = true) (x : Input n)
    (o : Saved) : Rel P g ((w.setMachine i (.up (s.input x o).1)).record i x (s.input x o).2) := by
  obtain ⟨⟨out, results, heq, hout, hres⟩, hy, hcalls⟩ := input_of_stopped hs x o
  have hag := h.machine i
  rw [hm] at hag
  obtain ⟨hid, hdisk, -, hhalt⟩ := hag
  obtain ⟨hh, ho, hr, ht⟩ := hhalt hs
  have hag' : Agrees g i (.up (s.input x o).1) := by
    rw [heq]
    refine ⟨hid, hdisk, fun h1 => absurd (h1.symm.trans hs) Bool.false_ne_true, fun _ =>
      ⟨⟨⟨hh.commit_le, hh.applied_le, hh.committed, hh.appliedBy, hh.applies⟩, ?_, hh.leader⟩, ?_, ?_, ht⟩⟩
    · exact hh.rooted.imp (fun h3 => ⟨h3.coherent, h3.leads⟩) fun h3 => ⟨h3.single, h3.term, h3.log⟩
    · exact hout.elim (fun h1 => h1.trans ho) id
    · exact hres.elim (fun h1 => h1.trans hr) id
  refine h.advance .refl hag' (World.record_machine _ _ _ _) (fun c hc => ?_) (fun a ha => ?_) ?_
  · refine (World.mem_record_calls hc).imp id fun ⟨out', hx, hy', hc1, hc2⟩ => ?_
    rw [hcalls out' hx hy', ho] at hc2
    cases hc2
  · refine (World.mem_record_answers ha).imp id ?_
    rintro (⟨req, now, reply, -, hy', rfl⟩ | ⟨req, now, reply, -, hy', rfl⟩) <;>
      (rw [hy'] at hy; exact fun h1 => absurd (hy.symm.trans h1) Bool.false_ne_true)
  · intro s' heq' hs'
    cases heq'
    rw [heq] at hs'
    exact absurd (hs'.symm.trans hs) Bool.false_ne_true

/-! ### Starting and crashing -/

theorem live_fresh (hi : RaftInv P g) (cfg : RaftConfig n) (hd : onDisk (g.node cfg.id) = d)
    (now : Millis) : Live g ((Raft.fresh cfg d).resetElectionTimer now) := by
  subst hd
  have hne : Role.follower ≠ Role.leader := Role.noConfusion
  refine ⟨⟨⟨⟨Nat.zero_le _, Nat.zero_le _, CommittedBy.nil _ _, CommittedBy.nil _ _, rfl⟩,
    ⟨hi.coherent cfg.id, fun hr => absurd hr hne⟩, (fun hr => by cases hr), fun hr => absurd hr hne,
    (fun o ho => by cases ho), fun hr => absurd hr hne⟩,
    (Raft.clean_of_storage rfl rfl rfl).toSynced, rfl, rfl, rfl, rfl, .inl rfl⟩, rfl⟩

theorem Rel.prepared_start (hP : P NOOP) (h : Rel P g w) (hm : w.machine cfg.id = .down d) (now : Millis) :
    ∃ g',
      Prepared P g g' ((Raft.fresh cfg d).resetElectionTimer now) (Raft.beforeStart cfg d now) := by
  have hd : onDisk (g.node cfg.id) = d := by
    have := h.machine cfg.id
    rwa [hm] at this
  have hl := live_fresh h.inv cfg hd now
  unfold Raft.beforeStart
  dsimp only
  split
  · exact hl.prepared_startElection h.inv hP now
  · exact ⟨g, hl.prepared⟩

theorem Rel.boot (hP : P NOOP) (h : Rel P g w) (hm : w.machine i = .down d) (hc : cfg.id = i) (now : Millis)
    (o : Saved) (hw : Quietly w i (.up (.start cfg d now o)) w') :
    ∃ g', RaftSteps P i g g' ∧ Rel P g' w' := by
  subst hc
  obtain ⟨g₁, hp⟩ := h.prepared_start hP hm now
  have hstart := Raft.start_eq cfg d now o
  generalize Raft.beforeStart cfg d now = s₁ at hp hstart
  have hid : s₁.cfg.id = cfg.id := by rw [hp.cfg]; rfl
  obtain ⟨g₂, hst, hag, hok⟩ := hp.finish h.inv o
  rw [hid] at hst hag
  rw [← hstart] at hag hok
  refine ⟨g₂, hst, h.advance hst hag hw.1 (fun c hcm => .inl (hw.2.1 ▸ hcm))
    (fun a ha => .inl (hw.2.2 ▸ ha)) fun {s'} heq hs hr p req hcm ht => ?_⟩
  -- a replica that leads at once leads a term nobody has led
  cases heq
  have hset := Raft.settles_settle s₁.persisted
  rw [(hok hs).2] at hr ht
  rw [hset.role] at hr
  rw [hset.term] at ht
  rcases hp.newer hr with ⟨h1, -⟩ | h1
  · cases h1
  · rw [hid] at h1
    have hlead := (h.appendFact (hw.2.1 ▸ hcm)).lead
    rw [ht] at hlead
    exact absurd hlead h1

theorem Rel.crash (h : Rel P g w) (hm : w.machine i = .up s) :
    Rel P g (w.setMachine i (.down s.storage)) := by
  have hag := h.machine i
  rw [hm] at hag
  refine h.advance (m := .down s.storage) .refl hag.2.1 rfl (fun c hc => .inl hc)
    (fun a ha => .inl ha) fun heq => ?_
  cases heq

/-! ### Runs -/

/-- **Every step of the group refines the protocol.** -/
theorem Rel.step (hP : P NOOP) (h : Rel P g w) {e : Event n} (he : World.Proposes P e)
    (hs : w.step e = some w') : ∃ i g', RaftSteps P i g g' ∧ Rel P g' w' := by
  rcases World.step_cases hs with ⟨i, cfg, now, o, d, rfl, hm, hc, rfl⟩ |
    ⟨i, x, o, s, rfl, hm, ha, rfl⟩ | ⟨i, s, rfl, hm, rfl⟩
  · exact ⟨i, h.boot hP hm hc now o ⟨rfl, rfl, rfl⟩⟩
  · cases hst : s.stopped with
    | false => exact ⟨i, h.input_live hP hm hst ha he⟩
    | true => exact ⟨i, g, .refl, h.input_stopped hm hst x o⟩
  · exact ⟨i, g, .refl, h.crash hm⟩

/-- **Every run of the group refines the protocol**, and the recorded facts only grow. -/
theorem Rel.steps (hP : P NOOP) (h : Rel P g w) (hs : World.Steps P w w') :
    ∃ g', Extends g g' ∧ Rel P g' w' := by
  induction hs with
  | refl => exact ⟨g, Extends.refl g, h⟩
  | tail _ hst ih =>
    obtain ⟨g₁, he₁, h₁⟩ := ih
    obtain ⟨e, hpe, hstep⟩ := hst
    obtain ⟨i, g₂, hg, h₂⟩ := h₁.step hP hpe hstep
    exact ⟨g₂, he₁.trans (h₁.inv.steps hg).2, h₂⟩

theorem rel_of_reachable (hP : P NOOP) (h : World.Reachable P w) : ∃ g, Rel P g w := by
  obtain ⟨g, -, hg⟩ := Rel.init.steps hP h
  exact ⟨g, hg⟩

end ChordFs
