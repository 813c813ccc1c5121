import ChordFs.RaftSafety

/-! # The commit index

Within one life of a replica the commit index should only move forward, with
`applied ≤ commit ≤ lastIndex` after every input.  `handle_append` assigns
`min(req.commit, last_new)` whenever `req.commit` is beyond the replica's commit index, and the
last entry of a call cut short by `max_append_bytes` can lie before that commit index: then the
commit index falls (`commit_falls`).  That is the only way it can (`commit_monotone`). -/

namespace ChordFs

open Function

namespace Raft

variable {n : ℕ} {s s' s'' : Raft n}

/-- Applied, committed and held, in this order. -/
structure Ordered (s : Raft n) : Prop where
  applied : s.applied ≤ s.commit
  commit : s.commit ≤ s.log.length

/-- Between `s` and `s'` the commit index did not fall, and the order was kept. -/
structure Advances (s s' : Raft n) : Prop where
  commit : s.commit ≤ s'.commit
  ordered : Ordered s → Ordered s'

theorem Advances.refl (s : Raft n) : Advances s s := ⟨le_rfl, id⟩

theorem Advances.trans (h : Advances s s') (h' : Advances s' s'') : Advances s s'' :=
  ⟨h.commit.trans h'.commit, fun ho => h'.ordered (h.ordered ho)⟩

theorem advances_of_eq (hc : s'.commit = s.commit) (ha : s'.applied = s.applied)
    (hl : s.log.length ≤ s'.log.length) : Advances s s' := by
  refine ⟨hc.ge, fun ho => ⟨?_, ?_⟩⟩
  · rw [hc, ha]; exact ho.applied
  · rw [hc]; exact ho.commit.trans hl

theorem Frame.advances (h : Frame s s') : Advances s s' :=
  advances_of_eq h.commit h.applied (by rw [h.log])

theorem StepsDown.advances {t : ℕ} (h : StepsDown s t s') : Advances s s' :=
  advances_of_eq h.commit h.applied (by rw [h.log])

/-! ### The end of every input -/

theorem advances_advanceCommit (s : Raft n) : Advances s s.advanceCommit := by
  rcases s.advanceCommit_cases with h | ⟨i, hi, hl, -, -, h⟩
  · rw [h]; exact Advances.refl s
  · rw [h]
    exact ⟨hi.le, fun ho => ⟨ho.applied.trans hi.le, hl⟩⟩

theorem advances_applyCommitted (s : Raft n) : Advances s s.applyCommitted := by
  rw [applyCommitted_eq]
  refine ⟨le_rfl, fun ho => ⟨?_, ho.commit⟩⟩
  exact max_le ho.applied le_rfl

theorem advances_settle (s : Raft n) : Advances s s.settle := by
  have hadv : Advances s (if s.role = .leader then s.advanceCommit else s) := by
    split
    · exact s.advances_advanceCommit
    · exact Advances.refl s
  exact (hadv.trans (advances_applyCommitted _)).trans (frame_resolveReads _).advances

theorem Act.advances {x : Input n} (ha : Act x s s') (hx : ∀ req now, x ≠ .handleAppend req now) :
    Advances s s' := by
  cases ha with
  | sends h => exact h.toFrame.advances
  | stepsDown h => exact h.advances
  | takesLead => exact advances_of_eq rfl rfl (by simp [takeLead, changedFrom])
  | notes => exact (s.frame_notes _ _ _ _).advances
  | appends hreq => exact absurd hreq (hx _ _)
  | pushes => exact advances_of_eq rfl rfl (by simp [changedFrom])
  | stands | asks | counts | grants | enters => exact advances_of_eq rfl rfl le_rfl

theorem Effect.advances {x : Input n} (he : Effect x s s') (hx : ∀ req now, x ≠ .handleAppend req now) :
    Advances s s' := by
  cases he with
  | act h => exact h.advances hx
  | stops hreq => exact absurd hreq (hx _ _)
  | persists _ o =>
    unfold persist
    split
    · cases o <;> exact advances_of_eq rfl rfl le_rfl
    · exact Advances.refl s
  | settles => exact advances_settle s
  | drops | givesCalls | givesReads => exact advances_of_eq rfl rfl le_rfl

theorem Effects.advances {x : Input n} (he : Effects x s s') (hx : ∀ req now, x ≠ .handleAppend req now) :
    Advances s s' := by
  induction he with
  | refl => exact Advances.refl s
  | tail _ hstep ih => exact ih.trans (hstep.advances hx)

theorem advances_finish (s : Raft n) (o : Saved) : Advances s (s.finish o) :=
  Effects.advances (effects_finish .takeReads s o) fun _ _ hx => by cases hx

/-! ### Append calls -/

/-- The entries of a call are written after the commit index, and a call that is taken leaves a log
that reaches to its last entry. -/
theorem appendEntries_length (hs : s.stopped = false) {i : ℕ} (hi : i ≤ s.log.length) (es : List Entry) :
    (s.commit ≤ s.log.length → s.commit ≤ (s.appendEntries i es).log.length) ∧
    ((s.appendEntries i es).stopped = false → i + es.length ≤ (s.appendEntries i es).log.length) := by
  obtain ⟨held, rest, rfl, hlen, -, ⟨rfl, h⟩ | ⟨e, es', rfl, ⟨-, -, -, h⟩ | ⟨hw, h⟩⟩⟩ :=
    appendEntries_cases es hs hi
  · rw [h, List.append_nil]
    exact ⟨id, fun _ => hlen⟩
  · rw [h]
    exact ⟨id, nofun⟩
  · have hlog : (s.log.take (i + held.length) ++ e :: es').length = i + (held ++ e :: es').length := by
      rw [List.length_append, List.length_take, Nat.min_eq_left hlen, List.length_append]
      omega
    rw [h]
    refine ⟨fun hc => ?_, fun _ => hlog.ge⟩
    change s.commit ≤ (s.log.take (i + held.length) ++ e :: es').length
    rw [hlog, List.length_append]
    omega

/-- The append call `req` is taken by the replica, announces a commit index beyond the replica's
own, and ends before that. -/
def fallsShort (s : Raft n) (req : AppendRequest) : Prop :=
  s.term ≤ req.term ∧ req.prevIndex ≤ s.lastIndex ∧ s.termAt req.prevIndex = req.prevTerm ∧
    s.commit < req.commit ∧ req.prevIndex + req.entries.length < s.commit

instance (s : Raft n) (req : AppendRequest) : Decidable (s.fallsShort req) :=
  inferInstanceAs (Decidable (_ ∧ _))

theorem advances_onAppend (hs : s.stopped = false) {req : AppendRequest}
    (h : req.prevIndex ≤ s.lastIndex → s.termAt req.prevIndex = req.prevTerm → s.commit < req.commit → s.commit ≤ req.prevIndex + req.entries.length) :
    Advances s (s.onAppend req).1 := by
  have ha := appends_appendEntries req.entries s req.prevIndex
  rcases s.onAppend_cases req with ⟨h1, -⟩ | ⟨hp, ht, ⟨-, h1, -⟩ | ⟨hst, h1⟩⟩ <;> rw [h1]
  · exact Advances.refl s
  · refine ⟨ha.commit.ge, fun ho => ⟨?_, ?_⟩⟩
    · rw [ha.commit, ha.applied]; exact ho.applied
    · rw [ha.commit]; exact (appendEntries_length hs hp _).1 ho.commit
  · have hlen := (appendEntries_length hs hp _).2 hst
    by_cases hq : req.commit > s.commit
    · have hle := h hp ht hq
      rw [if_pos hq]
      refine ⟨le_min hq.le hle, fun ho => ⟨?_, ?_⟩⟩
      · dsimp only
        rw [ha.applied]
        exact ho.applied.trans (le_min hq.le hle)
      · exact (min_le_right _ _).trans hlen
    · rw [if_neg hq]
      refine ⟨le_rfl, fun ho => ⟨?_, ?_⟩⟩
      · dsimp only
        rw [ha.applied]
        exact ho.applied
      · exact (appendEntries_length hs hp _).1 ho.commit

theorem advances_handleAppend {req : AppendRequest} (h : ¬ s.fallsShort req) (now : Millis)
    (o : Saved) : Advances s (s.handleAppend req now o).1 := by
  unfold handleAppend
  split
  · exact Advances.refl s
  rename_i hs
  split
  · exact s.advances_finish o
  · rename_i hlt
    have hd := stepsDown_append s req now
    generalize (s.becomeFollower req.term req.leader now).resetElectionTimer now = s₁ at hd
    have h₁ : Advances s₁ (s₁.onAppend req).1 := by
      apply advances_onAppend (hd.stopped.trans (Bool.eq_false_iff.mpr hs))
      intro hp ht hq
      simp only [lastIndex, Raft.termAt, hd.log, hd.commit] at hp ht hq ⊢
      by_contra hcon
      exact h ⟨not_lt.mp hlt, hp, ht, hq, not_le.mp hcon⟩
    have h₂ := hd.advances.trans h₁
    dsimp only
    split
    · exact h₂
    · exact h₂.trans (advances_finish _ o)

/-- **One input**: the commit index moves forward unless an append call falls short. -/
theorem advances_input {x : Input n} (h : ∀ req now, x = .handleAppend req now → ¬ s.fallsShort req)
    (o : Saved) : Advances s (s.input x o).1 := by
  have heffects := effects_input s x o
  cases x with
  | handleAppend req now => exact advances_handleAppend (h req now rfl) now o
  | _ => exact heffects.advances fun _ _ hx => by cases hx

theorem ordered_start (cfg : RaftConfig n) (d : Durable) (now : Millis) (o : Saved) :
    Ordered (start cfg d now o) := by
  have hf : Ordered ((fresh cfg d).resetElectionTimer now) := ⟨le_rfl, Nat.zero_le _⟩
  exact ((effects_start .takeReads cfg d now o).advances fun _ _ hx => by cases hx).ordered hf

end Raft

namespace World

variable {n : ℕ}

/-- No append call that falls short is delivered. -/
def reachesCommit (w : World n) : Event n → Prop
  | .input i (.handleAppend req _) _ => ∀ s, w.machine i = .up s → ¬ s.fallsShort req
  | _ => True

instance (w : World n) : (e : Event n) → Decidable (w.reachesCommit e)
  | .input i (.handleAppend req _) _ =>
    match hm : w.machine i with
    | .up s => decidable_of_iff (¬ s.fallsShort req)
        ⟨fun h s' hs' => by rw [hm] at hs'; cases hs'; exact h, fun h => h s hm⟩
    | .down _ => isTrue fun s hs => by rw [hm] at hs; cases hs
  | .input _ (.tick _) _ | .input _ (.handleVote _ _) _ | .input _ (.handleVoteReply _ _ _ _) _
  | .input _ (.handleAppendReply _ _ _ _) _ | .input _ (.callFailed _ _ _) _
  | .input _ (.propose _ _) _ | .input _ (.read _ _) _ | .input _ .takeOutgoing _
  | .input _ .takeReads _ | .boot _ _ _ _ | .crash _ => isTrue trivial

/-- The events of a list, as long as they can happen and none of them falls short. -/
def runSteady (w : World n) : List (Event n) → Option (World n)
  | [] => some w
  | e :: es => if w.reachesCommit e then (w.step e).bind fun w => w.runSteady es else none

/-- One step of the group that delivers no append call that falls short. -/
def SteadyStep (w w' : World n) : Prop := ∃ e, w.reachesCommit e ∧ w.step e = some w'

abbrev SteadyRuns : World n → World n → Prop := Relation.ReflTransGen SteadyStep

theorem SteadyStep.exists_step {w w' : World n} (h : SteadyStep w w') :
    ∃ e, w.step e = some w' := by
  obtain ⟨e, -, he⟩ := h
  exact ⟨e, he⟩

theorem steadyRuns_getD (es : List (Event n)) : ∀ {w : World n}, (w.runSteady es).isSome = true →
    SteadyRuns w ((w.runSteady es).getD w) := by
  induction es with
  | nil => intro w _; exact .refl
  | cons e es ih =>
    intro w h
    rw [runSteady] at h ⊢
    by_cases hc : w.reachesCommit e
    · rw [if_pos hc] at h ⊢
      obtain ⟨w', hw⟩ := Option.isSome_iff_exists.mp h
      obtain ⟨w₁, h1, h2⟩ := Option.bind_eq_some_iff.mp hw
      rw [hw]
      have hrest := ih (w := w₁) (by rw [h2]; rfl)
      rw [h2] at hrest
      exact .head ⟨e, hc, h1⟩ hrest
    · rw [if_neg hc] at h
      cases h

/-- Within a life, a steady step moves the commit index forward. -/
theorem SteadyStep.advances {w w' : World n} (h : SteadyStep w w') {i : Fin n} {s s' : Raft n}
    (hm : w.machine i = .up s) (hm' : w'.machine i = .up s') (hl : w'.life i = w.life i) :
    Raft.Advances s s' := by
  obtain ⟨e, hc, he⟩ := h
  rcases same_life_cases he hm' hl with h1 | ⟨x, o, s₁, rfl, h1, -, rfl⟩
  · rw [hm] at h1
    cases h1
    exact Raft.Advances.refl s
  · rw [hm] at h1
    cases h1
    apply Raft.advances_input
    rintro req now rfl
    exact hc s hm

theorem SteadyStep.ordered {w w' : World n} (h : SteadyStep w w')
    (hw : ∀ i s, w.machine i = .up s → s.Ordered) (i : Fin n) (s' : Raft n)
    (hm : w'.machine i = .up s') : s'.Ordered := by
  obtain ⟨e, hc, he⟩ := h
  rcases step_cases he with ⟨k, cfg, now, o, d, -, -, -, rfl⟩ | ⟨k, x, o, s, rfl, hk, -, rfl⟩ |
    ⟨k, s, -, -, rfl⟩
  · by_cases hki : i = k
    · subst hki
      simp only [setMachine, update_self, Machine.up.injEq] at hm
      rw [← hm]
      exact Raft.ordered_start cfg d now o
    · simp only [setMachine, update_of_ne hki] at hm
      exact hw i s' hm
  · rw [record_machine] at hm
    by_cases hki : i = k
    · subst hki
      simp only [setMachine, update_self, Machine.up.injEq] at hm
      rw [← hm]
      refine (Raft.advances_input ?_ o).ordered (hw i s hk)
      rintro req now rfl
      exact hc s hk
    · simp only [setMachine, update_of_ne hki] at hm
      exact hw i s' hm
  · by_cases hki : i = k
    · subst hki; simp [setMachine] at hm
    · simp only [setMachine, update_of_ne hki] at hm
      exact hw i s' hm

theorem ordered_of_steady {w : World n} (h : SteadyRuns .init w) :
    ∀ i s, w.machine i = .up s → s.Ordered := by
  induction h with
  | refl => intro i s hm; simp [init] at hm
  | tail _ hst ih => exact hst.ordered ih

end World

variable {n : ℕ} {w w' : World n} {s s' : Raft n} {i : Fin n}

/-- **Commit monotonicity**: in a run in which no append call falls short, the commit index never
falls within a life, and what is applied, committed and held stays in order. -/
theorem commit_monotone (h : World.SteadyRuns .init w) (h' : World.SteadyRuns w w')
    (hm : w.machine i = .up s) (hm' : w'.machine i = .up s') (hl : w'.life i = w.life i) :
    s.commit ≤ s'.commit ∧ s'.applied ≤ s'.commit ∧ s'.commit ≤ s'.lastIndex := by
  have hle : s.commit ≤ s'.commit := by
    refine World.life_induction (R := World.SteadyStep) (Q := fun _ s' => s.commit ≤ s'.commit)
      World.SteadyStep.exists_step h' ?_ ?_ hl hm'
    · intro s₁ h₁
      rw [hm] at h₁
      cases h₁
      exact le_rfl
    · intro w₁ w₂ s₁ s₂ _ hst h₁ h₂ hl₁ hq
      exact hq.trans (hst.advances h₁ h₂ hl₁).commit
  have ho := World.ordered_of_steady (h.trans h') i s' hm'
  exact ⟨hle, ho.applied, ho.commit⟩

/-- Replica 0's next heartbeat tells replica 1 that the no-op is committed. -/
def heartbeat : List (Event 3) :=
  [.input r0 (.tick 190) .ok, .input r0 .takeOutgoing .ok,
    .input r1 (.handleAppend ⟨1, 0, 1, 1, [], 1, 3⟩ 191) .ok]

theorem commit_monotone_heartbeat : let w := (World.init.runSteady election).getD .init
    let w' := (w.runSteady heartbeat).getD w
    ∃ s s', w.machine 1 = .up s ∧ w'.machine 1 = .up s' ∧ s.commit = 0 ∧ s'.commit = 1 ∧
      s.commit ≤ s'.commit ∧ s'.applied ≤ s'.commit ∧ s'.commit ≤ s'.lastIndex := by
  intro w w'
  have h : World.SteadyRuns .init w := World.steadyRuns_getD election (by decide +kernel)
  have h' : World.SteadyRuns w w' := World.steadyRuns_getD heartbeat (by decide +kernel)
  obtain ⟨s, hs, hc⟩ := Machine.exists_of_runs (m := w.machine 1) (q := fun s => s.commit = 0)
    (by decide +kernel)
  obtain ⟨s', hs', hc'⟩ := Machine.exists_of_runs (m := w'.machine 1) (q := fun s => s.commit = 1)
    (by decide +kernel)
  exact ⟨s, s', hs, hs', of_decide_eq_true hc, of_decide_eq_true hc',
    commit_monotone h h' hs hs' (by decide +kernel)⟩

/-! ### How it falls -/

/-- Three replicas whose append calls carry one entry each. -/
def narrow (i : Fin 3) : RaftConfig 3 := { id := i, maxAppendBytes := 1, spread := fun _ => 0 }

/-- Replica 2 leads term 1.  It commits its no-op and `x` with replica 0, and alone holds `y`. -/
def firstTerm : List (Event 3) :=
  let vote : VoteRequest := ⟨1, 2, 0, 0⟩
  let noop (seq : ℕ) : AppendRequest := ⟨1, 2, 0, 0, [⟨1, NOOP⟩], 0, seq⟩
  let next (seq : ℕ) : AppendRequest := ⟨1, 2, 1, 1, [⟨1, ['x']⟩], 1, seq⟩
  [.boot r0 (narrow r0) 0 .ok, .boot r1 (narrow r1) 0 .ok, .boot r2 (narrow r2) 0 .ok,
    .input r2 (.tick 150) .ok, .input r2 .takeOutgoing .ok, .input r0 (.handleVote vote 151) .ok,
    .input r2 (.handleVoteReply r0 vote ⟨1, true⟩ 152) .ok, .input r2 .takeOutgoing .ok,
    .input r0 (.handleAppend (noop 1) 153) .ok, .input r1 (.handleAppend (noop 2) 153) .ok,
    .input r2 (.handleAppendReply r0 (noop 1) ⟨1, true, 1⟩ 154) .ok,
    .input r2 (.handleAppendReply r1 (noop 2) ⟨1, true, 1⟩ 154) .ok,
    .input r2 (.propose ['x'] 155) .ok, .input r2 .takeOutgoing .ok,
    .input r0 (.handleAppend (next 3) 156) .ok, .input r1 (.handleAppend (next 4) 156) .ok,
    .input r2 (.handleAppendReply r0 (next 3) ⟨1, true, 2⟩ 157) .ok,
    .input r2 (.propose ['y'] 158) .ok]

/-- Cut off from replica 2, replica 0 leads term 2 and gives its no-op to replica 1. -/
def secondTerm : List (Event 3) :=
  let vote : VoteRequest := ⟨2, 0, 2, 1⟩
  [.input r0 (.tick 400) .ok, .input r0 .takeOutgoing .ok, .input r1 (.handleVote vote 401) .ok,
    .input r0 (.handleVoteReply r1 vote ⟨2, true⟩ 402) .ok, .input r0 .takeOutgoing .ok,
    .input r1 (.handleAppend ⟨2, 0, 2, 1, [⟨2, NOOP⟩], 1, 1⟩ 403) .ok]

/-- Replica 1 leads term 3 and commits index 4 with replica 0.  Replica 2, whose `y` conflicts,
makes it back up over the whole of term 1, and it calls with the first entry alone. -/
def thirdTerm : List (Event 3) :=
  let vote : VoteRequest := ⟨3, 1, 3, 2⟩
  let noop (seq : ℕ) : AppendRequest := ⟨3, 1, 3, 2, [⟨3, NOOP⟩], 1, seq⟩
  [.input r1 (.tick 600) .ok, .input r1 .takeOutgoing .ok, .input r0 (.handleVote vote 601) .ok,
    .input r1 (.handleVoteReply r0 vote ⟨3, true⟩ 602) .ok, .input r1 .takeOutgoing .ok,
    .input r0 (.handleAppend (noop 1) 603) .ok,
    .input r1 (.handleAppendReply r0 (noop 1) ⟨3, true, 4⟩ 604) .ok,
    .input r2 (.handleAppend (noop 2) 605) .ok,
    .input r1 (.handleAppendReply r2 (noop 2) ⟨3, false, 1⟩ 606) .ok, .input r1 .takeOutgoing .ok]

def backedUp : World 3 := (World.init.run (firstTerm ++ secondTerm ++ thirdTerm)).getD .init

/-- The call reaches replica 2. -/
def cutShort : World 3 :=
  (backedUp.run [.input r2 (.handleAppend ⟨3, 1, 0, 0, [⟨1, NOOP⟩], 4, 3⟩ 607) .ok]).getD backedUp

/-- The commit index of replica 2 falls from 2 to 1, below what it has applied. -/
theorem commit_falls : World.Runs .init backedUp ∧ World.Runs backedUp cutShort ∧
    cutShort.life 2 = backedUp.life 2 ∧ ∃ s s', backedUp.machine 2 = .up s ∧
      cutShort.machine 2 = .up s' ∧ s.commit = 2 ∧ s'.commit = 1 ∧ s'.applied = 2 := by
  obtain ⟨s, hs, hc⟩ := Machine.exists_of_runs (m := backedUp.machine 2)
    (q := fun s => s.commit = 2) (by decide +kernel)
  obtain ⟨s', hs', hc'⟩ := Machine.exists_of_runs (m := cutShort.machine 2)
    (q := fun s => s.commit = 1 ∧ s.applied = 2) (by decide +kernel)
  obtain ⟨hc1, hc2⟩ := of_decide_eq_true hc'
  exact ⟨World.runs_getD_run _ (by decide +kernel), World.runs_getD_run _ (by decide +kernel),
    by decide +kernel, s, s', hs, hs', of_decide_eq_true hc, hc1, hc2⟩

end ChordFs
