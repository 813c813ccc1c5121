import ChordFs.RaftFinish

/-! # Every input refines the protocol

For each input of a running replica: what it does before `finish` is matched by steps of the
replica's node (`Prepared`), provided that the calls and answers delivered to it state recorded
facts. -/

namespace ChordFs

open Consensus TermLog Function

variable {n : ℕ} {P : Str → Prop} {g : Facts n} {s s' : Raft n}

/-! ### Inputs that leave the durable state alone -/

variable {c p : Fin n} {sent : AppendRequest} {reply : AppendReply}

theorem Live.prepared_frame (h : Live g s) (hf : Raft.Frame s s') (hv : Volatile g s')
    (hr : s'.role = .leader → s.role = .leader ∧ s.seq ≤ s'.seq) : Prepared P g g s s' where
  steps := .refl
  tracks := h.toTracks.frame hf hv
  cfg := hf.cfg
  disk := by rw [hf.cfg, hf.storage]; exact h.onDisk_eq
  back := by
    rw [hf.storage, hf.term, hf.votedFor]
    exact .inl ⟨(h.toSynced.clean h.saved).1, (h.toSynced.clean h.saved).2.1⟩
  newer hr' := .inl ⟨(hr hr').1, hf.term.symm, (hr hr').2⟩

theorem Live.prepared_sends (h : Live g s) (hs : Raft.Sends s s') : Prepared P g g s s' :=
  h.prepared_frame hs.toFrame (h.toVolatile.sends hs) fun hr => ⟨hs.role ▸ hr, hs.seq⟩

theorem Prepared.sends {g₀ : Facts n} {s₀ : Raft n} (h : Prepared P g₀ g s₀ s)
    (hs : Raft.Sends s s') (hb : s.storage.term = s.term ∧ s.storage.votedFor = s.votedFor) :
    Prepared P g₀ g s₀ s' where
  steps := by rw [hs.cfg]; exact h.steps
  tracks := h.tracks.sends hs
  cfg := hs.cfg.trans h.cfg
  disk := by rw [hs.cfg, hs.storage]; exact h.disk
  back := by rw [hs.storage, hs.term, hs.votedFor]; exact .inl hb
  newer hr := by
    rw [hs.term, hs.cfg]
    exact (h.newer (hs.role ▸ hr)).imp (fun ⟨h1, h2, h3⟩ => ⟨h1, h2, h3.trans hs.seq⟩) id

/-! ### Stepping down and elections -/

theorem Live.prepared_stepsDown (hi : RaftInv P g) (h : Live g s) {t : ℕ}
    (hs : Raft.StepsDown s t s') : ∃ g', Prepared P g g' s s' := by
  obtain ⟨g', hst, ht⟩ := h.toTracks.stepsDown hi h.dirtyFrom hs
  refine ⟨g', by rw [hs.cfg]; exact hst, ht, hs.cfg, by rw [hs.cfg, hs.storage]; exact h.onDisk_eq,
    .inr (h.toVolatile.stepsDown hs).halted, fun hr => ?_⟩
  rw [hs.role] at hr; cases hr

theorem Sound.takeLead (h : Sound g s) (now : Millis) : Sound g (s.takeLead now) := by
  have htake : ∀ {k}, k ≤ s.log.length →
      (s.log ++ [(⟨s.term, NOOP⟩ : Entry)]).take k = s.log.take k :=
    fun hk => List.take_append_of_le_length hk
  refine ⟨h.commit_le.trans ?_, h.applied_le.trans ?_, ?_, ?_, ?_⟩
  · simp [Raft.takeLead, Raft.changedFrom]
  · simp [Raft.takeLead, Raft.changedFrom]
  · simp only [Raft.takeLead, Raft.changedFrom, htake h.commit_le]; exact h.committed
  · simp only [Raft.takeLead, Raft.changedFrom, htake h.applied_le]; exact h.appliedBy
  · simp only [Raft.takeLead, Raft.changedFrom, htake h.applied_le]; exact h.applies

theorem Live.prepared_startElection (hi : RaftInv P g) (hP : P NOOP) (h : Live g s)
    (now : Millis) : ∃ g', Prepared P g g' s (s.startElection now) := by
  obtain ⟨g₁, hs₁, h₁⟩ := h.toTracks.stand hi h.dirtyFrom now
  have hnew : g.lead (s.term + 1) ≠ some s.cfg.id := by
    rw [← h.term]; exact not_led_succ hi s.cfg.id
  have hsound : Sound g (s.stand now) :=
    ⟨h.commit_le, h.applied_le, h.committed.mono (Nat.le_succ _), h.appliedBy.mono (Nat.le_succ _),
      h.applies⟩
  unfold Raft.startElection
  dsimp only
  by_cases hm : Majority n 1
  · -- a group of one: the replica leads at once
    rw [if_pos hm]
    have hn : n = 1 := by
      have := s.cfg.id.isLt
      simp only [Majority] at hm
      omega
    have hcount : Majority n ((List.finRange n).countP (s.stand now).votes) := by
      have : 0 < (List.finRange n).countP (s.stand now).votes :=
        List.countP_pos_iff.mpr ⟨s.cfg.id, List.mem_finRange _, decide_eq_true rfl⟩
      simp only [Majority] at hm ⊢
      omega
    obtain ⟨g₂, hs₂, h₂⟩ := h₁.win (hi.steps hs₁).1 rfl h.dirtyFrom hcount hP now
    have hs := Raft.sends_becomeLeader (s.stand now) now
    have hcfg : ((s.stand now).becomeLeader now).cfg = s.cfg := hs.cfg
    have hterm : ((s.stand now).becomeLeader now).term = s.term + 1 := hs.term
    refine ⟨g₂, by rw [hcfg]; exact hs₁.trans hs₂, h₂, hcfg, ?_, .inr ⟨?_, .inr ⟨hn, ?_, ?_⟩,
      fun hr => ⟨(h₂.leader hr).next, fun p h0 => ?_⟩⟩, fun _ => .inr ?_⟩
    · rw [hcfg, hs.storage]; exact h.onDisk_eq
    · exact (hsound.takeLead now).frame hs.toFrame
    · rw [hcfg, hterm, h.term]
    · rw [hcfg, hterm, hs.log, h.log_eq]; rfl
    · rw [hs.match_] at h0; cases h0
    · rw [hcfg, hterm]; exact hnew
  · rw [if_neg hm]
    refine ⟨g₁, hs₁, h₁.askVotes rfl _, rfl, h.onDisk_eq, .inr ⟨?_, .inl ⟨h.coherent, ?_⟩, ?_⟩, ?_⟩
    · exact ⟨hsound.commit_le, hsound.applied_le, hsound.committed, hsound.appliedBy, hsound.applies⟩
    · intro hr; cases hr
    · intro hr; cases hr
    · intro hr; cases hr

theorem Live.addVote (h : Live g s) (hr : s.role = .candidate) (hb : ∃ l, g.ballot p s.term s.cfg.id l) :
    Live g { s with votes := update s.votes p true } := by
  refine Live.frame (s := s) (by constructor <;> rfl)
    ⟨⟨h.commit_le, h.applied_le, h.committed, h.appliedBy, h.applies⟩, ⟨h.coherent, h.leads⟩,
      fun _ => ?_, fun hr' => ?_, h.out, h.seqs⟩ h
  · obtain ⟨h1, h2, h3⟩ := h.candidate hr
    refine ⟨h1, h2, fun q hq => ?_⟩
    by_cases hqp : q = p
    · subst hqp; exact hb
    · exact h3 q (by simpa [update_of_ne hqp] using hq)
  · obtain ⟨h1, h2, h3⟩ := h.leader hr'
    exact ⟨h1, h2, h3⟩

theorem Live.prepared_onVoteReply (hi : RaftInv P g) (hP : P NOOP) (h : Live g s)
    {sent : VoteRequest} {reply : VoteReply}
    (hb : reply.granted = true → ∃ l, g.ballot p sent.term s.cfg.id l) (now : Millis) :
    ∃ g', Prepared P g g' s (s.onVoteReply p sent reply now) := by
  rcases s.onVoteReply_cases p sent reply now with
    ⟨-, h1⟩ | h1 | ⟨⟨hr, hst, -, hg⟩, h1 | ⟨hm, h1⟩⟩
  · exact h.prepared_stepsDown hi h1
  · rw [h1]; exact ⟨g, h.prepared⟩
  · have h2 := h.addVote hr (hst ▸ hb hg)
    rw [h1]
    refine ⟨g, h.prepared_frame (by constructor <;> rfl) h2.toVolatile
      fun hr' => ?_⟩
    dsimp only at hr'
    rw [hr] at hr'; cases hr'
  · have h2 := h.addVote hr (hst ▸ hb hg)
    obtain ⟨g', hs', h'⟩ := h2.toTracks.win hi hr h.dirtyFrom hm hP now
    have hs := Raft.sends_becomeLeader { s with votes := update s.votes p true } now
    have hcfg : (Raft.becomeLeader { s with votes := update s.votes p true } now).cfg =
      s.cfg := hs.cfg
    rw [h1]
    refine ⟨g', by rw [hcfg]; exact hs', h', hcfg, ?_, .inl ?_, fun _ => .inr ?_⟩
    · rw [hcfg, hs.storage]; exact h.onDisk_eq
    · rw [hs.storage, hs.term, hs.votedFor]
      exact ⟨(h.toSynced.clean h.saved).1, (h.toSynced.clean h.saved).2.1⟩
    · rw [hcfg, hs.term]; exact (h.candidate hr).notLed

theorem Live.prepared_onVote (hi : RaftInv P g) (h : Live g s) {i : Fin n} {req : VoteRequest}
    (hq : Said g c (.vote i req)) (now : Millis) : ∃ g', Prepared P g g' s (s.onVote req now).1 ∧
      ((s.onVote req now).2 = true → ∃ l, g'.ballot s.cfg.id req.term c l) := by
  obtain ⟨s₁, h1, h2⟩ := s.onVote_cases req now
  obtain ⟨g₁, h₁, hd₁⟩ : ∃ g₁, Prepared P g g₁ s s₁ ∧ s₁.dirtyFrom = 0 := by
    rcases h1 with ⟨-, rfl⟩ | ⟨-, h1⟩
    · exact ⟨g, h.prepared, h.dirtyFrom⟩
    · obtain ⟨g₁, h₁⟩ := h.prepared_stepsDown hi h1
      exact ⟨g₁, h₁, h1.dirtyFrom.trans h.dirtyFrom⟩
  rcases h2 with ⟨hg, h2⟩ | h2
  · obtain ⟨hi₁, he₁⟩ := hi.steps h₁.steps
    obtain ⟨g₂, hs₂, h₂, hb⟩ := h₁.tracks.grant hi₁ hd₁ (hq.extends hi he₁) hg now
    rw [h2]
    refine ⟨g₂, ⟨h₁.steps.trans hs₂, h₂, h₁.cfg, h₁.disk, .inr ?_, h₁.newer⟩, fun _ => ?_⟩
    · -- the vote is not part of what a stopped replica is asked about
      have hh : Halted g s₁ := by
        rcases h1 with ⟨-, rfl⟩ | ⟨-, h1⟩
        · exact h.toVolatile.halted
        · exact (h.toVolatile.stepsDown h1).halted
      exact ⟨⟨hh.commit_le, hh.applied_le, hh.committed, hh.appliedBy, hh.applies⟩,
        hh.rooted.imp (fun h3 => ⟨h3.coherent, h3.leads⟩) fun h3 => ⟨h3.single, h3.term, h3.log⟩,
        hh.leader⟩
    · have hcfg := h₁.cfg
      rw [← hcfg]
      exact hb
  · rw [h2]
    exact ⟨g₁, h₁, fun h3 => by cases h3⟩

/-! ### Appending -/

theorem Live.prepared_onAppend (hi : RaftInv P g) (h : Live g s) {req : AppendRequest}
    (hq : AppendFact g c req) (hs : Raft.StepsDown s req.term s') (ht : s.term ≤ req.term) :
    ∃ g', Prepared P g g' s (s'.onAppend req).1 ∧ ((s'.onAppend req).2.success = true →
      req.prevIndex + req.entries.length ≤ (g'.ledger req.term).length ∧
      (g'.ledger req.term).take (req.prevIndex + req.entries.length) <+:
        (s'.onAppend req).1.log) ∧ (s'.onAppend req).1.term = req.term := by
  have hterm : s'.term = req.term := by rw [hs.term, max_eq_right ht]
  have hd : s'.dirtyFrom = 0 := hs.dirtyFrom.trans h.dirtyFrom
  have hrun : s'.stopped = false := hs.stopped.trans h.running
  obtain ⟨g', h'⟩ := h.prepared_stepsDown hi hs
  obtain ⟨hi', he'⟩ := hi.steps h'.steps
  have hq' := hq.extends hi he'
  obtain ⟨-, hv, -, -⟩ := (h.toVolatile.stepsDown hs).onAppend hi hs.role hrun hd hq hterm
  obtain ⟨h1, h2, h3, h4⟩ := h'.tracks.toVolatile.onAppend hi' hs.role hrun hd hq' hterm
  have hsy := h'.tracks.toSynced.onAppend hrun req
  have hfix := Raft.onAppend_fixes s' req
  have hled : g'.lead req.term ≠ none := by rw [hq'.lead]; exact Option.some_ne_none c
  refine ⟨g', ⟨by rw [hfix.cfg]; exact h'.steps, ⟨h2, hsy, h1, ?_, ?_, ?_, ?_⟩,
    hfix.cfg.trans h'.cfg, ?_, .inr hv.halted, fun hr => ?_⟩, fun h5 => ⟨?_, h4 h5⟩,
    hfix.term.trans hterm⟩
  · rw [hfix.cfg, hfix.term]; exact h'.tracks.term
  · rw [hfix.cfg, hfix.votedFor]; exact h'.tracks.vote
  · rw [hfix.cfg, hfix.storage]; exact h'.tracks.stored
  · refine h3.imp id fun ⟨k, hk, hsp, hl⟩ => ⟨?_, ⟨k, hk, ?_⟩, ?_⟩
    · rw [hfix.term, hterm]; exact hled
    · rw [hfix.storage, hfix.term, hterm, h'.tracks.same hd]; exact hsp
    · rw [hfix.term, hterm]; exact hl
  · rw [hfix.cfg, hfix.storage]; exact h'.disk
  · rw [hfix.role, hs.role] at hr; cases hr
  · have := hq'.entries.length_le
    rw [List.length_append, List.length_take, Nat.min_eq_left hq'.prev_le] at this
    exact this

theorem Leading.noteProgress (h : Leading g s) (hlog : g.ledger s.term = s.log) (hq : AppendFact g c sent)
    (ht : sent.term = s.term) (ha : reply.success = true →
      g.acked p sent.term (sent.prevIndex + sent.entries.length)) (now : Millis) :
    Leading g (s.noteProgress p sent reply now) := by
  have hlen : sent.prevIndex + sent.entries.length ≤ s.log.length := by
    have h1 := hq.entries.length_le
    have h2 := hq.prev_le
    rw [ht, hlog] at h1 h2
    rw [List.length_append, List.length_take, Nat.min_eq_left h2] at h1
    exact h1
  unfold Raft.noteProgress
  by_cases hsu : reply.success
  · rw [if_pos hsu]
    refine ⟨fun q => ?_, fun q hq0 => ?_, h.commits⟩
    · have := h.next q
      dsimp only
      by_cases hqp : q = p
      · subst hqp
        split <;> split <;> (try simp only [update_self]) <;> omega
      · split <;> split <;> simpa [update_of_ne hqp]
    · dsimp only at hq0 ⊢
      split at hq0
      · rename_i hgt
        rw [if_pos hgt]
        by_cases hqp : q = p
        · subst hqp
          rw [update_self]
          exact ⟨_, le_rfl, ht ▸ ha hsu⟩
        · rw [update_of_ne hqp] at hq0 ⊢; exact h.matched q hq0
      · rename_i hgt
        rw [if_neg hgt]
        exact h.matched q hq0
  · rw [if_neg hsu]
    refine ⟨fun q => ?_, h.matched, h.commits⟩
    dsimp only
    split
    · rename_i hback
      by_cases hqp : q = p
      · subst hqp
        rw [update_self]
        have := (h.next q).2
        omega
      · rw [update_of_ne hqp]; exact h.next q
    · exact h.next q

theorem noteProgress_fields (s : Raft n) (p : Fin n) (sent : AppendRequest) (reply : AppendReply)
    (now : Millis) : (s.noteProgress p sent reply now).role = s.role ∧
      (s.noteProgress p sent reply now).votes = s.votes ∧
      (s.noteProgress p sent reply now).seq = s.seq ∧
      (s.noteProgress p sent reply now).out = s.out ∧
      (s.noteProgress p sent reply now).reads = s.reads ∧
      (s.noteProgress p sent reply now).readResults = s.readResults := by
  unfold Raft.noteProgress
  split <;> exact ⟨rfl, rfl, rfl, rfl, rfl, rfl⟩

theorem Live.prepared_onAppendReply (hi : RaftInv P g) (h : Live g s)
    (hq : AppendFact g s.cfg.id sent)
    (ha : reply.success = true → g.acked p sent.term (sent.prevIndex + sent.entries.length)) (now : Millis) :
    ∃ g', Prepared P g g' s (s.onAppendReply p sent reply now) := by
  rcases s.onAppendReply_cases p sent reply now with ⟨-, h1⟩ | ⟨-, h1⟩ | ⟨hr, hst, -, s₁, h1, h2⟩
  · exact h.prepared_stepsDown hi h1
  · rw [h1]; exact ⟨g, h.prepared⟩
  have hv := h.toVolatile.sends h1
  have hr1 : s₁.role = .leader := h1.role.trans hr
  have hf := s₁.frame_notes p sent reply now
  obtain ⟨e1, e2, e3, e4, -, -⟩ := noteProgress_fields s₁ p sent reply now
  have hlead := (hv.leader hr1).noteProgress (hv.leads hr1).2 (hq) (hst.trans h1.term.symm) ha now
  have hv2 : Volatile g ((s₁.noteProgress p sent reply now).noteAcks p sent.seq) := by
    refine ⟨hv.toSound.frame hf, hv.toRooted.frame hf e1, fun hr' => ?_, fun _ => ?_, ?_, ?_⟩
    · have : s₁.role = .candidate := e1 ▸ hr'
      rw [hr1] at this; cases this
    · exact ⟨hlead.next, hlead.matched, hlead.commits⟩
    · intro o ho
      rw [hf.cfg]
      exact hv.out o (e4 ▸ ho)
    · intro _ q req ho ht
      have := hv.seqs hr1 q req (e4 ▸ ho) (ht.trans hf.term)
      exact this.trans e3.ge
  refine ⟨g, h.prepared_frame (h1.toFrame.trans (hf.trans h2.toFrame)) (hv2.sends h2) fun _ => ⟨hr, ?_⟩⟩
  exact h1.seq.trans (e3.ge.trans h2.seq)

/-! ### Clients -/

theorem Live.prepared_onPropose (hi : RaftInv P g) (h : Live g s)
    (hr : s.role = .leader) {command : Str} (hP : P command) (now : Millis) :
    ∃ g', Prepared P g g' s (s.onPropose command now) := by
  obtain ⟨g', hs', h'⟩ := h.toTracks.push hi hr h.dirtyFrom hP
  have hs := Raft.sends_onPropose s command now hr
  have hc := h.toSynced.clean h.saved
  refine ⟨g', Prepared.sends ?_ hs ⟨hc.1, hc.2.1⟩⟩
  exact ⟨hs', h', rfl, h.onDisk_eq, .inl ⟨hc.1, hc.2.1⟩, fun _ => .inl ⟨hr, rfl, le_rfl⟩⟩

theorem Live.prepared_onRead (h : Live g s) (hr : s.role = .leader) (id : ℕ) (now : Millis) :
    Prepared P g g s (s.onRead id now) := by
  have hs := Raft.sends_onRead s id now hr
  have hf : Raft.Frame s { s with reads := s.reads ++ [s.newRead id] } := by
    constructor <;> rfl
  have hv := h.toVolatile.frame hf rfl rfl rfl rfl rfl fun _ ho => ho
  exact h.prepared_frame (hf.trans hs.toFrame) (hv.sends hs) fun _ => ⟨hr, hs.seq⟩

end ChordFs
