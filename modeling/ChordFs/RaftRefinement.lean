import ChordFs.Lib.ConsensusSafety
import ChordFs.RaftWorld
import Mathlib.Algebra.Order.Ring.Int
import Mathlib.Data.Fintype.Card
import Mathlib.Data.Fin.Basic

/-! # The core refines the consensus protocol

What a replica's core holds, in terms of the facts recorded by the abstract protocol of
`Lib/Consensus.lean`: `Tracks g s` for a running replica, `Halted g s` for one that a failed save
stopped.  Each transition of the core is matched by steps of the protocol by the same node
(`Tracks.stepsDown`, `Tracks.grant`, `Tracks.stand`, `Tracks.win`, `Tracks.push`,
`Tracks.onAppend`), and so is `finish`, whether its save succeeds or not (`Prepared.finish`). -/

namespace ChordFs

open Consensus TermLog Function

/-- The recorded facts of the abstract protocol, for a group of `n` replicas. -/
abbrev Facts (n : ℕ) := Consensus.State (Fin n) Str

/-- More than half of the group is a quorum. -/
def majorities (n : ℕ) : QuorumSystem (Fin n) where
  isQuorum A := Majority n A.card
  inter {A B} hA hB := by
    refine Finset.inter_nonempty_of_card_lt_card_add_card (s := Finset.univ)
      (Finset.subset_univ A) (Finset.subset_univ B) ?_
    simp only [Majority] at hA hB
    rw [Finset.card_univ, Fintype.card_fin]
    omega

/-- A vote as the core stores it. -/
def voteOf {n : ℕ} : Option (Fin n) → ℤ
  | none => NOBODY
  | some c => c

theorem voteOf_eq_nobody {n : ℕ} {o : Option (Fin n)} (h : voteOf o = NOBODY) : o = none := by
  cases o with
  | none => rfl
  | some c => simp only [voteOf, NOBODY] at h; omega

theorem voteOf_eq_coe {n : ℕ} {o : Option (Fin n)} {c : Fin n} (h : voteOf o = (c : ℤ)) :
    o = some c := by
  cases o with
  | none => simp only [voteOf, NOBODY] at h; omega
  | some c' =>
    simp only [voteOf] at h
    exact congrArg some (Fin.ext (by omega))

/-- A node's state as its disk holds it. -/
def onDisk {n : ℕ} (x : Voter (Fin n) Str) : Durable := ⟨x.term, voteOf x.vote, x.log⟩

variable {n : ℕ} {P : Str → Prop} {g g' : Facts n} {s s' : Raft n}

abbrev RaftInv (P : Str → Prop) (g : Facts n) : Prop := Inv (majorities n) P g

abbrev RaftStep (P : Str → Prop) : Fin n → Facts n → Facts n → Prop := Step (majorities n) P

abbrev RaftSteps (P : Str → Prop) : Fin n → Facts n → Facts n → Prop := Steps (majorities n) P

/-! ### Calls -/

/-- What an append call says about the ledger of its term. -/
structure AppendFact (g : Facts n) (i : Fin n) (req : AppendRequest) : Prop where
  leader : req.leader = i
  lead : g.lead req.term = some i
  prev_le : req.prevIndex ≤ (g.ledger req.term).length
  prevTerm : req.prevTerm = termAt (g.ledger req.term) req.prevIndex
  entries : (g.ledger req.term).take req.prevIndex ++ req.entries <+: g.ledger req.term
  commit_le : req.commit ≤ (g.ledger req.term).length
  commit : CommittedBy g req.term ((g.ledger req.term).take req.commit)

/-- A call made by replica `i` states recorded facts. -/
def Said (g : Facts n) (i : Fin n) : Outgoing n → Prop
  | .vote _ req => req.candidate = i ∧
      ∃ l, g.stood i req.term = some l ∧ req.lastIndex = l.length ∧ req.lastTerm = lastTerm l
  | .append _ req => AppendFact g i req

theorem AppendFact.extends (hi : RaftInv P g) (he : Extends g g') {i : Fin n}
    {req : AppendRequest} (h : AppendFact g i req) : AppendFact g' i req where
  leader := h.leader
  lead := he.lead h.lead
  prev_le := h.prev_le.trans (he.ledger_prefix _).length_le
  prevTerm := h.prevTerm.trans (termAt_of_isPrefix (he.ledger_prefix _) h.prev_le)
  entries := by
    rw [he.take_ledger h.prev_le]
    exact h.entries.trans (he.ledger_prefix _)
  commit_le := h.commit_le.trans (he.ledger_prefix _).length_le
  commit := by
    rw [he.take_ledger h.commit_le]
    exact h.commit.extends hi he

theorem Said.extends (hi : RaftInv P g) (he : Extends g g') {i : Fin n} {o : Outgoing n}
    (h : Said g i o) : Said g' i o := by
  cases o with
  | vote p req =>
    obtain ⟨h1, l, h2, h3⟩ := h
    exact ⟨h1, l, he.stood h2, h3⟩
  | append p req => exact AppendFact.extends hi he h

/-! ### What a replica's memory holds -/

/-- What the replica committed and applied was committed by the protocol. -/
structure Sound (g : Facts n) (s : Raft n) : Prop where
  commit_le : s.commit ≤ s.log.length
  applied_le : s.applied ≤ s.log.length
  committed : CommittedBy g s.term (s.log.take s.commit)
  appliedBy : CommittedBy g s.term (s.log.take s.applied)
  applies : s.applies = Raft.numbered (s.log.take s.applied)

/-- The replica's log agrees with the ledgers, and a leader's is the ledger of its term. -/
structure Rooted (g : Facts n) (s : Raft n) : Prop where
  coherent : Coherent g.ledger s.log
  leads : s.role = .leader → g.lead s.term = some s.cfg.id ∧ g.ledger s.term = s.log

/-- A candidate stood in its term with its log, and counts votes that were cast. -/
structure Standing (g : Facts n) (s : Raft n) : Prop where
  stood : g.stood s.cfg.id s.term = some s.log
  notLed : g.lead s.term ≠ some s.cfg.id
  votes : ∀ p, s.votes p = true → ∃ l, g.ballot p s.term s.cfg.id l

/-- A leader's bookkeeping: where it will send from, what was confirmed, what it committed. -/
structure Leading (g : Facts n) (s : Raft n) : Prop where
  next : ∀ p, s.match_ p < s.next p ∧ s.next p ≤ s.log.length + 1
  matched : ∀ p, 0 < s.match_ p → ∃ m, s.match_ p ≤ m ∧ g.acked p s.term m
  commits : ∀ m, g.committed s.term m → m ≤ s.commit

/-- All of this, together with the calls waiting to be taken. -/
structure Volatile (g : Facts n) (s : Raft n) : Prop extends Sound g s, Rooted g s where
  candidate : s.role = .candidate → Standing g s
  leader : s.role = .leader → Leading g s
  out : ∀ o ∈ s.out, Said g s.cfg.id o
  seqs : s.role = .leader → ∀ p req, Outgoing.append p req ∈ s.out → req.term = s.term →
    req.seq ≤ s.seq

/-- The log was rewritten from the ledger of the replica's term, from `dirtyFrom` on. -/
structure Rewrites (g : Facts n) (s : Raft n) : Prop where
  led : g.lead s.term ≠ none
  splice : ∃ c, c < s.dirtyFrom ∧ Splice s.storage.log (g.ledger s.term) c
  log : s.log <+: g.ledger s.term

/-- A running replica, between inputs or before `finish`: its term and vote are the node's, and the
node's log is the stored one. -/
structure Tracks (g : Facts n) (s : Raft n) : Prop extends Volatile g s, Raft.Synced s where
  running : s.stopped = false
  term : (g.node s.cfg.id).term = s.term
  vote : voteOf (g.node s.cfg.id).vote = s.votedFor
  stored : (g.node s.cfg.id).log = s.storage.log
  written : s.dirtyFrom = 0 ∨ Rewrites g s

/-- In a group of one, a leader stopped before the term it opened was durable. -/
structure Limbo (g : Facts n) (s : Raft n) : Prop where
  single : n = 1
  term : s.term = (g.node s.cfg.id).term + 1
  log : s.log = (g.node s.cfg.id).log ++ [⟨s.term, NOOP⟩]

/-- A replica stopped by a failed save. -/
structure Halted (g : Facts n) (s : Raft n) : Prop extends Sound g s where
  rooted : Rooted g s ∨ Limbo g s
  leader : s.role = .leader → (∀ p, s.match_ p < s.next p ∧ s.next p ≤ s.log.length + 1) ∧
    ∀ p, 0 < s.match_ p → ∃ m, s.match_ p ≤ m ∧ g.acked p s.term m

theorem Volatile.halted (h : Volatile g s) : Halted g s :=
  ⟨h.toSound, .inl h.toRooted, fun hr => ⟨(h.leader hr).next, (h.leader hr).matched⟩⟩

theorem Tracks.log_eq (h : Tracks g s) (hd : s.dirtyFrom = 0) : (g.node s.cfg.id).log = s.log :=
  h.stored.trans (h.same hd)

theorem Tracks.onDisk_eq (h : Tracks g s) (hd : s.dirty = false) :
    onDisk (g.node s.cfg.id) = s.storage := by
  rw [Raft.Clean.storage_eq ⟨h.toSynced, hd⟩, onDisk, h.term, h.vote,
    h.log_eq (h.toSynced.clean hd).2.2]

/-! ### Growth of the recorded facts -/

theorem Sound.extends (hi : RaftInv P g) (he : Extends g g') (h : Sound g s) : Sound g' s :=
  ⟨h.commit_le, h.applied_le, h.committed.extends hi he, h.appliedBy.extends hi he, h.applies⟩

theorem Rooted.extends (he : Extends g g') (ha : Idle s.cfg.id g g') (h : Rooted g s) :
    Rooted g' s where
  coherent := h.coherent.mono he.ledger_prefix
  leads hr := by
    obtain ⟨h1, h2⟩ := h.leads hr
    exact ⟨he.lead h1, (ha.ledger h1).trans h2⟩

section
variable (hi : RaftInv P g) (he : Extends g g')
include hi he

theorem Volatile.extends (ha : Idle s.cfg.id g g') (h : Volatile g s) : Volatile g' s where
  toSound := h.toSound.extends hi he
  toRooted := h.toRooted.extends he ha
  candidate hr := by
    obtain ⟨h1, h2, h3⟩ := h.candidate hr
    refine ⟨he.stood h1, fun h4 => h2 ((ha.lead _).mp h4), fun p hp => ?_⟩
    obtain ⟨l, hl⟩ := h3 p hp
    exact ⟨l, he.ballot hl⟩
  leader hr := by
    obtain ⟨h1, h2, h3⟩ := h.leader hr
    refine ⟨h1, fun p hp => ?_, fun m hm => h3 m (ha.committed (h.leads hr).1 hm)⟩
    obtain ⟨m, hm, hk⟩ := h2 p hp
    exact ⟨m, hm, he.acked hk⟩
  out o ho := (h.out o ho).extends hi he
  seqs := h.seqs

theorem Halted.extends (ha : Apart s.cfg.id g g') (h : Halted g s) : Halted g' s where
  toSound := h.toSound.extends hi he
  rooted := by
    rcases h.rooted with h1 | ⟨h1, h2, h3⟩
    · exact .inl (h1.extends he ha.toIdle)
    · exact .inr ⟨h1, by rw [ha.node]; exact h2, by rw [ha.node]; exact h3⟩
  leader hr := ⟨(h.leader hr).1, fun p hp => ((h.leader hr).2 p hp).imp fun _ hm => ⟨hm.1, he.acked hm.2⟩⟩

/-- Between inputs a replica still tracks the protocol when others have moved on. -/
theorem Tracks.extends (ha : Apart s.cfg.id g g') (hd : s.dirtyFrom = 0) (h : Tracks g s) : Tracks g' s where
  toVolatile := h.toVolatile.extends hi he ha.toIdle
  toSynced := h.toSynced
  running := h.running
  term := by rw [ha.node]; exact h.term
  vote := by rw [ha.node]; exact h.vote
  stored := by rw [ha.node]; exact h.stored
  written := .inl hd

end

/-! ### Transitions that send, and stepping down -/

theorem Sound.frame (hf : Raft.Frame s s') (h : Sound g s) : Sound g s' := by
  constructor
  · rw [hf.commit, hf.log]; exact h.commit_le
  · rw [hf.applied, hf.log]; exact h.applied_le
  · rw [hf.term, hf.log, hf.commit]; exact h.committed
  · rw [hf.term, hf.log, hf.applied]; exact h.appliedBy
  · rw [hf.applies, hf.log, hf.applied]; exact h.applies

theorem Rooted.frame (hf : Raft.Frame s s') (hr : s'.role = s.role) (h : Rooted g s) :
    Rooted g s' := by
  constructor
  · rw [hf.log]; exact h.coherent
  · rw [hf.term, hf.log, hf.cfg, hr]; exact h.leads

theorem isPrefix_takeBatch (limit : ℕ) (es : List Entry) : ∀ (acc : List Entry) (bytes : ℕ),
    Raft.takeBatch limit acc bytes es <+: acc ++ es := by
  induction es with
  | nil => intro acc bytes; simp [Raft.takeBatch]
  | cons e es ih =>
    intro acc bytes
    rw [Raft.takeBatch]
    split
    · exact List.prefix_append _ _
    · simpa using ih (acc ++ [e]) (bytes + (e.command.length + 22))

theorem Volatile.said_numberedCall (h : Volatile g s) (hr : s.role = .leader) (p : Fin n) (k : ℕ) :
    Said g s.cfg.id (s.numberedCall p k) := by
  obtain ⟨hl, hlog⟩ := h.leads hr
  obtain ⟨hn1, hn2⟩ := (h.leader hr).next p
  have hb := isPrefix_takeBatch s.cfg.maxAppendBytes (s.log.drop (s.next p - 1)) [] 0
  refine ⟨rfl, hl, ?_, ?_, ?_, ?_, ?_⟩ <;>
    simp only [Raft.appendCall, Raft.termAt, hlog]
  · omega
  · calc s.log.take (s.next p - 1) ++ _
        <+: s.log.take (s.next p - 1) ++ s.log.drop (s.next p - 1) :=
          (List.prefix_append_right_inj _).mpr (by simpa using hb)
      _ = s.log := List.take_append_drop _ _
  · exact h.commit_le
  · exact h.committed

theorem Volatile.sends (hs : Raft.Sends s s') (h : Volatile g s) : Volatile g s' where
  toSound := h.toSound.frame hs.toFrame
  toRooted := h.toRooted.frame hs.toFrame hs.role
  candidate hr := by
    obtain ⟨h1, h2, h3⟩ := h.candidate (hs.role ▸ hr)
    exact ⟨by rw [hs.cfg, hs.term, hs.log]; exact h1, by rw [hs.cfg, hs.term]; exact h2,
      by rw [hs.cfg, hs.term, hs.votes]; exact h3⟩
  leader hr := by
    obtain ⟨h1, h2, h3⟩ := h.leader (hs.role ▸ hr)
    exact ⟨by rw [hs.next, hs.match_, hs.log]; exact h1, by rw [hs.match_, hs.term]; exact h2,
      by rw [hs.term, hs.commit]; exact h3⟩
  out o ho := by
    obtain ⟨calls, hc, hcs⟩ := hs.out
    rw [hc] at ho
    rw [hs.cfg]
    rcases List.mem_append.mp ho with ho | ho
    · exact h.out o ho
    · obtain ⟨hr, p, k, -, -, rfl⟩ := hcs o ho
      exact h.said_numberedCall hr p k
  seqs hr p req ho ht := by
    obtain ⟨calls, hc, hcs⟩ := hs.out
    rw [hc] at ho
    rcases List.mem_append.mp ho with ho | ho
    · exact (h.seqs (hs.role ▸ hr) p req ho (ht.trans hs.term)).trans hs.seq
    · obtain ⟨-, q, k, -, hk, heq⟩ := hcs _ ho
      simp only [Raft.numberedCall, Outgoing.append.injEq] at heq
      rw [heq.2]
      exact hk

theorem Tracks.frame (hf : Raft.Frame s s') (hv : Volatile g s') (h : Tracks g s) :
    Tracks g s' where
  toVolatile := hv
  toSynced := h.toSynced.frame hf
  running := hf.stopped.trans h.running
  term := by rw [hf.cfg, hf.term]; exact h.term
  vote := by rw [hf.cfg, hf.votedFor]; exact h.vote
  stored := by rw [hf.cfg, hf.storage]; exact h.stored
  written := by
    rw [hf.dirtyFrom]
    exact h.written.imp id fun ⟨h1, h2, h3⟩ => ⟨by rw [hf.term]; exact h1,
      by rw [hf.dirtyFrom, hf.storage, hf.term]; exact h2, by rw [hf.log, hf.term]; exact h3⟩

theorem Tracks.sends (hs : Raft.Sends s s') (h : Tracks g s) : Tracks g s' :=
  h.frame hs.toFrame (h.toVolatile.sends hs)

theorem Volatile.stepsDown {t : ℕ} (hs : Raft.StepsDown s t s') (h : Volatile g s) :
    Volatile g s' := by
  have hle : s.term ≤ s'.term := by rw [hs.term]; exact le_max_left _ _
  have hne : s'.role ≠ .leader := by rw [hs.role]; exact Role.noConfusion
  refine ⟨⟨?_, ?_, ?_, ?_, ?_⟩, ⟨?_, fun hr => absurd hr hne⟩, fun hr => ?_, fun hr => absurd hr hne,
    ?_, fun hr => absurd hr hne⟩
  · rw [hs.commit, hs.log]; exact h.commit_le
  · rw [hs.applied, hs.log]; exact h.applied_le
  · rw [hs.log, hs.commit]; exact h.committed.mono hle
  · rw [hs.log, hs.applied]; exact h.appliedBy.mono hle
  · rw [hs.applies, hs.log, hs.applied]; exact h.applies
  · rw [hs.log]; exact h.coherent
  · rw [hs.role] at hr; cases hr
  · rw [hs.out, hs.cfg]; exact h.out

/-- Stepping down is the adoption of a newer term, or nothing. -/
theorem Tracks.stepsDown (hi : RaftInv P g) (h : Tracks g s) (hd : s.dirtyFrom = 0) {t : ℕ}
    (hs : Raft.StepsDown s t s') : ∃ g', RaftSteps P s.cfg.id g g' ∧ Tracks g' s' := by
  have hv := h.toVolatile.stepsDown hs
  have hy := h.toSynced.stepsDown hs
  by_cases ht : s.term < t
  · have hst : RaftStep P s.cfg.id g _ := .adopt g t (by rw [h.term]; exact ht)
    refine ⟨_, .single hst, hv.extends hi (hi.step_extends hst)
      ⟨fun _ => Iff.rfl, fun _ => rfl, fun _ h => h⟩, hy, hs.stopped.trans h.running, ?_, ?_, ?_,
      .inl (hs.dirtyFrom.trans hd)⟩ <;> rw [hs.cfg] <;> dsimp only <;> rw [update_self]
    · rw [hs.term]; exact (max_eq_right ht.le).symm
    · rw [hs.votedFor, if_pos ht]; rfl
    · rw [hs.storage]; exact h.stored
  · refine ⟨g, .refl, hv, hy, hs.stopped.trans h.running, ?_, ?_, ?_,
      .inl (hs.dirtyFrom.trans hd)⟩ <;> rw [hs.cfg]
    · rw [hs.term, max_eq_left (not_lt.mp ht)]; exact h.term
    · rw [hs.votedFor, if_neg ht]; exact h.vote
    · rw [hs.storage]; exact h.stored

/-! ### Votes -/

/-- Granting a vote to a candidate that stood with a log as up to date. -/
theorem Tracks.grant (hi : RaftInv P g) (h : Tracks g s) (hd : s.dirtyFrom = 0) {c i : Fin n}
    {req : VoteRequest} (hq : Said g c (.vote i req)) (hg : s.grants req) (now : Millis) :
    ∃ g', RaftSteps P s.cfg.id g g' ∧
      Tracks g' ((Raft.changedMeta { s with votedFor := req.candidate }).resetElectionTimer now) ∧
      ∃ l, g'.ballot s.cfg.id req.term c l := by
  obtain ⟨hc, l, hl, h1, h2⟩ := hq
  obtain ⟨ht, hvote, hup⟩ := hg
  have hv : (g.node s.cfg.id).vote = none ∨ (g.node s.cfg.id).vote = some c := by
    rw [← h.vote, hc] at hvote
    exact hvote.imp voteOf_eq_nobody voteOf_eq_coe
  have hu : UpToDate l (g.node s.cfg.id).log := by
    rw [h.log_eq hd]
    simp only [Raft.logAtLeastAsUpToDate, h1, h2] at hup
    exact hup
  have hst : RaftStep P s.cfg.id g _ :=
    .grant g c l hv (by rw [h.term, ← ht]; exact hl) hu
  have hvol := h.toVolatile.extends hi (hi.step_extends hst)
    ⟨fun _ => Iff.rfl, fun _ => rfl, fun _ h => h⟩
  refine ⟨_, .single hst, ⟨?_, h.toSynced.of_log_eq rfl rfl rfl (.inl rfl), h.running, ?_, ?_, ?_,
    .inl hd⟩, (g.node s.cfg.id).log, .inr ⟨rfl, ?_, rfl, rfl⟩⟩
  · exact ⟨⟨hvol.commit_le, hvol.applied_le, hvol.committed, hvol.appliedBy, hvol.applies⟩,
      ⟨hvol.coherent, hvol.leads⟩,
      fun hr => ⟨(hvol.candidate hr).stood, (hvol.candidate hr).notLed, (hvol.candidate hr).votes⟩,
      fun hr => ⟨(hvol.leader hr).next, (hvol.leader hr).matched, (hvol.leader hr).commits⟩,
      hvol.out, hvol.seqs⟩
  · simp only [Raft.resetElectionTimer, Raft.changedMeta, update_self]; exact h.term
  · simp only [Raft.resetElectionTimer, Raft.changedMeta, update_self]; exact hc.symm
  · simp only [Raft.resetElectionTimer, Raft.changedMeta, update_self]; exact h.stored
  · rw [h.term, ht]

/-! ### Elections -/

theorem countP_finRange (p : Fin n → Bool) :
    (List.finRange n).countP p = (Finset.univ.filter fun i => p i = true).card := by
  rw [List.countP_eq_length_filter,
    ← List.toFinset_card_of_nodup ((List.nodup_finRange n).filter p)]
  congr 1
  ext i
  simp

/-- Nobody has led a term that is yet to be opened by its candidate. -/
theorem not_led_succ (hi : RaftInv P g) (v : Fin n) : g.lead ((g.node v).term + 1) ≠ some v := by
  intro hl
  obtain ⟨l, r, hs, -⟩ := hi.led hl
  have := (hi.stood hs).1
  omega

theorem Tracks.stand (hi : RaftInv P g) (h : Tracks g s) (hd : s.dirtyFrom = 0) (now : Millis) :
    ∃ g', RaftSteps P s.cfg.id g g' ∧ Tracks g' (s.stand now) := by
  have hst : RaftStep P s.cfg.id g _ := .stand g
  have he := hi.step_extends hst
  have hlog := h.log_eq hd
  refine ⟨_, .single hst, ⟨⟨⟨h.commit_le, h.applied_le, ?_, ?_, h.applies⟩,
    ⟨?_, (fun hr => by cases hr)⟩, fun _ => ⟨?_, ?_, ?_⟩, (fun hr => by cases hr), ?_,
    (fun hr => by cases hr)⟩, ?_, h.running, ?_, ?_, ?_, .inl hd⟩⟩
  · exact (h.committed.extends hi he).mono (Nat.le_succ _)
  · exact (h.appliedBy.extends hi he).mono (Nat.le_succ _)
  · exact h.coherent.mono he.ledger_prefix
  · show update g.stood s.cfg.id (update _ _ _) s.cfg.id (s.term + 1) = some s.log
    rw [update_self, ← h.term, update_self, hlog]
  · show g.lead (s.term + 1) ≠ some s.cfg.id
    rw [← h.term]
    exact not_led_succ hi s.cfg.id
  · intro p hp
    obtain rfl : p = s.cfg.id := of_decide_eq_true hp
    exact ⟨s.log, .inr ⟨rfl, by rw [h.term]; rfl, rfl, hlog.symm⟩⟩
  · exact fun o ho => (h.out o ho).extends hi he
  · exact h.toSynced.of_log_eq rfl rfl rfl (.inl rfl)
  · show (update g.node s.cfg.id _ s.cfg.id).term = s.term + 1
    rw [update_self, h.term]
  · show voteOf (update g.node s.cfg.id _ s.cfg.id).vote = s.cfg.id
    rw [update_self]
    rfl
  · show (update g.node s.cfg.id _ s.cfg.id).log = s.storage.log
    rw [update_self]
    exact h.stored

theorem Tracks.askVotes (h : Tracks g s) (hr : s.role = .candidate) (ps : List (Fin n)) :
    Tracks g { s with out := s.out ++ ps.map (fun p =>
      Outgoing.vote p ⟨s.term, s.cfg.id, s.lastIndex, s.termAt s.lastIndex⟩) } := by
  refine ⟨⟨⟨h.commit_le, h.applied_le, h.committed, h.appliedBy, h.applies⟩, ⟨h.coherent, h.leads⟩,
    fun _ => ?_, fun hr' => ?_, fun o ho => ?_, fun hr' => ?_⟩,
    h.toSynced.of_log_eq rfl rfl rfl (.inr ⟨rfl, rfl, rfl⟩), h.running, h.term, h.vote, h.stored,
    ?_⟩
  · obtain ⟨h1, h2, h3⟩ := h.candidate hr
    exact ⟨h1, h2, h3⟩
  · rw [hr] at hr'; cases hr'
  · rcases List.mem_append.mp ho with ho | ho
    · exact h.out o ho
    · obtain ⟨p, -, rfl⟩ := List.mem_map.mp ho
      exact ⟨rfl, s.log, (h.candidate hr).stood, rfl, rfl⟩
  · rw [hr] at hr'; cases hr'
  · exact h.written.imp id fun h1 => ⟨h1.led, h1.splice, h1.log⟩

/-- A leader's own entry: proposed to the protocol, and to be written after the stored log. -/
theorem Tracks.push (hi : RaftInv P g) (h : Tracks g s) (hr : s.role = .leader)
    (hd : s.dirtyFrom = 0) {command : Str} (hP : P command) :
    ∃ g', RaftSteps P s.cfg.id g g' ∧ Tracks g'
      (Raft.changedFrom { s with log := s.log ++ [⟨s.term, command⟩] } (s.log.length + 1)) := by
  obtain ⟨hl, hlog⟩ := h.leads hr
  have hst : RaftStep P s.cfg.id g _ :=
    .propose g s.term ⟨s.term, command⟩ hl rfl hP
  have he := hi.step_extends hst
  have hi' := hi.step hst
  have hled : update g.ledger s.term (g.ledger s.term ++ [⟨s.term, command⟩]) s.term =
      s.log ++ [⟨s.term, command⟩] := by rw [update_self, hlog]
  have htake : ∀ {k}, k ≤ s.log.length →
      (s.log ++ [(⟨s.term, command⟩ : Entry)]).take k = s.log.take k :=
    fun hk => List.take_append_of_le_length hk
  have hlen : (s.log ++ [(⟨s.term, command⟩ : Entry)]).length = s.log.length + 1 := by simp
  refine ⟨_, .single hst, ⟨⟨⟨?_, ?_, ?_, ?_, ?_⟩, ⟨?_, fun _ => ⟨hl, hled⟩⟩,
    fun hr' => ?_, fun _ => ⟨?_, ?_, ?_⟩, ?_, ?_⟩, h.toSynced.push _, h.running, h.term, h.vote,
    h.stored, .inr ⟨?_, ⟨s.log.length, ?_, ?_⟩, ?_⟩⟩⟩
  · exact h.commit_le.trans (by simp [Raft.changedFrom])
  · exact h.applied_le.trans (by simp [Raft.changedFrom])
  · simp only [Raft.changedFrom, htake h.commit_le]
    exact h.committed.extends hi he
  · simp only [Raft.changedFrom, htake h.applied_le]
    exact h.appliedBy.extends hi he
  · simp only [Raft.changedFrom, htake h.applied_le]
    exact h.applies
  · have := hi'.ledger_coherent s.term
    dsimp only at this
    rwa [hled] at this
  · simp only [Raft.changedFrom] at hr'
    rw [hr] at hr'; cases hr'
  · intro p
    obtain ⟨h1, h2⟩ := (h.leader hr).next p
    simp only [Raft.changedFrom, hlen]
    omega
  · exact (h.leader hr).matched
  · exact (h.leader hr).commits
  · exact fun o ho => (h.out o ho).extends hi he
  · exact fun _ => h.seqs hr
  · simp only [Raft.changedFrom]
    rw [hl]; exact Option.some_ne_none _
  · simp only [Raft.changedFrom, hd, true_or, if_true]
    omega
  · simp only [Raft.changedFrom, hled, h.same hd]
    exact ⟨by simp, by simp, .inl rfl⟩
  · simp only [Raft.changedFrom, hled]
    exact List.prefix_refl _

/-- A candidate that counts a majority of votes leads its term, and proposes its no-op. -/
theorem Tracks.win (hi : RaftInv P g) (h : Tracks g s) (hr : s.role = .candidate)
    (hd : s.dirtyFrom = 0) (hm : Majority n ((List.finRange n).countP s.votes)) (hP : P NOOP)
    (now : Millis) : ∃ g', RaftSteps P s.cfg.id g g' ∧ Tracks g' (s.becomeLeader now) := by
  obtain ⟨hstood, hnot, hvotes⟩ := h.candidate hr
  have hV : (majorities n).isQuorum (Finset.univ.filter fun p => s.votes p = true) := by
    rw [countP_finRange] at hm
    exact hm
  have hb : ∀ u ∈ Finset.univ.filter fun p => s.votes p = true,
      ∃ l', g.ballot u s.term s.cfg.id l' := fun u hu => hvotes u (Finset.mem_filter.mp hu).2
  have hnone : g.lead s.term = none := by
    cases hl : g.lead s.term with
    | none => rfl
    | some c =>
      rw [hi.eq_of_quorum hV hb hl] at hl
      exact absurd hl hnot
  have hst : RaftStep P s.cfg.id g _ := .win g s.term s.log _ hstood hV hb hnone
  have he := hi.step_extends hst
  have hi' := hi.step hst
  have hlead : update g.lead s.term (some s.cfg.id) s.term = some s.cfg.id :=
    update_self _ _ _
  have hledger : update g.ledger s.term s.log s.term = s.log := update_self _ _ _
  -- the leader before its no-op, with the bookkeeping reset
  have hlead' : Tracks { g with
      lead := update g.lead s.term (some s.cfg.id)
      ledger := update g.ledger s.term s.log }
      { s with
        role := .leader
        leader := s.cfg.id
        next := fun _ => s.lastIndex + 1
        match_ := fun _ => 0
        inflight := fun _ => false
        heartbeatDue := fun _ => now
        retryAfter := fun _ => now
        heard := fun _ => now } := by
    refine ⟨⟨⟨h.commit_le, h.applied_le, h.committed.extends hi he, h.appliedBy.extends hi he,
      h.applies⟩, ⟨h.coherent.mono he.ledger_prefix, fun _ => ⟨hlead, hledger⟩⟩,
      (fun hr' => by cases hr'), fun _ => ⟨?_, ?_, ?_⟩, fun o ho => (h.out o ho).extends hi he, ?_⟩,
      h.toSynced.of_log_eq rfl rfl rfl (.inr ⟨rfl, rfl, rfl⟩), h.running, h.term, h.vote,
      h.stored, .inl hd⟩
    · exact fun _ => ⟨Nat.succ_pos _, le_rfl⟩
    · exact fun _ h0 => absurd h0 (lt_irrefl 0)
    · intro m hc
      obtain ⟨h1, h2, -⟩ := hi.committed hc
      rw [hi.unled hnone] at h1
      exact absurd h1 (by simpa using h2.ne')
    · intro _ p req ho ht
      have := (h.out _ ho).lead
      rw [ht, hnone] at this
      cases this
  obtain ⟨g', hs', ht'⟩ := hlead'.push hi' rfl hd hP
  refine ⟨g', .head hst hs', Tracks.sends (Raft.sends_becomeLeader s now) ?_⟩
  exact ht'

end ChordFs
