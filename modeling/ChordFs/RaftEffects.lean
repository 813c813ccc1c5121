import ChordFs.RaftCore
import Mathlib.Algebra.Order.Ring.Int
import Mathlib.Logic.Relation

/-! # What the pieces of the core can change

One specification for each function the inputs are made of, so that later proofs cite it and do
not unfold the function: `Frame` says that nothing saved, committed or applied changed, `Sends`
that a leader only put append calls into `out`; the steps of `finish` each come with a lemma that
says which fields they touch and how. -/

namespace ChordFs

open Function

namespace Raft

variable {n : ℕ} {s s' s'' : Raft n}

/-! ### Frames -/

/-- Between `s` and `s'` nothing changed that is saved, committed or applied. -/
structure Frame (s s' : Raft n) : Prop where
  cfg : s'.cfg = s.cfg
  storage : s'.storage = s.storage
  term : s'.term = s.term
  votedFor : s'.votedFor = s.votedFor
  log : s'.log = s.log
  dirty : s'.dirty = s.dirty
  dirtyFrom : s'.dirtyFrom = s.dirtyFrom
  stopped : s'.stopped = s.stopped
  commit : s'.commit = s.commit
  applied : s'.applied = s.applied
  applies : s'.applies = s.applies

variable {x : Input n} {s₁ : Raft n} {r : Raft n × Output n}

theorem Frame.refl (s : Raft n) : Frame s s := by
  constructor <;> rfl

theorem Frame.trans (h : Frame s s') (h' : Frame s' s'') : Frame s s'' :=
  ⟨h'.cfg.trans h.cfg, h'.storage.trans h.storage, h'.term.trans h.term,
    h'.votedFor.trans h.votedFor, h'.log.trans h.log, h'.dirty.trans h.dirty,
    h'.dirtyFrom.trans h.dirtyFrom, h'.stopped.trans h.stopped, h'.commit.trans h.commit,
    h'.applied.trans h.applied, h'.applies.trans h.applies⟩

theorem frame_noteProgress (s : Raft n) (p : Fin n) (sent : AppendRequest) (reply : AppendReply)
    (now : Millis) : Frame s (s.noteProgress p sent reply now) := by
  unfold noteProgress
  split <;> (constructor <;> rfl)

theorem resolveReads_eq (s : Raft n) :
    ∃ reads results, s.resolveReads = { s with reads := reads, readResults := results } := by
  unfold resolveReads
  split
  · exact ⟨s.reads, s.readResults, rfl⟩
  · split
    · exact ⟨_, _, rfl⟩
    · exact ⟨_, _, rfl⟩

theorem frame_resolveReads (s : Raft n) : Frame s s.resolveReads := by
  obtain ⟨reads, results, h⟩ := s.resolveReads_eq
  rw [h]
  constructor <;> rfl

/-! ### Stepping down -/

/-- Between `s` and `s'` the replica stepped down to follower, in the term `t` if that is newer. -/
structure StepsDown (s : Raft n) (t : ℕ) (s' : Raft n) : Prop where
  cfg : s'.cfg = s.cfg
  storage : s'.storage = s.storage
  log : s'.log = s.log
  dirtyFrom : s'.dirtyFrom = s.dirtyFrom
  stopped : s'.stopped = s.stopped
  commit : s'.commit = s.commit
  applied : s'.applied = s.applied
  applies : s'.applies = s.applies
  seq : s'.seq = s.seq
  out : s'.out = s.out
  role : s'.role = .follower
  term : s'.term = max s.term t
  votedFor : s'.votedFor = if s.term < t then NOBODY else s.votedFor
  dirty : s'.dirty = if s.term < t then true else s.dirty
  reads : s'.reads = if s.role = .follower then s.reads else []
  readResults : s'.readResults = if s.role = .follower then s.readResults
    else s.readResults ++ s.reads.map fun r => ⟨r.id, false⟩

theorem stepsDown_becomeFollower (s : Raft n) (t : ℕ) (leader : ℤ) (now : Millis) :
    StepsDown s t (s.becomeFollower t leader now) := by
  unfold becomeFollower
  by_cases ht : s.term < t <;> by_cases hr : s.role = .follower <;> constructor <;>
    simp [ht, hr, changedMeta, resetElectionTimer, failReads] <;> omega

theorem StepsDown.resetElectionTimer {t : ℕ} (h : StepsDown s t s') (now : Millis) :
    StepsDown s t (s'.resetElectionTimer now) :=
  ⟨h.cfg, h.storage, h.log, h.dirtyFrom, h.stopped, h.commit, h.applied, h.applies, h.seq, h.out,
    h.role, h.term, h.votedFor, h.dirty, h.reads, h.readResults⟩

theorem stepsDown_append (s : Raft n) (req : AppendRequest) (now : Millis) :
    StepsDown s req.term ((s.becomeFollower req.term req.leader now).resetElectionTimer now) :=
  (stepsDown_becomeFollower ..).resetElectionTimer now

/-! ### Sending -/

/-- The call `appendCall` makes, under the number `k`. -/
def numberedCall (s : Raft n) (p : Fin n) (k : ℕ) : Outgoing n :=
  .append p { s.appendCall p with seq := k }

/-- Between `s` and `s'` append calls were put into `out`, and timers moved. -/
structure Sends (s s' : Raft n) : Prop extends Frame s s' where
  role : s'.role = s.role
  votes : s'.votes = s.votes
  next : s'.next = s.next
  match_ : s'.match_ = s.match_
  reads : s'.reads = s.reads
  readResults : s'.readResults = s.readResults
  seq : s.seq ≤ s'.seq
  out : ∃ calls, s'.out = s.out ++ calls ∧
    ∀ o ∈ calls, s.role = .leader ∧ ∃ p k, s.seq < k ∧ k ≤ s'.seq ∧ o = s.numberedCall p k

theorem Sends.refl (s : Raft n) : Sends s s :=
  ⟨Frame.refl s, rfl, rfl, rfl, rfl, rfl, rfl, le_rfl, [], by simp, by simp⟩

theorem Sends.numberedCall (h : Sends s s') (p : Fin n) (k : ℕ) :
    s'.numberedCall p k = s.numberedCall p k := by
  simp only [Raft.numberedCall, appendCall, Raft.termAt, h.cfg, h.term, h.next, h.log, h.commit]

theorem Sends.trans (h : Sends s s') (h' : Sends s' s'') : Sends s s'' where
  toFrame := h.toFrame.trans h'.toFrame
  role := h'.role.trans h.role
  votes := h'.votes.trans h.votes
  next := h'.next.trans h.next
  match_ := h'.match_.trans h.match_
  reads := h'.reads.trans h.reads
  readResults := h'.readResults.trans h.readResults
  seq := h.seq.trans h'.seq
  out := by
    obtain ⟨c, hc, hcs⟩ := h.out
    obtain ⟨c', hc', hcs'⟩ := h'.out
    refine ⟨c ++ c', by rw [hc', hc, List.append_assoc], fun o ho => ?_⟩
    rcases List.mem_append.mp ho with ho | ho
    · obtain ⟨hr, p, k, h1, h2, h3⟩ := hcs o ho
      exact ⟨hr, p, k, h1, h2.trans h'.seq, h3⟩
    · obtain ⟨hr, p, k, h1, h2, h3⟩ := hcs' o ho
      refine ⟨h.role ▸ hr, p, k, lt_of_le_of_lt h.seq h1, h2, ?_⟩
      rw [h3, h.numberedCall]

theorem sends_sendAppend (s : Raft n) (p : Fin n) (now : Millis) (hr : s.role = .leader) :
    Sends s (s.sendAppend p now) := by
  refine ⟨(by constructor <;> rfl), rfl, rfl, rfl, rfl, rfl, rfl,
    Nat.le_succ _, [s.numberedCall p (s.seq + 1)], rfl, fun o ho => ?_⟩
  exact ⟨hr, p, s.seq + 1, Nat.lt_succ_self _, le_rfl, List.mem_singleton.mp ho⟩

theorem sends_timers (s : Raft n) (inflight : Fin n → Bool) (due retry heard : Fin n → Millis) :
    Sends s { s with
      inflight := inflight, heartbeatDue := due, retryAfter := retry, heard := heard } :=
  ⟨(by constructor <;> rfl), rfl, rfl, rfl, rfl, rfl, rfl, le_rfl, [],
    by simp, by simp⟩

theorem sends_sendIfDue (s : Raft n) (p : Fin n) (now : Millis) (force : Bool) :
    Sends s (s.sendIfDue p now force) := by
  unfold sendIfDue
  split
  · split
    · exact sends_timers s s.inflight _ s.retryAfter s.heard
    · exact Sends.refl s
  · rename_i h
    split
    · exact sends_sendAppend s p now (by simp only [not_or, not_not] at h; exact h.1)
    · exact Sends.refl s

theorem sends_callFailed (s : Raft n) (to_ : Fin n) (sent : Outgoing n) (now : Millis) :
    Sends s (s.callFailed to_ sent now) := by
  unfold callFailed
  split
  · exact Sends.refl s
  · split
    · exact Sends.refl s
    · exact sends_timers s _ s.heartbeatDue _ s.heard

theorem sends_foldl {f : Raft n → Fin n → Raft n} (hf : ∀ s p, s.role = .leader → Sends s (f s p))
    (l : List (Fin n)) (s : Raft n) (hr : s.role = .leader) : Sends s (l.foldl f s) :=
  List.foldlRecOn l f (motive := fun s' => Sends s s') (Sends.refl s)
    fun s' hs p _ => hs.trans (hf s' p (hs.role.trans hr))

theorem sends_becomeLeader (s : Raft n) (now : Millis) :
    Sends (s.takeLead now) (s.becomeLeader now) :=
  sends_foldl (fun s p hr => sends_sendAppend s p now hr) _ _ rfl

/-! ### The inputs of a leader -/

theorem onTick_cases (s : Raft n) (now : Millis) :
    s.role ≠ .leader ∧ s.onTick now = s.startElection now ∨
    s.role = .leader ∧ StepsDown s s.term (s.onTick now) ∨ Sends s (s.onTick now) := by
  unfold onTick
  split
  · rename_i hr
    split
    · exact .inl ⟨hr, rfl⟩
    · exact .inr (.inr (Sends.refl s))
  · rename_i hr
    rw [not_not] at hr
    split
    · exact .inr (.inl ⟨hr, stepsDown_becomeFollower s _ _ _⟩)
    · refine .inr (.inr (sends_foldl (fun s p _ => ?_) _ _ hr))
      dsimp only
      split
      · exact (sends_timers s _ s.heartbeatDue s.retryAfter s.heard).trans (sends_sendIfDue _ _ _ _)
      · exact sends_sendIfDue _ _ _ _

theorem sends_onPropose (s : Raft n) (command : Str) (now : Millis) (hr : s.role = .leader) :
    Sends (changedFrom { s with log := s.log ++ [⟨s.term, command⟩] } (s.log.length + 1))
      (s.onPropose command now) := by
  have h := sends_foldl (fun s p _ => sends_sendIfDue s p now false) s.peers
    (changedFrom { s with log := s.log ++ [⟨s.term, command⟩] } (s.log.length + 1)) hr
  simpa [onPropose, Raft.lastIndex, peers, changedFrom] using h

theorem sends_onRead (s : Raft n) (id : ℕ) (now : Millis) (hr : s.role = .leader) :
    Sends { s with reads := s.reads ++ [s.newRead id] } (s.onRead id now) :=
  sends_foldl (fun s p _ => sends_sendIfDue s p now true) _ _ hr

theorem onAppendReply_cases (s : Raft n) (p : Fin n) (sent : AppendRequest) (reply : AppendReply)
    (now : Millis) :
    s.term < reply.term ∧ StepsDown s reply.term (s.onAppendReply p sent reply now) ∨
    (s.role = .leader → sent.term = s.term → reply.term ≠ s.term) ∧ s.onAppendReply p sent reply now = s ∨
    s.role = .leader ∧ sent.term = s.term ∧ reply.term = s.term ∧ ∃ s₁, Sends s s₁ ∧
      Sends ((s₁.noteProgress p sent reply now).noteAcks p sent.seq)
        (s.onAppendReply p sent reply now) := by
  unfold onAppendReply
  split
  · rename_i h
    exact .inl ⟨h, stepsDown_becomeFollower s _ _ _⟩
  · split
    · rename_i h
      refine .inr (.inl ⟨fun hr ht ht' => ?_, rfl⟩)
      simp [hr, ht, ht'] at h
    · rename_i h
      simp only [not_or, not_not] at h
      exact .inr (.inr ⟨h.1, h.2.1, h.2.2, _,
        sends_timers s _ s.heartbeatDue s.retryAfter _, sends_sendIfDue _ _ _ _⟩)

theorem frame_notes (s : Raft n) (p : Fin n) (sent : AppendRequest) (reply : AppendReply)
    (now : Millis) : Frame s ((s.noteProgress p sent reply now).noteAcks p sent.seq) :=
  (frame_noteProgress s p sent reply now).trans (by constructor <;> rfl)

/-! ### The inputs of a follower -/

theorem onVote_cases (s : Raft n) (req : VoteRequest) (now : Millis) :
    ∃ s₁, (¬ s.term < req.term ∧ s₁ = s ∨ s.term < req.term ∧ StepsDown s req.term s₁) ∧
      (s₁.grants req ∧ s.onVote req now =
        ((changedMeta { s₁ with votedFor := req.candidate }).resetElectionTimer now, true) ∨
      s.onVote req now = (s₁, false)) := by
  refine ⟨if req.term > s.term then s.becomeFollower req.term NOBODY now else s, ?_, ?_⟩
  · by_cases h : req.term > s.term
    · rw [if_pos h]; exact .inr ⟨h, stepsDown_becomeFollower s _ _ _⟩
    · rw [if_neg h]; exact .inl ⟨h, rfl⟩
  · unfold onVote
    dsimp only
    by_cases h : (if req.term > s.term then s.becomeFollower req.term NOBODY now else s).grants req
    · exact .inl ⟨h, by rw [if_pos h]⟩
    · exact .inr (by rw [if_neg h])

theorem onVoteReply_cases (s : Raft n) (p : Fin n) (sent : VoteRequest) (reply : VoteReply)
    (now : Millis) :
    s.term < reply.term ∧ StepsDown s reply.term (s.onVoteReply p sent reply now) ∨
    s.onVoteReply p sent reply now = s ∨
    (s.role = .candidate ∧ sent.term = s.term ∧ reply.term = s.term ∧ reply.granted) ∧
      (s.onVoteReply p sent reply now = { s with votes := update s.votes p true } ∨
      Majority n ((List.finRange n).countP (update s.votes p true)) ∧
        s.onVoteReply p sent reply now =
          becomeLeader { s with votes := update s.votes p true } now) := by
  unfold onVoteReply
  split
  · rename_i h
    exact .inl ⟨h, stepsDown_becomeFollower s _ _ _⟩
  · split
    · rename_i h
      refine .inr (.inr ⟨h, ?_⟩)
      dsimp only
      split
      · rename_i hm; exact .inr ⟨hm, rfl⟩
      · exact .inl rfl
    · exact .inr (.inl rfl)

/-- What an append call leaves alone. -/
structure Fixes (s s' : Raft n) : Prop where
  cfg : s'.cfg = s.cfg
  storage : s'.storage = s.storage
  term : s'.term = s.term
  votedFor : s'.votedFor = s.votedFor
  role : s'.role = s.role
  applies : s'.applies = s.applies
  reads : s'.reads = s.reads
  readResults : s'.readResults = s.readResults
  out : s'.out = s.out

theorem Fixes.refl (s : Raft n) : Fixes s s := by
  constructor <;> rfl

theorem Fixes.trans (h : Fixes s s') (h' : Fixes s' s'') : Fixes s s'' :=
  ⟨h'.cfg.trans h.cfg, h'.storage.trans h.storage, h'.term.trans h.term, h'.votedFor.trans h.votedFor,
    h'.role.trans h.role, h'.applies.trans h.applies, h'.reads.trans h.reads,
    h'.readResults.trans h.readResults, h'.out.trans h.out⟩

/-- Between `s` and `s'` entries were written to the log; the replica may have stopped. -/
structure Appends (s s' : Raft n) : Prop extends Fixes s s' where
  commit : s'.commit = s.commit
  applied : s'.applied = s.applied

theorem appends_appendEntry (s : Raft n) (i : ℕ) (e : Entry) : Appends s (s.appendEntry i e) := by
  unfold appendEntry
  dsimp only
  split
  · split
    · exact ⟨.refl s, rfl, rfl⟩
    · split <;> exact ⟨by constructor <;> rfl, rfl, rfl⟩
  · exact ⟨by constructor <;> rfl, rfl, rfl⟩

theorem appends_appendEntries (es : List Entry) : ∀ (s : Raft n) (i : ℕ),
    Appends s (s.appendEntries i es) := by
  induction es with
  | nil => exact fun s i => ⟨.refl s, rfl, rfl⟩
  | cons e es ih =>
    intro s i
    have h := appends_appendEntry s (i + 1) e
    rw [appendEntries]
    split
    · exact h
    · have h' := ih (s.appendEntry (i + 1) e) (i + 1)
      exact ⟨h.toFixes.trans h'.toFixes, h'.commit.trans h.commit, h'.applied.trans h.applied⟩

theorem appendEntry_cases {i : ℕ} (hi : i ≤ s.log.length) (e : Entry) :
    i < s.log.length ∧ s.termAt (i + 1) = e.term ∧ s.appendEntry (i + 1) e = s ∨
    i < s.log.length ∧ s.termAt (i + 1) ≠ e.term ∧ i < s.commit ∧
      s.appendEntry (i + 1) e = { s with stopped := true } ∨
    (s.log.length = i ∨ i < s.log.length ∧ s.termAt (i + 1) ≠ e.term ∧ s.commit ≤ i) ∧
      s.appendEntry (i + 1) e = changedFrom { s with log := s.log.take i ++ [e] } (i + 1) := by
  unfold appendEntry
  dsimp only
  by_cases hle : i + 1 ≤ s.lastIndex
  · rw [if_pos hle]
    by_cases ht : s.termAt (i + 1) = e.term
    · exact .inl ⟨hle, ht, if_pos ht⟩
    · rw [if_neg ht]
      by_cases hc : i + 1 ≤ s.commit
      · exact .inr (.inl ⟨hle, ht, hc, if_pos hc⟩)
      · refine .inr (.inr ⟨.inr ⟨hle, ht, Nat.lt_succ_iff.mp (not_le.mp hc)⟩, ?_⟩)
        rw [if_neg hc]
        unfold changedFrom
        dsimp only
        congr 1
        split_ifs <;> omega
  · have hend : s.log.length = i := le_antisymm (Nat.lt_succ_iff.mp (not_le.mp hle)) hi
    refine .inr (.inr ⟨.inl hend, ?_⟩)
    rw [if_neg hle, List.take_of_length_le hend.le]

theorem appendEntries_new (es : List Entry) : ∀ {s : Raft n} {i : ℕ}, s.log.length = i →
    s.stopped = false → s.dirty = true → s.dirtyFrom ≠ 0 → s.dirtyFrom ≤ i →
    s.appendEntries i es = { s with log := s.log ++ es } := by
  induction es with
  | nil => intro s i _ _ _ _ _; simp [appendEntries]
  | cons e es ih =>
    intro s i hi hs hd h0 hle
    have hone : s.appendEntry (i + 1) e = { s with log := s.log ++ [e] } := by
      unfold appendEntry changedFrom
      dsimp only
      rw [if_neg (show ¬ i + 1 ≤ s.lastIndex by rw [lastIndex]; omega), if_neg (by omega), hd]
    rw [appendEntries, hone, if_neg (by simp [hs]),
      ih (s := { s with log := s.log ++ [e] }) (by simp [hi]) hs hd h0 (Nat.le_succ_of_le hle)]
    simp

/-- **The loop over the entries of a call.**  It comes by the entries that are held; then the call
is over, or an entry would replace a committed one, or the rest is written from there on. -/
theorem appendEntries_cases (es : List Entry) : ∀ {i : ℕ}, s.stopped = false → i ≤ s.log.length →
    ∃ held rest, es = held ++ rest ∧ i + held.length ≤ s.log.length ∧
      (∀ k e, held[k]? = some e → s.termAt (i + k + 1) = e.term) ∧
      (rest = [] ∧ s.appendEntries i es = s ∨
        ∃ e es', rest = e :: es' ∧
          (i + held.length < s.log.length ∧ s.termAt (i + held.length + 1) ≠ e.term ∧
            i + held.length < s.commit ∧ s.appendEntries i es = { s with stopped := true } ∨
          (s.log.length = i + held.length ∨ i + held.length < s.log.length ∧
            s.termAt (i + held.length + 1) ≠ e.term ∧ s.commit ≤ i + held.length) ∧
          s.appendEntries i es =
            changedFrom { s with log := s.log.take (i + held.length) ++ rest } (i + held.length + 1))) := by
  induction es with
  | nil => exact fun _ hi => ⟨[], [], rfl, hi, by simp, .inl ⟨rfl, rfl⟩⟩
  | cons e es ih =>
    intro i hs hi
    rw [appendEntries]
    rcases appendEntry_cases hi e with ⟨hlt, ht, h⟩ | ⟨hlt, ht, hc, h⟩ | ⟨hw, h⟩
    · obtain ⟨held, rest, rfl, hlen, hterm, hr⟩ := ih hs hlt
      have hshift : i + (e :: held).length = i + 1 + held.length := by
        rw [List.length_cons]
        omega
      rw [h, if_neg (by simp [hs])]
      refine ⟨e :: held, rest, rfl, hshift ▸ hlen, ?_, hshift ▸ hr⟩
      rintro (_ | k) f hf
      · cases hf
        exact ht
      · rw [← hterm k f hf, Nat.succ_add_eq_add_succ]
    · rw [h, if_pos rfl]
      exact ⟨[], e :: es, rfl, hi, by simp, .inr ⟨e, es, rfl, .inl ⟨hlt, ht, hc, rfl⟩⟩⟩
    · rw [h, if_neg (by simp [changedFrom, hs])]
      refine ⟨[], e :: es, rfl, hi, by simp, .inr ⟨e, es, rfl, .inr ⟨hw, ?_⟩⟩⟩
      rw [appendEntries_new]
      · simp [changedFrom]
      · simp [changedFrom, hi]
      · exact hs
      · rfl
      · simp only [changedFrom]
        split_ifs <;> omega
      · simp only [changedFrom]
        split_ifs <;> omega

/-- An append call fails the consistency check, stops the replica, or is taken. -/
theorem onAppend_cases (s : Raft n) (req : AppendRequest) :
    (s.onAppend req).1 = s ∧ (s.onAppend req).2.success = false ∨
    req.prevIndex ≤ s.log.length ∧ s.termAt req.prevIndex = req.prevTerm ∧
      ((s.appendEntries req.prevIndex req.entries).stopped = true ∧
        (s.onAppend req).1 = s.appendEntries req.prevIndex req.entries ∧
        (s.onAppend req).2.success = false ∨
      (s.appendEntries req.prevIndex req.entries).stopped = false ∧
        (s.onAppend req).1 = { s.appendEntries req.prevIndex req.entries with
          commit := if req.commit > s.commit then min req.commit
            (req.prevIndex + req.entries.length) else s.commit }) := by
  have hc := (appends_appendEntries req.entries s req.prevIndex).commit
  unfold onAppend
  split
  · exact .inl ⟨rfl, rfl⟩
  · rename_i hp
    split
    · exact .inl ⟨rfl, rfl⟩
    · rename_i ht
      refine .inr ⟨by rw [Raft.lastIndex] at hp; omega, not_not.mp ht, ?_⟩
      rw [← hc]
      generalize s.appendEntries req.prevIndex req.entries = s₁
      cases hst : s₁.stopped with
      | true => exact .inl ⟨rfl, by simp [hst], by simp [hst]⟩
      | false =>
        refine .inr ⟨rfl, ?_⟩
        rw [if_neg (by simp [hst])]
        by_cases hq : req.commit > s₁.commit
        · rw [if_pos hq, if_pos hq]
        · rw [if_neg hq, if_neg hq]

theorem onAppend_fixes (s : Raft n) (req : AppendRequest) : Fixes s (s.onAppend req).1 := by
  have ha := (appends_appendEntries req.entries s req.prevIndex).toFixes
  rcases s.onAppend_cases req with ⟨h, -⟩ | ⟨-, -, ⟨-, h, -⟩ | ⟨-, h⟩⟩ <;> rw [h]
  · exact .refl s
  · exact ha
  · exact ha.trans (by constructor <;> rfl)

/-! ### The end of every step -/

/-- The log with its indexes, as the apply function sees it. -/
def numbered (l : List Entry) : List (ℕ × Entry) := l.mapIdx fun k e => (k + 1, e)

/-- The commit rule moves `commit` to a later index of the leader's own term that a majority
holds, or not at all. -/
theorem advanceCommitFrom_cases (s : Raft n) (k : ℕ) : s.advanceCommitFrom k = s ∨
    ∃ i, s.commit < i ∧ i ≤ k ∧ s.termAt i = s.term ∧ Majority n (s.copies i) ∧
      s.advanceCommitFrom k = { s with commit := i } := by
  induction k with
  | zero => exact .inl rfl
  | succ k ih =>
    rw [advanceCommitFrom]
    split
    · exact .inl rfl
    split
    · exact .inl rfl
    rename_i hc ht
    split
    · rename_i hm
      exact .inr ⟨k + 1, by omega, le_rfl, not_not.mp ht, hm, rfl⟩
    · rcases ih with h | ⟨i, h1, h2, h3⟩
      · exact .inl h
      · exact .inr ⟨i, h1, h2.trans (Nat.le_succ k), h3⟩

theorem advanceCommit_cases (s : Raft n) : s.advanceCommit = s ∨
    ∃ i, s.commit < i ∧ i ≤ s.log.length ∧ s.termAt i = s.term ∧ Majority n (s.copies i) ∧
      s.advanceCommit = { s with commit := i } :=
  s.advanceCommitFrom_cases s.lastIndex

theorem applyNext_iterate (k : ℕ) : ∀ s : Raft n,
    applyNext^[k] s = { s with applied := s.applied + k, applies := (applyNext^[k] s).applies } := by
  induction k with
  | zero => intro s; rfl
  | succ k ih =>
    intro s
    rw [iterate_succ_apply, ih]
    simp only [applyNext, Nat.add_assoc, Nat.add_comm 1 k]

theorem applyCommitted_eq (s : Raft n) : s.applyCommitted =
    { s with applied := max s.applied s.commit, applies := s.applyCommitted.applies } := by
  have h : max s.applied s.commit = s.applied + (s.commit - s.applied) := by omega
  rw [h]
  exact applyNext_iterate _ s

theorem numbered_take_succ {l : List Entry} {k : ℕ} (h : k < l.length) (d : Entry) :
    numbered (l.take (k + 1)) = numbered (l.take k) ++ [(k + 1, l.getD k d)] := by
  rw [numbered, numbered, List.take_succ_eq_append_getElem h, List.mapIdx_append]
  simp [List.length_take, Nat.min_eq_left h.le, h]

theorem applyNext_iterate_applies (k : ℕ) : ∀ s : Raft n,
    s.applies = numbered (s.log.take s.applied) → s.applied + k ≤ s.log.length →
    (applyNext^[k] s).applies = numbered (s.log.take (s.applied + k)) := by
  induction k with
  | zero => intro s h _; exact h
  | succ k ih =>
    intro s h hle
    rw [iterate_succ_apply]
    have hs : s.applyNext.applies = numbered (s.applyNext.log.take s.applyNext.applied) := by
      simp only [applyNext]
      rw [numbered_take_succ (by omega) ⟨0, []⟩, h]
    rw [ih s.applyNext hs (by simp only [applyNext]; omega)]
    simp only [applyNext, Nat.add_assoc, Nat.add_comm 1 k]

/-- As long as the log reaches that far, the calls made are the log's entries in order. -/
theorem applyCommitted_applies (h : s.applies = numbered (s.log.take s.applied))
    (hc : s.commit ≤ s.log.length) (ha : s.applied ≤ s.log.length) :
    s.applyCommitted.applies = numbered (s.log.take (max s.applied s.commit)) := by
  have hm : max s.applied s.commit = s.applied + (s.commit - s.applied) := by omega
  rw [hm]
  exact applyNext_iterate_applies _ s h (by omega)

/-! ### What an input does before `finish` -/

/-- The state in which the input calls `finish`; `none` if it returns without. -/
def beforeFinish (s : Raft n) : Input n → Option (Raft n)
  | .tick now => if s.stopped then none else some (s.onTick now)
  | .handleVote req now => if s.stopped then none else some (s.onVote req now).1
  | .handleVoteReply p sent reply now =>
    if s.stopped then none else some (s.onVoteReply p sent reply now)
  | .handleAppend req now =>
    if s.stopped then none
    else if req.term < s.term then some s
    else
      let s' := (((s.becomeFollower req.term req.leader now).resetElectionTimer now).onAppend req).1
      if s'.stopped then none else some s'
  | .handleAppendReply p sent reply now =>
    if s.stopped then none else some (s.onAppendReply p sent reply now)
  | .propose command now =>
    if s.stopped ∨ s.role ≠ .leader then none else some (s.onPropose command now)
  | .read id now => if s.stopped ∨ s.role ≠ .leader then none else some (s.onRead id now)
  | .callFailed _ _ _ | .takeOutgoing | .takeReads => none

theorem input_of_beforeFinish (h : s.beforeFinish x = some s₁) (o : Saved) :
    (s.input x o).1 = s₁.finish o ∧ s.stopped = false := by
  cases x with
  | handleAppend req now =>
    obtain ⟨hs, h⟩ := Option.ite_none_left_eq_some.mp h
    refine ⟨?_, Bool.eq_false_iff.mpr hs⟩
    simp only [input, handleAppend, if_neg hs]
    split at h
    · rename_i hlt
      cases h
      rw [if_pos hlt]
    · rename_i hlt
      obtain ⟨hst, ⟨⟩⟩ := Option.ite_none_left_eq_some.mp h
      rw [if_neg hlt, if_neg hst]
  | propose | read =>
    obtain ⟨hs, ⟨⟩⟩ := Option.ite_none_left_eq_some.mp h
    exact ⟨by simp only [input, propose, read, if_neg hs], Bool.eq_false_iff.mpr (not_or.mp hs).1⟩
  | tick | handleVoteReply | handleAppendReply =>
    obtain ⟨hs, ⟨⟩⟩ := Option.ite_none_left_eq_some.mp h
    exact ⟨if_neg hs, Bool.eq_false_iff.mpr hs⟩
  | handleVote =>
    obtain ⟨hs, ⟨⟩⟩ := Option.ite_none_left_eq_some.mp h
    exact ⟨by simp only [input, handleVote, if_neg hs], Bool.eq_false_iff.mpr hs⟩
  | callFailed | takeOutgoing | takeReads => cases h

/-- What the input `x` does before `finish` is made of these. -/
inductive Act (x : Input n) : Raft n → Raft n → Prop
  | sends {s s' : Raft n} (h : Sends s s') : Act x s s'
  | stepsDown {s s' : Raft n} {t : ℕ} (h : StepsDown s t s') : Act x s s'
  | stands {s : Raft n} (hr : s.role ≠ .leader) (now : Millis) : Act x s (s.stand now)
  | asks {s : Raft n} (hr : s.role = .candidate) (req : VoteRequest) :
      Act x s { s with out := s.out ++ s.peers.map fun p => .vote p req }
  | counts {s : Raft n} (hr : s.role = .candidate) (p : Fin n) :
      Act x s { s with votes := Function.update s.votes p true }
  | takesLead {s : Raft n} (hr : s.role = .candidate) (now : Millis) : Act x s (s.takeLead now)
  | grants {req : VoteRequest} {now : Millis} (hx : x = .handleVote req now) (s : Raft n) :
      Act x s ((changedMeta { s with votedFor := req.candidate }).resetElectionTimer now)
  | notes {p : Fin n} {sent : AppendRequest} {reply : AppendReply} {now : Millis}
      (hx : x = .handleAppendReply p sent reply now) {s : Raft n} (hr : s.role = .leader)
      (hsent : sent.term = s.term) (hreply : reply.term = s.term) :
      Act x s ((s.noteProgress p sent reply now).noteAcks p sent.seq)
  | appends {req : AppendRequest} {now : Millis} (hx : x = .handleAppend req now) {s : Raft n}
      (hs : (s.onAppend req).1.stopped = s.stopped) : Act x s (s.onAppend req).1
  | pushes {command : Str} {now : Millis} (hx : x = .propose command now) {s : Raft n}
      (hr : s.role = .leader) :
      Act x s (changedFrom { s with log := s.log ++ [⟨s.term, command⟩] } (s.log.length + 1))
  | enters {id : ℕ} {now : Millis} (hx : x = .read id now) {s : Raft n} (hr : s.role = .leader) :
      Act x s { s with reads := s.reads ++ [s.newRead id] }

/-- One after the other. -/
abbrev Acts (x : Input n) : Raft n → Raft n → Prop := Relation.ReflTransGen (Act x)

theorem acts_startElection (hr : s.role ≠ .leader) (now : Millis) : Acts x s (s.startElection now) := by
  have hst : Acts x s (s.stand now) := .single (.stands hr now)
  unfold startElection
  dsimp only
  split
  · exact (hst.tail (.takesLead rfl now)).tail (.sends (sends_becomeLeader _ now))
  · exact hst.tail (.asks rfl _)

theorem acts_onTick (x : Input n) (s : Raft n) (now : Millis) : Acts x s (s.onTick now) := by
  rcases s.onTick_cases now with ⟨hr, h⟩ | ⟨-, h⟩ | h
  · rw [h]; exact acts_startElection hr now
  · exact .single (.stepsDown h)
  · exact .single (.sends h)

theorem acts_onVote (s : Raft n) (req : VoteRequest) (now : Millis) :
    Acts (.handleVote req now) s (s.onVote req now).1 := by
  obtain ⟨s₁, h, h'⟩ := s.onVote_cases req now
  have h₁ : Acts (.handleVote req now) s s₁ := by
    rcases h with ⟨-, rfl⟩ | ⟨-, h⟩
    · exact .refl
    · exact .single (.stepsDown h)
  rcases h' with ⟨-, h'⟩ | h' <;> rw [h']
  · exact h₁.tail (.grants rfl s₁)
  · exact h₁

theorem acts_onVoteReply (x : Input n) (s : Raft n) (p : Fin n) (sent : VoteRequest)
    (reply : VoteReply) (now : Millis) : Acts x s (s.onVoteReply p sent reply now) := by
  rcases s.onVoteReply_cases p sent reply now with ⟨-, h⟩ | h | ⟨⟨hr, -⟩, h | ⟨-, h⟩⟩
  · exact .single (.stepsDown h)
  · rw [h]
  · rw [h]; exact .single (.counts hr p)
  · rw [h]
    refine .head (.counts hr p) (.head (.takesLead ?_ now) (.single (.sends (sends_becomeLeader _ now))))
    exact hr

theorem acts_onAppendReply (s : Raft n) (p : Fin n) (sent : AppendRequest) (reply : AppendReply)
    (now : Millis) :
    Acts (.handleAppendReply p sent reply now) s (s.onAppendReply p sent reply now) := by
  rcases s.onAppendReply_cases p sent reply now with ⟨-, h⟩ | ⟨-, h⟩ | ⟨hr, ht, ht', s₁, h, h'⟩
  · exact .single (.stepsDown h)
  · rw [h]
  · have hnotes := Act.notes (x := .handleAppendReply p sent reply now) rfl (h.role.trans hr)
      (ht.trans h.term.symm) (ht'.trans h.term.symm)
    exact .head (.sends h) (.head hnotes (.single (.sends h')))

/-- **What an input does before `finish` is a sequence of acts.** -/
theorem acts_of_beforeFinish (h : s.beforeFinish x = some s₁) : Acts x s s₁ := by
  cases x with
  | tick now =>
    obtain ⟨-, ⟨⟩⟩ := Option.ite_none_left_eq_some.mp h
    exact acts_onTick _ s now
  | handleVote req now =>
    obtain ⟨-, ⟨⟩⟩ := Option.ite_none_left_eq_some.mp h
    exact acts_onVote s req now
  | handleVoteReply p sent reply now =>
    obtain ⟨-, ⟨⟩⟩ := Option.ite_none_left_eq_some.mp h
    exact acts_onVoteReply _ s p sent reply now
  | handleAppend req now =>
    obtain ⟨hs, h⟩ := Option.ite_none_left_eq_some.mp h
    split at h
    · cases h
      exact .refl
    · obtain ⟨hst, ⟨⟩⟩ := Option.ite_none_left_eq_some.mp h
      have hd := stepsDown_append s req now
      refine .head (.stepsDown hd) (.single (.appends rfl ?_))
      rw [Bool.eq_false_iff.mpr hst, hd.stopped, Bool.eq_false_iff.mpr hs]
  | handleAppendReply p sent reply now =>
    obtain ⟨-, ⟨⟩⟩ := Option.ite_none_left_eq_some.mp h
    exact acts_onAppendReply s p sent reply now
  | propose command now =>
    obtain ⟨hs, ⟨⟩⟩ := Option.ite_none_left_eq_some.mp h
    rw [not_or, not_not] at hs
    exact .head (.pushes rfl hs.2) (.single (.sends (s.sends_onPropose command now hs.2)))
  | read id now =>
    obtain ⟨hs, ⟨⟩⟩ := Option.ite_none_left_eq_some.mp h
    rw [not_or, not_not] at hs
    exact .head (.enters rfl hs.2) (.single (.sends (s.sends_onRead id now hs.2)))
  | callFailed | takeOutgoing | takeReads => cases h

/-- What a method returns that does nothing. -/
def refusal (s : Raft n) : Input n → Output n
  | .handleVote _ _ => .vote ⟨s.term, false⟩
  | .handleAppend _ _ => .append ⟨s.term, false, 0⟩
  | .propose _ _ => .proposed none
  | .read _ _ => .reading false
  | _ => .done

/-- What an input comes to that returns without `finish`: nothing, a timer moved, what waits handed
out, or the stop on a conflict with a committed entry. -/
inductive Unfinished (s : Raft n) : Input n → Raft n × Output n → Prop
  | refuses {x : Input n} (h : s.stopped = true) : Unfinished s x (s, s.refusal x)
  | notLeading {x : Input n} (hr : s.role ≠ .leader)
      (hx : ∃ now, (∃ command, x = .propose command now) ∨ ∃ id, x = .read id now) :
      Unfinished s x (s, s.refusal x)
  | fails (to_ : Fin n) (sent : Outgoing n) (now : Millis) :
      Unfinished s (.callFailed to_ sent now) (s.callFailed to_ sent now, .done)
  | givesCalls : Unfinished s .takeOutgoing (s.takeOutgoing.1, .calls s.out)
  | givesReads : Unfinished s .takeReads (s.takeReads.1, .results s.readResults)
  | stops {req : AppendRequest} {now : Millis} {s₁ : Raft n} (hs : s.stopped = false)
      (ht : s.term ≤ req.term) (hd : StepsDown s req.term s₁)
      (h₁ : s₁ = (s.becomeFollower req.term req.leader now).resetElectionTimer now)
      (hst : (s₁.onAppend req).1.stopped = true) :
      Unfinished s (.handleAppend req now) ((s₁.onAppend req).1, .append (s₁.onAppend req).2)

theorem unfinished_of_beforeFinish (h : s.beforeFinish x = none) (o : Saved) :
    Unfinished s x (s.input x o) := by
  cases x with
  | handleAppend req now =>
    simp only [beforeFinish] at h
    simp only [input, handleAppend]
    split at h
    · rename_i hs
      rw [if_pos hs]
      exact .refuses hs
    rename_i hs
    split at h
    · cases h
    rename_i hlt
    split at h
    · rename_i hst
      rw [if_neg hs, if_neg hlt, if_pos hst]
      have hd := stepsDown_append s req now
      exact .stops (Bool.eq_false_iff.mpr hs) (not_lt.mp hlt) hd rfl hst
    · cases h
  | propose _ now | read _ now =>
    simp only [beforeFinish] at h
    split at h
    · rename_i hs
      simp only [input, propose, read, if_pos hs]
      rcases hs with hs | hr
      · exact .refuses hs
      · exact .notLeading hr ⟨now, by simp⟩
    · cases h
  | tick | handleVote | handleVoteReply | handleAppendReply =>
    simp only [beforeFinish] at h
    split at h
    · rename_i hs
      simp only [input, tick, handleVote, handleVoteReply, handleAppendReply, if_pos hs]
      exact .refuses hs
    · cases h
  | callFailed to_ sent now => exact .fails to_ sent now
  | takeOutgoing => exact .givesCalls
  | takeReads => exact .givesReads

theorem Unfinished.storage (h : Unfinished s x r) :
    r.1.storage = s.storage ∧ (s.stopped = true → r.1.stopped = true) := by
  cases h with
  | fails to_ sent now =>
    have hs := (sends_callFailed s to_ sent now).toFrame
    exact ⟨hs.storage, fun h => hs.stopped.trans h⟩
  | stops _ _ hd _ hst => exact ⟨(onAppend_fixes _ _).storage.trans hd.storage, fun _ => hst⟩
  | refuses | notLeading | givesCalls | givesReads => exact ⟨rfl, fun h => h⟩

/-- The state in which the constructor calls `finish`. -/
def beforeStart (cfg : RaftConfig n) (d : Durable) (now : Millis) : Raft n :=
  let s := (fresh cfg d).resetElectionTimer now
  if n = 1 then s.startElection now else s

theorem start_eq (cfg : RaftConfig n) (d : Durable) (now : Millis) (o : Saved) :
    start cfg d now o = (beforeStart cfg d now).finish o := rfl

theorem acts_beforeStart (x : Input n) (cfg : RaftConfig n) (d : Durable) (now : Millis) :
    Acts x ((fresh cfg d).resetElectionTimer now) (beforeStart cfg d now) := by
  unfold beforeStart
  dsimp only
  split
  · exact acts_startElection (fun hr => by cases hr) now
  · exact .refl

/-! ### An input as a sequence of effects -/

/-- The effects the input `x` is made of: acts, an append call that stops the replica, and what
comes after. -/
inductive Effect (x : Input n) : Raft n → Raft n → Prop
  | act {s s' : Raft n} (h : Act x s s') : Effect x s s'
  | stops {req : AppendRequest} {now : Millis} (hx : x = .handleAppend req now) (s : Raft n) :
      Effect x s (s.onAppend req).1
  | persists (s : Raft n) (o : Saved) : Effect x s (s.persist o)
  | settles (s : Raft n) : Effect x s s.settle
  | drops (s : Raft n) : Effect x s { s with out := [], readResults := [] }
  | givesCalls (s : Raft n) : Effect x s s.takeOutgoing.1
  | givesReads (s : Raft n) : Effect x s s.takeReads.1

/-- Effects one after the other. -/
abbrev Effects (x : Input n) : Raft n → Raft n → Prop := Relation.ReflTransGen (Effect x)

theorem Acts.effects (h : Acts x s s') : Effects x s s' :=
  Relation.ReflTransGen.mono (fun _ _ ha => .act ha) _ _ h

theorem effects_finish (x : Input n) (s : Raft n) (o : Saved) : Effects x s (s.finish o) := by
  unfold finish
  split
  · exact .single (.drops s)
  · have hp : Effects x s (s.persist o) := .single (.persists s o)
    dsimp only
    split
    · exact hp
    · exact hp.tail (.settles _)

theorem Unfinished.effects (h : Unfinished s x r) : Effects x s r.1 := by
  cases h with
  | refuses | notLeading => exact .refl
  | fails to_ sent now => exact .single (.act (.sends (sends_callFailed s to_ sent now)))
  | givesCalls => exact .single (.givesCalls s)
  | givesReads => exact .single (.givesReads s)
  | stops _ _ hd => exact .head (.act (.stepsDown hd)) (.single (.stops rfl _))

/-- **Every input is a sequence of effects.** -/
theorem effects_input (s : Raft n) (x : Input n) (o : Saved) : Effects x s (s.input x o).1 := by
  cases hb : s.beforeFinish x with
  | none => exact (unfinished_of_beforeFinish hb o).effects
  | some s₁ =>
    rw [(input_of_beforeFinish hb o).1]
    exact (acts_of_beforeFinish hb).effects.trans (effects_finish x s₁ o)

theorem effects_start (x : Input n) (cfg : RaftConfig n) (d : Durable) (now : Millis) (o : Saved) :
    Effects x ((fresh cfg d).resetElectionTimer now) (start cfg d now o) :=
  (acts_beforeStart x cfg d now).effects.trans (effects_finish x _ o)

end Raft

end ChordFs
