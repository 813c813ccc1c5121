import ChordFs.LogRecovery
import ChordFs.RaftWire

/-! # No save is longer than a crash may damage

`FileStorage::open` takes damage within `LOG_TAIL_LIMIT` of the end of the log file for an
interrupted save, so no batch may be longer.  What a step of the core saves besides its term, its
vote and a cut is one entry of its own or the end of one append call
(`Raft.unsaved_of_beforeFinish`).  The sender counts 22 bytes for an entry besides its command and
the file takes up to 58, so the longest batch is a call full of the shortest commands
(`save_within_tail`). -/

namespace ChordFs

open Text

/-! ### The text of a batch -/

theorem length_num_le {v d : ℕ} (hd : 0 < d) (h : v < 10 ^ d) : (num v).length ≤ d :=
  (Nat.length_toDigits_le_iff (by decide) hd).mpr h

theorem length_recordLine (sha : Sha1) (r : LogRecord) :
    (recordLine sha r).length = (recordBody r).length + 9 := by
  simp [recordLine, logRecord, sha.length_short]

/-- The lines of entries take 36 bytes an entry more than an append call is counted for. -/
theorem length_entryRecords (sha : Sha1) {l : List Entry} : ∀ {f : ℕ → ℕ},
    (∀ k < l.length, f k < 10 ^ 20) → (∀ e ∈ l, e.term < 10 ^ 20) →
    (terminated ((l.mapIdx fun k e => LogRecord.entry (f k) e).map (recordLine sha))).length ≤
      batchBytes l + 36 * l.length := by
  induction l with
  | nil => intro f _ _; simp
  | cons e l ih =>
    intro f hf hl
    rw [List.forall_mem_cons] at hl
    have hrest := ih (f := fun k => f (k + 1)) (fun k hk => hf (k + 1) (by simpa using hk)) hl.2
    have hindex := length_num_le (by decide) (hf 0 (by simp))
    have hterm := length_num_le (by decide) hl.1
    have hline : (recordLine sha (.entry (f 0) e)).length ≤ e.command.length + 57 := by
      rw [length_recordLine]
      simp [recordBody, words]
      omega
    rw [List.mapIdx_cons, List.map_cons, terminated_cons]
    simp only [List.length_append, List.length_cons, batchBytes, List.map_cons, List.sum_cons]
      at hrest ⊢
    omega

/-- A batch takes 91 bytes for the term, the vote and the cut, and the lines of its entries. -/
theorem length_batch_le (sha : Sha1) (fs : FileStorage) {c : SaveCall} (hterm : c.term < 10 ^ 20)
    (hlen : c.log.length < 10 ^ 20) (hvote : (voteWord c.votedFor).length ≤ 20)
    (hfrom : c.from_ ≤ c.log.length + 1) (hpos : 0 < c.from_)
    (hceiling : ∀ e ∈ c.log, e.term ≤ c.term) : let new := c.log.drop (c.from_ - 1)
    (fs.batch sha c).length ≤ 91 + (batchBytes new + 36 * new.length) := by
  dsimp only
  have hentries := length_entryRecords sha (l := c.log.drop (c.from_ - 1)) (f := fun k => c.from_ + k)
    (fun k hk => by
      rw [List.length_drop] at hk
      omega)
    (fun e he => lt_of_le_of_lt (hceiling e (List.mem_of_mem_drop he)) hterm)
  have hnum := length_num_le (by decide) hterm
  have hcut : (num c.from_).length ≤ 21 := length_num_le (by decide) (by omega)
  have hmeta : (terminated ((if c.term ≠ fs.term ∨ c.votedFor ≠ fs.votedFor then
      [LogRecord.term c.term c.votedFor] else []).map (recordLine sha))).length ≤ 56 := by
    split
    · simp [terminated_cons, length_recordLine, recordBody, words]
      omega
    · simp
  have hback : (terminated ((if c.from_ ≤ fs.last then [LogRecord.cut c.from_] else []).map
      (recordLine sha))).length ≤ 35 := by
    split
    · simp [terminated_cons, length_recordLine, recordBody, words]
      omega
    · simp
  rw [FileStorage.batch, FileStorage.records, List.map_append, List.map_append, terminated_append,
    terminated_append, List.length_append, List.length_append]
  omega

theorem length_of_valid {es : List Entry} (h : ∀ e ∈ es, validCommand e.command = true) :
    26 * es.length ≤ batchBytes es ∧ batchBytes es ≤ 313 * es.length := by
  induction es with
  | nil => simp [batchBytes]
  | cons e es ih =>
    rw [List.forall_mem_cons] at h
    have hrest := ih h.2
    have hlen := length_of_validCommand h.1
    simp only [batchBytes, List.map_cons, List.sum_cons, List.length_cons] at hrest ⊢
    omega

theorem FitsIn.of_suffix {limit : ℕ} {es es' : List Entry} (h : FitsIn limit es)
    (hs : es' <:+ es) : FitsIn limit es' := by
  refine h.imp (fun hb => le_trans ?_ hb) hs.length_le.trans
  obtain ⟨l, rfl⟩ := hs
  simp [batchBytes]

/-! ### What a step has to save -/

namespace Raft

variable {n : ℕ} {s s' : Raft n}

/-- The entries `finish` saves. -/
def unsaved (s : Raft n) : List Entry := s.log.drop (s.saveFrom - 1)

theorem unsaved_of_clean (h : s.dirtyFrom = 0) : s.unsaved.length ≤ 1 := by
  simp [unsaved, saveFrom, lastIndex, h]

theorem unsaved_of_push {e : Entry} (hl : s'.log = s.log ++ [e])
    (hd : s'.dirtyFrom = s.log.length + 1) : s'.unsaved.length ≤ 1 := by
  simp [unsaved, saveFrom, hl, hd]

theorem unsaved_becomeLeader (h : s.dirtyFrom = 0) (now : Millis) :
    (s.becomeLeader now).unsaved.length ≤ 1 := by
  have hs := sends_becomeLeader s now
  refine unsaved_of_push (s := s) hs.log (hs.dirtyFrom.trans ?_)
  simp [takeLead, changedFrom, h, lastIndex]

theorem unsaved_startElection (h : s.dirtyFrom = 0) (now : Millis) :
    (s.startElection now).unsaved.length ≤ 1 := by
  unfold startElection
  dsimp only
  split
  · exact unsaved_becomeLeader (s := s.stand now) h now
  · exact unsaved_of_clean h

/-- The entries of a call that the replica does not hold yet are the last ones of the call. -/
theorem unsaved_appendEntries (hd : s.dirtyFrom = 0) (hs : s.stopped = false) {i : ℕ}
    (hi : i ≤ s.log.length) (es : List Entry) : (s.appendEntries i es).unsaved <:+ es := by
  obtain ⟨held, rest, rfl, hlen, -, ⟨-, h⟩ | ⟨e, es', -, ⟨-, -, -, h⟩ | ⟨-, h⟩⟩⟩ :=
    appendEntries_cases es hs hi
  · simp [h, unsaved, saveFrom, lastIndex, hd]
  · simp [h, unsaved, saveFrom, lastIndex, hd]
  · rw [h]
    simp [unsaved, saveFrom, changedFrom, hd, List.length_take, Nat.min_eq_left hlen]

/-- **What a step has to save** is at most one entry, or the end of an append call. -/
theorem unsaved_of_beforeFinish (hd : s.dirtyFrom = 0) {x : Input n} (hb : s.beforeFinish x = some s') :
    s'.unsaved.length ≤ 1 ∨
      ∃ req now, x = .handleAppend req now ∧ s'.unsaved <:+ req.entries := by
  cases x with
  | tick now =>
    obtain ⟨-, ⟨⟩⟩ := Option.ite_none_left_eq_some.mp hb
    rcases s.onTick_cases now with ⟨-, h⟩ | ⟨-, h⟩ | h
    · rw [h]; exact .inl (unsaved_startElection hd now)
    · exact .inl (unsaved_of_clean (h.dirtyFrom.trans hd))
    · exact .inl (unsaved_of_clean (h.dirtyFrom.trans hd))
  | handleVote req now =>
    obtain ⟨-, ⟨⟩⟩ := Option.ite_none_left_eq_some.mp hb
    obtain ⟨s₁, h, h'⟩ := s.onVote_cases req now
    have hd₁ : s₁.dirtyFrom = 0 := by
      rcases h with ⟨-, rfl⟩ | ⟨-, h⟩
      · exact hd
      · exact h.dirtyFrom.trans hd
    rcases h' with ⟨-, h'⟩ | h' <;> rw [h'] <;> exact .inl (unsaved_of_clean hd₁)
  | handleVoteReply p sent reply now =>
    obtain ⟨-, ⟨⟩⟩ := Option.ite_none_left_eq_some.mp hb
    left
    rcases s.onVoteReply_cases p sent reply now with ⟨-, h⟩ | h | ⟨-, h | ⟨-, h⟩⟩
    · exact unsaved_of_clean (h.dirtyFrom.trans hd)
    · rw [h]; exact unsaved_of_clean hd
    · rw [h]; exact unsaved_of_clean hd
    · rw [h]
      apply unsaved_becomeLeader
      exact hd
  | handleAppend req now =>
    obtain ⟨hs, h⟩ := Option.ite_none_left_eq_some.mp hb
    split at h
    · cases h
      exact .inl (unsaved_of_clean hd)
    obtain ⟨hst, ⟨⟩⟩ := Option.ite_none_left_eq_some.mp h
    have hdown := stepsDown_append s req now
    have hd₁ := hdown.dirtyFrom.trans hd
    have hs₁ := hdown.stopped.trans (Bool.eq_false_iff.mpr hs)
    generalize (s.becomeFollower req.term req.leader now).resetElectionTimer now = s₁ at hst hd₁ hs₁ ⊢
    rcases s₁.onAppend_cases req with ⟨h1, -⟩ | ⟨hprev, -, ⟨h1, h2, -⟩ | ⟨h1, h2⟩⟩
    · rw [h1]; exact .inl (unsaved_of_clean hd₁)
    · rw [h2] at hst
      exact absurd h1 hst
    · rw [h2]
      exact .inr ⟨req, now, rfl, unsaved_appendEntries hd₁ hs₁ hprev req.entries⟩
  | handleAppendReply p sent reply now =>
    obtain ⟨-, ⟨⟩⟩ := Option.ite_none_left_eq_some.mp hb
    refine .inl (unsaved_of_clean ?_)
    rcases s.onAppendReply_cases p sent reply now with ⟨-, h⟩ | ⟨-, h⟩ | ⟨-, -, -, s₁, h, h'⟩
    · exact h.dirtyFrom.trans hd
    · rw [h]; exact hd
    · rw [h'.dirtyFrom, (s₁.frame_notes p sent reply now).dirtyFrom, h.dirtyFrom, hd]
  | propose command now =>
    obtain ⟨hs, ⟨⟩⟩ := Option.ite_none_left_eq_some.mp hb
    rw [not_or, not_not] at hs
    have hp := s.sends_onPropose command now hs.2
    refine .inl (unsaved_of_push (s := s) hp.log (hp.dirtyFrom.trans ?_))
    simp [changedFrom, hd]
  | read id now =>
    obtain ⟨hs, ⟨⟩⟩ := Option.ite_none_left_eq_some.mp hb
    rw [not_or, not_not] at hs
    exact .inl (unsaved_of_clean ((s.sends_onRead id now hs.2).dirtyFrom.trans hd))
  | callFailed | takeOutgoing | takeReads => cases hb

theorem unsaved_beforeStart (cfg : RaftConfig n) (d : Durable) (now : Millis) :
    (beforeStart cfg d now).unsaved.length ≤ 1 := by
  unfold beforeStart
  dsimp only
  split
  · exact unsaved_startElection rfl now
  · exact unsaved_of_clean rfl

theorem Act.cfg {x : Input n} (h : Act x s s') : s'.cfg = s.cfg := by
  cases h with
  | sends h => exact h.cfg
  | stepsDown h => exact h.cfg
  | appends => exact (s.onAppend_fixes _).cfg
  | notes => exact (s.frame_notes _ _ _ _).cfg
  | stands | asks | counts | takesLead | grants | pushes | enters => rfl

theorem Effect.cfg {x : Input n} (h : Effect x s s') : s'.cfg = s.cfg := by
  cases h with
  | act h => exact h.cfg
  | stops => exact (s.onAppend_fixes _).cfg
  | persists s o =>
    unfold persist
    split
    · cases o <;> rfl
    · rfl
  | settles s => exact s.settles_settle.cfg
  | drops | givesCalls | givesReads => rfl

end Raft

/-! ### The calls of a run -/

namespace World

variable {n : ℕ} {w w' : World n}

/-- A replica is started with this limit for its batches. -/
def Starts (limit : ℕ) : Event n → Prop
  | .boot _ cfg _ _ => cfg.maxAppendBytes = limit
  | .input _ _ _ | .crash _ => True

instance decidableStarts (limit : ℕ) : (e : Event n) → Decidable (Starts limit e)
  | .boot _ cfg _ _ => inferInstanceAs (Decidable (cfg.maxAppendBytes = limit))
  | .input _ _ _ | .crash _ => isTrue trivial

/-- Every append call stays within the limit. -/
structure Limits (limit : ℕ) (w : World n) : Prop where
  core : ∀ {i s}, w.machine i = .up s → s.cfg.maxAppendBytes = limit ∧ s.Batched
  calls : ∀ {j p req}, (j, .append p req) ∈ w.calls → FitsIn limit req.entries

theorem Limits.step {limit : ℕ} {e : Event n} (h : Limits limit w) (he : Starts limit e)
    (hstep : w.step e = some w') : Limits limit w' where
  core {i s} hm := by
    refine core_step (Q := fun s => s.cfg.maxAppendBytes = limit ∧ s.Batched) ?_ ?_ hstep h.core hm
    · rintro k cfg now o rfl d
      exact ⟨he, fun p req hr => by cases hr⟩
    · intro x s s' he hq
      exact ⟨he.cfg ▸ hq.1, hq.2.effect he⟩
  calls {j p req} hc := by
    rcases step_cases hstep with ⟨k, cfg, now, o, d, -, -, -, rfl⟩ | ⟨k, x, o, s, -, hk, -, rfl⟩ |
      ⟨k, s, -, -, rfl⟩
    · exact h.calls hc
    · rcases mem_record_calls hc with hc | ⟨out, rfl, hout, -, ho⟩
      · exact h.calls hc
      · cases hout
        obtain ⟨hlimit, hb⟩ := h.core hk
        exact hlimit ▸ hb p req ho
    · exact h.calls hc

theorem Limits.init (limit : ℕ) : Limits limit (init : World n) where
  core hm := by cases hm
  calls hc := by cases hc

end World

theorem length_voteWord {n : ℕ} (hn : n ≤ 10 ^ 20) {v : ℤ} (h : v = NOBODY ∨ ∃ k : Fin n, v = k) :
    (voteWord v).length ≤ 20 := by
  unfold voteWord
  split
  · decide
  · rcases h with h | ⟨k, rfl⟩
    · contradiction
    · exact length_num_le (by decide) (k.isLt.trans_le hn)

/-- **No save is longer than a crash may damage.**  In every run in which valid commands are
proposed and the replicas are started with the default batch size, and whatever their files hold,
the batch of every save a replica may make is at most `LOG_TAIL_LIMIT` long, as long as its numbers
have up to 20 digits. -/
theorem save_within_tail (sha : Sha1) {n : ℕ} (hn : n ≤ 10 ^ 20) {es : List (Event n)}
    (hvalid : ∀ e ∈ es, World.Proposes (fun c => validCommand c = true) e)
    (hlimit : ∀ e ∈ es, World.Starts (64 * 1024) e) {f : FileWorld n}
    (hf : World.init.run es = some f.group) {i : Fin n} {c : SaveCall} (hs : f.Saves i c)
    (hterm : c.term < 10 ^ 20) (hlen : c.log.length < 10 ^ 20) :
    ((f.storage i).batch sha c).length ≤ LOG_TAIL_LIMIT := by
  obtain ⟨g, hg⟩ := rel_of_reachable validCommand_noop (World.steps_of_run hvalid hf)
  have hcalls := World.run_induction (fun he hstep h => World.Limits.step h he hstep) hlimit hf (World.Limits.init _)
  -- the core as it calls `finish`
  obtain ⟨s₀, s, g', hp, hcall, hfits⟩ : ∃ s₀ s g', Prepared (fun c => validCommand c = true) g g' s₀ s ∧
      s.saveCall = some c ∧ FitsIn (64 * 1024) s.unsaved := by
    rcases hs with ⟨s₀, x, s, hm, ha, hx, hb, hcall⟩ | ⟨d, cfg, now, hm, -, rfl, hcall⟩
    · obtain ⟨g', hp⟩ := hg.prepared validCommand_noop hm ha hx hb
      refine ⟨s₀, s, g', hp, hcall, ?_⟩
      have hd := (hg.live hm (Raft.input_of_beforeFinish hb .ok).2).dirtyFrom
      rcases Raft.unsaved_of_beforeFinish hd hb with h | ⟨req, now, rfl, h⟩
      · exact .inr h
      · obtain ⟨⟨j, o⟩, hc, rfl⟩ := ha
        exact (hcalls.calls hc).of_suffix h
    · obtain ⟨g', hp⟩ := hg.prepared_start validCommand_noop hm now
      exact ⟨_, _, g', hp, hcall, .inr (Raft.unsaved_beforeStart cfg d now)⟩
  obtain ⟨-, -, rfl⟩ := Raft.saveCall_eq_some hcall
  have hbatch := length_batch_le sha (f.storage i) hterm hlen (length_voteWord hn hp.voter)
    hp.tracks.toSynced.saveFrom_le s.saveFrom_pos fun e he => (hp.entry_of_mem hg.inv he).1
  have hbytes : _ ∧ _ := @length_of_valid s.unsaved
    fun e he => (hp.entry_of_mem hg.inv (List.mem_of_mem_drop he)).2
  rw [Raft.unsaved] at hfits hbytes
  dsimp only at hbatch
  rw [LOG_TAIL_LIMIT]
  rcases hfits with h | h <;> omega

/-- A follower's save of the leader's first entry. -/
theorem save_within_tail_follower : let c : SaveCall := ⟨1, 0, 1, [⟨1, NOOP⟩]⟩
    (({} : FileStorage).batch recordDigests c).length ≤ LOG_TAIL_LIMIT := by
  intro c
  have hrun : World.init.run (election.take 8) =
      some ((World.init.run (election.take 8)).getD .init) := by
    obtain ⟨w, hw⟩ := Option.isSome_iff_exists.mp
      (show (World.init.run (election.take 8)).isSome = true by decide +kernel)
    rw [hw, Option.getD_some]
  obtain ⟨s, hm, hs⟩ := Machine.exists_of_runs
    (m := ((World.init.run (election.take 8)).getD .init).machine 1)
    (q := fun s => (s.beforeFinish (.handleAppend ⟨1, 0, 0, 0, [⟨1, NOOP⟩], 0, 1⟩ 153)).bind
      Raft.saveCall = some c) (by decide +kernel)
  obtain ⟨s₁, hb, hc⟩ := Option.bind_eq_some_iff.mp (of_decide_eq_true hs)
  exact save_within_tail recordDigests (by decide) (by decide +kernel) (by decide +kernel)
    (f := ⟨_, fun _ => [], fun _ => {}⟩) hrun (i := 1)
    (.inl ⟨s, .handleAppend _ _, s₁, hm, by decide +kernel, trivial, hb, hc⟩) (by decide) (by decide)

end ChordFs
