import ChordFs.RaftEffects

/-! # Nothing leaves before it is durable

The core does not write its whole state at every step: it collects whether the term, the vote or
the log changed (`dirty`) and the first index that did (`dirtyFrom`), and `finish` saves from
there.  `Synced` is what makes that enough; every transition keeps it, so that after each input a
replica either has stopped, with nothing to send, or holds in memory exactly what is durable
(`stopped_or_durable`). -/

namespace ChordFs

/-! ### What a save leaves on the disk -/

namespace Durable

theorem foldl_replay_entries (l : List Entry) : ∀ (f : ℕ → ℕ) (d : Durable),
    (l.mapIdx fun k e => LogRecord.entry (f k) e).foldl replay d =
      { d with log := d.log ++ l } := by
  induction l with
  | nil => intro f d; simp
  | cons e es ih =>
    intro f d
    rw [List.mapIdx_cons, List.foldl_cons]
    rw [ih (fun k => f (k + 1))]
    simp [replay]

theorem foldl_replay_cut (d : Durable) {from_ : ℕ} (h0 : 0 < from_) :
    (if from_ ≤ d.log.length then [LogRecord.cut from_] else []).foldl replay d =
      { d with log := d.log.take (from_ - 1) } := by
  split
  · rfl
  · rw [List.take_of_length_le (by omega)]
    rfl

theorem foldl_replay_term (d : Durable) (term : ℕ) (votedFor : ℤ) :
    (if term ≠ d.term ∨ votedFor ≠ d.votedFor then [LogRecord.term term votedFor] else []).foldl
      replay d = { d with term := term, votedFor := votedFor } := by
  split
  · rfl
  · rename_i h
    simp only [not_or, not_not] at h
    rw [h.1, h.2]
    rfl

theorem foldl_replay_records (d : Durable) (term : ℕ) (votedFor : ℤ) {from_ : ℕ} (h0 : 0 < from_)
    (log : List Entry) :
    (d.records term votedFor from_ log).foldl replay d = d.save term votedFor from_ log := by
  rw [records, List.foldl_append, List.foldl_append, foldl_replay_term]
  have h := foldl_replay_cut { d with term := term, votedFor := votedFor } h0
  simp only at h
  rw [h, foldl_replay_entries (log.drop (from_ - 1)) (fun k => from_ + k)]
  rfl

/-- The disk after a save that may have stopped half-way: untouched, with the new term and vote
only, or with them and the log up to some entry the save was writing. -/
inductive Reaches (d : Durable) (term : ℕ) (votedFor : ℤ) (from_ : ℕ) (log : List Entry) :
    Durable → Prop
  | none : Reaches d term votedFor from_ log d
  | term : Reaches d term votedFor from_ log { d with term := term, votedFor := votedFor }
  | log (j : ℕ) (hj : from_ ≤ j + 1) :
      Reaches d term votedFor from_ log ⟨term, votedFor, log.take j⟩

theorem reaches_foldl_take {d : Durable} {term : ℕ} {votedFor : ℤ} {from_ : ℕ} {log : List Entry}
    (h0 : 0 < from_) (hd : d.log.take (from_ - 1) = log.take (from_ - 1)) (k : ℕ) :
    Reaches d term votedFor from_ log
      (((d.records term votedFor from_ log).take k).foldl replay d) := by
  have hcut := foldl_replay_cut { d with term := term, votedFor := votedFor } h0
  have hterm := foldl_replay_term d term votedFor
  simp only at hcut
  rw [records, List.append_assoc, List.take_append, List.foldl_append]
  generalize ht : (if term ≠ d.term ∨ votedFor ≠ d.votedFor then [LogRecord.term term votedFor]
    else []) = T at hterm ⊢
  rcases Nat.lt_or_ge k T.length with hk | hk
  · -- the record of the term and vote was not written
    have hT : T.length ≤ 1 := by rw [← ht]; split <;> simp
    obtain rfl : k = 0 := by omega
    simpa using Reaches.none
  rw [List.take_of_length_le hk, hterm, List.take_append, List.foldl_append]
  generalize hc : (if from_ ≤ d.log.length then [LogRecord.cut from_] else []) = C at hcut ⊢
  generalize k - T.length = k
  rcases Nat.lt_or_ge k C.length with hk | hk
  · have hC : C.length ≤ 1 := by rw [← hc]; split <;> simp
    obtain rfl : k = 0 := by omega
    simpa using Reaches.term
  rw [List.take_of_length_le hk, hcut]
  generalize k - C.length = k
  have hmap : ((log.drop (from_ - 1)).mapIdx fun i e => LogRecord.entry (from_ + i) e).take k =
      ((log.drop (from_ - 1)).take k).mapIdx fun i e => LogRecord.entry (from_ + i) e := by
    apply List.ext_getElem?
    intro i
    simp only [List.getElem?_take, List.getElem?_mapIdx]
    split <;> rfl
  rw [hmap, foldl_replay_entries ((log.drop (from_ - 1)).take k) (fun i => from_ + i)]
  simp only
  rw [hd, ← List.take_add]
  exact Reaches.log _ (by omega)

end Durable

namespace Raft

variable {n : ℕ} {s s' : Raft n}

/-! ### The unsaved changes -/

/-- What is not yet saved is known: `dirty` covers every change of the term and the vote, and the
stored log agrees with the one in memory below `dirtyFrom`. -/
structure Synced (s : Raft n) : Prop where
  clean : s.dirty = false →
    s.storage.term = s.term ∧ s.storage.votedFor = s.votedFor ∧ s.dirtyFrom = 0
  same : s.dirtyFrom = 0 → s.storage.log = s.log
  bound : s.dirtyFrom ≤ s.log.length + 1
  agree : s.storage.log.take (s.dirtyFrom - 1) = s.log.take (s.dirtyFrom - 1)

/-- Nothing is unsaved. -/
structure Clean (s : Raft n) : Prop extends Synced s where
  saved : s.dirty = false

theorem Clean.storage_eq (h : Clean s) : s.storage = ⟨s.term, s.votedFor, s.log⟩ := by
  obtain ⟨h1, h2, h3⟩ := h.clean h.saved
  have h4 := h.same h3
  cases hd : s.storage
  simp_all

theorem clean_of_storage (h : s.storage = ⟨s.term, s.votedFor, s.log⟩) (hd : s.dirty = false)
    (hf : s.dirtyFrom = 0) : Clean s where
  clean _ := by rw [h]; exact ⟨rfl, rfl, hf⟩
  same _ := by rw [h]
  bound := by omega
  agree := by rw [h]
  saved := hd

section
variable (h : Synced s)
include h

/-- A change that leaves the log alone and, unless it sets `dirty`, the term and vote too. -/
theorem Synced.of_log_eq (hst : s'.storage = s.storage) (hl : s'.log = s.log)
    (hf : s'.dirtyFrom = s.dirtyFrom)
    (hd : s'.dirty = true ∨ s'.dirty = s.dirty ∧ s'.term = s.term ∧ s'.votedFor = s.votedFor) :
    Synced s' where
  clean hc := by
    rcases hd with hd | ⟨hd, ht, hv⟩
    · rw [hd] at hc; cases hc
    · rw [hst, ht, hv, hf]; exact h.clean (hd ▸ hc)
  same h0 := by rw [hst, hl]; exact h.same (hf ▸ h0)
  bound := by rw [hl, hf]; exact h.bound
  agree := by rw [hst, hl, hf]; exact h.agree

theorem Synced.frame (hf : Frame s s') : Synced s' :=
  h.of_log_eq hf.storage hf.log hf.dirtyFrom (.inr ⟨hf.dirty, hf.term, hf.votedFor⟩)

theorem Synced.changedFrom {l : List Entry} {i : ℕ} (h0 : 0 < i)
    (hil : i ≤ l.length + 1) (hl : l.take (i - 1) = s.log.take (i - 1)) :
    Synced (Raft.changedFrom { s with log := l } i) := by
  have hagree : ∀ {j}, j ≤ i - 1 → s.storage.log.take j = s.log.take j →
      s.storage.log.take j = l.take j := by
    intro j hj hs
    rw [hs, ← Nat.min_eq_left hj, ← List.take_take, ← hl, List.take_take]
  unfold Raft.changedFrom
  dsimp only
  by_cases hd : s.dirtyFrom = 0 ∨ i < s.dirtyFrom
  · rw [if_pos hd]
    refine ⟨by simp, fun h1 => by dsimp only at h1; omega, hil, hagree le_rfl ?_⟩
    rcases hd with hd | hd
    · rw [h.same hd]
    · rw [← Nat.min_eq_left (show i - 1 ≤ s.dirtyFrom - 1 by omega), ← List.take_take, h.agree,
        List.take_take]
  · rw [if_neg hd]
    exact ⟨by simp, fun h1 => by dsimp only at h1; omega, by dsimp only; omega,
      hagree (by dsimp only; omega) h.agree⟩

theorem Synced.push (e : Entry) :
    Synced (Raft.changedFrom { s with log := s.log ++ [e] } (s.log.length + 1)) :=
  h.changedFrom (Nat.succ_pos _) (by simp) (by simp)

/-! ### The transitions keep it -/

theorem Synced.stepsDown {t : ℕ} (hs : StepsDown s t s') : Synced s' := by
  refine h.of_log_eq hs.storage hs.log hs.dirtyFrom ?_
  rw [hs.dirty, hs.term, hs.votedFor]
  split
  · exact .inl rfl
  · exact .inr ⟨rfl, by omega, rfl⟩

theorem Synced.appendEntries (hs : s.stopped = false) {i : ℕ} (hi : i ≤ s.log.length)
    (es : List Entry) : Synced (s.appendEntries i es) := by
  obtain ⟨held, rest, -, hlen, -, ⟨-, h1⟩ | ⟨e, es', -, ⟨-, -, -, h1⟩ | ⟨-, h1⟩⟩⟩ :=
    appendEntries_cases es hs hi
  · rwa [h1]
  · rw [h1]
    exact h.of_log_eq rfl rfl rfl (.inr ⟨rfl, rfl, rfl⟩)
  · rw [h1]
    have htake : (s.log.take (i + held.length)).length = i + held.length := by
      rw [List.length_take, Nat.min_eq_left hlen]
    exact h.changedFrom (Nat.succ_pos _) (by rw [List.length_append]; omega)
      (List.take_append_of_le_length htake.ge |>.trans (by simp))

end

/-! ### The end of every step -/

/-- The index `finish` saves from. -/
def saveFrom (s : Raft n) : ℕ := if s.dirtyFrom = 0 then s.lastIndex + 1 else s.dirtyFrom

theorem saveFrom_pos (s : Raft n) : 0 < s.saveFrom := by
  unfold saveFrom
  split <;> omega

theorem Synced.saveFrom_le (h : Synced s) : s.saveFrom ≤ s.log.length + 1 := by
  unfold saveFrom
  split
  · exact le_rfl
  · exact h.bound

theorem Synced.take_saveFrom (h : Synced s) :
    s.storage.log.take (s.saveFrom - 1) = s.log.take (s.saveFrom - 1) := by
  unfold saveFrom
  split
  · rename_i h0
    rw [h.same h0]
  · exact h.agree

/-- The incremental save writes exactly the state in memory. -/
theorem Synced.save_eq (h : Synced s) :
    s.storage.save s.term s.votedFor s.saveFrom s.log = ⟨s.term, s.votedFor, s.log⟩ := by
  rw [Durable.save, h.take_saveFrom, List.take_append_drop]

/-- The replica once its state is durable. -/
def persisted (s : Raft n) : Raft n :=
  { s with storage := ⟨s.term, s.votedFor, s.log⟩, dirty := false, dirtyFrom := 0 }

/-- The replica stopped by a failed save that left `d` on the disk. -/
def halted (s : Raft n) (d : Durable) : Raft n :=
  { s with storage := d, dirty := false, dirtyFrom := 0, stopped := true, out := [],
           readResults := [] }

/-- **What `finish` can do**: make everything durable and go on, or stop with part of it on the
disk. -/
theorem Synced.finish_cases (h : Synced s) (hs : s.stopped = false) (o : Saved) :
    s.finish o = s.persisted.settle ∨
    ∃ k d, o = .fails k ∧ s.finish o = s.halted d ∧
      s.storage.Reaches s.term s.votedFor s.saveFrom s.log d := by
  unfold finish persist
  rw [if_neg (by simp [hs])]
  cases hd : s.dirty with
  | false =>
    obtain ⟨ht, hv, hf⟩ := h.clean hd
    have hp : s.persisted = s := by
      have hst := Clean.storage_eq ⟨h, hd⟩
      unfold persisted
      rw [← hst, ← hd, ← hf]
    exact .inl (by rw [hp]; simp [hs])
  | true =>
    cases o with
    | ok =>
      have := h.save_eq
      unfold saveFrom at this
      exact .inl (by simp [this, persisted, hs])
    | fails k =>
      refine .inr ⟨k, _, rfl, ?_, Durable.reaches_foldl_take s.saveFrom_pos h.take_saveFrom k⟩
      simp [halted, saveFrom]

/-- What `settle` leaves alone. -/
structure Settles (s s' : Raft n) : Prop where
  cfg : s'.cfg = s.cfg
  storage : s'.storage = s.storage
  term : s'.term = s.term
  votedFor : s'.votedFor = s.votedFor
  log : s'.log = s.log
  dirty : s'.dirty = s.dirty
  dirtyFrom : s'.dirtyFrom = s.dirtyFrom
  stopped : s'.stopped = s.stopped
  role : s'.role = s.role
  seq : s'.seq = s.seq
  out : s'.out = s.out

theorem settles_settle (s : Raft n) : Settles s s.settle := by
  have h1 : Settles s (if s.role = .leader then s.advanceCommit else s) := by
    split
    · rcases s.advanceCommit_cases with h | ⟨i, -, -, -, -, h⟩
      · rw [h]; (constructor <;> rfl)
      · rw [h]; (constructor <;> rfl)
    · constructor <;> rfl
  unfold settle
  generalize (if s.role = .leader then s.advanceCommit else s) = s₁ at h1 ⊢
  obtain ⟨reads, results, h2⟩ := resolveReads_eq s₁.applyCommitted
  rw [h2, applyCommitted_eq]
  exact ⟨h1.cfg, h1.storage, h1.term, h1.votedFor, h1.log, h1.dirty, h1.dirtyFrom, h1.stopped,
    h1.role, h1.seq, h1.out⟩

theorem clean_settle_persisted (s : Raft n) : Clean s.persisted.settle := by
  have h := settles_settle s.persisted
  exact clean_of_storage (by rw [h.storage, h.term, h.votedFor, h.log]; rfl) h.dirty h.dirtyFrom

/-! ### Every input -/

theorem Synced.onAppend (h : Synced s) (hs : s.stopped = false) (req : AppendRequest) :
    Synced (s.onAppend req).1 := by
  rcases s.onAppend_cases req with ⟨h1, -⟩ | ⟨h1, -, ⟨-, h2, -⟩ | ⟨-, h2⟩⟩
  · rw [h1]; exact h
  · rw [h2]; exact h.appendEntries hs h1 _
  · rw [h2]
    exact (h.appendEntries hs h1 req.entries).of_log_eq rfl rfl rfl (.inr ⟨rfl, rfl, rfl⟩)

theorem Act.synced {x : Input n} (ha : Act x s s') (hs : s.stopped = false) (h : Synced s) : Synced s' := by
  cases ha with
  | sends hf => exact h.frame hf.toFrame
  | stepsDown hd => exact h.stepsDown hd
  | takesLead => exact (h.push ⟨s.term, NOOP⟩).of_log_eq rfl rfl rfl (.inr ⟨rfl, rfl, rfl⟩)
  | stands | grants => exact h.of_log_eq rfl rfl rfl (.inl rfl)
  | asks | counts | enters => exact h.of_log_eq rfl rfl rfl (.inr ⟨rfl, rfl, rfl⟩)
  | notes => exact h.frame (s.frame_notes _ _ _ _)
  | appends => exact h.onAppend hs _
  | pushes => exact h.push _

theorem Act.stopped_term {x : Input n} (ha : Act x s s') :
    s'.stopped = s.stopped ∧ s.term ≤ s'.term := by
  cases ha with
  | sends hs => exact ⟨hs.stopped, hs.term.ge⟩
  | stepsDown hd => exact ⟨hd.stopped, by rw [hd.term]; exact le_max_left _ _⟩
  | stands => exact ⟨rfl, Nat.le_succ _⟩
  | notes => exact ⟨(s.frame_notes _ _ _ _).stopped, (s.frame_notes _ _ _ _).term.ge⟩
  | appends _ hst => exact ⟨hst, (s.onAppend_fixes _).term.ge⟩
  | asks | counts | takesLead | grants | pushes | enters => exact ⟨rfl, le_rfl⟩

theorem Acts.stopped_term {x : Input n} (ha : Acts x s s') :
    s'.stopped = s.stopped ∧ s.term ≤ s'.term := by
  induction ha with
  | refl => exact ⟨rfl, le_rfl⟩
  | tail _ hact ih => exact ⟨hact.stopped_term.1.trans ih.1, ih.2.trans hact.stopped_term.2⟩

/-- What `finish` is handed has its unsaved changes known. -/
theorem Acts.synced {x : Input n} (ha : Acts x s s') (hs : s.stopped = false) (h : Synced s) : Synced s' := by
  induction ha with
  | refl => exact h
  | tail hbefore hact ih => exact hact.synced (Acts.stopped_term hbefore |>.1.trans hs) ih

end Raft

/-- Whether an answer commits the replica to something: a vote it cast, entries it holds. -/
def Output.promises {n : ℕ} : Output n → Bool
  | .vote reply => reply.granted
  | .append reply => reply.success
  | _ => false

namespace Raft

variable {n : ℕ} {s s' : Raft n}

/-- The reads of `s` that were found answerable and wait to be taken. -/
def okReads (s : Raft n) : List ReadResult := s.readResults.filter (·.ok)

variable {s₁ : Raft n} {y : Output n} {x : Input n} {o : Saved}

theorem filter_ok_failed (rs : List (PendingRead n)) :
    (rs.map fun r => (⟨r.id, false⟩ : ReadResult)).filter (·.ok) = [] := by
  simp [List.filter_eq_nil_iff]

/-- One input led from `s` to `s'` and answered `y`: the replica is as durable as it looks, or it
has stopped and the input let nothing out. -/
structure DurableOrSilent (s s' : Raft n) (y : Output n) : Prop where
  durable : s'.stopped = false → Clean s'
  out : s'.stopped = true → s'.out = [] ∨ s'.out = s.out
  reads : s'.stopped = true → s'.okReads = [] ∨ s'.okReads = s.okReads
  reply : s'.stopped = true → y.promises = false

theorem durableOrSilent_finish (h : Synced s₁) (hs : s₁.stopped = false) (o : Saved)
    (hy : (s₁.finish o).stopped = true → y.promises = false) : DurableOrSilent s (s₁.finish o) y := by
  rcases h.finish_cases hs o with h1 | ⟨k, d, -, h1, -⟩
  · have hst : (s₁.finish o).stopped = false := by
      rw [h1, (settles_settle s₁.persisted).stopped]; exact hs
    refine ⟨fun _ => h1 ▸ clean_settle_persisted s₁, ?_, ?_, hy⟩ <;> (intro h2; rw [hst] at h2; cases h2)
  · refine ⟨fun h2 => ?_, fun _ => .inl ?_, fun _ => .inl ?_, hy⟩
    · rw [h1] at h2; cases h2
    · rw [h1]; rfl
    · rw [h1]; rfl

theorem durableOrSilent_frame (h : s.stopped = false → Clean s) (hf : Frame s s')
    (hout : s'.out = [] ∨ s'.out = s.out) (hr : s'.okReads = [] ∨ s'.okReads = s.okReads)
    (hy : y.promises = false) : DurableOrSilent s s' y where
  durable hs := ⟨(h (hf.stopped ▸ hs)).toSynced.frame hf, hf.dirty.trans (h (hf.stopped ▸ hs)).saved⟩
  out _ := hout
  reads _ := hr
  reply _ := hy

theorem refusal_promises (s : Raft n) (x : Input n) : (s.refusal x).promises = false := by
  cases x <;> rfl

theorem Unfinished.durableOrSilent (h : s.stopped = false → Clean s) {r : Raft n × Output n}
    (ha : Unfinished s x r) : DurableOrSilent s r.1 r.2 := by
  cases ha with
  | refuses | notLeading =>
    exact durableOrSilent_frame h (Frame.refl s) (.inr rfl) (.inr rfl) (s.refusal_promises x)
  | fails to_ sent now =>
    have hf := sends_callFailed s to_ sent now
    refine durableOrSilent_frame h hf.toFrame (.inr ?_) (.inr ?_) rfl
    · unfold callFailed
      split
      · rfl
      · split <;> rfl
    · rw [okReads, okReads, hf.readResults]
  | givesCalls => exact durableOrSilent_frame h (by constructor <;> rfl) (.inl rfl) (.inr rfl) rfl
  | givesReads => exact durableOrSilent_frame h (by constructor <;> rfl) (.inr rfl) (.inl rfl) rfl
  | @stops req now s₁ hs ht hd h₁ hst =>
    -- the conflict with a committed entry: nothing was sent and no read was found answerable
    have hfix := s₁.onAppend_fixes req
    refine ⟨fun h1 => absurd (h1.symm.trans hst) Bool.false_ne_true,
      fun _ => .inr (hfix.out.trans hd.out), fun _ => .inr ?_, fun _ => ?_⟩
    · rw [okReads, okReads, hfix.readResults, hd.readResults]
      split
      · rfl
      · rw [List.filter_append, filter_ok_failed, List.append_nil]
    · rcases s₁.onAppend_cases req with ⟨-, h2⟩ | ⟨-, -, ⟨-, -, h2⟩ | ⟨h2, h3⟩⟩
      · exact h2
      · exact h2
      · rw [h3] at hst
        exact absurd (h2.symm.trans hst) Bool.false_ne_true

theorem promises_of_stopped (hb : s.beforeFinish x = some s₁) (hst : (s.input x o).1.stopped = true) :
    (s.input x o).2.promises = false := by
  cases x with
  | handleVote req now =>
    obtain ⟨hs, -⟩ := Option.ite_none_left_eq_some.mp hb
    simp only [input, handleVote, if_neg hs] at hst ⊢
    simp [Output.promises, hst]
  | handleAppend req now =>
    obtain ⟨hs, hb⟩ := Option.ite_none_left_eq_some.mp hb
    simp only [input, handleAppend, if_neg hs] at hst ⊢
    split at hb
    · rename_i hlt
      rw [if_pos hlt]
      rfl
    · rename_i hlt
      obtain ⟨hc, -⟩ := Option.ite_none_left_eq_some.mp hb
      rw [if_neg hlt, if_neg hc] at hst ⊢
      rw [if_pos hst]
      rfl
  | _ => rfl

/-- **Every input** of a replica that is clean while it runs leaves it clean or silent. -/
theorem durableOrSilent_input (h : s.stopped = false → Clean s) (x : Input n) (o : Saved) :
    DurableOrSilent s (s.input x o).1 (s.input x o).2 := by
  cases hb : s.beforeFinish x with
  | none => exact (unfinished_of_beforeFinish hb o).durableOrSilent h
  | some s₁ =>
    obtain ⟨heq, hs⟩ := input_of_beforeFinish hb o
    have hacts := acts_of_beforeFinish hb
    have hpromises := promises_of_stopped hb (o := o)
    rw [heq] at hpromises ⊢
    exact durableOrSilent_finish (hacts.synced hs (h hs).toSynced) (hacts.stopped_term.1.trans hs) o hpromises

/-! ### Why a replica stops -/

/-- The branch of `handle_append` that stops a running replica because an entry of the call
conflicts with one at or below its commit index. -/
def stopsOnConflict (s : Raft n) (req : AppendRequest) (now : Millis) : Prop :=
  s.stopped = false ∧ s.term ≤ req.term ∧
    (((s.becomeFollower req.term req.leader now).resetElectionTimer now).onAppend req).1.stopped = true

theorem Synced.fails_of_stopped (h : Synced s) (hs : s.stopped = false) (hst : (s.finish o).stopped = true) :
    ∃ k, o = .fails k := by
  rcases h.finish_cases hs o with h1 | ⟨k, -, h1, -⟩
  · rw [h1, (settles_settle s.persisted).stopped, show s.persisted.stopped = false from hs] at hst
    cases hst
  · exact ⟨k, h1⟩

/-- A running replica is stopped by a failed save, or by a conflict with a committed entry. -/
theorem stopped_input_cases (h : Clean s) (hs : s.stopped = false) (hst : (s.input x o).1.stopped = true) :
    (∃ k, o = .fails k) ∨ ∃ req now, x = .handleAppend req now ∧ s.stopsOnConflict req now := by
  cases hb : s.beforeFinish x with
  | some s₁ =>
    have hacts := acts_of_beforeFinish hb
    rw [(input_of_beforeFinish hb o).1] at hst
    exact .inl ((hacts.synced hs h.toSynced).fails_of_stopped (hacts.stopped_term.1.trans hs) hst)
  | none =>
    have ha := unfinished_of_beforeFinish hb o
    generalize s.input x o = r at ha hst
    cases ha with
    | @stops req now _ _ ht _ h₁ hc => exact .inr ⟨req, now, rfl, hs, ht, h₁ ▸ hc⟩
    | fails to_ sent now =>
      rw [(sends_callFailed s to_ sent now).stopped, hs] at hst
      cases hst
    | refuses | notLeading | givesCalls | givesReads => exact absurd (hs.symm.trans hst) Bool.false_ne_true

/-! ### The term in memory -/

theorem finish_term (s : Raft n) (o : Saved) : (s.finish o).term = s.term := by
  have hp : (s.persist o).term = s.term := by
    unfold persist
    split
    · cases o <;> rfl
    · rfl
  unfold finish
  split
  · rfl
  · dsimp only
    split
    · exact hp
    · rw [(settles_settle _).term, hp]

theorem startElection_term (s : Raft n) (now : Millis) :
    (s.startElection now).term = s.term + 1 := by
  unfold startElection
  dsimp only
  split
  · rw [(sends_becomeLeader _ now).term]; rfl
  · rfl

theorem term_le_input (s : Raft n) (x : Input n) (o : Saved) : s.term ≤ (s.input x o).1.term := by
  cases hb : s.beforeFinish x with
  | some s₁ =>
    rw [(input_of_beforeFinish hb o).1, finish_term]
    exact (acts_of_beforeFinish hb).stopped_term.2
  | none =>
    have ha := unfinished_of_beforeFinish hb o
    generalize s.input x o = r at ha
    cases ha with
    | fails to_ sent now => exact (sends_callFailed s to_ sent now).term.ge
    | stops _ _ hd =>
      rw [(onAppend_fixes _ _).term, hd.term]
      exact le_max_left _ _
    | refuses | notLeading | givesCalls | givesReads => exact le_rfl

/-! ### Whole runs -/

/-- The replica after a sequence of inputs, each with the outcome of its save. -/
def after (s : Raft n) (xs : List (Input n × Saved)) : Raft n :=
  xs.foldl (fun s x => (s.input x.1 x.2).1) s

section
variable (cfg : RaftConfig n) (d : Durable) (now : Millis)

theorem synced_beforeStart : Synced (beforeStart cfg d now) ∧ (beforeStart cfg d now).stopped = false :=
  have hacts := acts_beforeStart .takeReads cfg d now
  ⟨hacts.synced rfl (clean_of_storage rfl rfl rfl).toSynced, hacts.stopped_term.1⟩

theorem durableOrSilent_start (o : Saved) : DurableOrSilent (fresh cfg d) (start cfg d now o) .done :=
  durableOrSilent_finish (synced_beforeStart cfg d now).1 (synced_beforeStart cfg d now).2 o fun _ => rfl

theorem fails_of_stopped_start {o : Saved} (h : (start cfg d now o).stopped = true) : ∃ k, o = .fails k :=
  (synced_beforeStart cfg d now).1.fails_of_stopped (synced_beforeStart cfg d now).2 h

theorem clean_after (o : Saved) (xs : List (Input n × Saved)) :
    ((start cfg d now o).after xs).stopped = false → Clean ((start cfg d now o).after xs) := by
  unfold after
  refine List.foldlRecOn xs _ (motive := fun s : Raft n => s.stopped = false → Clean s) ?_ ?_
  · exact (durableOrSilent_start cfg d now o).durable
  · intro s hs x _
    exact (durableOrSilent_input hs x.1 x.2).durable

end

/-- **Nothing leaves before it is durable.**  After the constructor, and after every input of every
sequence of inputs, with any saves failing: a stopped replica holds no call and no answerable read
that the input produced, and its answer promises nothing; a running one holds in memory exactly
the durable term, vote and log. -/
theorem nothing_leaves_before_durable (cfg : RaftConfig n) (d : Durable) (now : Millis)
    (o : Saved) : (let s := start cfg d now o
      if s.stopped then s.out = [] ∧ s.okReads = []
      else s.storage = ⟨s.term, s.votedFor, s.log⟩) ∧
    ∀ (xs : List (Input n × Saved)) (x : Input n) (o' : Saved),
      let s := (start cfg d now o).after xs
      let s' := (s.input x o').1
      if s'.stopped then
        (s'.out = [] ∨ s'.out = s.out) ∧ (s'.okReads = [] ∨ s'.okReads = s.okReads) ∧
          (s.input x o').2.promises = false
      else s'.storage = ⟨s'.term, s'.votedFor, s'.log⟩ := by
  constructor
  · have h := durableOrSilent_start cfg d now o
    dsimp only
    split
    · rename_i hs
      exact ⟨(h.out hs).elim id id, (h.reads hs).elim id id⟩
    · rename_i hs
      exact (h.durable (Bool.eq_false_iff.mpr hs)).storage_eq
  · intro xs x o'
    have h := durableOrSilent_input (clean_after cfg d now o xs) x o'
    dsimp only
    split
    · rename_i hs
      exact ⟨h.out hs, h.reads hs, h.reply hs⟩
    · rename_i hs
      exact (h.durable (Bool.eq_false_iff.mpr hs)).storage_eq

end Raft

end ChordFs
