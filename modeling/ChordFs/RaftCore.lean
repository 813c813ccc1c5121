import ChordFs.Lib.TermLog
import Mathlib.Algebra.Order.Ring.Int
import Mathlib.Data.List.FinRange
import Mathlib.Logic.Function.Basic

/-! # The Raft core

A replica's consensus core (`raft.h`, `raft.cpp`): a deterministic state machine without sockets,
threads or a clock.  Whatever happens to a replica is a method call, each method ends in
`finish`, and what the replica wants done waits in `out`, `readResults` and the calls of the
apply function (`applies`) until it is taken.

* Terms, indexes and sequence numbers are natural numbers; points in time are integers.
* The per-peer vectors are functions on `Fin n`, where `n` is `cfg_.size`, the group's size.
* `mt19937_64` with its distribution is the sequence of its draws (`RaftConfig.spread`); the state
  counts how many have been taken.
* `Storage &storage_` is the durable state behind it (`storage`); how a save turns out is an
  argument of every method (`Saved`), and a save that fails leaves a prefix of the records it was
  writing, as `FileStorage::save` does. -/

namespace ChordFs

/-- `std::string`: the list of its characters. -/
abbrev Str := List Char

/-- A point in time in milliseconds, on whatever clock the caller uses. -/
abbrev Millis := ℤ

/-- No vote, no known leader. -/
def NOBODY : ℤ := -1

abbrev Entry := TermLog.Entry Str

/-- The command of a new leader's first entry. -/
def NOOP : Str := "NOOP".toList

structure VoteRequest where
  term : ℕ
  candidate : ℤ
  lastIndex : ℕ
  lastTerm : ℕ
deriving DecidableEq, Repr

structure VoteReply where
  term : ℕ
  granted : Bool
deriving DecidableEq, Repr

structure AppendRequest where
  term : ℕ
  leader : ℤ
  prevIndex : ℕ
  prevTerm : ℕ
  entries : List Entry
  commit : ℕ
  seq : ℕ
deriving DecidableEq, Repr

structure AppendReply where
  term : ℕ
  success : Bool
  index : ℕ
deriving DecidableEq, Repr

/-- One call the core wants made. -/
inductive Outgoing (n : ℕ) where
  | vote (to_ : Fin n) (req : VoteRequest)
  | append (to_ : Fin n) (req : AppendRequest)
deriving DecidableEq, Repr

/-! ### Durable state -/

/-- What a replica must keep through a crash. -/
structure Durable where
  term : ℕ
  votedFor : ℤ
  log : List Entry
deriving DecidableEq, Repr

/-- A disk nothing was ever written to. -/
def Durable.empty : Durable := ⟨0, NOBODY, []⟩

/-- The records of a log file: a term and the vote in it, a cut, an entry. -/
inductive LogRecord where
  | term (t : ℕ) (vote : ℤ)
  | cut (i : ℕ)
  | entry (i : ℕ) (e : Entry)
deriving DecidableEq, Repr

namespace Durable

/-- The effect of one record. -/
def replay (d : Durable) : LogRecord → Durable
  | .term t v => { d with term := t, votedFor := v }
  | .cut i => { d with log := d.log.take (i - 1) }
  | .entry _ e => { d with log := d.log ++ [e] }

/-- The records one save appends (`FileStorage::save`): the term and vote if they changed, a cut
if stored entries are replaced, and the entries from `from_` on. -/
def records (d : Durable) (term : ℕ) (votedFor : ℤ) (from_ : ℕ) (log : List Entry) :
    List LogRecord :=
  (if term ≠ d.term ∨ votedFor ≠ d.votedFor then [.term term votedFor] else []) ++
    (if from_ ≤ d.log.length then [.cut from_] else []) ++
    (log.drop (from_ - 1)).mapIdx (fun k e => .entry (from_ + k) e)

/-- A completed save (`MemoryStorage::save`): entries from `from_` on replace whatever was stored
there. -/
def save (d : Durable) (term : ℕ) (votedFor : ℤ) (from_ : ℕ) (log : List Entry) : Durable :=
  ⟨term, votedFor, d.log.take (from_ - 1) ++ log.drop (from_ - 1)⟩

end Durable

/-- How a save turns out: everything is durable, or only the first `written` records are. -/
inductive Saved where
  | ok
  | fails (written : ℕ)
deriving DecidableEq, Repr

/-! ### The state -/

inductive Role where
  | follower
  | candidate
  | leader
deriving DecidableEq, Repr

structure RaftConfig (n : ℕ) where
  id : Fin n
  election : Millis := 150
  maxAppendBytes : ℕ := 64 * 1024
  /-- The draws of the election-timeout generator. -/
  spread : ℕ → Millis

structure PendingRead (n : ℕ) where
  id : ℕ
  seq : ℕ
  index : ℕ
  acks : Fin n → Bool

structure ReadResult where
  id : ℕ
  ok : Bool
deriving DecidableEq, Repr

structure Raft (n : ℕ) where
  cfg : RaftConfig n
  storage : Durable
  -- persistent state, written through `storage`
  term : ℕ
  votedFor : ℤ
  log : List Entry
  dirty : Bool
  dirtyFrom : ℕ
  -- volatile state
  role : Role
  leader : ℤ
  commit : ℕ
  applied : ℕ
  electionDeadline : Millis
  draws : ℕ
  stopped : Bool
  votes : Fin n → Bool
  next : Fin n → ℕ
  match_ : Fin n → ℕ
  inflight : Fin n → Bool
  inflightSeq : Fin n → ℕ
  inflightUntil : Fin n → Millis
  heartbeatDue : Fin n → Millis
  retryAfter : Fin n → Millis
  heard : Fin n → Millis
  seq : ℕ
  reads : List (PendingRead n)
  readResults : List ReadResult
  out : List (Outgoing n)
  /-- The calls made to the apply function so far. -/
  applies : List (ℕ × Entry)

/-- More than half of the group. -/
def Majority (n count : ℕ) : Prop := 2 * count > n

instance (n count : ℕ) : Decidable (Majority n count) := inferInstanceAs (Decidable (_ > _))

namespace Raft

variable {n : ℕ}

def lastIndex (s : Raft n) : ℕ := s.log.length

def termAt (s : Raft n) (i : ℕ) : ℕ := TermLog.termAt s.log i

/-- Every replica but this one, in order. -/
def peers (s : Raft n) : List (Fin n) := (List.finRange n).filter (· ≠ s.cfg.id)

/-! ### Bookkeeping -/

def changedFrom (s : Raft n) (i : ℕ) : Raft n :=
  { s with dirty := true, dirtyFrom := if s.dirtyFrom = 0 ∨ i < s.dirtyFrom then i else s.dirtyFrom }

def changedMeta (s : Raft n) : Raft n := { s with dirty := true }

def resetElectionTimer (s : Raft n) (now : Millis) : Raft n :=
  { s with electionDeadline := now + s.cfg.election + s.cfg.spread s.draws, draws := s.draws + 1 }

def failReads (s : Raft n) : Raft n :=
  { s with readResults := s.readResults ++ s.reads.map (fun r => ⟨r.id, false⟩), reads := [] }

/-! ### The leader's side of replication -/

/-- The entries of one call: as many as fit in about `limit` bytes, but at least one. -/
def takeBatch (limit : ℕ) : List Entry → ℕ → List Entry → List Entry
  | acc, _, [] => acc
  | acc, bytes, e :: es =>
    if acc ≠ [] ∧ bytes + (e.command.length + 22) > limit then acc
    else takeBatch limit (acc ++ [e]) (bytes + (e.command.length + 22)) es

/-- The leader's next call to `peer`: everything from `next peer` on that fits, or nothing. -/
def appendCall (s : Raft n) (peer : Fin n) : AppendRequest where
  term := s.term
  leader := s.cfg.id
  prevIndex := s.next peer - 1
  prevTerm := s.termAt (s.next peer - 1)
  entries := takeBatch s.cfg.maxAppendBytes [] 0 (s.log.drop (s.next peer - 1))
  commit := s.commit
  seq := s.seq + 1

def sendAppend (s : Raft n) (peer : Fin n) (now : Millis) : Raft n :=
  { s with
    seq := s.seq + 1
    out := s.out ++ [.append peer (s.appendCall peer)]
    inflight := Function.update s.inflight peer true
    inflightSeq := Function.update s.inflightSeq peer (s.seq + 1)
    inflightUntil := Function.update s.inflightUntil peer (now + s.cfg.election)
    heartbeatDue := Function.update s.heartbeatDue peer (now + max (s.cfg.election / 5) 1) }

/-- Send to `peer` if nothing is in flight to it and either entries are waiting or a heartbeat is
due (or `force`, for a read that needs a fresh acknowledgement). -/
def sendIfDue (s : Raft n) (peer : Fin n) (now : Millis) (force : Bool) : Raft n :=
  if s.role ≠ .leader ∨ s.inflight peer ∨ now < s.retryAfter peer then
    if force then { s with heartbeatDue := Function.update s.heartbeatDue peer now } else s
  else if force ∨ now ≥ s.heartbeatDue peer ∨ s.next peer ≤ s.lastIndex then s.sendAppend peer now
  else s

/-- The replicas known to hold the log up to `k`, the leader included. -/
def copies (s : Raft n) (k : ℕ) : ℕ := 1 + s.peers.countP (fun p => s.match_ p ≥ k)

/-- The commit rule, from index `k` down. -/
def advanceCommitFrom (s : Raft n) : ℕ → Raft n
  | 0 => s
  | k + 1 =>
    if k + 1 ≤ s.commit then s
    else if s.termAt (k + 1) ≠ s.term then s
    else if Majority n (s.copies (k + 1)) then { s with commit := k + 1 }
    else s.advanceCommitFrom k

def advanceCommit (s : Raft n) : Raft n := s.advanceCommitFrom s.lastIndex

/-! ### The end of every step -/

def applyNext (s : Raft n) : Raft n :=
  { s with
    applied := s.applied + 1
    applies := s.applies ++ [(s.applied + 1, s.log.getD s.applied ⟨0, []⟩)] }

/-- The loop runs while `applied < commit`. -/
def applyCommitted (s : Raft n) : Raft n := applyNext^[s.commit - s.applied] s

/-- The read with its index set, once an entry of the leader's term is committed. -/
def noteIndex (s : Raft n) (r : PendingRead n) : PendingRead n :=
  if r.index = 0 ∧ s.termAt s.commit = s.term then { r with index := s.commit } else r

def answerable (s : Raft n) (r : PendingRead n) : Bool :=
  r.index ≠ 0 ∧ Majority n ((List.finRange n).countP r.acks) ∧ s.applied ≥ r.index

def resolveReads (s : Raft n) : Raft n :=
  if s.reads = [] then s
  else if s.role ≠ .leader then s.failReads
  else
    let noted := s.reads.map s.noteIndex
    { s with
      readResults := s.readResults ++ (noted.filter s.answerable).map (fun r => ⟨r.id, true⟩)
      reads := noted.filter (fun r => !s.answerable r) }

/-- The first step of `finish`: everything this input changed is saved in one call. -/
def persist (s : Raft n) (o : Saved) : Raft n :=
  if s.dirty then
    let from_ := if s.dirtyFrom = 0 then s.lastIndex + 1 else s.dirtyFrom
    match o with
    | .ok =>
      { s with
        storage := s.storage.save s.term s.votedFor from_ s.log, dirty := false, dirtyFrom := 0 }
    | .fails k =>
      { s with
        storage := ((s.storage.records s.term s.votedFor from_ s.log).take k).foldl
          Durable.replay s.storage
        dirty := false, dirtyFrom := 0, stopped := true, out := [], readResults := [] }
  else s

/-- The rest of `finish`: commit (a leader counts its own entries only now that they are durable),
apply in order, and answer the reads this made answerable. -/
def settle (s : Raft n) : Raft n :=
  (if s.role = .leader then s.advanceCommit else s).applyCommitted.resolveReads

def finish (s : Raft n) (o : Saved) : Raft n :=
  if s.stopped then { s with out := [], readResults := [] }
  else
    let s := s.persist o
    if s.stopped then s else s.settle

/-! ### Transitions -/

def becomeFollower (s : Raft n) (term : ℕ) (leader : ℤ) (now : Millis) : Raft n :=
  let s := if term > s.term then changedMeta { s with term := term, votedFor := NOBODY } else s
  let s := if s.role ≠ .follower then (failReads { s with role := .follower }).resetElectionTimer now
    else s
  { s with leader := leader }

/-- A new leader's bookkeeping, and its no-op: entries of earlier terms are never committed by
counting copies, they commit when an entry of this term does. -/
def takeLead (s : Raft n) (now : Millis) : Raft n :=
  changedFrom
    { s with
      role := .leader
      leader := s.cfg.id
      next := fun _ => s.lastIndex + 1
      match_ := fun _ => 0
      inflight := fun _ => false
      heartbeatDue := fun _ => now
      retryAfter := fun _ => now
      heard := fun _ => now
      log := s.log ++ [⟨s.term, NOOP⟩] } (s.lastIndex + 1)

def becomeLeader (s : Raft n) (now : Millis) : Raft n :=
  s.peers.foldl (fun s p => s.sendAppend p now) (s.takeLead now)

/-- A new term, with this replica's own vote, durably, before asking anyone. -/
def stand (s : Raft n) (now : Millis) : Raft n :=
  let s := changedMeta { s with term := s.term + 1, votedFor := s.cfg.id }
  let s := failReads { s with role := .candidate, leader := NOBODY }
  let s := s.resetElectionTimer now
  { s with votes := fun p => p = s.cfg.id }

def startElection (s : Raft n) (now : Millis) : Raft n :=
  let s := s.stand now
  if Majority n 1 then s.becomeLeader now
  else
    let req : VoteRequest := ⟨s.term, s.cfg.id, s.lastIndex, s.termAt s.lastIndex⟩
    { s with out := s.out ++ s.peers.map (fun p => .vote p req) }

/-! ### Inputs -/

/-- The members of a new core, on what the storage held at start-up. -/
def fresh (cfg : RaftConfig n) (recovered : Durable) : Raft n where
  cfg := cfg
  storage := recovered
  term := recovered.term
  votedFor := recovered.votedFor
  log := recovered.log
  dirty := false
  dirtyFrom := 0
  role := .follower
  leader := NOBODY
  commit := 0
  applied := 0
  electionDeadline := 0
  draws := 0
  stopped := false
  votes := fun _ => false
  next := fun _ => 1
  match_ := fun _ => 0
  inflight := fun _ => false
  inflightSeq := fun _ => 0
  inflightUntil := fun _ => 0
  heartbeatDue := fun _ => 0
  retryAfter := fun _ => 0
  heard := fun _ => 0
  seq := 0
  reads := []
  readResults := []
  out := []
  applies := []

/-- The constructor: every replica starts as a follower and waits out one election timeout; a group
of one has nobody to wait for. -/
def start (cfg : RaftConfig n) (recovered : Durable) (now : Millis) (o : Saved) : Raft n :=
  let s := (fresh cfg recovered).resetElectionTimer now
  (if n = 1 then s.startElection now else s).finish o

/-- `tick` up to `finish`. -/
def onTick (s : Raft n) (now : Millis) : Raft n :=
  if s.role ≠ .leader then
    if now ≥ s.electionDeadline then s.startElection now else s
  -- a leader that has heard nothing in its term from a majority for 2E steps down
  else if ¬ Majority n (1 + s.peers.countP (fun p => now - s.heard p < 2 * s.cfg.election)) then
    s.becomeFollower s.term NOBODY now
  else
    s.peers.foldl (fun s p =>
      let s := if s.inflight p ∧ now ≥ s.inflightUntil p then
        { s with inflight := Function.update s.inflight p false } else s
      s.sendIfDue p now false) s

def tick (s : Raft n) (now : Millis) (o : Saved) : Raft n :=
  if s.stopped then s else (s.onTick now).finish o

/-- Section 5.4.1 of the paper: a later last term, or the same one and an index at least as high. -/
def logAtLeastAsUpToDate (s : Raft n) (lastTerm lastIndex : ℕ) : Prop :=
  lastTerm > s.termAt s.lastIndex ∨ lastTerm = s.termAt s.lastIndex ∧ lastIndex ≥ s.lastIndex

instance (s : Raft n) (t i : ℕ) : Decidable (s.logAtLeastAsUpToDate t i) :=
  inferInstanceAs (Decidable (_ ∨ _))

/-- One vote per term, and only for a log at least as up to date as this one. -/
def grants (s : Raft n) (req : VoteRequest) : Prop :=
  req.term = s.term ∧ (s.votedFor = NOBODY ∨ s.votedFor = req.candidate) ∧
    s.logAtLeastAsUpToDate req.lastTerm req.lastIndex

instance (s : Raft n) (req : VoteRequest) : Decidable (s.grants req) :=
  inferInstanceAs (Decidable (_ ∧ _))

/-- `handle_vote` up to `finish`, and whether the vote is granted. -/
def onVote (s : Raft n) (req : VoteRequest) (now : Millis) : Raft n × Bool :=
  let s := if req.term > s.term then s.becomeFollower req.term NOBODY now else s
  if s.grants req then
    ((changedMeta { s with votedFor := req.candidate }).resetElectionTimer now, true)
  else (s, false)

def handleVote (s : Raft n) (req : VoteRequest) (now : Millis) (o : Saved) : Raft n × VoteReply :=
  if s.stopped then (s, ⟨s.term, false⟩)
  else
    let (s, granted) := s.onVote req now
    let s := s.finish o
    (s, ⟨s.term, granted && !s.stopped⟩)

/-- `handle_vote_reply` up to `finish`. -/
def onVoteReply (s : Raft n) (from_ : Fin n) (sent : VoteRequest) (reply : VoteReply)
    (now : Millis) : Raft n :=
  if reply.term > s.term then s.becomeFollower reply.term NOBODY now
  else if s.role = .candidate ∧ sent.term = s.term ∧ reply.term = s.term ∧ reply.granted then
    let s : Raft n := { s with votes := Function.update s.votes from_ true }
    if Majority n ((List.finRange n).countP s.votes) then s.becomeLeader now else s
  else s

def handleVoteReply (s : Raft n) (from_ : Fin n) (sent : VoteRequest) (reply : VoteReply)
    (now : Millis) (o : Saved) : Raft n :=
  if s.stopped then s else (s.onVoteReply from_ sent reply now).finish o

/-- Going back from index `i` to the first entry of the same term. -/
def conflictStart (s : Raft n) (conflict : ℕ) : ℕ → ℕ
  | 0 => 0
  | i + 1 => if i + 1 > 1 ∧ s.termAt i = conflict then s.conflictStart conflict i else i + 1

/-- One entry of an append call, which belongs at index `i`. -/
def appendEntry (s : Raft n) (i : ℕ) (e : Entry) : Raft n :=
  let push (s : Raft n) : Raft n := changedFrom { s with log := s.log ++ [e] } i
  if i ≤ s.lastIndex then
    if s.termAt i = e.term then s
    -- a committed entry never reaches the next line; if it did, the replica would stop
    else if i ≤ s.commit then { s with stopped := true }
    else push (changedFrom { s with log := s.log.take (i - 1) } i)
  else push s

/-- The entries of an append call after index `i`. -/
def appendEntries (s : Raft n) (i : ℕ) : List Entry → Raft n
  | [] => s
  | e :: es =>
    let s := s.appendEntry (i + 1) e
    if s.stopped then s else s.appendEntries (i + 1) es

/-- What an append call of a current leader does once this replica follows it, up to `finish`. -/
def onAppend (s : Raft n) (req : AppendRequest) : Raft n × AppendReply :=
  if req.prevIndex > s.lastIndex then (s, ⟨s.term, false, s.lastIndex + 1⟩)
  else if s.termAt req.prevIndex ≠ req.prevTerm then
    (s, ⟨s.term, false, s.conflictStart (s.termAt req.prevIndex) req.prevIndex⟩)
  else
    let s := s.appendEntries req.prevIndex req.entries
    let lastNew := req.prevIndex + req.entries.length
    if s.stopped then (s, ⟨s.term, false, 0⟩)
    else
      (if req.commit > s.commit then { s with commit := min req.commit lastNew } else s,
        ⟨s.term, true, lastNew⟩)

def handleAppend (s : Raft n) (req : AppendRequest) (now : Millis) (o : Saved) :
    Raft n × AppendReply :=
  if s.stopped then (s, ⟨s.term, false, 0⟩)
  else if req.term < s.term then
    let s := s.finish o
    (s, ⟨s.term, false, 0⟩)
  else
    let s := (s.becomeFollower req.term req.leader now).resetElectionTimer now
    let (s, reply) := s.onAppend req
    -- the conflict with a committed entry returns at once
    if s.stopped then (s, reply)
    else
      let s := s.finish o
      (s, if s.stopped then ⟨s.term, false, 0⟩ else reply)

/-- What a reply of this leadership says about how far `from_` has come. -/
def noteProgress (s : Raft n) (from_ : Fin n) (sent : AppendRequest) (reply : AppendReply)
    (now : Millis) : Raft n :=
  if reply.success then
    let matched := sent.prevIndex + sent.entries.length
    { s with
      match_ := if matched > s.match_ from_ then Function.update s.match_ from_ matched else s.match_
      next := if s.next from_ < matched + 1 then Function.update s.next from_ (matched + 1)
        else s.next }
  else
    let hint := min (max reply.index 1) sent.prevIndex
    let back := max (s.match_ from_ + 1) hint
    { s with
      next := if back < s.next from_ then Function.update s.next from_ back else s.next
      retryAfter := Function.update s.retryAfter from_ now }

/-- A reply in this term to a call sent after a read arrived confirms, for that read, that no newer
leader existed when it arrived. -/
def noteAcks (s : Raft n) (from_ : Fin n) (seq : ℕ) : Raft n :=
  { s with reads := s.reads.map (fun r =>
      if seq ≥ r.seq then { r with acks := Function.update r.acks from_ true } else r) }

/-- `handle_append_reply` up to `finish`. -/
def onAppendReply (s : Raft n) (from_ : Fin n) (sent : AppendRequest) (reply : AppendReply)
    (now : Millis) : Raft n :=
  if reply.term > s.term then s.becomeFollower reply.term NOBODY now
  -- only a reply to a call of this leadership counts
  else if s.role ≠ .leader ∨ sent.term ≠ s.term ∨ reply.term ≠ s.term then s
  else
    let s : Raft n := { s with
      heard := Function.update s.heard from_ now
      inflight := if s.inflight from_ ∧ sent.seq = s.inflightSeq from_ then
        Function.update s.inflight from_ false else s.inflight }
    let s := s.noteProgress from_ sent reply now
    let s := s.noteAcks from_ sent.seq
    s.sendIfDue from_ now false

def handleAppendReply (s : Raft n) (from_ : Fin n) (sent : AppendRequest) (reply : AppendReply)
    (now : Millis) (o : Saved) : Raft n :=
  if s.stopped then s else (s.onAppendReply from_ sent reply now).finish o

def callFailed (s : Raft n) (to_ : Fin n) (sent : Outgoing n) (now : Millis) : Raft n :=
  match sent with
  | .vote _ _ => s
  | .append _ req =>
    if s.stopped ∨ s.role ≠ .leader then s
    else { s with
      inflight := if s.inflight to_ ∧ req.seq = s.inflightSeq to_ then
        Function.update s.inflight to_ false else s.inflight
      retryAfter := Function.update s.retryAfter to_ (now + max (s.cfg.election / 5) 1) }

/-- `propose` of a leader up to `finish`. -/
def onPropose (s : Raft n) (command : Str) (now : Millis) : Raft n :=
  let s : Raft n := { s with log := s.log ++ [⟨s.term, command⟩] }
  let s := s.changedFrom s.lastIndex
  s.peers.foldl (fun s p => s.sendIfDue p now false) s

/-- A client's command; the index and term of its entry if this replica leads. -/
def propose (s : Raft n) (command : Str) (now : Millis) (o : Saved) : Raft n × Option (ℕ × ℕ) :=
  if s.stopped ∨ s.role ≠ .leader then (s, none)
  else
    let at_ := (s.lastIndex + 1, s.term)
    let s := (s.onPropose command now).finish o
    (s, if s.stopped then none else some at_)

/-- A read as it is entered: the next call sent is the first that counts for it. -/
def newRead (s : Raft n) (id : ℕ) : PendingRead n where
  id := id
  seq := s.seq + 1
  index := if s.termAt s.commit = s.term then s.commit else 0
  acks := fun p => p = s.cfg.id

/-- `read` of a leader up to `finish`. -/
def onRead (s : Raft n) (id : ℕ) (now : Millis) : Raft n :=
  let s : Raft n := { s with reads := s.reads ++ [s.newRead id] }
  s.peers.foldl (fun s p => s.sendIfDue p now true) s

def read (s : Raft n) (id : ℕ) (now : Millis) (o : Saved) : Raft n × Bool :=
  if s.stopped ∨ s.role ≠ .leader then (s, false)
  else ((s.onRead id now).finish o, true)

/-! ### Outputs -/

def takeOutgoing (s : Raft n) : Raft n × List (Outgoing n) := ({ s with out := [] }, s.out)

def takeReads (s : Raft n) : Raft n × List ReadResult := ({ s with readResults := [] }, s.readResults)

end Raft

/-! ### The core as one step function -/

/-- A call of one of the core's methods. -/
inductive Input (n : ℕ) where
  | tick (now : Millis)
  | handleVote (req : VoteRequest) (now : Millis)
  | handleVoteReply (from_ : Fin n) (sent : VoteRequest) (reply : VoteReply) (now : Millis)
  | handleAppend (req : AppendRequest) (now : Millis)
  | handleAppendReply (from_ : Fin n) (sent : AppendRequest) (reply : AppendReply) (now : Millis)
  | callFailed (to_ : Fin n) (sent : Outgoing n) (now : Millis)
  | propose (command : Str) (now : Millis)
  | read (id : ℕ) (now : Millis)
  | takeOutgoing
  | takeReads

/-- What a method returns. -/
inductive Output (n : ℕ) where
  | done
  | vote (reply : VoteReply)
  | append (reply : AppendReply)
  | proposed (at_ : Option (ℕ × ℕ))
  | reading (accepted : Bool)
  | calls (out : List (Outgoing n))
  | results (reads : List ReadResult)
deriving DecidableEq

/-- The method call `x`, if a save in it turns out as `o`. -/
def Raft.input {n : ℕ} (s : Raft n) (x : Input n) (o : Saved) : Raft n × Output n :=
  match x with
  | .tick now => (s.tick now o, .done)
  | .handleVote req now => let (s, reply) := s.handleVote req now o; (s, .vote reply)
  | .handleVoteReply from_ sent reply now => (s.handleVoteReply from_ sent reply now o, .done)
  | .handleAppend req now => let (s, reply) := s.handleAppend req now o; (s, .append reply)
  | .handleAppendReply from_ sent reply now => (s.handleAppendReply from_ sent reply now o, .done)
  | .callFailed to_ sent now => (s.callFailed to_ sent now, .done)
  | .propose command now => let (s, at_) := s.propose command now o; (s, .proposed at_)
  | .read id now => let (s, accepted) := s.read id now o; (s, .reading accepted)
  | .takeOutgoing => let (s, out) := s.takeOutgoing; (s, .calls out)
  | .takeReads => let (s, reads) := s.takeReads; (s, .results reads)

end ChordFs
