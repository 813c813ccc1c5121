import ChordFs.Lib.SortedMap
import ChordFs.Lookup
import Mathlib.Algebra.Order.Ring.Int
import Mathlib.Data.Char
import Mathlib.Data.List.Lex

/-! # A ring member

The routing state of a member and everything that changes it (`stabilize.h`, `stabilize.cpp`):
the starting states, the requests it answers, and its maintenance round.  The code is a dialogue
over the state behind the member's lock: every `sect` is one critical section, every question one
call of the transport, and nothing is assumed to stay as it was between two of them.

Log lines are appended in the section that decides on them; the source writes them after
unlocking. -/

namespace ChordFs

open Dialogue

def MAX_SUCCESSORS : ℕ := 16
def STRIKES_TO_EVICT : ℕ := 2
def MAX_CONTACTS : ℕ := 32
def MAX_WALK : ℕ := 64

/-- What a member's maintenance has done. -/
structure RingCounters where
  rounds : ℕ := 0
  strikes : ℕ := 0
  evictedRefused : ℕ := 0
  evictedStrikes : ℕ := 0
  evictedOrphan : ℕ := 0
  newSuccessor : ℕ := 0
  rejoins : ℕ := 0
deriving DecidableEq

structure NodeState where
  self : Peer
  /-- The length of the successor list. -/
  r : ℕ
  pred : Option Peer
  /-- Nearest first; the first entry is the successor. -/
  succs : List Peer
  fingers : List Peer
  /-- Where `fix_next_finger` resumes. -/
  nextFinger : ℕ
  /-- Every node this one knew has been evicted: it refuses to route and tries to rejoin. -/
  orphaned : Bool
  /-- Addresses for rejoining, newest first. -/
  contacts : List Peer
  nextContact : ℕ
  /-- Consecutive failed calls, by member. -/
  strikes : SortedMap Str ℕ
  counters : RingCounters
  /-- The lines written to the log. -/
  events : List Str

/-- A program of a ring member. -/
abbrev Task (α : Type) := Prog NodeState Call (fun _ => Exchanged) α

/-- The key of a member in the failure detector's memory. -/
def memberKey (p : Peer) : Str := address p ++ '/' :: idToHex p.id

namespace NodeState

/-- The successor. -/
def succ (s : NodeState) : Peer := s.succs.headD s.self

def fresh (me : Peer) (r : ℕ) : NodeState where
  self := me
  r := r
  pred := none
  succs := [me]
  fingers := List.replicate ID_BITS me
  nextFinger := 1
  orphaned := false
  contacts := []
  nextContact := 0
  strikes := .empty
  counters := {}
  events := []

def log (s : NodeState) (lines : List Str) : NodeState := { s with events := s.events ++ lines }

/-! ### Eviction and strikes -/

/-- The nearest node clockwise that is still known, or the member itself. -/
def nearestKnown (s : NodeState) (gone : Peer → Bool) : Peer :=
  let consider (best : Peer × Id) (p : Peer) : Peer × Id :=
    if p = s.self ∨ gone p ∨ p.id = s.self.id then best
    else
      let distance := p.id - s.self.id
      if best.2 = 0 ∨ distance < best.2 then (p, distance) else best
  ((s.fingers ++ s.pred.toList).foldl consider (s.self, 0)).1

/-- Keep an address for rejoining: newest first, no repeats, bounded. -/
def remember (s : NodeState) (p : Peer) : NodeState :=
  if sameProcess p s.self then s
  else
    let contacts := p :: s.contacts.erase p
    { s with contacts := if contacts.length > MAX_CONTACTS then contacts.dropLast else contacts }

def rememberAll (s : NodeState) (ps : List Peer) : NodeState := ps.foldl remember s

/-- Whom an eviction removes: every member at the address, or the one member. -/
def gone (dead : Peer) (wholeProcess : Bool) (p : Peer) : Bool :=
  if wholeProcess then sameProcess p dead else p = dead

/-- The entry behind the evicted ones in the list: it owns now what they owned. -/
def replacement (s : NodeState) (gone : Peer → Bool) : Option Peer :=
  (s.succs.dropWhile fun p => ¬ gone p).find? fun p => ¬ gone p

/-- The successor list without the evicted, or the nearest node still known. -/
def keptSuccs (s : NodeState) (gone : Peer → Bool) : List Peer :=
  let kept := s.succs.filter fun p => ¬ gone p
  if kept = [] then [s.nearestKnown gone] else kept

/-- Nobody is left that the member knows of. -/
def becomesOrphan (s : NodeState) (gone : Peer → Bool) : Bool :=
  s.succs.all gone ∧ s.nearestKnown gone = s.self ∧ s.succ ≠ s.self

def isKnown (s : NodeState) (gone : Peer → Bool) : Bool :=
  s.succs.any gone || s.pred.any gone || s.fingers.any gone

/-- The lines an eviction writes. -/
def evictLines (s : NodeState) (dead : Peer) (why : Str) (wholeProcess : Bool) : List Str :=
  let gone := gone dead wholeProcess
  (if ¬ s.succs.all gone then []
    else if s.becomesOrphan gone then
      ["orphaned: every known node is gone; refusing to route until rejoined".toList]
    else ["successor list exhausted; falling back to ".toList ++ address (s.nearestKnown gone)]) ++
  if ¬ s.isKnown gone then []
  else ["evict ".toList ++ address dead ++ " (".toList ++ why ++ ")".toList ++
    if wholeProcess then [] else " member ".toList ++ idToHex dead.id]

/-- Whether the strikes under this key are forgotten with `dead`. -/
def forgets (dead : Peer) (wholeProcess : Bool) (key : Str) : Bool :=
  if wholeProcess then (address dead ++ "/".toList).isPrefixOf key else key = memberKey dead

def countEviction (c : RingCounters) (wholeProcess siblingSaidSo : Bool) : RingCounters :=
  if siblingSaidSo then { c with evictedOrphan := c.evictedOrphan + 1 }
  else if wholeProcess then { c with evictedRefused := c.evictedRefused + 1 }
  else { c with evictedStrikes := c.evictedStrikes + 1 }

/-- `evict_locked`: remove `dead` from the list, the predecessor and the fingers. -/
def evict (s : NodeState) (dead : Peer) (why : Str) (wholeProcess siblingSaidSo : Bool) :
    NodeState :=
  if dead = s.self then s
  -- nor a sibling, on suspicion
  else if sameProcess dead s.self ∧ ¬ siblingSaidSo then s
  else
    let gone := gone dead wholeProcess
    let succs := s.keptSuccs gone
    let first := succs.headD s.self
    { s with
      succs := succs
      orphaned := s.orphaned || s.becomesOrphan gone
      pred := s.pred.filter fun p => ¬ gone p
      fingers := (s.fingers.map fun f =>
        if gone f then (s.replacement gone).getD first else f).set 0 first
      strikes := s.strikes.filterKeys fun key => ¬ forgets dead wholeProcess key
      counters := if s.isKnown gone then countEviction s.counters wholeProcess siblingSaidSo
        else s.counters
      events := s.events ++ s.evictLines dead why wholeProcess }

/-- Whether a peer is in one of the tables. -/
def holds (s : NodeState) (p : Peer) : Bool := s.pred = some p ∨ p ∈ s.succs ∨ p ∈ s.fingers

/-- `strike_locked`: a failure that proves nothing; the second in a row evicts. -/
def strike (s : NodeState) (p : Peer) (why detail : Str) : NodeState :=
  if sameProcess p s.self then s
  else if ¬ s.holds p then s
  else
    let n := (s.strikes.find? (memberKey p)).getD 0 + 1
    let struck : NodeState := { s with
      strikes := s.strikes.set (memberKey p) n
      counters := { s.counters with strikes := s.counters.strikes + 1 }
      events := s.events ++ ["strike ".toList ++ num n ++ " against ".toList ++ address p ++
        " (".toList ++ why ++ ")".toList ++ detail] }
    if n ≥ STRIKES_TO_EVICT then struck.evict p (why ++ ", second strike".toList) false false
    else struck

def clearStrikes (s : NodeState) (p : Peer) : NodeState :=
  { s with strikes := s.strikes.erase (memberKey p) }

end NodeState

/-! ### The wrapper of every maintenance call -/

/-- What came of a call: a valid reply, a refusal, or anything else. -/
inductive CallOutcome (β : Type) where
  | good (b : β)
  | refused
  | failed

/-- A reply that arrived, is not ERR, and is valid. -/
def goodReply {β : Type} (a : Exchanged) (valid : Str → Option β) : Option β :=
  if a.delivery = .ok ∧ a.reply.take 3 ≠ "ERR".toList then valid a.reply else none

/-- The member said itself that it is out of the ring. -/
def saysOrphaned (a : Exchanged) : Bool :=
  a.delivery = .ok ∧ a.reply.take 12 = "ERR orphaned".toList

/-- What a failed call means for the node called. -/
def NodeState.report (s : NodeState) (node : Peer) (line : Str) (a : Exchanged) : NodeState :=
  if saysOrphaned a then s.evict node "it says it is orphaned".toList false true
  else if a.delivery = .refused then s.evict node "refused".toList true false
  else s.strike node
    (if a.delivery = .ok then "bad reply to ".toList ++ firstWord line else deliveryName a.delivery)
    (" after ".toList ++ num a.took ++ " ms".toList)

/-- `call_peer`. -/
def callPeer {β : Type} (node : Peer) (line : Str) (valid : Str → Option β) :
    Task (CallOutcome β) := do
  let a ← .ask ⟨node, line⟩
  match goodReply a valid with
  | some b =>
    .sect fun s => (.good b, s.clearStrikes node)
  | none =>
    .sect fun s => (if a.delivery = .refused then .refused else .failed, s.report node line a)

/-! ### Wire formats -/

def isPong (reply : Str) : Option Unit := if reply.take 5 = "PONG ".toList then some () else none

def isOk (reply : Str) : Option Unit := if reply = "OK".toList then some () else none

structure Neighbours where
  pred : Option Peer
  succs : List Peer
deriving DecidableEq

def renderNeighbours (n : Neighbours) : Str :=
  words ("NEIGHBOURS".toList :: (match n.pred with
    | some p => p.wire
    | none => ["NONE".toList]) ++ num n.succs.length :: n.succs.flatMap Peer.wire)

/-- `parse_count`: a number in 1..16 without a leading zero. -/
def parseCount (w : Str) : Option ℕ :=
  if w = [] ∨ w.length > 2 ∨ w.head? = some '0' ∨ ¬ w.all Char.isDigit then none
  else
    let value := Nat.ofDigitChars 10 w 0
    if value < 1 ∨ value > MAX_SUCCESSORS then none else some value

section parse
variable (out : Neighbours) (why : Str)

/-- The loop of `parse_neighbours` over the words of the successors, three each, and the assignment
to `out` after it. -/
def parsePeers : List Str → Neighbours → Bool × Neighbours × Str
  | id :: ip :: port :: rest, parsed =>
    match parsePeerWords id ip port with
    | .error why => (false, out, why)
    | .ok p => parsePeers rest { parsed with succs := parsed.succs ++ [p] }
  | _, parsed => (true, parsed, why)

/-- The successors of a NEIGHBOURS reply: their number and their words. -/
def parseSuccessors (count : Str) (rest : List Str) (parsed : Neighbours) : Bool × Neighbours × Str :=
  match parseCount count with
  | none => (false, out, "successor count is not a number in 1..".toList ++ num MAX_SUCCESSORS)
  | some n =>
    if rest.length ≠ 3 * n then (false, out, "successor count does not match the peers given".toList)
    else parsePeers out why rest parsed

/-- `parse_neighbours`: whether the line is accepted, and what `out` and `why` hold then. -/
def parseNeighboursInto (line : Str) : Bool × Neighbours × Str :=
  match splitSingleSpaces line with
  | verb :: w1 :: w2 :: rest =>
    if verb ≠ "NEIGHBOURS".toList then (false, out, "not a NEIGHBOURS reply".toList)
    else if w1 = "NONE".toList then parseSuccessors out why w2 rest ⟨none, []⟩
    else
      match rest with
      | w3 :: w4 :: rest =>
        match parsePeerWords w1 w2 w3 with
        | .error why => (false, out, why)
        | .ok p => parseSuccessors out why w4 rest ⟨some p, []⟩
      | _ => (false, out, if why = [] then "predecessor is incomplete".toList else why)
  | _ => (false, out, "not a NEIGHBOURS reply".toList)

end parse

/-- `parse_neighbours` as it is called, with new arguments. -/
def parseNeighbours (line : Str) : Except Str Neighbours :=
  match parseNeighboursInto ⟨none, []⟩ [] line with
  | (true, nb, _) => .ok nb
  | (false, _, why) => .error why

/-- The loop of `merge_successors`. -/
def mergeFrom (self : Peer) (r : ℕ) : List Peer → List Peer → List Peer
  | out, [] => out
  | out, p :: ps =>
    if out.length ≥ r then out
    -- the list has wrapped round
    else if p = self then out
    -- carries the member's identifier: never adopted
    else if p.id = self.id then mergeFrom self r out ps
    else if p ∈ out then mergeFrom self r out ps
    else mergeFrom self r (out ++ [p]) ps

/-- `merge_successors`: the successor, then its own list. -/
def mergeSuccessors (self succ : Peer) (succList : List Peer) (r : ℕ) : List Peer :=
  mergeFrom self r [succ] succList

/-! ### Starting states -/

/-- `init_alone`. -/
def NodeState.initAlone (s : NodeState) : NodeState :=
  { s with
    pred := none
    succs := [s.self]
    fingers := List.replicate ID_BITS s.self
    nextFinger := 1 }

/-- The next members clockwise after `me`, as many as fit. -/
def nextMembers (me : Peer) (members : List Peer) (r : ℕ) : List Peer :=
  let i := members.idxOf me
  (members.drop (i + 1) ++ members.take i).take r

/-- `init_wired`. -/
def NodeState.initWired (s : NodeState) (R : Members) : NodeState :=
  let next := nextMembers s.self R.list s.r
  let succs := if next = [] then [s.self] else next
  { s with
    fingers := (buildFingers s.self.id R).set 0 (succs.headD s.self)
    succs := succs
    pred := if R.list.length > 1 then some (predecessorOf s.self.id R) else none
    nextFinger := 1 : NodeState }.rememberAll succs

inductive JoinStatus where
  | joined
  | retry
  | collision
deriving DecidableEq, Repr

/-- The last section of `join`. -/
def NodeState.joined (s : NodeState) (known owner : Peer) (list : Option (List Peer)) : NodeState :=
  let succs := match list with
    | some l => mergeSuccessors s.self owner l s.r
    | none => [owner]
  ({ s with
    pred := none
    succs := succs
    fingers := List.replicate ID_BITS owner
    nextFinger := 1
    orphaned := false : NodeState }.remember known).rememberAll succs.reverse

/-- `join` of a member that is `self`: the status, and what went wrong. -/
def join (self known : Peer) : Task (JoinStatus × Str) := do
  let r ← lookup known self.id
  match r.outcome with
  | .error (e, message) =>
    return (.retry, "lookup failed (".toList ++ lookupErrorName e ++ "): ".toList ++ message)
  | .ok owner =>
    if owner = self then
      return (.retry, "the ring still names ".toList ++ address self ++
        " as a member; waiting for it to be evicted".toList)
    else if owner.id = self.id then
      return (.collision, "identifier ".toList ++ idToHex self.id ++ " is already used by ".toList ++
        address owner ++ "; start this node on another port".toList)
    else
      -- the successor's own list, if it can be had
      let a ← .ask ⟨owner, "NEIGHBOURS".toList⟩
      let list := if a.delivery = .ok then
          match parseNeighbours a.reply with
          | .ok nb => some nb.succs
          | .error _ => none
        else none
      .sect fun s => ((.joined, []), s.joined known owner list)

/-! ### Answering requests -/

def isBlank (c : Char) : Bool := c ∈ [' ', '\t', '\n', '\x0b', '\x0c', '\r']

/-- The words of a line as a stream reads them, blanks of any kind and number between them. -/
def blankWords (line : Str) : List Str := (line.splitOnP isBlank).filter fun w => w ≠ []

/-- A reply, and what is left to do after it has been sent. -/
structure Handled where
  reply : Str
  after : Task Unit

def Handled.just (reply : Str) : Handled := ⟨reply, .done ()⟩

/-- The predecessor slot is given to `c`. -/
def NodeState.takePred (s : NodeState) (c : Peer) : NodeState :=
  ({ s with pred := some c }.remember c).log ["predecessor is now ".toList ++ address c]

/-- The deferred work of NOTIFY: probe the old predecessor and fill the slot if it fell empty. -/
def probePred (old c : Peer) : Task Unit := do
  match ← callPeer old "PING".toList isPong with
  | .good _ => return
  | _ => .sect fun s => ((), if s.pred = none then s.takePred c else s)

/-- The section of NOTIFY: the old predecessor if it has to be probed, and the state. -/
def NodeState.notified (s : NodeState) (c : Peer) : Option Peer × NodeState :=
  match s.pred with
  | none => (none, { s with strikes := s.strikes.erase (memberKey c) }.takePred c)
  | some p =>
    if inRangeOo c.id p.id s.self.id then
      (none, { s with strikes := s.strikes.erase (memberKey c) }.takePred c)
    -- not closer: is the old one still alive?
    else if p ≠ c then (some p, s)
    else (none, s)

def handleNotify (self c : Peer) : Task Handled :=
  if c = self then return .just "OK".toList
  else if c.id = self.id then
    .sect fun s => (.just "OK".toList, s.log ["refusing ".toList ++ address c ++
      " as predecessor: it carries my identifier".toList])
  else do
    match ← .sect fun s => s.notified c with
    | none => return .just "OK".toList
    | some old => return ⟨"OK".toList, probePred old c⟩

/-- The peer in the tables whose address is named. -/
def NodeState.suspected (s : NodeState) (named : Str) : Option Peer :=
  (s.pred.toList ++ s.succs ++ s.fingers).find? fun p => address p = named

def handleSuspect (self : Peer) (named : Str) : Task Handled := do
  match ← .sect fun s => (s.suspected named, s) with
  | none => return .just "OK".toList
  | some target =>
    if sameProcess target self then return .just "OK".toList
    else
      -- a hint, not a verdict: only a refusal of our own probe counts
      let a ← .ask ⟨target, "PING".toList⟩
      if a.delivery = .refused then
        .sect fun s => (.just "OK".toList,
          s.evict target "refused, after a client reported it".toList true false)
      else return .just "OK".toList

/-- The runs of equal fingers, each with its first index. -/
def fingerRuns (fingers : List Peer) : List (ℕ × Peer) :=
  fingers.zipIdx.filterMap fun (f, i) =>
    if i > 0 ∧ fingers[i - 1]? = some f then none else some (i, f)

def renderFingers (fingers : List Peer) : Str :=
  let runs := fingerRuns fingers
  let reply := words ("FINGERS".toList :: num runs.length ::
    runs.flatMap fun (i, f) => num i :: f.wire)
  if reply.length > MAX_LINE then "ERR too many distinct fingers for one line".toList else reply

/-- The requests an orphan refuses. -/
def ringVerbs : List Str :=
  ["PING".toList, "FIND_SUCCESSOR".toList, "NEIGHBOURS".toList, "NOTIFY".toList]

/-- A request behind the check for orphans. -/
def serve (self : Peer) (w : List Str) : Task Handled :=
  match w with
  | [verb] =>
    if verb = "PING".toList then return .just (words ["PONG".toList, idToHex self.id])
    else if verb = "NEIGHBOURS".toList then
      .sect fun s => (.just (renderNeighbours ⟨s.pred, s.succs⟩), s)
    else if verb = "FINGERS".toList then .sect fun s => (.just (renderFingers s.fingers), s)
    else return .just "ERR unknown request".toList
  | [verb, word] =>
    if verb = "FIND_SUCCESSOR".toList then
      .sect fun s => (.just (findReply s.self s.succ s.fingers word), s)
    else return .just "ERR unknown request".toList
  | [verb, ip, port] =>
    if verb = "SUSPECT".toList then handleSuspect self (ip ++ ':' :: port)
    else return .just "ERR unknown request".toList
  | [verb, id, ip, port] =>
    if verb = "NOTIFY".toList then
      match parsePeerWords id ip port with
      | .error why => return .just ("ERR ".toList ++ why)
      | .ok c => handleNotify self c
    else return .just "ERR unknown request".toList
  | _ => return .just "ERR unknown request".toList

/-- `handle_request` of the member `self`. -/
def handleRequest (self : Peer) (line : Str) : Task Handled :=
  match blankWords line with
  | [] => return .just "ERR empty request".toList
  | verb :: rest =>
    if ringVerbs.contains verb then do
      -- a section of its own: what follows takes the lock again
      match ← .sect fun s => (s.orphaned, s) with
      | true => return .just "ERR orphaned: rejoining the ring".toList
      | false => serve self (verb :: rest)
    else serve self (verb :: rest)

/-! ### The maintenance round -/

/-- What the successor said, applied if it is still the successor: whether it is, and the candidate
for a closer one. -/
def NodeState.applyNeighbours (s : NodeState) (succ : Peer) (nb : Neighbours) :
    (Bool × Option Peer) × NodeState :=
  if s.succ ≠ succ then ((false, none), s)
  else
    let succs := mergeSuccessors s.self succ nb.succs s.r
    let s' := { s with succs := succs, fingers := s.fingers.set 0 (succs.headD s.self) :
      NodeState }.rememberAll succs.reverse
    match nb.pred with
    | none => ((true, none), s')
    | some p =>
      if p = s.self ∨ p = succ then ((true, none), s')
      else if p.id = s.self.id then
        ((true, none), s'.log ["refusing ".toList ++ address p ++
          " as successor: it carries my identifier".toList])
      else if inRangeOo p.id s.self.id succ.id then ((true, some p), s')
      else ((true, none), s')

/-- A closer successor that has answered is taken, if the old one is still the successor. -/
def NodeState.adopt (s : NodeState) (succ candidate : Peer) : Bool × NodeState :=
  if s.succ ≠ succ then (false, s)
  else
    let succs := (candidate :: s.succs.filter fun p => p ≠ s.self).take (max s.r 1)
    (true, ({ s with
      succs := succs
      fingers := s.fingers.set 0 candidate
      counters := { s.counters with newSuccessor := s.counters.newSuccessor + 1 } :
        NodeState }.remember candidate).log ["successor is now ".toList ++ address candidate])

/-- Tell the successor about this member. -/
def notifySuccessor (self : Peer) : Task Unit := do
  let target ← .sect fun s => (s.succ, s)
  if target = self then return
  else
    let _ ← callPeer target (words ("NOTIFY".toList :: self.wire)) isOk
    return

def parsedNeighbours (reply : Str) : Option Neighbours := (parseNeighbours reply).toOption

/-- The end of a pass in which the successor has not answered: a first strike leaves it where it is,
and an eviction moves on to the next. -/
def stabilizeAgain (succ : Peer) (rest : Task Unit) : Task Unit := do
  match ← .sect fun s => (decide (s.succ = succ), s) with
  | true => return
  | false => rest

/-- The loop of `stabilize` with `left` passes left. -/
def stabilizeLoop (self : Peer) : ℕ → Task Unit
  | 0 => return
  | left + 1 => do
      let succ ← .sect fun s => (s.succ, s)
      match ← callPeer succ "NEIGHBOURS".toList parsedNeighbours with
      | .good nb =>
        match ← .sect fun s => s.applyNeighbours succ nb with
        | (false, _) => return
        | (true, none) => notifySuccessor self
        | (true, some c) =>
          -- verify before adopting: the successor may still name a node that is dead
          match ← callPeer c "PING".toList isPong with
          | .good _ =>
            match ← .sect fun s => s.adopt succ c with
            | true => stabilizeLoop self left
            | false => notifySuccessor self
          | _ => notifySuccessor self
      | _ => stabilizeAgain succ (stabilizeLoop self left)

def stabilize (self : Peer) : Task Unit := stabilizeLoop self (MAX_SUCCESSORS + MAX_WALK + 1)

def checkPredecessor (self : Peer) : Task Unit := do
  match ← .sect fun s => (s.pred, s) with
  | none => return
  | some p =>
    if p = self then return
    else
      let _ ← callPeer p "PING".toList isPong
      return

/-- Fingers from `j` on whose start the owner covers, at most `left` of them: where it stops, and
the fingers. -/
def fillForward (self owner : Peer) : ℕ → ℕ → List Peer → ℕ × List Peer
  | 0, j, fingers => (j, fingers)
  | left + 1, j, fingers =>
    if inRangeOc (fingerStart self.id j) self.id owner.id then
      fillForward self owner left (j + 1) (fingers.set j owner)
    else (j, fingers)

/-- The finger after `i`, round the table. -/
def afterFinger (i : ℕ) : ℕ := if i + 1 ≥ ID_BITS then 1 else i + 1

/-- What a finished lookup for finger `i` means. -/
def NodeState.fixFinger (s : NodeState) (i : ℕ) (r : LookupResult) : NodeState :=
  match r.outcome with
  | .error (e, _) =>
    let why := lookupErrorName e ++ " during fix_fingers".toList
    let s' := match r.path.getLast? with
      | none => s
      | some node =>
        -- nobody is blamed for the request cap or a local error
        if e = LookupError.tooManyRequests ∨ e = LookupError.unreachable then s
        else if e = LookupError.refused then s.evict node why true false
        else s.strike node why []
    { s' with nextFinger := afterFinger i }
  | .ok owner =>
    if owner.id = s.self.id ∧ owner ≠ s.self then
      { s.log ["refusing ".toList ++ address owner ++
        " as a finger: it carries my identifier".toList] with nextFinger := afterFinger i }
    else
      let (j, fingers) := fillForward s.self owner (ID_BITS - i) i s.fingers
      -- cannot happen for an answer that passed the checks of the lookup
      let (j, fingers) := if j = i then (i + 1, fingers.set i owner) else (j, fingers)
      { s with
        fingers := fingers.set 0 s.succ
        nextFinger := if j ≥ ID_BITS then 1 else j : NodeState }.remember owner

def fixNextFinger (self : Peer) : Task Unit := do
  let i ← .sect fun s => (s.nextFinger, s)
  let r ← lookup self (fingerStart self.id i)
  .sect fun s => ((), s.fixFinger i r)

/-- The next contact of an orphan, round-robin. -/
def NodeState.nextWayIn (s : NodeState) : (Bool × Option Peer) × NodeState :=
  if s.orphaned ∧ s.contacts ≠ [] then
    ((true, s.contacts[s.nextContact % s.contacts.length]?),
      { s with nextContact := s.nextContact + 1 })
  else ((s.orphaned, none), s)

/-- An orphan tries one contact per round. -/
def rejoin (self contact : Peer) : Task Unit := do
  let (status, why) ← join self contact
  .sect fun s => ((), if status = .joined then
      { s with counters := { s.counters with rejoins := s.counters.rejoins + 1 } }.log
        ["rejoined through ".toList ++ address contact]
    else s.log ["rejoin through ".toList ++ address contact ++ " failed: ".toList ++ why])

/-- `maintenance_round`. -/
def maintenanceRound (self : Peer) : Task Unit := do
  .sect fun s => ((), { s with counters := { s.counters with rounds := s.counters.rounds + 1 } })
  match ← .sect fun s => s.nextWayIn with
  | (true, none) => return
  | (true, some c) => rejoin self c
  | (false, _) =>
    stabilize self
    checkPredecessor self
    fixNextFinger self

end ChordFs
