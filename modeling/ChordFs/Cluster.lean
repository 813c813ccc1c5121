import ChordFs.Repair

/-! # Processes that answer one another

The processes of a ring with their stores, as a repair round of one of them finds them when no
exchange fails: every request is handled by `handle_chunk_request` of the process it is sent to.  A
write is answered when enough copies are confirmed, and the others are still on their way then; they
land at any time, before any later question. -/

namespace ChordFs

open Circle Dialogue Text

/-! ### Processes -/

/-- The address of a process. -/
structure Host where
  ip : Str
  port : ℕ
deriving DecidableEq

def Peer.host (p : Peer) : Host := ⟨p.ip, p.port⟩

theorem sameProcess_iff {p q : Peer} : sameProcess p q = true ↔ p.host = q.host := by
  simp [sameProcess, Peer.host]

/-- The processes of a ring: the members each runs, and its settings for the collector. -/
structure Sites (R : Members) where
  members : Host → List Peer
  mem_members : ∀ {h q}, q ∈ members h ↔ q ∈ R ∧ q.host = h
  gcGrace : Host → ℤ
  gcKey : Host → Str

/-- The members at each address. -/
def Sites.ofRing (R : Members) : Sites R where
  members h := R.list.filter fun q => q.host = h
  mem_members := by
    intro h q
    rw [List.mem_filter, decide_eq_true_eq]
    rfl
  gcGrace _ := 0
  gcKey _ := []

/-- A copy on its way to a replica. -/
structure Copy where
  dest : Peer
  key : Str
  body : Str

structure Cluster where
  ring : Ring
  store : Host → ChunkStore
  disk : Host → Disk
  copies : List Copy
  calls : ℕ

/-- What differs from call to call: the clocks, and which copies have landed. -/
structure Timing where
  now : ℕ → ℤ
  lands : ℕ → Copy → Bool

namespace Cluster

def setStore (w : Cluster) (h : Host) (s : ChunkStore × Disk) : Cluster :=
  { w with store := Function.update w.store h s.1, disk := Function.update w.disk h s.2 }

def withCopies (w : Cluster) (copies : List Copy) : Cluster := { w with copies := copies }

/-- A process handles the STORE of a copy. -/
def receive (sha : Sha1) (now : ℤ) (w : Cluster) (c : Copy) : Str × Cluster :=
  let out := handleStore sha {} now (storeLine c.key c.body) c.body (w.store c.dest.host)
    (w.disk c.dest.host)
  (out.1, w.setStore c.dest.host out.2)

/-- Copies are received, and the coordinator is told. -/
def receiveAll (sha : Sha1) (now : ℤ) : List Copy → Tally → Cluster → Tally × Cluster
  | [], t, w => (t, w)
  | c :: cs, t, w =>
    let out := w.receive sha now c
    receiveAll sha now cs (if out.1 = "OK".toList then t.confirm else t.fail c.dest out.1) out.2

/-- Some of the copies on their way land. -/
def land (sha : Sha1) (now : ℤ) (lands : Copy → Bool) (w : Cluster) : Cluster :=
  (receiveAll sha now (w.copies.filter lands) ⟨0, 0, []⟩ w).2.withCopies
    (w.copies.filter fun c => ¬ lands c)

/-- A write that its coordinator has begun: the answer comes with the first copies, or if they
settle nothing with all of them. -/
def write (sha : Sha1) (now : ℤ) (lands : Copy → Bool) (key body : Str) (copies : ℕ)
    (m : PutMachine) (w : Cluster) :
    Str × Cluster :=
  match m.coord with
  | .answered reply => (reply, w)
  | _ =>
    let sent := m.copies.map fun c => ⟨c.1, key, body⟩
    let late := sent.filter fun c => ¬ lands c
    let out := receiveAll sha now (sent.filter lands) m.tally w
    if out.1.settled m.total copies then (out.1.reply copies, out.2.withCopies (w.copies ++ late))
    else
      let all := receiveAll sha now late out.1 out.2
      (all.1.reply copies, all.2)

variable {R : Members}

/-- A process as a request finds it. -/
def chunkNode (sites : Sites R) (w : Cluster) (h : Host) (hne : sites.members h ≠ []) :
    ChunkNode where
  keeps := true
  store := w.store h
  disk := w.disk h
  members := (sites.members h).map w.ring.node
  members_ne := fun hnil => hne (List.map_eq_nil_iff.mp hnil)
  gcGrace := sites.gcGrace h
  gcKey := sites.gcKey h

/-- A request to the process at an address. -/
def request (sha : Sha1) (sites : Sites R) (clock : ℕ → ℤ) (lands : Copy → Bool) (dest : Peer)
    (line body : Str) (w : Cluster) : (Delivery × ChunkFrame) × Cluster :=
  if hne : sites.members dest.host ≠ [] then
    let out := handleChunkRequest sha {} clock false (w.chunkNode sites dest.host hne) line body
    let w := w.setStore dest.host (out.2.store, out.2.disk)
    match out.1 with
    | .answer f => ((.ok, f), w)
    | .write key body copies m =>
      let written := w.write sha (clock 0) lands key body copies m
      ((.ok, ⟨written.1, []⟩), written.2)
  else ((.refused, ⟨[], []⟩), w)

variable (sha : Sha1) (sites : Sites R) (depth : ℕ) (T : Timing) (self : Host)

/-- What a round of the process `self` hears. -/
def reply : (q : RepairAsk) → Cluster → q.Reply × Cluster
  | .keys, w => (storeKeys (w.store self), w)
  | .keysInArc start stop, w => (storeKeysInArc (w.store self) start stop, w)
  | .get key, w => (storeGet (w.disk self) key, w)
  | .remove key, w =>
    let out := storeRemove {} key (w.store self) (w.disk self)
    (out.1, w.setStore self out.2)
  | .put key body, w =>
    let out := storePut sha {} (T.now w.calls) key body (w.store self) (w.disk self)
    (out.1, w.setStore self out.2)
  | .member p, w => (w.ring.node p, w)
  | .route c, w =>
    let out := Ring.deliver depth c w.ring
    (out.1, { w with ring := out.2 })
  | .send dest line body, w =>
    w.request sha sites (fun _ => T.now w.calls) (T.lands w.calls) dest line body

/-- Before each answer copies land. -/
def answer (q : RepairAsk) (w : Cluster) : q.Reply × Cluster :=
  reply sha sites depth T self q
    { w.land sha (T.now w.calls) (T.lands w.calls) with calls := w.calls + 1 }

end Cluster

/-- One process runs a round. -/
structure Round where
  host : Host
  state : RepairState
  scanEvery : ℤ

/-- The round is a full scan. -/
def Round.full (r : Round) : Bool :=
  r.scanEvery > 0 ∧ ((r.state.round + 1 : ℕ) : ℤ) % r.scanEvery = 0

namespace Cluster

variable {R : Members}

/-- A round of one process. -/
def round (sha : Sha1) (sites : Sites R) (depth : ℕ) (T : Timing) (w : Cluster) (r : Round) :
    Cluster :=
  ((repairRound sha true (sites.members r.host) r.scanEvery r.state).run
    (answer sha sites depth T r.host) () w).2.2

/-- Round after round, and then the copies still on their way land. -/
def rounds (sha : Sha1) (sites : Sites R) (depth : ℕ) (T : Timing) (w : Cluster) (rs : List Round) :
    Cluster :=
  let w := rs.foldl (round sha sites depth T) w
  w.land sha (T.now w.calls) fun _ => true

end Cluster

end ChordFs
