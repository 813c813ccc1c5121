import ChordFs.ChunkNode

/-! # Repair

How a process gets the chunks of its arcs back to their replicas (`repair.h`, `repair.cpp`).  In a
round the owner of an arc compares with each replica what they hold there, first by a digest and
then key by key, and sends what is missing.  A full scan also hashes every chunk again, and hands
over to its owner each chunk that the process holds and does not own.

A round is a dialogue: with the store of the process, with the states of its members, and with other
processes. -/

namespace ChordFs

open Dialogue Paging Text

/-! ### Questions -/

/-- What a round asks: its own store, one of its members under the lock, a member of the ring, or
the process at a peer's address. -/
inductive RepairAsk where
  | keys
  | keysInArc (start stop : Id)
  | get (key : Str)
  | remove (key : Str)
  | put (key body : Str)
  | member (p : Peer)
  | route (c : Call)
  | send (dest : Peer) (line body : Str)

abbrev RepairAsk.Reply : RepairAsk → Type
  | .keys => List Str
  | .keysInArc _ _ => List Str
  | .get _ => GetResult
  | .remove _ => Bool
  | .put _ _ => PutResult
  | .member _ => NodeState
  | .route _ => Exchanged
  | .send _ _ _ => Delivery × ChunkFrame

abbrev Repair (α : Type) := Prog Unit RepairAsk RepairAsk.Reply α

namespace Repair

def keys : Repair (List Str) := .call .keys .done

def keysInArc (start stop : Id) : Repair (List Str) := .call (.keysInArc start stop) .done

def get (key : Str) : Repair GetResult := .call (.get key) .done

def remove (key : Str) : Repair Bool := .call (.remove key) .done

def put (key body : Str) : Repair PutResult := .call (.put key body) .done

def member (p : Peer) : Repair NodeState := .call (.member p) .done

def send (dest : Peer) (line body : Str) : Repair (Delivery × ChunkFrame) :=
  .call (.send dest line body) .done

def route {α : Type} (p : Prog Unit Call (fun _ => Exchanged) α) : Repair α :=
  p.embed .route fun _ a => a

end Repair

/-- A question of a client. -/
def RepairAsk.ofClient : ChunkAsk → RepairAsk
  | .route c => .route c
  | .send dest line body => .send dest line body

def RepairAsk.toClient : (q : ChunkAsk) → (RepairAsk.ofClient q).Reply → q.Answer
  | .route _, a => a
  | .send _ _ _, a => a

def Repair.client {α : Type} (p : Client α) : Repair α :=
  p.embed RepairAsk.ofClient RepairAsk.toClient

/-! ### What is kept and reported -/

/-- What one member's arc looked like when it was last checked with success. -/
structure ArcCheck where
  pred : Id
  /-- The address of each replica's process, in order. -/
  holders : List Str
deriving DecidableEq

structure RepairState where
  checked : Id → Option ArcCheck
  round : ℕ

structure RepairReport where
  arcsChecked : ℕ := 0
  chunksSent : ℕ := 0
  sendFailures : ℕ := 0
  handedOff : ℕ := 0
  scrubbed : ℕ := 0
  digestsSent : ℕ := 0
  digestsMatched : ℕ := 0
  haveSent : ℕ := 0
  restored : ℕ := 0
  fullScan : Bool := false

/-- The identifier of a key, and zero for what is none. -/
def keyId (key : Str) : Id := (idFromKey key).getD 0

/-! ### Offering chunks -/

/-- How often a read through the ring looks up the owner again. -/
def GET_RETRIES : ℕ := 2

def digestLine (start stop : Id) : Str := words ["DIGEST".toList, idToHex start, idToHex stop]

/-- A replica stores one copy; an owner stores and replicates. -/
def offerLine (asPut : Bool) (key body : Str) : Str :=
  if asPut then words ["PUT".toList, key, "1".toList, num body.length] else storeLine key body

/-- The answer says that the chunk is held. -/
def accepted (a : Delivery × ChunkFrame) : Bool :=
  a.1 = .ok ∧ (a.2.line = "OK".toList ∨ a.2.line.take 3 = "OK ".toList)

section round
variable (sha : Sha1) (start : Peer)

/-- `replace_corrupt`: the copy is removed, and one read through the ring takes its place. -/
def replaceCorrupt (key : Str) (rep : RepairReport) : Repair RepairReport := do
  let _ ← Repair.remove key
  let rep := { rep with scrubbed := rep.scrubbed + 1 }
  let good ← Repair.client (getChunk sha start key GET_RETRIES)
  if ¬ good.ok then return rep
  else
    let r ← Repair.put key good.body
    return if r = .stored then { rep with restored := rep.restored + 1 } else rep

/-- A chunk the other process lacks, and whether all went well. -/
def offerKey (dest : Peer) (asPut : Bool) (key : Str) (rep : RepairReport) :
    Repair (RepairReport × Bool) := do
  match ← Repair.get key with
  | .found body =>
    if chunkKey sha body ≠ key then
      -- it is offered again from the good copy, in the next round
      return (← replaceCorrupt sha start key rep, false)
    else if accepted (← Repair.send dest (offerLine asPut key body) body) then
      return ({ rep with chunksSent := rep.chunksSent + 1 }, true)
    else return ({ rep with sendFailures := rep.sendFailures + 1 }, false)
  -- gone since listed
  | _ => return (rep, true)

/-- The keys of one listing with the digits of the answer. -/
def offerListed (dest : Peer) (asPut : Bool) :
    List (Str × Char) → RepairReport → Bool → Repair (RepairReport × Bool)
  | [], rep, ok => return (rep, ok)
  | (key, bit) :: rest, rep, ok =>
    if bit ≠ '0' then offerListed dest asPut rest rep ok
    else do
      let out ← offerKey sha start dest asPut key rep
      offerListed dest asPut rest out.1 (ok && out.2)

/-- Listing after listing. -/
def offerBatches (dest : Peer) (asPut : Bool) :
    List (List Str) → RepairReport → Bool → Repair (RepairReport × Bool)
  | [], rep, ok => return (rep, ok)
  | keys :: rest, rep, ok => do
      let rep := { rep with haveSent := rep.haveSent + 1 }
      let a ← Repair.send dest (words ("HAVE".toList :: keys)) []
      -- a digit for each key, or the answer is not believed
      if a.1 ≠ .ok ∨ a.2.line.take 5 ≠ "HAVE ".toList ∨ a.2.line.length ≠ 5 + keys.length then
        offerBatches dest asPut rest { rep with sendFailures := rep.sendFailures + 1 } false
      else
        let out ← offerListed sha start dest asPut (keys.zip (a.2.line.drop 5)) rep ok
        offerBatches dest asPut rest out.1 out.2

/-- `offer`, with an arc as every caller has one: what both hold there is compared first. -/
def offer (dest : Peer) (keys : List Str) (rep : RepairReport) (asPut : Bool) (arc : Id × Id) :
    Repair (RepairReport × Bool) := do
  let held ← Repair.keysInArc arc.1 arc.2
  let rep := { rep with digestsSent := rep.digestsSent + 1 }
  let a ← Repair.send dest (digestLine arc.1 arc.2) []
  if a.1 = .ok ∧ a.2.line = words ["DIGEST".toList, keysDigest sha held] then
    return ({ rep with digestsMatched := rep.digestsMatched + 1 }, true)
  else offerBatches sha start dest asPut (batches MAX_HAVE_KEYS keys) rep true

/-- The keys of an arc, to each replica. -/
def offerAll (keys : List Str) (arc : Id × Id) :
    List Peer → RepairReport → Bool → Repair (RepairReport × Bool)
  | [], rep, ok => return (rep, ok)
  | dest :: rest, rep, ok => do
      let out ← offer sha start dest keys rep false arc
      offerAll keys arc rest out.1 (out.2 && ok)

/-- What the process holds in an arc, to each replica. -/
def offerArc (arc : Id × Id) (dests : List Peer) (rep : RepairReport) :
    Repair (RepairReport × Bool) := do
  let keys ← Repair.keysInArc arc.1 arc.2
  offerAll sha start keys arc dests rep true

/-! ### The round -/

/-- The chunk is there and is what its name says. -/
def soundCopy (key : Str) : GetResult → Bool
  | .found body => chunkKey sha body = key
  | _ => false

def scrubFrom : List Str → RepairReport → Repair RepairReport
  | [], rep => return rep
  | key :: keys, rep => do
      if soundCopy sha key (← Repair.get key) then scrubFrom keys rep
      else scrubFrom keys (← replaceCorrupt sha start key rep)

/-- `scrub`: every chunk is hashed again. -/
def scrub (rep : RepairReport) : Repair RepairReport := do
  scrubFrom sha start (← Repair.keys) rep

/-- Each member's arc in turn: the arcs owned, with what is known of them. -/
def checkArcs (full : Bool) :
    List Peer → List (Id × Id) → RepairState → RepairReport →
    Repair (List (Id × Id) × RepairState × RepairReport)
  | [], owned, st, rep => return (owned, st, rep)
  | m :: ms, owned, st, rep => do
      let s ← Repair.member m
      match if s.orphaned then none else s.pred with
      -- the arc is unknown: nothing is owned yet
      | none => checkArcs full ms owned st rep
      | some pred =>
        let owned := owned ++ [(pred.id, m.id)]
        let set := replicaSet (← Repair.member m) RF
        let now : ArcCheck := ⟨pred.id, set.tail.map address⟩
        if st.checked m.id = some now ∧ ¬ full then checkArcs full ms owned st rep
        else
          let out ← offerArc sha start (pred.id, m.id) set.tail rep
          let checked := Function.update st.checked m.id (if out.2 then some now else none)
          checkArcs full ms owned { st with checked := checked }
            { out.1 with arcsChecked := out.1.arcsChecked + 1 }

/-- The keys in no arc the process owns. -/
def foreignKeys (owned : List (Id × Id)) (keys : List Str) : List Str :=
  keys.filter fun key => ¬ owned.any fun arc => inRangeOc (keyId key) arc.1 arc.2

/-- The loop of `hand_off`.  One lookup answers for the keys up to the owner it names; each turn
takes one key or more, so as many turns as there are keys are enough. -/
def handOffFrom : ℕ → List Str → RepairReport → Repair RepairReport
  | 0, _, rep => return rep
  | _ + 1, [], rep => return rep
  | left + 1, key :: rest, rep => do
      let r ← Repair.route (lookup start (keyId key))
      match r.outcome, r.path.getLast? with
      | .ok owner, some namer =>
        let near := fun k => inRangeOc (keyId k) namer.id owner.id
        -- one of our own members owns them after all
        if sameProcess owner start then handOffFrom left (rest.dropWhile near) rep
        else
          let out ← offer sha start owner (key :: rest.takeWhile near) rep true (namer.id, owner.id)
          handOffFrom left (rest.dropWhile near)
            { out.1 with handedOff := out.1.handedOff + (out.1.chunksSent - rep.chunksSent) }
      | _, _ => handOffFrom left rest { rep with sendFailures := rep.sendFailures + 1 }

/-- `hand_off`. -/
def handOff (owned : List (Id × Id)) (rep : RepairReport) : Repair RepairReport := do
  let foreign := foreignKeys owned (← Repair.keys)
  handOffFrom sha start foreign.length foreign rep

end round

/-- `repair_round`, for a process with these members. -/
def repairRound (sha : Sha1) (keeps : Bool) (members : List Peer) (scanEvery : ℤ)
    (st : RepairState) :
    Repair (RepairReport × RepairState) :=
  match members with
  | [] => return ({}, st)
  | start :: _ =>
    if ¬ keeps then return ({}, st)
    else do
      let st := { st with round := st.round + 1 }
      let full := decide (scanEvery > 0 ∧ (st.round : ℤ) % scanEvery = 0)
      let rep : RepairReport := { fullScan := full }
      -- first, so that nothing corrupt is offered
      let rep ← (if full then scrub sha start rep else pure rep : Repair RepairReport)
      let out ← checkArcs sha start full members [] st rep
      let rep ← (if full then handOff sha start out.1 out.2.2 else pure out.2.2 :
        Repair RepairReport)
      return (rep, out.2.1)

/-! ### What a process does with the requests of a round -/

theorem haveReply_spec {α : Type} (l : List α) (f : α → Char) :
    (words ["HAVE".toList, l.map f]).take 5 = "HAVE ".toList ∧
      (words ["HAVE".toList, l.map f]).length = 5 + l.length ∧
      (words ["HAVE".toList, l.map f]).drop 5 = l.map f := by
  have hline : words ["HAVE".toList, l.map f] = "HAVE ".toList ++ l.map f := by
    rw [words_cons_cons, words_singleton]
    rfl
  rw [hline]
  refine ⟨rfl, ?_, rfl⟩
  rw [List.length_append, List.length_map]
  rfl

theorem words_digest_injective {x y : Str}
    (h : words ["DIGEST".toList, x] = words ["DIGEST".toList, y]) : x = y := by
  rw [words_cons_cons, words_cons_cons, words_singleton, words_singleton] at h
  exact (List.cons.inj (List.append_cancel_left h)).2

section requests
variable {sha : Sha1} {io : Io} {clock : ℕ → ℤ} {busy : Bool} {n : ChunkNode} {key body : Str}
  {start stop : Id}

theorem handleChunkRequest_digest (hkeeps : n.keeps = true) :
    handleChunkRequest sha io clock busy n (digestLine start stop) [] =
      (.line (words ["DIGEST".toList, keysDigest sha (storeKeysInArc n.store start stop)]), n) := by
  have hspace : ∀ word ∈ ["DIGEST".toList, idToHex start, idToHex stop], ' ' ∉ word := by
    simp only [List.mem_cons, List.not_mem_nil, or_false, forall_eq_or_imp, forall_eq]
    exact ⟨by decide, not_mem_of_hex (by decide) fun _ => isHex_of_mem_idToHex,
      not_mem_of_hex (by decide) fun _ => isHex_of_mem_idToHex⟩
  rw [digestLine, handleChunkRequest_words hkeeps (by decide) hspace, ChunkNode.handle,
    if_neg (by decide),
    if_neg (by decide), if_neg (by decide), if_neg (by decide), if_pos rfl, ChunkNode.digest]
  simp only [idFromHex_idToHex]

theorem handleChunkRequest_have {keys : List Str} (hkeeps : n.keeps = true) (hne : keys ≠ [])
    (hlen : keys.length ≤ MAX_HAVE_KEYS) (hvalid : ∀ key ∈ keys, validKey key = true) :
    handleChunkRequest sha io clock busy n (words ("HAVE".toList :: keys)) [] =
      (.line (words ["HAVE".toList, keys.map fun key => if storeHas n.store key then '1' else '0']),
        n) := by
  have hspace : ∀ word ∈ "HAVE".toList :: keys, ' ' ∉ word := by
    refine List.forall_mem_cons.mpr ⟨by decide, fun key hkey => ?_⟩
    exact space_not_mem_of_validKey (hvalid key hkey)
  rw [handleChunkRequest_words hkeeps (by decide) hspace, ChunkNode.handle, if_neg (by decide),
    if_neg (by decide), if_neg (by decide), if_pos rfl, ChunkNode.haveKeys,
      if_neg (not_or.mpr ⟨hne, Nat.not_lt.mpr hlen⟩), if_neg]
  rw [not_not]
  exact List.all_eq_true.mpr hvalid

theorem handleChunkRequest_store (hkeeps : n.keeps = true) (hvalid : validKey key = true) :
    handleChunkRequest sha io clock busy n (offerLine false key body) body =
      (.line (storeReply (storePut sha io (clock 0) key body n.store n.disk).1),
        n.withStore (storePut sha io (clock 0) key body n.store n.disk).2) := by
  have hspace : ∀ word ∈ ["STORE".toList, key, num body.length], ' ' ∉ word := by
    simp only [List.mem_cons, List.not_mem_nil, or_false, forall_eq_or_imp, forall_eq]
    exact ⟨by decide, space_not_mem_of_validKey hvalid, space_not_mem_num _⟩
  rw [offerLine, if_neg (by decide), storeLine, handleChunkRequest_words hkeeps (by decide) hspace,
    ChunkNode.handle, if_neg (by decide), if_pos rfl, ← storeLine, handleStore_storeLine hvalid]

theorem parseW_one : parseW "1".toList = some 1 := by decide

theorem handleChunkRequest_put (hkeeps : n.keeps = true) (hvalid : validKey key = true) :
    handleChunkRequest sha io clock busy n (offerLine true key body) body =
      (.write key body 1
        (coordinate sha key body n.members n.members_ne io (clock 0) n.store n.disk),
        n.withStore (storePut sha io (clock 0) key body n.store n.disk).2) := by
  have hspace : ∀ word ∈ ["PUT".toList, key, "1".toList, num body.length], ' ' ∉ word := by
    simp only [List.mem_cons, List.not_mem_nil, or_false, forall_eq_or_imp, forall_eq]
    exact ⟨by decide, space_not_mem_of_validKey hvalid, by decide, space_not_mem_num _⟩
  rw [offerLine, if_pos rfl, handleChunkRequest_words hkeeps (by decide) hspace, ChunkNode.handle,
    if_pos rfl, ChunkNode.put, if_neg (by simp [hvalid])]
  simp only [parseW_one]

end requests

end ChordFs
