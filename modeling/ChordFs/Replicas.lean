import ChordFs.Lib.Distinct
import ChordFs.RingSteps
import ChordFs.Store

/-! # Replica sets, and reading from them

Where the copies of a chunk are and how a reader finds them (`chunk.h`, `chunk.cpp`).  The owner of
a key takes the first `RF` distinct processes of itself and its successor list; a reader that the
owner could not serve takes them from the list of the member that named the owner, which is the one
before it.

On a correct ring that list is the owner's own, with the owner in front and without its last entry
(`succList_predecessor`).  So a reader can reach every replica exactly if the last entry of the
owner's list is not one of them (`reader_reaches_replicas`).  It is one on every ring of two or
three processes with a member each (`third_replica_unread`). -/

namespace ChordFs

open Circle Dialogue Text

/-- The copies of every chunk, on distinct processes. -/
def RF : ℕ := 3

def distinctProcesses (fromOwner : List Peer) (rf : ℕ) : List Peer :=
  Distinct.firsts sameProcess rf fromOwner

/-- `replica_set`: the member, then each entry of its list whose process is new. -/
def replicaSet (member : NodeState) (rf : ℕ) : List Peer :=
  distinctProcesses (member.self :: member.succs) rf

theorem replicaSet_eq (member : NodeState) :
    replicaSet member RF = member.self :: (replicaSet member RF).tail ∧
      (replicaSet member RF).tail.length ≤ 2 := by
  obtain ⟨rest, hset⟩ :=
    @Distinct.firsts_cons Peer sameProcess RF member.succs member.self (by decide)
  have hlen := @Distinct.length_firsts Peer sameProcess RF (member.self :: member.succs)
  rw [replicaSet, distinctProcesses, hset] at *
  exact ⟨rfl, Nat.le_of_succ_le_succ hlen⟩

/-- `id_from_key`: forty hexadecimal digits, of which the first sixteen count. -/
def idFromKey (key : Str) : Option Id :=
  if key.length ≠ 40 ∨ ¬ key.all (fun c => (hexNibble c).isSome) then none
  else (key.take 16).foldlM shiftIn 0

/-! ### The node's side -/

/-- One message: a line and its body. -/
structure ChunkFrame where
  line : Str
  body : Str
deriving DecidableEq

inductive GetResult where
  | found (body : Str)
  | missing
  | badKey
  | ioError
deriving DecidableEq

/-- `store_get`: the file is read, whatever the index says. -/
def storeGet (d : Disk) (key : Str) : GetResult :=
  if ¬ validKey key then .badKey
  else
    match d.file? key with
    | none => .missing
    | some f => if f.data.length > MAX_CHUNK then .ioError else .found f.data

/-- What a process answers to GET; it is busy if it holds `MAX_BODIES` bodies already. -/
def handleGet (busy : Bool) (d : Disk) (key : Str) : ChunkFrame :=
  if busy then ⟨"ERR busy".toList, []⟩
  else
    match storeGet d key with
    | .found body => ⟨words ["CHUNK".toList, num body.length], body⟩
    | .missing => ⟨"MISSING".toList, []⟩
    | .badKey => ⟨"ERR key must be 40 lowercase hexadecimal characters".toList, []⟩
    | .ioError => ⟨"ERR disk error".toList, []⟩

/-! ### The reader's side -/

/-- What a client asks: a member of the ring, or the process at a peer's address. -/
inductive ChunkAsk where
  | route (c : Call)
  | send (dest : Peer) (line body : Str)

abbrev ChunkAsk.Answer : ChunkAsk → Type
  | .route _ => Exchanged
  | .send _ _ _ => Delivery × ChunkFrame

abbrev Client (α : Type) := Prog Unit ChunkAsk ChunkAsk.Answer α

def Client.route {α : Type} (p : Prog Unit Call (fun _ => Exchanged) α) : Client α :=
  p.embed .route fun _ a => a

def askRoute (c : Call) : Client Exchanged := .call (.route c) .done

def askProcess (dest : Peer) (line body : Str) : Client (Delivery × ChunkFrame) :=
  .call (.send dest line body) .done

def suspectRequest (p : Peer) : Str := words ["SUSPECT".toList, p.ip, num p.port]

/-- `lookup_with_recovery`: a node that could not be reached is reported to the one that named it,
and the lookup starts again. -/
def lookupWithRecovery (start : Peer) (k : Id) : ℕ → Client LookupResult
  | 0 => .route (lookup start k)
  | retries + 1 => do
      let r ← Client.route (lookup start k)
      match r.outcome with
      | .ok _ => return r
      | .error (e, _) =>
        if e = .refused ∨ e = .timeout ∨ e = .closed then
          match r.path.reverse with
          | dead :: namer :: _ =>
            let _ ← askRoute ⟨namer, suspectRequest dead⟩
            lookupWithRecovery start k retries
          -- the start itself failed, and nobody named it
          | _ => return r
        -- a node that answered nonsense was reached
        else return r

/-- The owner and what follows it, as far as the list is from the owner's predecessor. -/
def fromOwner (owner : Peer) (succs : List Peer) : List Peer :=
  if owner ∈ succs then succs.dropWhile (· ≠ owner) else succs

/-- The candidates after the owner, from the reply of the member that named it. -/
def candidatesIn (owner : Peer) (a : Exchanged) : List Peer :=
  if a.delivery ≠ .ok then []
  else
    match parseNeighbours a.reply with
    | .error _ => []
    | .ok nb => (distinctProcesses (fromOwner owner nb.succs) RF).filter fun p =>
      ¬ sameProcess p owner

/-- `fallbacks`: the rest of the replica set.  An owner that cannot be reached is reported first. -/
def fallbacks (owner namer : Peer) (ownerUnreachable : Bool) : Client (List Peer) := do
  if ownerUnreachable then
    let _ ← askRoute ⟨namer, suspectRequest owner⟩
  return candidatesIn owner (← askRoute ⟨namer, "NEIGHBOURS".toList⟩)

def unreachable (d : Delivery) : Bool := d = .refused ∨ d = .timeout ∨ d = .closed

/-- What a reader makes of an answer: the bytes, or what is wrong with it. -/
def readAnswer (sha : Sha1) (key : Str) (a : Delivery × ChunkFrame) : Except Str Str :=
  if a.1 ≠ .ok then .error (deliveryName a.1)
  else if a.2.line.take 6 ≠ "CHUNK ".toList then .error a.2.line
  else if chunkKey sha a.2.body ≠ key then .error "bytes do not hash to the key".toList
  else .ok a.2.body

structure ReadOutcome extends GetOutcome where
  servedBy : Option Peer
  /-- What became of each candidate, in order. -/
  tried : List Str

def ReadOutcome.fail (message : Str) (tried : List Str) : ReadOutcome :=
  ⟨⟨false, [], message⟩, none, tried⟩

def ReadOutcome.served (body : Str) (p : Peer) (tried : List Str) : ReadOutcome :=
  ⟨⟨true, body, []⟩, some p, tried ++ [address p ++ ": ok".toList]⟩

def triedLine (p : Peer) (what : Str) : Str := address p ++ ": ".toList ++ what

/-- The candidates, one after the other. -/
def readFrom (sha : Sha1) (key : Str) : List Peer → List Str → Client ReadOutcome
  | [], tried => return .fail ("; ".toList.intercalate tried) tried
  | p :: ps, tried => do
      match readAnswer sha key (← askProcess p (words ["GET".toList, key]) []) with
      | .ok body => return .served body p tried
      | .error what => readFrom sha key ps (tried ++ [triedLine p what])

/-- `get_chunk`.  More candidates are asked for when the first has failed, which is the owner. -/
def getChunk (sha : Sha1) (start : Peer) (key : Str) (retries : ℕ) : Client ReadOutcome :=
  match if validKey key then idFromKey key else none with
  | none => return .fail "key must be 40 lowercase hexadecimal characters".toList []
  | some k => do
      let r ← lookupWithRecovery start k retries
      match r.outcome, r.path.getLast? with
      | .error (e, message), _ =>
        return .fail ("lookup failed (".toList ++ lookupErrorName e ++ "): ".toList ++ message) []
      -- a lookup that found an owner has asked somebody
      | .ok _, none => return .fail [] []
      | .ok owner, some namer =>
        let a ← askProcess owner (words ["GET".toList, key]) []
        match readAnswer sha key a with
        | .ok body => return .served body owner []
        | .error what =>
          let more ← fallbacks owner namer (unreachable a.1)
          readFrom sha key more [triedLine owner what]

/-! ### Reading on a correct ring -/

/-- What a process answers, from what its disk holds. -/
def answerChunk (d : Disk) (line : Str) : Delivery × ChunkFrame :=
  match splitSingleSpaces line with
  | [verb, key] =>
    (.ok, if verb = "GET".toList then handleGet false d key
      else ⟨"ERR malformed chunk request".toList, []⟩)
  | _ => (.ok, ⟨"ERR malformed chunk request".toList, []⟩)

/-- Everybody answers: the members of the ring, and the processes for their chunks. -/
def everybody (depth : ℕ) (disk : Peer → Disk) : (q : ChunkAsk) → Ring → q.Answer × Ring
  | .route c, ρ => Ring.deliver depth c ρ
  | .send dest line _, ρ => (answerChunk (disk dest) line, ρ)

/-- Of all processes, only that of `holder` has the chunk. -/
def OnlyAt (disk : Peer → Disk) (key body : Str) (holder : Peer) : Prop :=
  ∀ p, ((disk p).file? key).map File.data = if sameProcess p holder then some body else none

section keys
variable {sha : Sha1} {key body : Str} {d : Disk}

theorem exists_idFromKey (h : validKey key = true) : ∃ k, idFromKey key = some k := by
  have hnibble : ∀ c, isHex c = true → (hexNibble c).isSome = true := by
    intro c hc
    simp only [isHex, decide_eq_true_eq] at hc
    unfold hexNibble
    split
    · rfl
    · split
      · rfl
      · simp_all
  simp only [validKey, decide_eq_true_eq] at h
  have hall : key.all (fun c => (hexNibble c).isSome) = true :=
    List.all_eq_true.mpr fun c hc => hnibble c (List.all_eq_true.mp h.2 c hc)
  have hfold : ∀ (l : Str) (v : Id), l.all (fun c => (hexNibble c).isSome) = true →
      ∃ k, l.foldlM shiftIn v = some k := by
    intro l
    induction l with
    | nil => exact fun v _ => ⟨v, rfl⟩
    | cons c l ih =>
      intro v hl
      rw [List.all_cons, Bool.and_eq_true] at hl
      obtain ⟨n, hn⟩ := Option.isSome_iff_exists.mp hl.1
      obtain ⟨k, hk⟩ := ih (v <<< 4 ||| BitVec.ofNat 64 n) hl.2
      exact ⟨k, by simp [List.foldlM_cons, shiftIn, hn, hk]⟩
  obtain ⟨k, hk⟩ := hfold (key.take 16) 0
    (List.all_eq_true.mpr fun c hc => List.all_eq_true.mp hall c (List.mem_of_mem_take hc))
  refine ⟨k, ?_⟩
  rw [idFromKey, if_neg (by simp [h.1, hall])]
  exact hk

theorem answerChunk_get (h : validKey key = true) :
    answerChunk d (words ["GET".toList, key]) = (.ok, handleGet false d key) := by
  have hspace : ' ' ∉ key := space_not_mem_of_validKey h
  have hwords : splitSingleSpaces (words ["GET".toList, key]) = ["GET".toList, key] := by
    apply splitSingleSpaces_words _ (by simp)
    simp only [List.mem_cons, List.not_mem_nil, or_false, forall_eq_or_imp, forall_eq]
    exact ⟨by decide, hspace⟩
  rw [answerChunk, hwords]
  dsimp only
  rw [if_pos rfl]

theorem readAnswer_missing (h : validKey key = true) (hnone : (d.file? key).map File.data = none) :
    readAnswer sha key (answerChunk d (words ["GET".toList, key])) = .error "MISSING".toList := by
  have hfile : d.file? key = none := Option.map_eq_none_iff.mp hnone
  rw [answerChunk_get h]
  simp only [handleGet, storeGet, h, hfile]
  rfl

theorem readAnswer_held (hlen : body.length ≤ MAX_CHUNK)
    (hsome : (d.file? (chunkKey sha body)).map File.data = some body) :
    readAnswer sha (chunkKey sha body) (answerChunk d (words ["GET".toList, chunkKey sha body])) =
      .ok body := by
  have h : validKey (chunkKey sha body) = true := validKey_digest sha body
  obtain ⟨f, hf, rfl⟩ := Option.map_eq_some_iff.mp hsome
  have hline : ∀ n, (words ["CHUNK".toList, num n]).take 6 = "CHUNK ".toList := fun n => rfl
  have hget : handleGet false d (chunkKey sha f.data) =
      ⟨words ["CHUNK".toList, num f.data.length], f.data⟩ := by
    simp only [handleGet, storeGet, h, hf, Nat.not_lt.mpr hlen]
    rfl
  rw [answerChunk_get h, hget, readAnswer, if_neg (not_not_intro rfl),
    if_neg (not_not_intro (hline _)), if_neg (not_not_intro rfl)]

end keys

section walk
variable {sha : Sha1} {body : Str} {disk : Peer → Disk} {holder : Peer} {depth : ℕ} {ρ : Ring}

/-- **Candidates are asked until one of the holder's process comes.** -/
theorem readFrom_onlyAt (hlen : body.length ≤ MAX_CHUNK)
    (hdisk : OnlyAt disk (chunkKey sha body) body holder) (ps : List Peer) (tried : List Str) :
    let out := ((readFrom sha (chunkKey sha body) ps tried).run (everybody depth disk) () ρ).1
    (out.ok = true ↔ ∃ p ∈ ps, sameProcess p holder = true) ∧
      (out.ok = true → out.body = body) := by
  induction ps generalizing tried with
  | nil =>
    refine ⟨⟨nofun, ?_⟩, nofun⟩
    rintro ⟨p, hp, -⟩
    cases hp
  | cons p ps ih =>
    have hfile := hdisk p
    cases hp : sameProcess p holder with
    | true =>
      rw [hp, if_pos rfl] at hfile
      have hread := readAnswer_held hlen hfile
      simp only [readFrom, askProcess, Bind.bind, Prog.bind, Prog.run, everybody, hread]
      exact ⟨⟨fun _ => ⟨p, List.mem_cons_self, hp⟩, fun _ => rfl⟩, fun _ => rfl⟩
    | false =>
      rw [hp, if_neg Bool.false_ne_true] at hfile
      have hread : readAnswer sha (chunkKey sha body)
          (answerChunk (disk p) (words ["GET".toList, chunkKey sha body])) =
            .error "MISSING".toList :=
        readAnswer_missing (validKey_digest sha body) hfile
      have hrest := ih (tried ++ [triedLine p "MISSING".toList])
      simp only [readFrom, askProcess, Bind.bind, Prog.bind, Prog.run, everybody, hread]
      simpa [hp] using hrest

end walk

section ring
variable {R : Members} {r depth : ℕ} {start current : Peer} {k : Id} {ρ : Ring} {disk : Peer → Disk}

/-- **The member that names the owner is the one before it.** -/
theorem lookupFrom_namer (left : ℕ) (path : List Peer) (h : current ∈ R) (s : Unit)
    (sent : List Call) {owner : Peer} :
    let r := ((lookupFrom k left path current).run (wiredAnswers R) s sent).1
    r.outcome = .ok owner → r.path.getLast? = some (predecessorOf k R) := by
  induction left generalizing path current sent with
  | zero => exact nofun
  | succ left ih =>
    rw [run_lookupFrom_succ left path h]
    dsimp only
    split
    · rename_i hown
      intro _
      rw [List.getLast?_concat]
      -- anybody else has the next member still before the key
      have hpr := last_predecessorOf k R
      have hid : current.id = (predecessorOf k R).id := by
        by_contra hne
        have hlt := hpr.first_lt (Members.id_mem h) hne (first_successorOf h)
        rw [routeStep_owner_iff, inRangeOc_iff] at hown
        omega
      rw [Members.eq_of_id h (predecessorOf_mem k R) hid]
    · exact ih _ (routeStep_peer_mem (successorOf_mem _ R) fun f hf => mem_of_mem_buildFingers hf) _

/-- **The list of the owner's predecessor** is the owner and its list without the last entry. -/
theorem succList_predecessor (hr : 1 ≤ r) {p : Peer} (hp : p ∈ R) :
    succList R r p = successorOf (p.id + 1) R ::
    (succList R r (successorOf (p.id + 1) R)).dropLast := by
  rw [successorOf_eq_head hp]
  cases ho : others p R.list with
  | nil =>
    rw [succList_alone hp ho]
    simp [succList_alone hp ho]
  | cons q rest =>
    have hq : q ∈ R := ((mem_others R.nodup hp).mp (ho ▸ List.mem_cons_self)).1
    have hnext := others_next R.nodup hp ho
    have hlist : succList R r q = (rest ++ [p]).take r := by
      rw [succList, nextMembers_eq hq, hnext, if_neg]
      intro hnil
      have := congrArg List.length hnil
      simp at this
      omega
    rw [succList_cons hr hp ho, List.headD_cons, hlist]
    rw [List.dropLast_take_eq_take_dropLast, List.dropLast_concat]

variable (h : WiredRing R r ρ) (hr : 1 ≤ r ∧ r ≤ MAX_SUCCESSORS)
include h hr

theorem WiredRing.run_lookupFrom (left : ℕ)
    (path : List Peer) (hc : current ∈ R) (sent : List Call) :
    (ChordFs.lookupFrom k left path current).run (Ring.deliver (depth + 1)) () ρ =
      (((ChordFs.lookupFrom k left path current).run (wiredAnswers R) () sent).1, (), ρ) := by
  obtain ⟨hrun, -, hring⟩ := run_lookupFrom_eq (k := k) (Ring.deliver (depth + 1)) (· = ρ)
    (fun p hp e he => by
    rw [he, h.find hr hp]
    exact ⟨rfl, judge_renderStep 0 (routeStep_covers ..)⟩) left path hc () rfl sent
  exact Prod.ext hrun (Prod.ext rfl hring)

theorem WiredRing.lookupWithRecovery (hstart : start ∈ R) (retries : ℕ) :
    ∃ path, path.getLast? = some (predecessorOf k R) ∧
      (ChordFs.lookupWithRecovery start k retries).run (everybody (depth + 1) disk) () ρ =
        (⟨.ok (successorOf k R), path⟩, (), ρ) := by
  set result := ((lookup start k).run (wiredAnswers R) () []).1 with hresult
  have hok : result.outcome = .ok (successorOf k R) := outcome_lookup hstart ()
  have hlookup : (Client.route (lookup start k)).run (everybody (depth + 1) disk)
    () ρ = (result, (), ρ) := by
    rw [Client.route, Prog.run_embed]
    exact h.run_lookupFrom hr MAX_REQUESTS [] hstart []
  refine ⟨result.path, lookupFrom_namer MAX_REQUESTS [] hstart () [] hok, ?_⟩
  have hout : (⟨.ok (successorOf k R), result.path⟩ : LookupResult) = result := by
    rw [← hok]
  rw [hout]
  cases retries with
  | zero => exact hlookup
  | succ retries =>
    rw [ChordFs.lookupWithRecovery, Prog.run_bind, hlookup]
    dsimp only
    rw [hok]
    rfl

theorem WiredRing.neighbours {p : Peer} (hp : p ∈ R) :
    ∃ a pred, Ring.deliver (depth + 1) ⟨p, "NEIGHBOURS".toList⟩ ρ = (a, ρ) ∧ a.delivery = .ok ∧
      parseNeighbours a.reply = .ok ⟨pred, succList R r p⟩ := by
  have hsame := sameRouting_wired R r p
  have hsuccs : (ρ.node p).succs = succList R r p := by
    rw [h.2 p hp, hsame.succs]
  have hdeliver := @deliver_neighbours ρ p depth (by rw [h.1]; exact hp)
    (by rw [h.2 p hp]; exact hsame.orphaned)
  rw [hsuccs] at hdeliver
  obtain ⟨hpos, hle⟩ := length_succList hr.1 hp
  exact ⟨_, (ρ.node p).pred, hdeliver, rfl, parseNeighbours_renderNeighbours hpos (hle.trans hr.2)⟩

theorem WiredRing.fallbacks {p : Peer} (hp : p ∈ R) : let owner := successorOf (p.id + 1) R
    (ChordFs.fallbacks owner p false).run (everybody (depth + 1) disk) () ρ =
      ((distinctProcesses (owner :: (succList R r owner).dropLast) RF).filter fun q =>
        ¬ sameProcess q owner, (), ρ) := by
  intro owner
  obtain ⟨a, pred, hdeliver, hok, hparse⟩ := @WiredRing.neighbours R r depth ρ h hr p hp
  have hcandidates : candidatesIn owner a =
      (distinctProcesses (owner :: (succList R r owner).dropLast) RF).filter fun q =>
        ¬ sameProcess q owner := by
    rw [candidatesIn, if_neg (not_not_intro hok), hparse]
    dsimp only
    rw [fromOwner, succList_predecessor hr.1 hp, if_pos List.mem_cons_self,
      List.dropWhile_cons_of_neg (by simp [owner])]
  have hrun : (ChordFs.fallbacks owner p false).run (everybody (depth + 1) disk) () ρ =
      (candidatesIn owner (Ring.deliver (depth + 1) ⟨p, "NEIGHBOURS".toList⟩ ρ).1, (),
        (Ring.deliver (depth + 1) ⟨p, "NEIGHBOURS".toList⟩ ρ).2) := rfl
  rw [hrun, hdeliver, hcandidates]

end ring

section reader
variable {sha : Sha1} {body : Str} {R : Members} {r depth : ℕ} {start : Peer} {k : Id}
  {disk : Peer → Disk} {holder : Peer}

/-- **Whom a reader asks on a correct ring**: the owner's list without its last entry. -/
theorem getChunk_wired (hr : 1 ≤ r ∧ r ≤ MAX_SUCCESSORS) (hstart : start ∈ R)
    (hk : idFromKey (chunkKey sha body) = some k) (hlen : body.length ≤ MAX_CHUNK)
    (hdisk : OnlyAt disk (chunkKey sha body) body holder) (retries : ℕ) :
    let owner := successorOf k R
    let out := ((getChunk sha start (chunkKey sha body) retries).run (everybody (depth + 1) disk) ()
      (wiredNet R r).ring).1
    (out.ok = true ↔ ∃ p ∈ distinctProcesses (owner :: (succList R r owner).dropLast) RF,
      sameProcess p holder = true) ∧ (out.ok = true → out.body = body) := by
  intro owner out
  have hvalid : validKey (chunkKey sha body) = true := validKey_digest sha body
  have hwired : WiredRing R r (wiredNet R r).ring := ⟨rfl, fun _ _ => rfl⟩
  obtain ⟨path, hnamer, hlookup⟩ :=
    @WiredRing.lookupWithRecovery R r depth start k _ disk hwired hr hstart retries
  obtain ⟨rest, hcons⟩ :=
    @Distinct.firsts_cons Peer sameProcess RF (succList R r owner).dropLast owner (by decide)
  -- of the distinct processes only the first is the owner's
  have hfilter : (distinctProcesses (owner :: (succList R r owner).dropLast) RF).filter
      (fun q => ¬ sameProcess q owner) = rest := by
    have hpairwise :=
      @Distinct.pairwise_firsts Peer sameProcess RF (owner :: (succList R r owner).dropLast)
    rw [hcons, List.pairwise_cons] at hpairwise
    rw [distinctProcesses, hcons, List.filter_cons_of_neg (by simp [sameProcess_self]),
      List.filter_eq_self]
    intro q hq
    simp [hpairwise.1 q hq]
  have hmore : (fallbacks (successorOf k R) (predecessorOf k R) (unreachable .ok)).run
      (everybody (depth + 1) disk) () (wiredNet R r).ring = (rest, (), (wiredNet R r).ring) := by
    have hrun := @WiredRing.fallbacks R r depth _ disk hwired hr _ (predecessorOf_mem k R)
    rw [successorOf_predecessorOf_key] at hrun
    exact hrun.trans (by rw [hfilter])
  -- so the owner and the others are asked as one list of candidates
  have hrun : out =
      ((readFrom sha (chunkKey sha body) (owner :: rest) []).run (everybody (depth + 1) disk) ()
      (wiredNet R r).ring).1 := by
    simp only [out, getChunk, hvalid, hk, if_true]
    rw [Prog.run_bind, hlookup]
    dsimp only
    rw [hnamer]
    simp only [readFrom, askProcess, Bind.bind, Prog.bind, Prog.run, everybody,
      answerChunk_get hvalid]
    cases readAnswer sha (chunkKey sha body)
      (.ok, handleGet false (disk owner) (chunkKey sha body)) with
    | ok bytes => rfl
    | error what =>
      refine congrArg Prod.fst (Prog.run_bind _ _ _ _ _ |>.trans ?_)
      rw [hmore]
      rfl
  rw [hrun, distinctProcesses, hcons]
  exact readFrom_onlyAt hlen hdisk (owner :: rest) []

/-- A disk with one chunk. -/
def Disk.holding (key body : Str) : Disk := Disk.blank.commit [] key ⟨body, true⟩

theorem onlyAt_holding (key body : Str) (holder : Peer) :
    OnlyAt (fun p => if sameProcess p holder then .holding key body
      else .blank) key body holder := by
  intro p
  cases hp : sameProcess p holder with
  | true =>
    simp only [hp, if_true]
    rw [Disk.holding, Disk.file?_commit, if_pos rfl]
    rfl
  | false =>
    simp only [hp, Bool.false_eq_true, if_false]
    rfl

/-- The last entry of a member's successor list is not one of its replicas. -/
def SparesLast (member : NodeState) : Prop :=
  ∀ last, member.succs.getLast? = some last → last ∈ replicaSet member RF → last = member.self

theorem nodup_succList {p : Peer} (hp : p ∈ R) : (succList R r p).Nodup := by
  unfold succList
  split
  · exact List.nodup_singleton p
  · rw [nextMembers_eq hp]
    exact ((nodup_others R.nodup hp).of_cons).sublist (List.take_sublist _ _)

/-- **Without its last entry the list gives the same replicas**, if that entry is none of them. -/
theorem sparesLast_iff (hr : 1 ≤ r) {p : Peer} (hp : p ∈ R) : SparesLast (wired R r p) ↔
    ∀ q ∈ replicaSet (wired R r p) RF,
      ∃ q' ∈ distinctProcesses (p :: (succList R r p).dropLast) RF, sameProcess q' q = true := by
  have hsame := sameRouting_wired R r p
  have hset : replicaSet (wired R r p) RF = distinctProcesses (p :: succList R r p) RF := by
    rw [replicaSet, hsame.self, hsame.succs]
    rfl
  have hne : succList R r p ≠ [] := List.ne_nil_of_length_pos (length_succList hr hp).1
  obtain ⟨front, last, hlist⟩ : ∃ front last, succList R r p = front ++ [last] :=
    ⟨_, _, (List.dropLast_append_getLast hne).symm⟩
  have hnodup := @nodup_succList R r p hp
  have hlast : (wired R r p).succs.getLast? = some last := by
    rw [hsame.succs]
    change (succList R r p).getLast? = some last
    rw [hlist, List.getLast?_concat]
  have hself : (wired R r p).self = p := hsame.self
  rw [hlist] at hset hnodup ⊢
  rw [List.dropLast_concat]
  rw [distinctProcesses, ← List.cons_append, Distinct.firsts_concat] at hset
  obtain ⟨rest, hcons⟩ := @Distinct.firsts_cons Peer sameProcess RF front p (by decide)
  have hmem : p ∈ Distinct.firsts sameProcess RF (p :: front) := by
    rw [hcons]
    exact List.mem_cons_self
  constructor
  · intro hspares q hq
    refine ⟨q, ?_, sameProcess_self q⟩
    rw [hset] at hq
    split at hq
    · exact hq
    · rename_i hnew
      have hp' : last = p := by
        rw [← hself]
        exact hspares last hlast (by rw [hset, if_neg hnew]; simp)
      refine absurd (.inr (List.any_eq_true.mpr ⟨p, hmem, ?_⟩)) hnew
      rw [hp']
      exact sameProcess_self p
  · intro hreach last' hlast' hin
    cases hlast.symm.trans hlast'
    rw [hself]
    by_contra hne
    rw [hset] at hin
    split at hin
    · -- it would stand in the list twice
      rcases Distinct.mem_of_mem_firstsFrom hin with hnil | hfront
      · cases hnil
      · rcases List.mem_cons.mp hfront with he | hfront
        · exact hne he
        · exact (List.nodup_append.mp hnodup).2.2 last hfront last
            (List.mem_singleton_self last) rfl
    · rename_i hnew
      obtain ⟨q, hq, hqp⟩ := hreach last (by rw [hset, if_neg hnew]; simp)
      refine hnew (.inr (List.any_eq_true.mpr ⟨q, hq, ?_⟩))
      rw [sameProcess_comm]
      exact hqp

/-- **A reader can reach every replica exactly if the last entry of the owner's list is none of
them.** -/
theorem reader_reaches_replicas (sha : Sha1) (R : Members) (r : ℕ) (hr : 1 ≤ r ∧ r ≤ MAX_SUCCESSORS)
    (start : Peer) (hstart : start ∈ R) (body : Str) (hlen : body.length ≤ MAX_CHUNK)
    (retries depth : ℕ) :
    ∃ k, idFromKey (chunkKey sha body) = some k ∧
      let owner := wired R r (successorOf k R)
      ((∀ holder ∈ replicaSet owner RF, ∀ disk, OnlyAt disk (chunkKey sha body) body holder →
        let out := ((getChunk sha start (chunkKey sha body) retries).run
          (everybody (depth + 1) disk) () (wiredNet R r).ring).1
        out.ok = true ∧ out.body = body) ↔ SparesLast owner) := by
  obtain ⟨k, hk⟩ := exists_idFromKey (validKey_digest sha body)
  refine ⟨k, hk, ?_⟩
  intro owner
  rw [sparesLast_iff hr.1 (successorOf_mem k R)]
  constructor
  · intro hreads holder hholder
    have hdisk := onlyAt_holding (chunkKey sha body) body holder
    exact (@getChunk_wired sha body R r depth start k _ holder hr hstart hk hlen hdisk retries).1.mp
      (hreads holder hholder _ hdisk).1
  · intro hreach holder hholder disk hdisk
    obtain ⟨hok, hbody⟩ :=
      @getChunk_wired sha body R r depth start k _ holder hr hstart hk hlen hdisk retries
    exact ⟨hok.mpr (hreach holder hholder), hbody (hok.mpr (hreach holder hholder))⟩

theorem idFromKey_emptyChunk : idFromKey (chunkKey (.ofTable []) []) = some 0xda39a3ee5e6b4b0d := by
  decide +kernel

/-- Four processes with a member each. -/
def fourMembers : Members where
  list := hostPeer 1 4 :: threeMembers.list
  ne_nil := by decide
  sorted := by decide

/-- With four processes the owner keeps its copies on itself and the next two. -/
theorem reader_reaches_replicas_four :
    let owner := wired fourMembers 8 (successorOf 0xda39a3ee5e6b4b0d fourMembers)
    ∀ holder ∈ replicaSet owner RF, ∀ disk, OnlyAt disk (chunkKey (.ofTable []) []) [] holder →
      ((getChunk (.ofTable []) (successorOf 6 fourMembers) (chunkKey (.ofTable []) []) 2).run
        (everybody 1 disk) () (wiredNet fourMembers 8).ring).1.ok = true := by
  intro owner holder hholder disk hdisk
  have hlast : owner.succs.getLast? = some (successorOf 6 fourMembers) := by decide +kernel
  have hnot : successorOf 6 fourMembers ∉ replicaSet owner RF := by decide +kernel
  have hspares : SparesLast owner := by
    intro last hl hin
    rw [← Option.some.inj (hlast.symm.trans hl)] at hin
    exact absurd hin hnot
  obtain ⟨k, hk, hiff⟩ := reader_reaches_replicas (.ofTable []) fourMembers 8 (by decide)
    (successorOf 6 fourMembers) (successorOf_mem 6 fourMembers) [] (by decide) 2 0
  have hkey : k = 0xda39a3ee5e6b4b0d := Option.some.inj (hk.symm.trans idFromKey_emptyChunk)
  rw [hkey] at hiff
  exact (hiff.mpr hspares holder hholder disk hdisk).1

/-- **Three processes with a member each.**  The owner keeps a copy on every process.  If only the
one before it has its copy, a reader asks the owner and the one after it, and fails: it does not ask
the member that named the owner. -/
theorem third_replica_unread :
    let owner := wired threeMembers 8 (successorOf 0xda39a3ee5e6b4b0d threeMembers)
    let holder := predecessorOf 0xda39a3ee5e6b4b0d threeMembers
    holder ∈ replicaSet owner RF ∧ ∃ disk, OnlyAt disk (chunkKey (.ofTable []) []) [] holder ∧
      ∀ start ∈ threeMembers, ((getChunk (.ofTable []) start (chunkKey (.ofTable []) []) 2).run
        (everybody 1 disk) () (wiredNet threeMembers 8).ring).1.ok = false := by
  intro owner holder
  have hin : holder ∈ replicaSet owner RF := by decide +kernel
  have hdisk := onlyAt_holding (chunkKey (.ofTable []) []) [] holder
  -- neither of the two that are asked is the holder
  have hnone : ¬ ∃ p ∈ distinctProcesses (successorOf 0xda39a3ee5e6b4b0d threeMembers ::
      (succList threeMembers 8 (successorOf 0xda39a3ee5e6b4b0d threeMembers)).dropLast) RF,
        sameProcess p holder = true := by decide +kernel
  refine ⟨hin, _, hdisk, fun start hstart => ?_⟩
  have hread := (@getChunk_wired (.ofTable []) [] threeMembers 8 0 start _ _ holder
    (by decide) hstart idFromKey_emptyChunk (by decide) hdisk 2).1
  rw [← Bool.not_eq_true]
  exact fun hok => hnone (hread.mp hok)

end reader

end ChordFs
