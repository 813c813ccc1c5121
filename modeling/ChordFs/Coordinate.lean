import ChordFs.Lib.Runs
import ChordFs.Replicas

/-! # The coordinator of a write

The owner of a key writes the chunk to its own disk, has each other replica store it from a thread
of its own, and answers as soon as enough copies are confirmed or enough have failed (`coordinate`).
The threads and the coordinator share a tally under a lock; the coordinator sleeps on a
condition variable and is woken after each entry.

One step of the machine is one critical section, one half of an exchange, or one start of a thread.
The tally is what the copies have entered, and the coordinator never sleeps with the decision made
and nobody left to wake it (`PutMachine.Sound`).  So an answer says what is so, and it comes
(`put_answers`). -/

namespace ChordFs

open Dialogue Text

/-! ### The answers of a replica -/

def putResultName : PutResult → Str
  | .stored => "stored".toList
  | .alreadyHeld => "already held".toList
  | .badKey => "key must be 40 lowercase hexadecimal characters".toList
  | .tooLarge => "chunk larger than ".toList ++ num MAX_CHUNK ++ " bytes".toList
  | .hashMismatch => "bytes do not hash to the key".toList
  | .ioError => "disk error".toList

def storeReply (r : PutResult) : Str :=
  if r.isHeld then "OK".toList else "ERR ".toList ++ putResultName r

/-- The request a copy is sent with. -/
def storeLine (key body : Str) : Str := words ["STORE".toList, key, num body.length]

/-- What a process does with STORE. -/
def handleStore (sha : Sha1) (io : Io) (now : ℤ) (line body : Str) (s : ChunkStore) (d : Disk) :
    Str × ChunkStore × Disk :=
  match splitSingleSpaces line with
  | [verb, key, _] =>
    if verb = "STORE".toList then
      let out := storePut sha io now key body s d
      (storeReply out.1, out.2)
    else ("ERR malformed chunk request".toList, s, d)
  | _ => ("ERR malformed chunk request".toList, s, d)

/-- `member_for`: the member reached first going clockwise from `k`. -/
def memberFor (members : List NodeState) (h : members ≠ []) (k : Id) : NodeState :=
  members.foldl (fun best m => if m.self.id - k < best.self.id - k then m else best)
    (members.head h)

/-! ### The tally -/

/-- What the copies of one write have done so far. -/
structure Tally where
  confirmed : ℕ
  failed : ℕ
  failures : Str
deriving DecidableEq

namespace Tally

def confirm (t : Tally) : Tally := { t with confirmed := t.confirmed + 1 }

def fail (t : Tally) (p : Peer) (what : Str) : Tally :=
  { t with
    failed := t.failed + 1
    failures := t.failures ++ (if t.failures = [] then [] else "; ".toList) ++
      address p ++ ' ' :: what }

/-- The copies that neither are confirmed nor have failed. -/
def pending (t : Tally) (total : ℕ) : ℤ := total - t.confirmed - t.failed

/-- What the coordinator waits for: `w` copies are confirmed, or can no longer be. -/
def settled (t : Tally) (total w : ℕ) : Bool := t.confirmed ≥ w ∨ t.confirmed + t.pending total < w

end Tally

def okReply (confirmed : ℕ) : Str := "OK ".toList ++ num confirmed

/-- A reply is one line, bounded. -/
def errReply (confirmed w : ℕ) (failures : Str) : Str :=
  ("ERR only ".toList ++ num confirmed ++ " of ".toList ++ num w ++ " copies stored: ".toList ++
    failures).take MAX_LINE

def Tally.reply (t : Tally) (w : ℕ) : Str :=
  if t.confirmed ≥ w then (okReply t.confirmed).take MAX_LINE else errReply t.confirmed w t.failures

/-! ### The machine -/

/-- Where a copy stands. -/
inductive CopyPos where
  | unstarted
  | sending
  /-- The process has answered with this line. -/
  | handled (line : Str)
  /-- `send` has returned. -/
  | returned (d : Delivery) (line : Str)
  /-- The copy is in the tally, and the coordinator is to be woken. -/
  | recorded (good : Bool)
  | finished (good : Bool)
  | noThread
deriving DecidableEq

inductive CoordPos where
  | starting (i : ℕ)
  /-- Awake, and about to look at the tally. -/
  | waiting
  | asleep
  | answered (reply : Str)
deriving DecidableEq

structure PutMachine where
  tally : Tally
  /-- The other replicas, and their copies. -/
  copies : List (Peer × CopyPos)
  coord : CoordPos
  /-- What `store_put` has returned, and where. -/
  log : List (Peer × PutResult)
deriving DecidableEq

inductive PutEvent where
  /-- The thread of the next copy is started, or cannot be. -/
  | start (ok : Bool)
  /-- The process stores the chunk as far as its store and its disk let it, and answers. -/
  | handle (i : ℕ) (io : Io) (now : ℤ) (s : ChunkStore) (d : Disk)
  /-- It answers without looking at the chunk: it has no store, or holds too many bodies. -/
  | refuse (i : ℕ) (line : Str)
  | deliver (i : ℕ)
  /-- The exchange fails, whether or not the process has the copy. -/
  | lose (i : ℕ) (d : Delivery)
  | record (i : ℕ)
  | notify (i : ℕ)
  /-- The coordinator looks at the tally under the lock, and answers or falls asleep. -/
  | check
  /-- It wakes up without a cause. -/
  | wake

namespace PutMachine

def total (m : PutMachine) : ℕ := m.copies.length + 1

def setCopy (m : PutMachine) (i : ℕ) (p : Peer) (pos : CopyPos) : PutMachine :=
  { m with copies := m.copies.set i (p, pos) }

/-- The coordinator starts copy `i`, or waits if there is none. -/
def startFrom (m : PutMachine) (i : ℕ) : PutMachine :=
  { m with coord := if i < m.copies.length then .starting i else .waiting }

/-- Copy `i` has a thread that sends it, or has failed. -/
def launch (m : PutMachine) (i : ℕ) (p : Peer) (ok : Bool) : PutMachine :=
  if ok then (m.setCopy i p .sending).startFrom (i + 1)
  else { m.setCopy i p .noThread with tally := m.tally.fail p "no thread".toList }.startFrom (i + 1)

/-- The critical section of a copy. -/
def record (m : PutMachine) (i : ℕ) (p : Peer) (d : Delivery) (line : Str) : PutMachine :=
  if d = .ok ∧ line = "OK".toList then
    { m.setCopy i p (.recorded true) with tally := m.tally.confirm }
  else { m.setCopy i p (.recorded false) with
    tally := m.tally.fail p (if d = .ok then line else deliveryName d) }

variable (sha : Sha1) (key body : Str) (w : ℕ)

def step? (m : PutMachine) : PutEvent → Option PutMachine
  | .start ok =>
    match m.coord with
    | .starting i =>
      match m.copies[i]? with
      | some (p, _) => some (m.launch i p ok)
      | none => none
    | _ => none
  | .handle i io now s d =>
    match m.copies[i]? with
    | some (p, .sending) =>
      some { m.setCopy i p (.handled (handleStore sha io now (storeLine key body) body s d).1) with
        log := (p, (storePut sha io now key body s d).1) :: m.log }
    | _ => none
  | .refuse i line =>
    if line = "OK".toList then none
    else
      match m.copies[i]? with
      | some (p, .sending) => some (m.setCopy i p (.handled line))
      | _ => none
  | .deliver i =>
    match m.copies[i]? with
    | some (p, .handled line) => some (m.setCopy i p (.returned .ok line))
    | _ => none
  | .lose i d =>
    if d = .ok then none
    else
      match m.copies[i]? with
      | some (p, .sending) => some (m.setCopy i p (.returned d []))
      | some (p, .handled _) => some (m.setCopy i p (.returned d []))
      | _ => none
  | .record i =>
    match m.copies[i]? with
    | some (p, .returned d line) => some (m.record i p d line)
    | _ => none
  | .notify i =>
    match m.copies[i]? with
    | some (p, .recorded good) =>
      some { m.setCopy i p (.finished good) with
        coord := if m.coord = .asleep then .waiting else m.coord }
    | _ => none
  | .check =>
    if m.coord = .waiting then
      some { m with coord := if m.tally.settled m.total w then .answered (m.tally.reply w)
        else .asleep }
    else none
  | .wake => if m.coord = .asleep then some { m with coord := .waiting } else none

/-- The request after the local write `own` of the member `self`, with the `rest` of its replica
set. -/
def begin (own : PutResult) (self : Peer) (rest : List Peer) : PutMachine :=
  if own = .badKey ∨ own = .tooLarge ∨ own = .hashMismatch then
    ⟨⟨0, 0, []⟩, [], .answered ("ERR ".toList ++ putResultName own), [(self, own)]⟩
  else
    startFrom ⟨if own.isHeld then ⟨1, 0, []⟩ else ⟨0, 1, "local disk error".toList⟩,
      rest.map fun p => (p, .unstarted), .waiting, [(self, own)]⟩ 0

end PutMachine

/-- `coordinate`: the local write, then the machine. -/
def coordinate (sha : Sha1) (key body : Str) (members : List NodeState) (h : members ≠ []) (io : Io)
    (now : ℤ) (s : ChunkStore) (d : Disk) : PutMachine :=
  let own := (storePut sha io now key body s d).1
  let member := memberFor members h ((idFromKey key).getD 0)
  .begin own member.self (replicaSet member RF).tail

/-! ### What a replica's answer means -/

section answers
variable {sha : Sha1} {key body : Str} {io : Io} {now : ℤ} {s : ChunkStore} {d : Disk}

theorem storeReply_ok_iff (r : PutResult) : storeReply r = "OK".toList ↔ r.isHeld = true := by
  cases r with
  | stored | alreadyHeld => exact ⟨fun _ => rfl, fun _ => rfl⟩
  | badKey | tooLarge | hashMismatch | ioError =>
    refine ⟨fun h => ?_, nofun⟩
    exact absurd (congrArg List.head? h) (by decide)

theorem handleStore_storeLine (h : validKey key = true) :
    handleStore sha io now (storeLine key body) body s d =
      (storeReply (storePut sha io now key body s d).1, (storePut sha io now key body s d).2) := by
  have hspace : ' ' ∉ key := space_not_mem_of_validKey h
  have hwords : splitSingleSpaces (storeLine key body) =
      ["STORE".toList, key, num body.length] := by
    apply splitSingleSpaces_words _ (by simp)
    simp only [List.mem_cons, List.not_mem_nil, or_false, forall_eq_or_imp, forall_eq]
    exact ⟨by decide, hspace, space_not_mem_num _⟩
  rw [handleStore, hwords]
  dsimp only
  rw [if_pos rfl]

theorem storePut_of_refusal {r : PutResult} (h : putRefusal sha key body = some r) :
    (storePut sha io now key body s d).1 = r := by
  simp only [storePut, h]

/-- The local write is refused for what the request is, and not for what the disk does. -/
theorem storePut_refused_iff : let own := (storePut sha io now key body s d).1
    (own = .badKey ∨ own = .tooLarge ∨ own = .hashMismatch) ↔
      putRefusal sha key body = some own := by
  intro own
  refine ⟨fun h => ?_, putRefusal_cases⟩
  cases hr : putRefusal sha key body with
  | some r => rw [← storePut_of_refusal hr]
  | none =>
    simp only [own, storePut, hr] at h
    split at h
    · simp at h
    · split at h <;> simp at h

end answers

/-! ### What a step can do -/

namespace CopyPos

/-- What the tally has been told of the copy. -/
def verdict : CopyPos → Option Bool
  | .recorded good => some good
  | .finished good => some good
  | .noThread => some false
  | _ => none

/-- The copy's thread has nothing left to do. -/
def ended : CopyPos → Bool
  | .finished _ => true
  | .noThread => true
  | _ => false

/-- The process has said that it holds the chunk. -/
def assures : CopyPos → Bool
  | .handled line => line = "OK".toList
  | .returned d line => d = .ok ∧ line = "OK".toList
  | .recorded good => good
  | .finished good => good
  | _ => false

/-- The copy is on its way. -/
def underWay : CopyPos → Bool
  | .sending => true
  | .handled _ => true
  | .returned _ _ => true
  | _ => false

theorem verdict_of_underWay {pos : CopyPos} (h : pos.underWay = true) : pos.verdict = none := by
  cases pos <;> first | rfl | cases h

theorem verdict_of_ended {pos : CopyPos} (h : pos.ended = true) :
    ∃ good, pos.verdict = some good := by
  cases pos with
  | finished good => exact ⟨good, rfl⟩
  | noThread => exact ⟨false, rfl⟩
  | _ => cases h

end CopyPos

/-- The steps of the coordinator's own thread. -/
def PutEvent.byCoordinator : PutEvent → Bool
  | .start _ => true
  | .check => true
  | _ => false

def CoordPos.awake : CoordPos → Bool
  | .starting _ => true
  | .waiting => true
  | _ => false

def CoordPos.isAnswered : CoordPos → Bool
  | .answered _ => true
  | _ => false

/-- **Everything a step can do**, by the coordinator or by somebody else. -/
inductive CoordMove (w : ℕ) (m : PutMachine) : Bool → PutMachine → Prop
  | launch {i : ℕ} {p : Peer} {pos : CopyPos} (ok : Bool) (hcoord : m.coord = .starting i)
      (hcopy : m.copies[i]? = some (p, pos)) : CoordMove w m true (m.launch i p ok)
  | exchange {i : ℕ} {p : Peer} {pos pos' : CopyPos} {news : List (Peer × PutResult)}
      (hcopy : m.copies[i]? = some (p, pos)) (hpos : pos.underWay = true)
      (hpos' : pos'.underWay = true)
      (hnews : pos'.assures = true → pos.assures = true ∨ ∃ r, (p, r) ∈ news ∧ r.isHeld = true) :
      CoordMove w m false { m.setCopy i p pos' with log := news ++ m.log }
  | record {i : ℕ} {p : Peer} {d : Delivery} {line : Str}
    (hcopy : m.copies[i]? = some (p, .returned d line)) :
      CoordMove w m false (m.record i p d line)
  | notify {i : ℕ} {p : Peer} {good : Bool} (hcopy : m.copies[i]? = some (p, .recorded good)) :
      CoordMove w m false { m.setCopy i p (.finished good) with
        coord := if m.coord = .asleep then .waiting else m.coord }
  | check (hcoord : m.coord = .waiting) : CoordMove w m true
      { m with coord := if m.tally.settled m.total w then .answered (m.tally.reply w) else .asleep }
  | wake (hcoord : m.coord = .asleep) : CoordMove w m false { m with coord := .waiting }

namespace PutMachine

variable {sha : Sha1} {key body : Str} {w : ℕ} {m m' : PutMachine} {e : PutEvent} {byCoord : Bool}

theorem step?_cases (hkey : validKey key = true) (h : step? sha key body w m e = some m') :
    CoordMove w m e.byCoordinator m' := by
  cases e with
  | start ok =>
    simp only [step?] at h
    split at h
    · split at h
      · cases h
        exact .launch ok ‹_› ‹_›
      · cases h
    · cases h
  | handle i io now s d =>
    simp only [step?] at h
    split at h
    · cases h
      refine @CoordMove.exchange w m i _ .sending _ [_] ‹_› rfl rfl fun hok =>
        .inr ⟨_, List.mem_singleton_self _, ?_⟩
      rw [handleStore_storeLine hkey] at hok
      rw [← storeReply_ok_iff]
      exact of_decide_eq_true hok
    · cases h
  | refuse i line =>
    simp only [step?] at h
    split at h
    · cases h
    split at h
    · cases h
      refine @CoordMove.exchange w m i _ .sending _ [] ‹_› rfl rfl fun hok => ?_
      exact absurd (of_decide_eq_true hok) ‹_›
    · cases h
  | deliver i =>
    simp only [step?] at h
    split at h
    · cases h
      refine @CoordMove.exchange w m i _ _ _ [] ‹_› rfl rfl fun hok => .inl ?_
      simpa [CopyPos.assures] using hok
    · cases h
  | lose i d =>
    simp only [step?] at h
    split at h
    · cases h
    have hnot : ∀ line, (CopyPos.returned d line).assures = false := by
      intro line
      simp [CopyPos.assures, *]
    split at h
    · cases h
      exact @CoordMove.exchange w m i _ _ _ [] ‹_› rfl rfl (by simp [hnot])
    · cases h
      exact @CoordMove.exchange w m i _ _ _ [] ‹_› rfl rfl (by simp [hnot])
    · cases h
  | record i =>
    simp only [step?] at h
    split at h
    · cases h
      exact .record ‹_›
    · cases h
  | notify i =>
    simp only [step?] at h
    split at h
    · cases h
      exact .notify ‹_›
    · cases h
  | check =>
    obtain ⟨hcoord, he⟩ := Option.ite_none_right_eq_some.mp h
    cases he
    exact .check hcoord
  | wake =>
    obtain ⟨hcoord, he⟩ := Option.ite_none_right_eq_some.mp h
    cases he
    exact .wake hcoord

/-! ### Copies -/

section copies
variable {i j : ℕ} {p : Peer} {pos pos' : CopyPos}

theorem getElem?_setCopy (h : m.copies[i]? = some (p, pos)) :
    (m.setCopy i p pos').copies[j]? = if j = i then some (p, pos') else m.copies[j]? := by
  obtain ⟨hi, -⟩ := List.getElem?_eq_some_iff.mp h
  rw [setCopy, List.getElem?_set]
  by_cases hj : i = j
  · rw [if_pos hj, if_pos hj.symm, if_pos (hj ▸ hi)]
  · rw [if_neg hj, if_neg (Ne.symm hj)]

theorem peers_setCopy (h : m.copies[i]? = some (p, pos)) :
    (m.setCopy i p pos').copies.map Prod.fst = m.copies.map Prod.fst := by
  apply List.ext_getElem?
  intro j
  rw [List.getElem?_map, List.getElem?_map, getElem?_setCopy h]
  split
  · simp [*]
  · rfl

/-- The copies of which the tally has been told `good`. -/
def told (m : PutMachine) (good : Bool) : ℕ := m.copies.countP fun c => c.2.verdict = some good

theorem told_setCopy (h : m.copies[i]? = some (p, pos)) (good : Bool) :
    (m.setCopy i p pos').told good + (decide (pos.verdict = some good)).toNat =
      m.told good + (decide (pos'.verdict = some good)).toNat := by
  obtain ⟨hi, hget⟩ := List.getElem?_eq_some_iff.mp h
  have hle := List.boole_getElem_le_countP
    (p := fun c : Peer × CopyPos => c.2.verdict = some good) hi
  rw [told, told, setCopy, List.countP_set hi]
  rw [hget] at hle ⊢
  generalize m.copies.countP (fun c => decide (c.2.verdict = some good)) = n at hle ⊢
  cases h₁ : decide (pos.verdict = some good) <;> cases h₂ : decide (pos'.verdict = some good) <;>
    simp [h₁] at hle ⊢ <;> omega

end copies

/-- How far the coordinator has come with its threads. -/
def frontier (m : PutMachine) : ℕ :=
  match m.coord with
  | .starting i => i
  | _ => m.copies.length

theorem frontier_startFrom {i : ℕ} (h : i ≤ m.copies.length) : (m.startFrom i).frontier = i := by
  unfold startFrom
  split
  · rfl
  · exact Nat.le_antisymm (Nat.not_lt.mp ‹_›) h

/-- **What holds in every state** of the write of `us` with the other replicas `rest`, where `own`
says whether the local copy is held. -/
structure Sound (own : Bool) (us : Peer) (rest : List Peer) (w : ℕ) (m : PutMachine) : Prop where
  peers : m.copies.map Prod.fst = rest
  confirmed : m.tally.confirmed = own.toNat + m.told true
  failed : m.tally.failed = (!own).toNat + m.told false
  /-- Just the copies that the coordinator has come by are started. -/
  begun : ∀ (i : ℕ) (p : Peer) (pos : CopyPos), m.copies[i]? = some (p, pos) →
    (pos = .unstarted ↔ m.frontier ≤ i)
  /-- If the decision is made, the coordinator is awake or is going to be woken. -/
  attended : m.coord = .asleep → m.tally.settled m.total w = true →
    ∃ (i : ℕ) (p : Peer) (good : Bool), m.copies[i]? = some (p, .recorded good)
  assured : ∀ (i : ℕ) (p : Peer) (pos : CopyPos), m.copies[i]? = some (p, pos) →
    pos.assures = true → ∃ r, (p, r) ∈ m.log ∧ r.isHeld = true
  home : own = true → ∃ r, (us, r) ∈ m.log ∧ r.isHeld = true

section steps
variable {own : Bool} {us : Peer} {rest : List Peer} {i : ℕ} {p : Peer} {pos pos' : CopyPos}

/-- **A step of one copy.**  What the tally is told must be what the copy then stands for. -/
theorem Sound.copy (h : Sound own us rest w m) (hcopy : m.copies[i]? = some (p, pos))
    (hcopies : m'.copies = (m.setCopy i p pos').copies)
    (hconfirmed : m'.tally.confirmed + (decide (pos.verdict = some true)).toNat =
      m.tally.confirmed + (decide (pos'.verdict = some true)).toNat)
    (hfailed : m'.tally.failed + (decide (pos.verdict = some false)).toNat =
      m.tally.failed + (decide (pos'.verdict = some false)).toNat)
    (hpos' : pos' ≠ .unstarted)
    (hfrontier : ∀ j, j < m.copies.length → (m'.frontier ≤ j ↔ j ≠ i ∧ m.frontier ≤ j))
    (hattended : m'.coord = .asleep → m'.tally.settled m'.total w = true →
      ∃ (j : ℕ) (q : Peer) (good : Bool), m'.copies[j]? = some (q, .recorded good))
    (hlog : m.log ⊆ m'.log)
    (hassured : pos'.assures = true → pos.assures = true ∨ ∃ r, (p, r) ∈ m'.log ∧ r.isHeld = true) :
    Sound own us rest w m' := by
  have htold : ∀ good, m'.told good + (decide (pos.verdict = some good)).toNat =
      m.told good + (decide (pos'.verdict = some good)).toNat := by
    intro good
    rw [told, hcopies]
    exact told_setCopy hcopy good
  -- a log that has grown still says what it said
  have hold : ∀ q r, (q, r) ∈ m.log → r.isHeld = true → ∃ r, (q, r) ∈ m'.log ∧ r.isHeld = true :=
    fun q r hr hheld => ⟨r, hlog hr, hheld⟩
  constructor
  · rw [hcopies, peers_setCopy hcopy, h.peers]
  · have hcount := htold true
    have hbefore := h.confirmed
    omega
  · have hcount := htold false
    have hbefore := h.failed
    omega
  · intro j q pos'' hj
    rw [hcopies, getElem?_setCopy hcopy] at hj
    split at hj
    · cases hj
      obtain ⟨hi, -⟩ := List.getElem?_eq_some_iff.mp hcopy
      subst j
      rw [hfrontier i hi]
      simp [hpos']
    · obtain ⟨hlt, -⟩ := List.getElem?_eq_some_iff.mp hj
      rw [hfrontier j hlt, h.begun j q pos'' hj]
      simp [*]
  · exact hattended
  · intro j q pos'' hj hok
    rw [hcopies, getElem?_setCopy hcopy] at hj
    split at hj
    · cases hj
      rcases hassured hok with hpos | hnew
      · obtain ⟨r, hr, hheld⟩ := h.assured i p pos hcopy hpos
        exact hold p r hr hheld
      · exact hnew
    · obtain ⟨r, hr, hheld⟩ := h.assured j q pos'' hj hok
      exact hold q r hr hheld
  · intro hown
    obtain ⟨r, hr, hheld⟩ := h.home hown
    exact hold us r hr hheld

/-- A thread that has been started leaves the others where they are. -/
theorem Sound.frontier_iff (h : Sound own us rest w m) (hcopy : m.copies[i]? = some (p, pos))
    (hpos : pos ≠ .unstarted) (heq : m'.frontier = m.frontier) (j : ℕ) :
    m'.frontier ≤ j ↔ j ≠ i ∧ m.frontier ≤ j := by
  have hi : ¬ m.frontier ≤ i := fun hle => hpos ((h.begun i p pos hcopy).mpr hle)
  rw [heq]
  omega

theorem frontier_launch (ok : Bool) (h : i < m.copies.length) :
    (m.launch i p ok).frontier = i + 1 := by
  have hlen : ∀ pos, (m.setCopy i p pos).copies.length = m.copies.length :=
    fun pos => List.length_set ..
  cases ok with
  | true => exact frontier_startFrom (Nat.le_of_lt_succ (by rw [hlen]; omega))
  | false =>
    refine frontier_startFrom (Nat.le_of_lt_succ ?_)
    rw [hlen .noThread]
    omega

theorem coord_launch (ok : Bool) :
    (m.launch i p ok).coord = .starting (i + 1) ∨ (m.launch i p ok).coord = .waiting := by
  cases ok with
  | true => exact (Decidable.em (i + 1 < (m.setCopy i p .sending).copies.length)).imp (if_pos ·) (if_neg ·)
  | false => exact (Decidable.em (i + 1 < (m.setCopy i p .noThread).copies.length)).imp (if_pos ·) (if_neg ·)

theorem Sound.launch (h : Sound own us rest w m) (ok : Bool) (hcoord : m.coord = .starting i)
    (hcopy : m.copies[i]? = some (p, pos)) : Sound own us rest w (m.launch i p ok) := by
  have hat : m.frontier = i := by rw [frontier, hcoord]
  have hunstarted : pos = .unstarted := (h.begun i p pos hcopy).mpr (Nat.le_of_eq hat)
  have hi : i < m.copies.length := (List.getElem?_eq_some_iff.mp hcopy).1
  have hattended : (m.launch i p ok).coord ≠ .asleep := by
    intro hasleep
    rcases @coord_launch m i p ok with hc | hc <;> cases hc.symm.trans hasleep
  have hfrontier : ∀ j, j < m.copies.length → ((m.launch i p ok).frontier ≤ j ↔ j ≠ i ∧ m.frontier ≤ j) := by
    intro j _
    rw [frontier_launch ok hi, hat]
    omega
  subst hunstarted
  cases ok with
  | true => exact h.copy hcopy rfl rfl rfl nofun hfrontier (absurd · hattended) (List.Subset.refl _) nofun
  | false => exact h.copy hcopy rfl rfl rfl nofun hfrontier (absurd · hattended) (List.Subset.refl _) nofun

theorem frontier_congr (hlen : m'.copies.length = m.copies.length)
    (hcoord : ∀ j, m'.coord = .starting j ↔ m.coord = .starting j) : m'.frontier = m.frontier := by
  unfold frontier
  cases hm : m.coord with
  | starting j => rw [(hcoord j).mpr hm]
  | waiting | asleep | answered _ =>
    cases hm' : m'.coord with
    | starting j => cases hm.symm.trans ((hcoord j).mp hm')
    | waiting | asleep | answered _ => exact hlen

theorem length_setCopy : (m.setCopy i p pos).copies.length = m.copies.length := List.length_set ..

section
variable (h : Sound own us rest w m)
include h

theorem Sound.exchange {news : List (Peer × PutResult)} (hcopy : m.copies[i]? = some (p, pos))
    (hpos : pos.underWay = true) (hpos' : pos'.underWay = true)
    (hnews : pos'.assures = true → pos.assures = true ∨ ∃ r, (p, r) ∈ news ∧ r.isHeld = true) :
    Sound own us rest w { m.setCopy i p pos' with log := news ++ m.log } := by
  have hstarted : ∀ {pos : CopyPos}, pos.underWay = true → pos ≠ .unstarted := by
    rintro _ h rfl
    cases h
  have hv := CopyPos.verdict_of_underWay hpos
  have hv' := CopyPos.verdict_of_underWay hpos'
  refine h.copy hcopy rfl (by rw [hv, hv']; rfl) (by rw [hv, hv']; rfl) (hstarted hpos')
    (fun j _ => h.frontier_iff hcopy (hstarted hpos)
      (frontier_congr length_setCopy fun _ => Iff.rfl) j) ?_
    (List.subset_append_right _ _) fun hok => (hnews hok).imp id ?_
  · intro hasleep hsettled
    have htotal : (m.setCopy i p pos').total = m.total := congrArg (· + 1) length_setCopy
    obtain ⟨j, q, good, hj⟩ := h.attended hasleep (htotal ▸ hsettled)
    refine ⟨j, q, good, (getElem?_setCopy hcopy).trans ?_⟩
    rw [if_neg, hj]
    rintro rfl
    cases hcopy.symm.trans hj
    cases hpos
  · rintro ⟨r, hr, hheld⟩
    exact ⟨r, List.mem_append_left _ hr, hheld⟩

theorem Sound.record {d : Delivery} {line : Str}
    (hcopy : m.copies[i]? = some (p, .returned d line)) :
    Sound own us rest w (m.record i p d line) := by
  have hfrontier : ∀ (m' : PutMachine), m'.copies.length = m.copies.length → m'.coord = m.coord →
      ∀ j, m'.frontier ≤ j ↔ j ≠ i ∧ m.frontier ≤ j := by
    intro m' hlen hcoord j
    exact h.frontier_iff hcopy nofun (frontier_congr hlen fun _ => by rw [hcoord]) j
  have hself : ∀ good, (m.setCopy i p (.recorded good)).copies[i]? = some (p, .recorded good) :=
    fun good => (getElem?_setCopy hcopy).trans (if_pos rfl)
  unfold PutMachine.record
  split
  · rename_i hgood
    exact h.copy hcopy rfl rfl rfl nofun (fun j _ => hfrontier _ length_setCopy rfl j)
      (fun _ _ => ⟨i, p, true, hself true⟩) (List.Subset.refl _)
      fun _ => .inl (decide_eq_true hgood)
  · exact h.copy hcopy rfl rfl rfl nofun
      (fun j _ => hfrontier _ (@length_setCopy m i p (.recorded false)) rfl j)
      (fun _ _ => ⟨i, p, false, hself false⟩) (List.Subset.refl _) nofun

theorem Sound.notify {good : Bool} (hcopy : m.copies[i]? = some (p, .recorded good)) :
    Sound own us rest w { m.setCopy i p (.finished good) with
      coord := if m.coord = .asleep then .waiting else m.coord } := by
  refine h.copy hcopy rfl rfl rfl nofun (fun j _ => h.frontier_iff hcopy nofun ?_ j) ?_
    (List.Subset.refl _) .inl
  · apply frontier_congr
    · exact length_setCopy
    · intro j
      dsimp only
      split <;> simp [*]
  · dsimp only
    split
    · exact nofun
    · exact fun hasleep => absurd hasleep ‹_›

theorem Sound.turn {c : CoordPos} (hc : ∀ i, c ≠ .starting i)
    (hm : ∀ i, m.coord ≠ .starting i) (hasleep : c = .asleep → m.tally.settled m.total w = false) :
    Sound own us rest w { m with coord := c } := by
  have hfrontier : frontier { m with coord := c } = m.frontier :=
    frontier_congr rfl fun j => iff_of_false (hc j) (hm j)
  refine ⟨h.peers, h.confirmed, h.failed, ?_, ?_, h.assured, h.home⟩
  · intro j q pos hj
    rw [hfrontier]
    exact h.begun j q pos hj
  · intro hc' hsettled
    cases (hasleep hc').symm.trans hsettled

/-- **Every step keeps it.** -/
theorem Sound.step (hmove : CoordMove w m byCoord m') : Sound own us rest w m' := by
  cases hmove with
  | launch ok hcoord hcopy => exact h.launch ok hcoord hcopy
  | exchange hcopy hpos hpos' hnews => exact h.exchange hcopy hpos hpos' hnews
  | record hcopy => exact h.record hcopy
  | notify hcopy => exact h.notify hcopy
  | check hcoord =>
    refine h.turn ?_ (by simp [hcoord]) ?_
    · intro i
      split <;> exact nofun
    · split
      · exact nofun
      · exact fun _ => Bool.eq_false_of_not_eq_true ‹_›
  | wake hcoord => exact h.turn nofun (by simp [hcoord]) nofun

end

end steps

section runs
variable {own : PutResult} {us : Peer} {rest : List Peer}

theorem sound_begin (h : ¬ (own = .badKey ∨ own = .tooLarge ∨ own = .hashMismatch)) :
    Sound own.isHeld us rest w (begin own us rest) := by
  have hcopies : ∀ (i : ℕ) (p : Peer) (pos : CopyPos),
      (rest.map fun p => (p, CopyPos.unstarted))[i]? = some (p, pos) → pos = .unstarted := by
    intro i p pos hi
    rw [List.getElem?_map] at hi
    obtain ⟨q, -, hq⟩ := Option.map_eq_some_iff.mp hi
    exact (Prod.mk.inj hq).2.symm
  have htold : ∀ good, (rest.map fun p => (p, CopyPos.unstarted)).countP
      (fun c => decide (c.2.verdict = some good)) = 0 := by
    intro good
    rw [List.countP_map, List.countP_eq_zero]
    intro p _
    exact nofun
  rw [begin, if_neg h]
  constructor
  · exact (List.map_map ..).trans (List.map_id _)
  · refine Eq.trans ?_ (congrArg (own.isHeld.toNat + ·) (htold true).symm)
    cases own.isHeld <;> rfl
  · refine Eq.trans ?_ (congrArg ((!own.isHeld).toNat + ·) (htold false).symm)
    cases own.isHeld <;> rfl
  · intro i p pos hi
    rw [frontier_startFrom (Nat.zero_le _)]
    exact iff_of_true (hcopies i p pos hi) (Nat.zero_le i)
  · intro hasleep
    simp only [startFrom] at hasleep
    split at hasleep <;> cases hasleep
  · intro i p pos hi hok
    cases hcopies i p pos hi
    cases hok
  · exact fun hown => ⟨own, List.mem_singleton_self _, hown⟩

end runs

section outcome
variable {own : Bool} {us : Peer} {rest : List Peer} {reply : Str}

theorem told_add_le : m.told true + m.told false ≤ m.copies.length := by
  rw [List.length_eq_countP_add_countP fun c : Peer × CopyPos => decide (c.2.verdict = some true)]
  refine Nat.add_le_add_left (List.countP_mono_left fun c _ hc => ?_) _
  simp_all

theorem told_add_of_ended (h : ∀ c ∈ m.copies, c.2.ended = true) :
    m.told true + m.told false = m.copies.length := by
  rw [List.length_eq_countP_add_countP fun c : Peer × CopyPos => decide (c.2.verdict = some true)]
  refine congrArg _ (List.countP_congr fun c hc => ?_)
  obtain ⟨good, hgood⟩ := CopyPos.verdict_of_ended (h c hc)
  cases good <;> simp [hgood]

section
variable (h : Sound own us rest w m)
include h

theorem Sound.length_copies : m.copies.length = rest.length := by
  rw [← h.peers, List.length_map]

theorem Sound.confirmed_add_le : m.tally.confirmed + m.tally.failed ≤ rest.length + 1 := by
  have hle := @told_add_le m
  rw [h.confirmed, h.failed, ← h.length_copies]
  cases own <;> simp <;> omega

theorem Sound.settled_of_ended (hended : ∀ c ∈ m.copies, c.2.ended = true) :
    m.tally.settled m.total w = true := by
  have heq := told_add_of_ended hended
  have hsum : m.tally.confirmed + m.tally.failed = m.total := by
    rw [h.confirmed, h.failed, total]
    cases own <;> simp <;> omega
  apply decide_eq_true
  rw [Tally.pending]
  omega

theorem Sound.confirmers (hdistinct : (us :: rest).Pairwise fun a b => sameProcess b a = false) :
    ∃ ps : List Peer, ps.length = m.tally.confirmed ∧
    (ps.Pairwise fun a b => sameProcess b a = false) ∧
      ∀ p ∈ ps, p ∈ us :: rest ∧ ∃ r, (p, r) ∈ m.log ∧ r.isHeld = true := by
  let home := if own = true then [us] else []
  let away := (m.copies.filter fun c => c.2.verdict = some true).map Prod.fst
  have hsub : (home ++ away).Sublist (us :: rest) := by
    have hhome : home.Sublist [us] := by
      simp only [home]
      split <;> simp
    have haway : away.Sublist rest := by
      rw [← h.peers]
      exact List.filter_sublist.map _
    exact hhome.append haway
  refine ⟨home ++ away, ?_, hdistinct.sublist hsub, fun p hp => ⟨hsub.subset hp, ?_⟩⟩
  · rw [List.length_append, List.length_map, ← List.countP_eq_length_filter, h.confirmed]
    cases own <;> rfl
  · rcases List.mem_append.mp hp with hp | hp
    · simp only [home] at hp
      split at hp
      · cases List.mem_singleton.mp hp
        exact h.home ‹_›
      · cases hp
    · obtain ⟨⟨q, pos⟩, hc, rfl⟩ := List.mem_map.mp hp
      obtain ⟨hc, hverdict⟩ := List.mem_filter.mp hc
      obtain ⟨i, hi⟩ := List.mem_iff_getElem?.mp hc
      refine h.assured i q pos hi ?_
      cases pos <;> simp_all [CopyPos.verdict, CopyPos.assures]

end

theorem failed_le (h : CoordMove w m byCoord m') : m.tally.failed ≤ m'.tally.failed := by
  cases h with
  | launch ok => cases ok <;> simp [launch, startFrom, setCopy, Tally.fail]
  | record =>
    unfold record
    split <;> simp [Tally.fail, Tally.confirm]
  | exchange | notify | check | wake => exact le_rfl

/-- **An answer is given only when the decision is made.** -/
theorem answer_of_move (h : CoordMove w m byCoord m') (hm : m.coord.isAnswered = false)
    (hans : m'.coord = .answered reply) :
    m.tally.settled m.total w = true ∧ reply = m.tally.reply w := by
  have hkept : m.coord ≠ .answered reply := by
    intro he
    rw [he] at hm
    cases hm
  cases h with
  | @launch i p pos ok =>
    rcases @coord_launch m i p ok with hc | hc <;> cases hc.symm.trans hans
  | exchange => exact absurd hans hkept
  | record =>
    refine absurd (Eq.trans ?_ hans) hkept
    unfold record
    split <;> rfl
  | notify =>
    dsimp only at hans
    split at hans
    · cases hans
    · exact absurd hans hkept
  | check =>
    dsimp only at hans
    split at hans
    · cases hans
      exact ⟨‹_›, rfl⟩
    · cases hans
  | wake => cases hans

end outcome

/-! ### The answer comes -/

/-- Every copy that is started finishes, and the coordinator takes its turn when it is awake. -/
structure Fair (τ : Runs.Trace (step? sha key body w)) : Prop where
  finishes : ∀ (n i : ℕ) (p : Peer) (pos : CopyPos), (τ.state n).copies[i]? = some (p, pos) →
    pos ≠ .unstarted → ∃ n', n ≤ n' ∧ ∃ (p' : Peer) (pos' : CopyPos),
      (τ.state n').copies[i]? = some (p', pos') ∧ pos'.ended = true
  scheduled : ∀ n, (τ.state n).coord.awake = true →
    ∃ n' e, n ≤ n' ∧ τ.event n' = some e ∧ e.byCoordinator = true

section liveness
variable {own : Bool} {us : Peer} {rest : List Peer} {τ : Runs.Trace (step? sha key body w)} {n : ℕ}

/-- The coordinator waits for its threads no more. -/
def Started (m : PutMachine) : Prop := ∀ i, m.coord ≠ .starting i

/-- Another thread's step leaves the coordinator where it is, or wakes it. -/
theorem coord_of_move (h : CoordMove w m false m') :
    m'.coord = m.coord ∨ m.coord = .asleep ∧ m'.coord = .waiting := by
  cases h with
  | exchange => exact .inl rfl
  | record =>
    left
    unfold record
    split <;> rfl
  | notify =>
    dsimp only
    split
    · exact .inr ⟨‹_›, rfl⟩
    · exact .inl rfl
  | wake hcoord => exact .inr ⟨hcoord, rfl⟩

theorem started_of_move (h : CoordMove w m byCoord m') (hm : m.Started) : m'.Started := by
  cases byCoord with
  | false =>
    intro i hi
    rcases coord_of_move h with hc | ⟨-, hc⟩
    · exact hm i (hc ▸ hi)
    · cases hc.symm.trans hi
  | true =>
    cases h with
    | launch ok hcoord => exact absurd hcoord (hm _)
    | check =>
      intro i hi
      dsimp only at hi
      split at hi <;> cases hi

/-- Copy `i` is over, in a state that is sound. -/
def CopyEnded (own : Bool) (us : Peer) (rest : List Peer) (w i : ℕ) (m : PutMachine) : Prop :=
  Sound own us rest w m ∧ ∃ (p : Peer) (pos : CopyPos), m.copies[i]? = some (p, pos) ∧
    pos.ended = true

/-- **What is over stays over.** -/
theorem CopyEnded.step {i : ℕ} (h : CopyEnded own us rest w i m)
    (hmove : CoordMove w m byCoord m') :
    CopyEnded own us rest w i m' := by
  obtain ⟨hsound, p, pos, hcopy, hended⟩ := h
  refine ⟨hsound.step hmove, ?_⟩
  -- only a copy that is not over moves
  have hother : ∀ {j : ℕ} {q : Peer} {pos₁ pos₂ : CopyPos}, m.copies[j]? = some (q, pos₁) →
      pos₁.ended = false → (m.setCopy j q pos₂).copies[i]? = some (p, pos) := by
    intro j q pos₁ pos₂ hj hnot
    rw [getElem?_setCopy hj, if_neg, hcopy]
    rintro rfl
    cases hcopy.symm.trans hj
    cases hended.symm.trans hnot
  cases hmove with
  | @launch j q pos₁ ok hcoord hj =>
    have hun : pos₁ = .unstarted := (hsound.begun j q pos₁ hj).mpr (by rw [frontier, hcoord])
    subst hun
    cases ok with
    | true => exact ⟨p, pos, hother hj rfl, hended⟩
    | false => exact ⟨p, pos, @hother j q _ .noThread hj rfl, hended⟩
  | @exchange j q pos₁ pos₂ news hj hpos =>
    refine ⟨p, pos, @hother j q pos₁ pos₂ hj ?_, hended⟩
    cases pos₁ <;> first | rfl | cases hpos
  | @record j q d line hj =>
    refine ⟨p, pos, ?_, hended⟩
    unfold record
    split
    · exact @hother j q _ (.recorded true) hj rfl
    · exact @hother j q _ (.recorded false) hj rfl
  | @notify j q good hj => exact ⟨p, pos, @hother j q _ (.finished good) hj rfl, hended⟩
  | check => exact ⟨p, pos, hcopy, hended⟩
  | wake => exact ⟨p, pos, hcopy, hended⟩

variable (hkey : validKey key = true) (hsound : ∀ n, Sound own us rest w (τ.state n))
  (hfair : Fair τ)
include hkey hfair

theorem next_turn {c : CoordPos} (hc : (τ.state n).coord = c) (hawake : c.awake = true) :
    ∃ n', n ≤ n' ∧ (τ.state n').coord = c ∧ CoordMove w (τ.state n') true (τ.state (n' + 1)) := by
  have hstay : ∀ s e s', step? sha key body w s e = some s' → ¬ e.byCoordinator = true →
      s.coord = c → s'.coord = c := by
    intro s e s' hs he hsc
    have hmove := step?_cases hkey hs
    rw [Bool.eq_false_of_not_eq_true he] at hmove
    rcases coord_of_move hmove with hkept | ⟨hasleep, -⟩
    · exact hkept.trans hsc
    · rw [← hsc, hasleep] at hawake
      cases hawake
  have hnext := hfair.scheduled n (by rw [hc]; exact hawake)
  obtain ⟨n', e, hle, hevent, he, hat⟩ := Runs.Trace.reaches hstay hc hnext
  have hmove := step?_cases hkey (τ.step n' e hevent)
  rw [he] at hmove
  exact ⟨n', hle, hat, hmove⟩

include hsound

/-- **Every thread is started**, or cannot be. -/
theorem eventually_started (n : ℕ) : ∃ n', n ≤ n' ∧ (τ.state n').Started := by
  -- on the copies that are left
  induction hleft :
    rest.length - (τ.state n).frontier using Nat.strong_induction_on generalizing n with
  | _ left ih =>
    by_cases hstarted : (τ.state n).Started
    · exact ⟨n, Nat.le_refl n, hstarted⟩
    obtain ⟨i, hi⟩ := not_forall_not.mp hstarted
    obtain ⟨n', hle, hi', hmove⟩ := next_turn hkey hfair hi rfl
    generalize hnext : τ.state (n' + 1) = m' at hmove
    cases hmove with
    | @launch j q pos ok hcoord hj =>
      cases hi'.symm.trans hcoord
      obtain ⟨hlt, -⟩ := List.getElem?_eq_some_iff.mp hj
      have hfrontier : (τ.state (n' + 1)).frontier = i + 1 := by
        rw [hnext]
        exact frontier_launch ok hlt
      rw [(hsound n').length_copies] at hlt
      have hn : (τ.state n).frontier = i := by rw [frontier, hi]
      obtain ⟨n'', hle', hdone⟩ := ih _ (by omega) (n' + 1) rfl
      exact ⟨n'', by omega, hdone⟩
    | check hcoord => cases hi'.symm.trans hcoord

/-- **Every copy is over at last.** -/
theorem eventually_ended (hstarted : (τ.state n).Started) :
    ∃ n₀, n ≤ n₀ ∧ ∀ n', n₀ ≤ n' → ∀ c ∈ (τ.state n').copies, c.2.ended = true := by
  have hstays : ∀ i a b, a ≤ b → CopyEnded own us rest w i (τ.state a) →
      CopyEnded own us rest w i (τ.state b) :=
    fun i a b hab => Runs.Trace.stays (fun _ _ _ hs h => h.step (step?_cases hkey hs)) hab
  have hupto : ∀ k, k ≤ rest.length → ∃ n', n ≤ n' ∧ ∀ i, i < k →
      CopyEnded own us rest w i (τ.state n') := by
    intro k
    induction k with
    | zero => exact fun _ => ⟨n, Nat.le_refl n, nofun⟩
    | succ k ih =>
      intro hk
      obtain ⟨n', hle, hprev⟩ := ih (by omega)
      have hlen := (hsound n').length_copies
      have hthere : k < (τ.state n').copies.length := by omega
      have hcopy := List.getElem?_eq_getElem hthere
      have hfront : (τ.state n').frontier = (τ.state n').copies.length := by
        have hst : (τ.state n').Started := Runs.Trace.stays
          (fun _ _ _ hs h => started_of_move (step?_cases hkey hs) h) hle hstarted
        unfold frontier
        split
        · exact absurd ‹_› (hst _)
        · rfl
      have hbegun : ((τ.state n').copies[k]).2 ≠ .unstarted := by
        intro hun
        have := ((hsound n').begun k _ _ hcopy).mp hun
        omega
      obtain ⟨n'', hle', p', pos', hcopy', hended⟩ := hfair.finishes n' k _ _ hcopy hbegun
      refine ⟨n'', by omega, fun i hi => ?_⟩
      rcases Nat.lt_succ_iff_lt_or_eq.mp hi with hi | rfl
      · exact hstays i n' n'' hle' (hprev i hi)
      · exact ⟨hsound n'', p', pos', hcopy', hended⟩
  obtain ⟨n₀, hle, hall⟩ := hupto rest.length (le_rfl)
  refine ⟨n₀, hle, fun n' hle' c hc => ?_⟩
  obtain ⟨i, hi⟩ := List.mem_iff_getElem?.mp hc
  obtain ⟨hlt, -⟩ := List.getElem?_eq_some_iff.mp hi
  rw [(hsound n').length_copies] at hlt
  obtain ⟨-, p, pos, hcopy, hended⟩ := hstays i n₀ n' hle' (hall i hlt)
  cases hi.symm.trans hcopy
  exact hended

/-- **The coordinator answers.** -/
theorem eventually_answered : ∃ n reply, (τ.state n).coord = .answered reply := by
  obtain ⟨n₁, -, hstarted⟩ := eventually_started hkey hsound hfair 0
  obtain ⟨n₂, hle, hended⟩ := eventually_ended hkey hsound hfair hstarted
  have hstarted₂ : (τ.state n₂).Started := Runs.Trace.stays
    (fun _ _ _ hs h => started_of_move (step?_cases hkey hs) h) hle hstarted
  have hsettled : ∀ n', n₂ ≤ n' → (τ.state n').tally.settled (τ.state n').total w = true :=
    fun n' hle' => (hsound n').settled_of_ended (hended n' hle')
  cases hcoord : (τ.state n₂).coord with
  | starting i => exact absurd hcoord (hstarted₂ i)
  | answered reply => exact ⟨n₂, reply, hcoord⟩
  | asleep =>
    -- the decision can be made, and nobody is left to wake it
    obtain ⟨i, p, good, hi⟩ := (hsound n₂).attended hcoord (hsettled n₂ (Nat.le_refl n₂))
    cases hended n₂ (Nat.le_refl n₂) _ (List.mem_of_getElem? hi)
  | waiting =>
    obtain ⟨n', hle', hwaiting, hmove⟩ := next_turn hkey hfair hcoord rfl
    generalize hnext : τ.state (n' + 1) = m' at hmove
    cases hmove with
    | launch ok hstarting => cases hwaiting.symm.trans hstarting
    | check =>
      refine ⟨n' + 1, (τ.state n').tally.reply w, ?_⟩
      rw [hnext]
      exact if_pos (hsettled n' hle')

end liveness

/-! ### What an answer says -/

section said
variable {own : Bool} {us : Peer} {rest : List Peer} {reply : Str}

theorem step?_refused (t : Tally) (log : List (Peer × PutResult)) :
    step? sha key body w ⟨t, [], .answered reply, log⟩ e = none := by
  cases e <;> simp [step?]

theorem take_okReply {c : ℕ} (h : c ≤ 3) : (okReply c).take MAX_LINE = okReply c := by
  obtain rfl | rfl | rfl | rfl : c = 0 ∨ c = 1 ∨ c = 2 ∨ c = 3 := by omega
  all_goals rfl

/-- **What has failed stays so**: no run from here confirms more than the rest. -/
theorem Sound.confirmed_le (h : Sound own us rest w m) (hkey : validKey key = true)
    {events : List PutEvent} (hrun : Runs.exec (step? sha key body w) m events = some m') :
    m'.tally.confirmed + m.tally.failed ≤ rest.length + 1 := by
  have hkept : Sound own us rest w m' ∧ m.tally.failed ≤ m'.tally.failed := by
    refine Runs.exec_induction (I := fun s => Sound own us rest w s ∧
      m.tally.failed ≤ s.tally.failed) ?_ hrun
      ⟨h, le_rfl⟩
    rintro s e s' - hs ⟨hsound, hle⟩
    have hmove := step?_cases hkey hs
    exact ⟨hsound.step hmove, hle.trans (failed_le hmove)⟩
  have hsum := hkept.1.confirmed_add_le
  omega

theorem Sound.answer (h : Sound own us rest w m) (hkey : validKey key = true)
    (hlen : rest.length ≤ 2) (hmove : CoordMove w m byCoord m') (hm : m.coord.isAnswered = false)
    (hans : m'.coord = .answered reply) :
    reply = okReply m.tally.confirmed ∧ w ≤ m.tally.confirmed ∨
    reply = errReply m.tally.confirmed w m.tally.failures ∧
      ∀ events m', Runs.exec (step? sha key body w) m events = some m' →
      m'.tally.confirmed < w := by
  obtain ⟨hsettled, rfl⟩ := answer_of_move hmove hm hans
  have hsum := h.confirmed_add_le
  by_cases hw : m.tally.confirmed ≥ w
  · left
    rw [Tally.reply, if_pos hw]
    exact ⟨take_okReply (by omega), hw⟩
  · right
    rw [Tally.reply, if_neg hw]
    refine ⟨rfl, fun events m' hrun => ?_⟩
    have hle := h.confirmed_le hkey hrun
    have hdecided := (of_decide_eq_true hsettled).resolve_left hw
    rw [Tally.pending, total, h.length_copies] at hdecided
    omega

end said

end PutMachine

/-- **W means W.**  The coordinator of a write answers once the copies finish; OK with a count says
that so many processes, at least `w`, had confirmed the chunk; and ERR about copies says that `w`
confirmations could not be had any more. -/
theorem put_answers (sha : Sha1) (key body : Str) (w : ℕ) (members : List NodeState)
    (hmembers : members ≠ []) (io : Io) (now : ℤ) (s : ChunkStore) (d : Disk)
    (τ : Runs.Trace (PutMachine.step? sha key body w))
    (hstart : τ.state 0 = coordinate sha key body members hmembers io now s d) :
    (PutMachine.Fair τ → ∃ n reply, (τ.state n).coord = .answered reply) ∧
    (∀ reply, (τ.state 0).coord = .answered reply →
      ∃ refusal, putRefusal sha key body = some refusal ∧
      reply = "ERR ".toList ++ putResultName refusal) ∧
    ∀ n reply, (τ.state n).coord.isAnswered = false → (τ.state (n + 1)).coord = .answered reply →
      (∃ c, reply = okReply c ∧ w ≤ c ∧ chunkKey sha body = key ∧
        ∃ ps : List Peer, ps.length = c ∧ (ps.Pairwise fun p q => sameProcess q p = false) ∧
          ∀ p ∈ ps, p ∈ replicaSet (memberFor members hmembers ((idFromKey key).getD 0)) RF ∧
            ∃ r, (p, r) ∈ (τ.state n).log ∧ r.isHeld = true) ∨
      (∃ c failures, reply = errReply c w failures ∧
        ∀ events m, Runs.exec (PutMachine.step? sha key body w) (τ.state n) events = some m →
          m.tally.confirmed < w) := by
  let own := (storePut sha io now key body s d).1
  let member := memberFor members hmembers ((idFromKey key).getD 0)
  let us := member.self
  let rest := (replicaSet member RF).tail
  change τ.state 0 = PutMachine.begin own us rest at hstart
  obtain ⟨hset, hlen⟩ : replicaSet member RF = us :: rest ∧ rest.length ≤ 2 := replicaSet_eq member
  by_cases hrefused : own = .badKey ∨ own = .tooLarge ∨ own = .hashMismatch
  · -- the answer is there, and nothing happens any more
    have hbegin : τ.state 0 = ⟨⟨0, 0, []⟩, [], .answered ("ERR ".toList ++ putResultName own),
      [(us, own)]⟩ := by
      rw [hstart, PutMachine.begin, if_pos hrefused]
    have hstill : ∀ n, τ.state n = τ.state 0 := by
      intro n
      refine Runs.Trace.stays (P := (· = τ.state 0)) ?_ (Nat.zero_le n) rfl
      rintro _ e s' hs rfl
      rw [hbegin, PutMachine.step?_refused] at hs
      cases hs
    refine ⟨fun _ => ⟨0, _, congrArg PutMachine.coord hbegin⟩, fun reply hreply => ?_,
      fun n reply hn => ?_⟩
    · refine ⟨own, storePut_refused_iff.mp hrefused, ?_⟩
      cases (congrArg PutMachine.coord hbegin).symm.trans hreply
      rfl
    · rw [hstill n, hbegin] at hn
      cases hn
  · have hnone : putRefusal sha key body = none := by
      cases hr : putRefusal sha key body with
      | none => rfl
      | some r =>
        have hown : own = r := storePut_of_refusal hr
        exact absurd (hown ▸ putRefusal_cases hr) hrefused
    obtain ⟨hkey, hhash⟩ := putRefusal_none hnone
    have hsound : ∀ n, PutMachine.Sound own.isHeld us rest w (τ.state n) := by
      intro n
      refine Runs.Trace.stays (fun _ _ _ hs h => h.step (PutMachine.step?_cases hkey hs))
        (Nat.zero_le n) ?_
      rw [hstart]
      exact PutMachine.sound_begin hrefused
    refine ⟨PutMachine.eventually_answered hkey hsound, fun reply hreply => ?_,
      fun n reply hn hreply => ?_⟩
    · rw [hstart, PutMachine.begin, if_neg hrefused] at hreply
      simp only [PutMachine.startFrom] at hreply
      split at hreply <;> cases hreply
    · cases hevent : τ.event n with
      | none =>
        rw [τ.idle n hevent] at hreply
        rw [hreply] at hn
        cases hn
      | some e =>
        have hmove := PutMachine.step?_cases hkey (τ.step n e hevent)
        rcases (hsound n).answer hkey hlen hmove hn hreply with ⟨hok, hw⟩ | ⟨herr, himpossible⟩
        · obtain ⟨ps, hps, hdistinct, hheld⟩ :=
            (hsound n).confirmers (hset ▸ Distinct.pairwise_firsts)
          refine .inl ⟨_, hok, hw, hhash, ps, hps, hdistinct, fun p hp => ?_⟩
          rw [hset]
          exact hheld p hp
        · exact .inr ⟨_, _, herr, himpossible⟩

/-- The owner of the empty chunk among three processes. -/
def emptyChunkOwner : NodeState :=
  wired threeMembers 8 (successorOf 0xda39a3ee5e6b4b0d threeMembers)

/-- A write of it to the three of them, on a fresh disk. -/
def threeWrites : PutMachine :=
  coordinate (.ofTable []) emptyChunk [] [emptyChunkOwner] (List.cons_ne_nil _ _) {} 0
    (storeOpen 0 .blank).2.1 .blank

/-- One thread stores a copy while the coordinator sleeps, and the other cannot be started. -/
def threeWritesEvents : List PutEvent :=
  [.start true, .start false, .check, .handle 0 {} 0 (storeOpen 0 .blank).2.1 .blank, .deliver 0,
    .record 0, .notify 0, .check]

theorem threeWrites_runs :
    (Runs.exec (PutMachine.step? (.ofTable []) emptyChunk [] 2) threeWrites
      threeWritesEvents).isSome = true := by
  decide +kernel

theorem put_answers_three :
    let τ := Runs.Trace.ofList threeWrites threeWritesEvents threeWrites_runs
    (∃ n reply, (τ.state n).coord = .answered reply) ∧
    ∃ ps : List Peer, 2 ≤ ps.length ∧ (ps.Pairwise fun p q => sameProcess q p = false) ∧
      ∀ p ∈ ps, ∃ r, (p, r) ∈ (τ.state 7).log ∧ r.isHeld = true := by
  intro τ
  have hend : ∀ n, 8 ≤ n → τ.state n = τ.state 8 :=
    fun n hn => Runs.Trace.state_ofList_of_le threeWrites_runs hn
  have hended : (τ.state 8).copies.map (fun c => c.2.ended) = [true, true] := by decide +kernel
  have hlen : ∀ n, (τ.state n).copies.length = 2 := by
    intro n
    by_cases hn : 8 ≤ n
    · rw [hend n hn]
      exact (List.length_map _).symm.trans (congrArg List.length hended)
    · have hall : ∀ n, n < 8 → (τ.state n).copies.length = 2 := by decide +kernel
      exact hall n (Nat.not_le.mp hn)
  have hfair : PutMachine.Fair τ := by
    constructor
    · intro n i p pos hi _
      have hlt : i < (τ.state 8).copies.length := by
        rw [hlen 8, ← hlen n]
        exact (List.getElem?_eq_some_iff.mp hi).1
      refine ⟨max n 8, Nat.le_max_left n 8, (τ.state 8).copies[i].1, (τ.state 8).copies[i].2, ?_,
        ?_⟩
      · rw [hend _ (Nat.le_max_right n 8)]
        exact List.getElem?_eq_getElem hlt
      · have hin : ((τ.state 8).copies[i]).2.ended ∈ (τ.state 8).copies.map (fun c => c.2.ended) :=
          List.mem_map_of_mem (List.getElem_mem hlt)
        rw [hended] at hin
        simpa using hin
    · intro n hn
      refine ⟨7, .check, ?_, rfl, rfl⟩
      by_contra hlt
      rw [hend n (by omega)] at hn
      exact absurd hn (by decide +kernel)
  have hspec := put_answers (.ofTable []) emptyChunk [] 2 [emptyChunkOwner]
    (List.cons_ne_nil _ _) {} 0
    (storeOpen 0 .blank).2.1 .blank τ rfl
  refine ⟨hspec.1 hfair, ?_⟩
  have hok : (τ.state 8).coord = .answered "OK 2".toList := by decide +kernel
  rcases hspec.2.2 7 _ (by decide +kernel) hok with
    ⟨c, -, hc, -, ps, rfl, hdistinct, hheld⟩ | ⟨c, failures, herr, -⟩
  · exact ⟨ps, hc, hdistinct, fun p hp => (hheld p hp).2⟩
  · have hE : (errReply c 2 failures).head? = some 'E' := rfl
    cases (congrArg List.head? herr).trans hE

end ChordFs
