import ChordFs.Chord
import ChordFs.Lib.Dialogue

/-! # Lookups

The originator of a lookup (`lookup.cpp`): it asks one node after the other and believes no reply it
has not checked.  The checks are `judge`; `lookup` is the loop around it, a dialogue with whatever
answers.

Three results.  A node that answers by `route_step` passes the checks whatever its tables hold
(`judge_routeStep`).  If every member's successor is right, a lookup finds the owner or gives up
after `MAX_REQUESTS`, whatever the fingers hold (`lookup_right_or_gives_up`).  If the fingers are
right too, it finds the owner within `MAX_REQUESTS` requests (`lookup_finds_owner`). -/

namespace ChordFs

open Circle Dialogue

/-! ### The exchange -/

/-- A request to a member of the ring. -/
structure Call where
  node : Peer
  line : Str
deriving DecidableEq

/-- What a transport reports: what became of the exchange, the reply, and the time it took. -/
structure Exchanged where
  delivery : Delivery
  reply : Str
  took : ℕ
deriving DecidableEq, Repr

inductive LookupError where
  | refused
  | timeout
  | closed
  | unreachable
  | errReply
  | malformed
  | noProgress
  | tooManyRequests
deriving DecidableEq, Repr

def lookupErrorName : LookupError → Str
  | .refused => "refused".toList
  | .timeout => "timeout".toList
  | .closed => "closed".toList
  | .unreachable => "unreachable".toList
  | .errReply => "err-reply".toList
  | .malformed => "malformed".toList
  | .noProgress => "no-progress".toList
  | .tooManyRequests => "too-many-requests".toList

/-- The most requests one lookup sends. -/
def MAX_REQUESTS : ℕ := 65

/-- The owner, or what went wrong and a message that names the node at fault; and every node a
request was sent to, in order. -/
structure LookupResult where
  outcome : Except (LookupError × Str) Peer
  path : List Peer

/-! ### Texts -/

def describe (p : Peer) : Str := address p ++ " (id ".toList ++ idToHex p.id ++ ")".toList

/-- A reply quoted in a message: shortened, and only printable characters. -/
def shown (reply : Str) : Str :=
  '"' :: (reply.take 80).map (fun c => if 0x20 ≤ c.toNat ∧ c.toNat < 0x7f then c else '?') ++
    (if reply.length > 80 then "...".toList else []) ++ ['"']

def errorOf : Delivery → LookupError
  | .refused => .refused
  | .timeout => .timeout
  | .closed => .closed
  | _ => .unreachable

def transportMessage (d : Delivery) (node : Peer) : Str :=
  match d with
  | .refused => "connection to ".toList ++ describe node ++ " refused: nothing is listening".toList
  | .timeout => describe node ++ " did not answer in time".toList
  | .closed => describe node ++ " closed the connection before replying".toList
  | _ => "could not exchange a message with ".toList ++ describe node

/-- A routing step as a reply line. -/
def renderStep (step : RouteStep) : Str :=
  words ((if step.owner then "OWNER".toList else "NEXT".toList) :: step.peer.wire)

/-- `parse_reply`, or why the line is refused. -/
def parseReply (line : Str) : Except Str RouteStep :=
  match splitSingleSpaces line with
  | [verb, id, ip, port] =>
    if verb ≠ "OWNER".toList ∧ verb ≠ "NEXT".toList then
      .error "first word is neither OWNER nor NEXT".toList
    else
      match parsePeerWords id ip port with
      | .error why => .error why
      | .ok peer => .ok ⟨verb = "OWNER".toList, peer⟩
  | w => .error ("expected 4 words separated by single spaces, got ".toList ++ num w.length)

/-- What a node replies to FIND_SUCCESSOR with this word. -/
def findReply (self successor : Peer) (fingers : List Peer) (word : Str) : Str :=
  match idFromHex word with
  | none => "ERR identifier must be 16 hexadecimal characters".toList
  | some k => renderStep (routeStep self successor fingers k)

/-! ### The checks -/

/-- What the originator makes of an answer. -/
inductive Verdict where
  | owner (p : Peer)
  | next (p : Peer)
  | fail (error : LookupError) (message : Str)
deriving DecidableEq

/-- The checks on one answer of `current` about `k`. -/
def judge (current : Peer) (k : Id) (a : Exchanged) : Verdict :=
  if a.delivery ≠ .ok then .fail (errorOf a.delivery) (transportMessage a.delivery current)
  else if a.reply = "ERR".toList ∨ a.reply.take 4 = "ERR ".toList then
    .fail .errReply (describe current ++ " answered ".toList ++ shown a.reply)
  else
    match parseReply a.reply with
    | .error why => .fail .malformed (describe current ++ " sent a malformed reply (".toList ++ why ++
        "): ".toList ++ shown a.reply)
    | .ok step =>
      if step.owner then
        -- the claim must cover the key
        if ¬ inRangeOc k current.id step.peer.id then
          .fail .noProgress (describe current ++ " named ".toList ++ describe step.peer ++
            " as owner, but the key is not in (".toList ++ idToHex current.id ++ ", ".toList ++
            idToHex step.peer.id ++ "]".toList)
        else .owner step.peer
      -- not backwards, not on itself, not on the key, not past it
      else if ¬ inRangeOo step.peer.id current.id k then
        .fail .noProgress (describe current ++ " sent the lookup to ".toList ++ describe step.peer ++
          ", which is not strictly inside (".toList ++ idToHex current.id ++ ", ".toList ++
          idToHex k ++ ")".toList)
      else .next step.peer

/-! ### The loop -/

/-- The request is the same at every hop. -/
def findRequest (k : Id) : Str := words ["FIND_SUCCESSOR".toList, idToHex k]

section
variable {σ : Type}

/-- `run_lookup` with `left` requests left. -/
def lookupFrom (k : Id) : ℕ → List Peer → Peer → Prog σ Call (fun _ => Exchanged) LookupResult
  | 0, path, _ =>
    .done ⟨.error (.tooManyRequests, "no owner after ".toList ++ num MAX_REQUESTS ++
      " requests; the last NEXT came from ".toList ++ (path.getLast?.map describe).getD []), path⟩
  | left + 1, path, current =>
    .call ⟨current, findRequest k⟩ fun a =>
      -- the node asked is recorded whatever it answers, so a failing node is the last of the path
      match judge current k a with
      | .owner p => .done ⟨.ok p, path ++ [current]⟩
      | .next p => lookupFrom k left (path ++ [current]) p
      | .fail e message => .done ⟨.error (e, message), path ++ [current]⟩

/-- `lookup`. -/
def lookup (start : Peer) (k : Id) : Prog σ Call (fun _ => Exchanged) LookupResult :=
  lookupFrom k MAX_REQUESTS [] start

end

/-! ### An honest node is never blamed -/

theorem splitSingleSpaces_renderStep (step : RouteStep) : splitSingleSpaces (renderStep step) =
    [if step.owner then "OWNER".toList else "NEXT".toList, idToHex step.peer.id, step.peer.ip,
      num step.peer.port] := by
  rw [renderStep, splitSingleSpaces_words _ (by simp), Peer.wire]
  intro w hw
  rcases List.mem_cons.mp hw with h | h
  · rw [h]
    split <;> decide
  · exact space_not_mem_wire h

theorem parseReply_renderStep (step : RouteStep) : parseReply (renderStep step) = .ok step := by
  obtain ⟨owner, peer⟩ := step
  simp only [parseReply, splitSingleSpaces_renderStep, parsePeerWords_wire]
  have hverb : ∀ b : Bool, ¬ ((if b then "OWNER".toList else "NEXT".toList) ≠ "OWNER".toList ∧
      (if b then "OWNER".toList else "NEXT".toList) ≠ "NEXT".toList) := by decide
  have howner : ∀ b : Bool,
      decide ((if b then "OWNER".toList else "NEXT".toList) = "OWNER".toList) = b := by decide
  rw [if_neg (hverb owner), howner]

theorem renderStep_not_err (step : RouteStep) :
    ¬ (renderStep step = "ERR".toList ∨ (renderStep step).take 4 = "ERR ".toList) := by
  have hhead : (renderStep step).head? = some (if step.owner then 'O' else 'N') := by
    rw [renderStep, Peer.wire, words_cons_cons]
    split <;> rfl
  have hne : (if step.owner then 'O' else 'N') ≠ 'E' := by split <;> decide
  rintro (h | h)
  · rw [h] at hhead
    exact hne (Option.some.inj hhead).symm
  · rw [← List.take_append_drop 4 (renderStep step), h] at hhead
    exact hne (Option.some.inj hhead).symm

theorem judge_renderStep {current : Peer} {k : Id} {step : RouteStep} (took : ℕ)
    (h : if step.owner then inRangeOc k current.id step.peer.id = true else inRangeOo step.peer.id current.id k = true) :
    judge current k ⟨.ok, renderStep step, took⟩ =
      if step.owner then .owner step.peer else .next step.peer := by
  rw [judge, if_neg (by simp), if_neg (renderStep_not_err step), parseReply_renderStep]
  dsimp only
  split at h
  · rename_i hown
    rw [if_pos hown, if_neg (by simp [h]), if_pos hown]
  · rename_i hown
    rw [if_neg hown, if_neg (by simp [h]), if_neg hown]

/-- **An honest node is never blamed.**  What a node replies by its routing step, rendered and
parsed, passes the originator's checks: the owner it names covers the key, and a next node lies
strictly between it and the key and is not the node itself.  Its successor and fingers can hold any
peers at all. -/
theorem judge_routeStep (self successor : Peer) (fingers : List Peer) (k : Id) (took : ℕ) :
    let step := routeStep self successor fingers k
    parseReply (renderStep step) = .ok step ∧
    judge self k ⟨.ok, renderStep step, took⟩ = (if step.owner then .owner step.peer
      else .next step.peer) ∧
    (step.owner = true → inRangeOc k self.id step.peer.id = true) ∧
    (step.owner = false → inRangeOo step.peer.id self.id k = true ∧ step.peer ≠ self) := by
  intro step
  have hcovers := routeStep_covers self successor fingers k
  refine ⟨parseReply_renderStep step, judge_renderStep took hcovers, fun h => ?_, fun h => ?_⟩
  · rwa [if_pos h] at hcovers
  · rw [if_neg (Bool.not_eq_true _ ▸ h)] at hcovers
    exact ⟨hcovers, fun he => ne_of_inRangeOo hcovers (congrArg Peer.id he)⟩

/-! ### Lookups on a ring -/

/-- The ring answers: each member by a routing step on its successor and fingers. -/
def ringAnswer (R : Members) (successor : Peer → Peer) (fingers : Peer → List Peer) (q : Call) :
    Exchanged :=
  if q.node ∉ R then ⟨.refused, [], 0⟩
  else
    match splitSingleSpaces q.line with
    | [verb, word] =>
      if verb = "FIND_SUCCESSOR".toList then
        ⟨.ok, findReply q.node (successor q.node) (fingers q.node) word, 0⟩
      else ⟨.ok, "ERR unknown request".toList, 0⟩
    | _ => ⟨.ok, "ERR unknown request".toList, 0⟩

/-- A transport that keeps the requests it was given. -/
def logged (answer : Call → Exchanged) (q : Call) (sent : List Call) : Exchanged × List Call :=
  (answer q, sent ++ [q])

theorem canonicalIp_host (host : ℕ) : canonicalIp ("10.0.0.".toList ++ num (host % 256)) = true := by
  have hall : ∀ octet : Fin 256, canonicalIp ("10.0.0.".toList ++ num octet) = true := by decide +kernel
  exact hall ⟨host % 256, Nat.mod_lt _ (by decide)⟩

/-- A node of a small ring: a host of one network, on one port. -/
def hostPeer (id : Id) (host : ℕ) : Peer where
  id := id
  ip := "10.0.0.".toList ++ num (host % 256)
  port := 9000
  canonical := canonicalIp_host host
  port_pos := by decide
  port_le := by decide

/-- Three members on both sides of the wrap. -/
def threeMembers : Members where
  list := [hostPeer 5 1, hostPeer 0x8000000000000000 2, hostPeer 0xfffffffffffffff0 3]
  ne_nil := by decide
  sorted := by decide

section ring
variable {σ : Type} {R : Members} {successor : Peer → Peer} {fingers : Peer → List Peer}
  {current start : Peer} {k : Id}

theorem ringAnswer_find (h : current ∈ R) :
    ringAnswer R successor fingers ⟨current, findRequest k⟩ =
      ⟨.ok, renderStep (routeStep current (successor current) (fingers current) k), 0⟩ := by
  have hwords : splitSingleSpaces (findRequest k) = ["FIND_SUCCESSOR".toList, idToHex k] := by
    apply splitSingleSpaces_words _ (by simp)
    simp only [List.mem_cons, List.not_mem_nil, or_false, forall_eq_or_imp, forall_eq]
    exact ⟨by decide, not_mem_of_hex (by decide) fun _ => isHex_of_mem_idToHex⟩
  rw [ringAnswer, if_neg (not_not_intro h), hwords]
  dsimp only
  rw [if_pos rfl, findReply, idFromHex_idToHex]

theorem run_lookupFrom_succ (left : ℕ) (path : List Peer) (h : current ∈ R) (s : σ)
    (sent : List Call) :
    (lookupFrom k (left + 1) path current).run (logged (ringAnswer R successor fingers)) s sent =
      let step := routeStep current (successor current) (fingers current) k
      let sent' := sent ++ [⟨current, findRequest k⟩]
      if step.owner then (⟨.ok step.peer, path ++ [current]⟩, s, sent')
      else (lookupFrom k left (path ++ [current]) step.peer).run
        (logged (ringAnswer R successor fingers)) s sent' := by
  simp only [lookupFrom, Prog.run, logged, ringAnswer_find h]
  rw [judge_renderStep 0 (routeStep_covers current (successor current) (fingers current) k)]
  by_cases hown : (routeStep current (successor current) (fingers current) k).owner = true
  · simp only [if_pos hown, Prog.run]
  · simp only [if_neg hown]

/-- **A member names only the true owner, if its successor is the next member.** -/
theorem routeStep_peer_eq_successorOf {fingers : List Peer} (h : current ∈ R)
    (hown : (routeStep current (successorOf (current.id + 1) R) fingers k).owner = true) :
    (routeStep current (successorOf (current.id + 1) R) fingers k).peer = successorOf k R := by
  have harc := routeStep_owner_iff.mp hown
  rw [inRangeOc_iff] at harc
  rw [routeStep_owner_peer hown]
  exact successorOf_unique (successorOf_mem _ R) ((first_successorOf h).owner harc)

theorem routeStep_peer_mem {successor : Peer} {fingers : List Peer} (hs : successor ∈ R)
    (hf : ∀ f ∈ fingers, f ∈ R) : (routeStep current successor fingers k).peer ∈ R := by
  rcases routeStep_peer current successor fingers k with hp | hp
  · rw [hp]
    exact hs
  · exact hf _ hp

theorem lookupFrom_right_or_gives_up (hs : ∀ p ∈ R, successor p = successorOf (p.id + 1) R)
    (hf : ∀ p ∈ R, ∀ f ∈ fingers p, f ∈ R) (left : ℕ) (path : List Peer) (h : current ∈ R) (s : σ)
    (sent : List Call) :
    let r := ((lookupFrom k left path current).run (logged (ringAnswer R successor fingers)) s
      sent).1
    r.outcome = .ok (successorOf k R) ∨ ∃ message, r.outcome = .error (.tooManyRequests, message) := by
  induction left generalizing path current sent with
  | zero => exact .inr ⟨_, rfl⟩
  | succ left ih =>
    rw [run_lookupFrom_succ left path h, hs current h]
    dsimp only
    split
    · rename_i hown
      left
      dsimp only
      rw [routeStep_peer_eq_successorOf h hown]
    · exact ih _ (routeStep_peer_mem (successorOf_mem _ R) (hf current h)) _

/-- **Fingers are only hints.**  On a ring in which every member's successor is the next member
clockwise, a lookup finds the owner of the key or gives up after its last request, whatever members
the fingers point at. -/
theorem lookup_right_or_gives_up (R : Members) (successor : Peer → Peer)
    (fingers : Peer → List Peer) (hs : ∀ p ∈ R, successor p = successorOf (p.id + 1) R)
    (hf : ∀ p ∈ R, ∀ f ∈ fingers p, f ∈ R) (start : Peer) (hstart : start ∈ R) (k : Id) (s : σ) :
    let r := ((lookup start k).run (logged (ringAnswer R successor fingers)) s []).1
    r.outcome = .ok (successorOf k R) ∨ ∃ message, r.outcome = .error (.tooManyRequests, message) :=
  lookupFrom_right_or_gives_up hs hf MAX_REQUESTS [] hstart s []

/-- Every finger points at the smallest member. -/
theorem lookup_right_or_gives_up_three :
    let fingers := fun _ : Peer => List.replicate 64 (successorOf 0 threeMembers)
    let r := ((lookup (successorOf 6 threeMembers) 7).run (logged (ringAnswer threeMembers
      (fun p => successorOf (p.id + 1) threeMembers) fingers)) () []).1
    r.outcome = .ok (successorOf 7 threeMembers) ∨
      ∃ message, r.outcome = .error (.tooManyRequests, message) :=
  lookup_right_or_gives_up threeMembers (fun p => successorOf (p.id + 1) threeMembers) _
    (fun _ _ => rfl) (fun _ _ f hf => by rw [List.eq_of_mem_replicate hf]; exact successorOf_mem _ _)
    (successorOf 6 threeMembers) (successorOf_mem _ _) 7 ()

/-! ### The bound -/

/-- **A jump more than halves the way**: on a right finger table, a member that is not the last one
before the key sends the lookup on to a member at less than half the distance from that one. -/
theorem dist_next_lt (h : current ∈ R) {pr : Id} (hpr : Last R.ids k pr) {i : ℕ}
    (hlow : 2 ^ i ≤ dist current.id pr) (hhigh : dist current.id pr < 2 ^ (i + 1)) :
    dist (routeStep current (successorOf (current.id + 1) R) (buildFingers current.id R) k).peer.id
      pr < 2 ^ i := by
  have hne : current.id ≠ pr := by
    intro he
    rw [he, dist_self] at hlow
    have := Nat.two_pow_pos i
    omega
  have hdist : dist current.id pr = steps current.id pr := dist_eq_steps hne
  have hprlt := hpr.steps_lt (Members.id_mem h) hne
  have hi : i < ID_BITS := by
    by_contra hcon
    have := Nat.pow_le_pow_right (n := 2) (by decide) (Nat.le_of_not_lt hcon)
    have := dist_lt current.id pr
    simp only [ID_BITS] at *
    omega
  -- the finger at that height is still before the key, so the scan stops there or higher
  have hfinger := steps_successorOf_fingerStart h hi
  have hin : inRangeOo (successorOf (fingerStart current.id i) R).id current.id k = true := by
    rw [inRangeOo_iff]
    have := hfinger.2 pr hpr.mem (by omega)
    omega
  obtain ⟨j, hj, hnext⟩ := closestPrecedingFinger_getElem? current
    (getElem?_buildFingers current.id R hi) hin
  have hjlt : j < ID_BITS := by
    have := (List.getElem?_eq_some_iff.mp hnext).1
    rwa [length_buildFingers] at this
  rw [getElem?_buildFingers current.id R hjlt] at hnext
  have hcpf := (Option.some.inj hnext).symm
  have hjump := (steps_successorOf_fingerStart h hjlt).1
  have hpow : 2 ^ i ≤ 2 ^ j := Nat.pow_le_pow_right (by decide) hj
  rcases closestPrecedingFinger_cases current (buildFingers current.id R) k with ⟨-, hnone⟩ | ⟨-, hok⟩
  · have := hnone _ (List.mem_of_getElem? (getElem?_buildFingers current.id R hi))
    rw [hin] at this
    cases this
  · have hself : closestPrecedingFinger current (buildFingers current.id R) k ≠ current := fun he =>
      ne_of_inRangeOo hok (congrArg Peer.id he)
    have hown : ¬ inRangeOc k current.id (successorOf (current.id + 1) R).id = true := by
      rw [Bool.not_eq_true, inRangeOc_eq_false]
      exact hpr.first_lt (Members.id_mem h) hne (first_successorOf h)
    rw [routeStep, if_neg hown, if_neg hself, hcpf]
    rw [hcpf, inRangeOo_iff] at hok
    exact hpr.dist_lt_of_jump (Members.id_mem h) hne (Members.id_mem (successorOf_mem _ R)) hok hhigh
      (hpow.trans hjump)

theorem routeStep_owner_of_last (h : current ∈ R) (hl : Last R.ids k current.id)
    (fingers : List Peer) :
    (routeStep current (successorOf (current.id + 1) R) fingers k).owner = true := by
  rw [routeStep_owner_iff, inRangeOc_iff]
  exact hl.first_le (first_successorOf h)

/-- The answers of a correct ring, with the calls that were made. -/
abbrev wiredAnswers (R : Members) : Call → List Call → Exchanged × List Call :=
  logged (ringAnswer R (fun p => successorOf (p.id + 1) R) fun p => buildFingers p.id R)

theorem lookupFrom_finds_owner (left : ℕ) (path : List Peer) (h : current ∈ R)
    (hd : dist current.id (predecessorOf k R).id < 2 ^ left) (s : σ) (sent : List Call) :
    let run := (lookupFrom k (left + 1) path current).run (wiredAnswers R) s sent
    run.1.outcome = .ok (successorOf k R) ∧ run.2.2.length ≤ sent.length + (left + 1) := by
  have hpr := last_predecessorOf k R
  -- on the distance to the last member before the key, in powers of two
  induction left generalizing path current sent with
  | zero =>
    have he : current.id = (predecessorOf k R).id :=
      dist_injective (a := current.id) (by rw [dist_self]; omega)
    have hown := routeStep_owner_of_last h (he ▸ hpr) (buildFingers current.id R)
    rw [run_lookupFrom_succ 0 path h]
    simp only [if_pos hown]
    exact ⟨by rw [routeStep_peer_eq_successorOf h hown], by simp⟩
  | succ left ih =>
    rw [run_lookupFrom_succ (left + 1) path h]
    dsimp only
    split
    · rename_i hown
      dsimp only
      exact ⟨by rw [routeStep_peer_eq_successorOf h hown], by simp⟩
    · rename_i hnext
      have hne : current.id ≠ (predecessorOf k R).id := fun he =>
        hnext (routeStep_owner_of_last h (he ▸ hpr) (buildFingers current.id R))
      have hpos : dist current.id (predecessorOf k R).id ≠ 0 := by
        rw [dist_eq_steps hne]
        have := steps_pos current.id (predecessorOf k R).id
        omega
      have hlow := Nat.log2_self_le hpos
      have hstep := dist_next_lt h hpr hlow Nat.lt_log2_self
      have hlog : (dist current.id (predecessorOf k R).id).log2 ≤ left := by
        rw [← Nat.lt_add_one_iff, Nat.log2_lt hpos]
        exact hd
      have hmem : (routeStep current (successorOf (current.id + 1) R)
          (buildFingers current.id R) k).peer ∈ R :=
        routeStep_peer_mem (successorOf_mem _ R) fun f hf => mem_of_mem_buildFingers hf
      have hrest := ih (path ++ [current]) hmem
        (Nat.lt_of_lt_of_le hstep (Nat.pow_le_pow_right (by decide) hlog))
        (sent ++ [⟨current, findRequest k⟩])
      refine ⟨hrest.1, hrest.2.trans ?_⟩
      simp only [List.length_append, List.length_singleton]
      omega

theorem outcome_lookup (h : current ∈ R) (s : σ) :
    ((lookup current k).run (wiredAnswers R) s []).1.outcome = .ok (successorOf k R) :=
  (lookupFrom_finds_owner 64 [] h (dist_lt _ _) s []).1

/-- **A lookup on a correct ring finds the owner within `MAX_REQUESTS` requests**, from any member
and for any key: the member at the smallest clockwise distance from it. -/
theorem lookup_finds_owner (R : Members) (start : Peer) (hstart : start ∈ R) (k : Id) (s : σ) :
    let run := (lookup start k).run (logged (ringAnswer R (fun p => successorOf (p.id + 1) R)
      fun p => buildFingers p.id R)) s []
    run.1.outcome = .ok (successorOf k R) ∧
    (∀ p ∈ R, dist k (successorOf k R).id ≤ dist k p.id) ∧
    run.2.2.length ≤ MAX_REQUESTS := by
  have h := lookupFrom_finds_owner (k := k) 64 [] hstart (dist_lt _ _) s []
  exact ⟨h.1, fun p hp => (owner_successorOf k R).le p.id (Members.id_mem hp), h.2⟩

theorem lookup_finds_owner_three : let start := successorOf 6 threeMembers
    let run := (lookup start 0xfffffffffffffff1).run (logged (ringAnswer threeMembers
      (fun p => successorOf (p.id + 1) threeMembers) fun p => buildFingers p.id threeMembers)) () []
    start.id = 0x8000000000000000 ∧ run.1.outcome = .ok (successorOf 0xfffffffffffffff1 threeMembers) ∧
      (successorOf 0xfffffffffffffff1 threeMembers).id = 5 :=
  ⟨by decide, (lookup_finds_owner threeMembers (successorOf 6 threeMembers) (successorOf_mem _ _)
    0xfffffffffffffff1 ()).1, by decide⟩

/-- What a lookup finds depends only on how the answers are judged: among members that are judged as
on a correct ring, it finds what it finds there, and what is known of the environment is kept. -/
theorem run_lookupFrom_eq {ε : Type} (env : Call → ε → Exchanged × ε) (I : ε → Prop)
    (henv : ∀ p ∈ R, ∀ e, I e → I (env ⟨p, findRequest k⟩ e).2 ∧ judge p k (env ⟨p, findRequest k⟩ e).1 =
      let step := routeStep p (successorOf (p.id + 1) R) (buildFingers p.id R) k
      if step.owner then .owner step.peer else .next step.peer)
    (left : ℕ) (path : List Peer) (h : current ∈ R) (s : σ) {e : ε} (he : I e) (sent : List Call) :
    let run := (lookupFrom k left path current).run env s e
    run.1 = ((lookupFrom k left path current).run (wiredAnswers R) () sent).1 ∧ run.2.1 = s ∧ I run.2.2 := by
  induction left generalizing path current e sent with
  | zero => exact ⟨rfl, rfl, he⟩
  | succ left ih =>
    obtain ⟨he', hj⟩ := henv current h e he
    rw [run_lookupFrom_succ left path h, lookupFrom, Prog.run]
    dsimp only at hj ⊢
    rw [hj]
    by_cases hown : (routeStep current (successorOf (current.id + 1) R) (buildFingers current.id R) k).owner = true
    · simp only [if_pos hown]
      exact ⟨rfl, rfl, he'⟩
    · simp only [if_neg hown]
      exact ih _ (routeStep_peer_mem (successorOf_mem _ R) fun f hf => mem_of_mem_buildFingers hf) he' _

end ring

end ChordFs
