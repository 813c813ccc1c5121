import ChordFs.Stabilize

/-! # What a member does

Everything the code of a ring member can do, said once: which requests it sends (`Request`), what
one critical section does to the state and which events right before it led to it (`Section`), and
what it replies (`Served`).  What it does for others, in answer to a request or after one, is
`Minor`.  Nothing is assumed of the other nodes: they can answer anything.  The results are
`sat_maintenanceRound`, `sat_handleRequest`, `sat_probePred` and `sat_join_newcomer`. -/

namespace ChordFs

open Dialogue

abbrev MemberTurn := Turn NodeState Call fun _ => Exchanged

/-- The dialogue of a member, newest first. -/
abbrev Turns := List MemberTurn

abbrev TurnRules := Rules NodeState Call fun _ => Exchanged

/-- The node was asked, and this is what came of it. -/
abbrev asked (node : Peer) (line : Str) (a : Exchanged) : MemberTurn := .said ⟨node, line⟩ a

/-- The node answered. -/
def Heard (H : Turns) (node : Peer) (line : Str) (a : Exchanged) : Prop :=
  asked node line a ∈ H

/-- The member found its state like this. -/
def Saw (H : Turns) (s : NodeState) : Prop := ∃ s', Turn.held s s' ∈ H

/-- The requests with a checked reply: whether the reply passes. -/
def answers (line : Str) (a : Exchanged) : Bool :=
  if line = "PING".toList then (goodReply a isPong).isSome
  else if line = "NEIGHBOURS".toList then (goodReply a parsedNeighbours).isSome
  else (goodReply a isOk).isSome

def notifyLine (self : Peer) : Str := words ("NOTIFY".toList :: self.wire)

/-- How a member has come by a peer: it was told (`T`), it has it in its tables, or another node
named it. -/
inductive Knows (self : Peer) (T : List Peer) (H : Turns) : Peer → Prop
  | me : Knows self T H self
  | told {p : Peer} : p ∈ T → Knows self T H p
  | saw {s : NodeState} {p : Peer} : Saw H s → p = s.succ ∨ s.holds p = true → Knows self T H p
  | contact {s : NodeState} {p : Peer} : Saw H s → s.orphaned = true → p ∈ s.contacts →
      Knows self T H p
  | pred {n p : Peer} {a : Exchanged} {nb : Neighbours} : Heard H n "NEIGHBOURS".toList a →
      goodReply a parsedNeighbours = some nb → nb.pred = some p → Knows self T H p
  | named {n : Peer} {k : Id} {a : Exchanged} {p : Peer} : Heard H n (findRequest k) a →
      judge n k a = .next p ∨ judge n k a = .owner p → Knows self T H p

/-- The requests a member sends. -/
inductive Request (self : Peer) (T : List Peer) (H : Turns) : Call → Prop
  | ping {p : Peer} : Knows self T H p → Request self T H ⟨p, "PING".toList⟩
  | neighbours {p : Peer} : Knows self T H p → Request self T H ⟨p, "NEIGHBOURS".toList⟩
  | find {p : Peer} {k : Id} : Knows self T H p → Request self T H ⟨p, findRequest k⟩
  | notify {p : Peer} {s : NodeState} : Saw H s → p = s.succ → p ≠ self →
      Request self T H ⟨p, notifyLine self⟩

/-- What a joining member takes over: the owner of its identifier as a node has named it, and that
owner's own list. -/
structure Joins (me : Peer) (H : Turns) (owner : Peer) (list : Option (List Peer)) : Prop where
  named : ∃ n a, Heard H n (findRequest me.id) a ∧ judge n me.id a = .owner owner
  id_ne : owner.id ≠ me.id
  listed : ∀ l, list = some l → ∃ a nb, Heard H owner "NEIGHBOURS".toList a ∧ a.delivery = .ok ∧
    parseNeighbours a.reply = .ok nb ∧ l = nb.succs

/-- What is said in the log of neither a strike nor an eviction. -/
structure Chatter (s s' : NodeState) : Prop where
  strikes : s'.counters.strikes = s.counters.strikes
  events : ∃ lines, s'.events = s.events ++ lines ∧ ∀ line ∈ lines, line.head? ≠ some 'e'

/-- Nothing but bookkeeping: contacts, counters, the log, the next finger. -/
structure SameRouting (s s' : NodeState) : Prop where
  self : s'.self = s.self
  r : s'.r = s.r
  pred : s'.pred = s.pred
  succs : s'.succs = s.succs
  fingers : s'.fingers = s.fingers
  orphaned : s'.orphaned = s.orphaned
  strikes : s'.strikes = s.strikes
  chatter : Chatter s s'

/-- Nothing but the log, counters of other things than strikes and evictions, and the next
contact. -/
structure Idle (s s' : NodeState) : Prop extends SameRouting s s' where
  nextFinger : s'.nextFinger = s.nextFinger
  contacts : s'.contacts = s.contacts
  evictedStrikes : s'.counters.evictedStrikes = s.counters.evictedStrikes

/-- The last answer of a lookup and what it led to. -/
def LookupEnds (H : Turns) (k : Id) (r : LookupResult) : Prop :=
  match r.outcome with
  | .ok owner => ∃ n a H', H = asked n (findRequest k) a :: H' ∧ judge n k a = .owner owner
  | .error (e, m) => e = .tooManyRequests ∨ ∃ n a H', H = asked n (findRequest k) a :: H' ∧
      r.path.getLast? = some n ∧ judge n k a = .fail e m

/-- The requests whose answers are reported to the failure detector. -/
def Reported (self : Peer) (line : Str) : Prop :=
  line = "PING".toList ∨ line = "NEIGHBOURS".toList ∨ line = notifyLine self

/-- The list a newcomer takes from the answer of its successor. -/
def joinList (a : Exchanged) : Option (List Peer) :=
  if a.delivery = .ok then
    match parseNeighbours a.reply with
    | .ok nb => some nb.succs
    | .error _ => none
  else none

/-- What one critical section does after the dialogue `H`, with the events right before it that led
to it, if it neither learns of the ring nor repairs it.  `T` are the peers that announced themselves
by the request that is being answered. -/
inductive Minor (self : Peer) (T : List Peer) (H : Turns) (s : NodeState) : NodeState → Prop
  | idle {s' : NodeState} : Idle s s' → Minor self T H s s'
  | clear {node : Peer} {line : Str} {a : Exchanged} {H' : Turns} :
      H = asked node line a :: H' → Reported self line → answers line a = true →
      Minor self T H s (s.clearStrikes node)
  /-- A call went wrong. -/
  | report {node : Peer} {line : Str} {a : Exchanged} {H' : Turns} :
      H = asked node line a :: H' → Reported self line → answers line a = false →
      Minor self T H s (s.report node line a)
  | notify {c : Peer} {s₀ s₁ : NodeState} {H' : Turns} : H = .held s₀ s₁ :: H' → c ∈ T →
      c.id ≠ self.id → Minor self T H s (s.notified c).2
  /-- The old predecessor did not answer and the slot is empty. -/
  | fill {c : Peer} {s₀ s₁ : NodeState} {H' : Turns} : H = .held s₀ s₁ :: H' → c ∈ T →
      c.id ≠ self.id → s.pred = none → Minor self T H s (s.takePred c)
  /-- A client reported a node, and it refused. -/
  | suspect {target : Peer} {a : Exchanged} {H' : Turns} :
      H = asked target "PING".toList a :: H' → a.delivery = .refused →
      Minor self T H s (s.evict target "refused, after a client reported it".toList true false)

/-- What one critical section does after the dialogue `H`, with the events right before it that led
to it. -/
inductive Section (self : Peer) (T : List Peer) (H : Turns) (s : NodeState) : NodeState → Prop
  | minor {s' : NodeState} : Minor self T H s s' → Section self T H s s'
  | merge {a : Exchanged} {nb : Neighbours} {s₀ : NodeState} {H' : Turns} :
      H = .held s₀ (s₀.clearStrikes s.succ) ::
        asked s.succ "NEIGHBOURS".toList a :: H' →
      goodReply a parsedNeighbours = some nb → Section self T H s (s.applyNeighbours s.succ nb).2
  | adopt {c : Peer} {a a' : Exchanged} {nb : Neighbours} {s₀ s₁ s₂ s₃ s₄ : NodeState}
      {H' : Turns} : H = .held s₀ (s₀.clearStrikes c) :: asked c "PING".toList a ::
        .held s₁ s₂ :: .held s₃ s₄ :: asked s.succ "NEIGHBOURS".toList a' :: H' →
      answers "PING".toList a = true → goodReply a' parsedNeighbours = some nb → nb.pred = some c →
      c.id ≠ self.id → inRangeOo c.id self.id s.succ.id = true →
      Section self T H s (s.adopt s.succ c).2
  | finger {k : Id} {r : LookupResult} (i : ℕ) : k = fingerStart self.id i → LookupEnds H k r →
      Section self T H s (s.fixFinger i r)
  /-- An orphan has found a way back. -/
  | joined {known n owner : Peer} {a a' : Exchanged} {s₀ : NodeState} {H' : Turns} : Saw H s₀ →
      s₀.orphaned = true → H = asked owner "NEIGHBOURS".toList a' ::
        asked n (findRequest self.id) a :: H' →
      judge n self.id a = .owner owner → owner.id ≠ self.id →
      Section self T H s (s.joined known owner (joinList a'))

/-- The rules a member follows; its own identity is the only thing it takes for granted. -/
def memberRules (self : Peer) (T : List Peer) : TurnRules where
  assume
    | _, .held s _ => s.self = self
    | _, .said _ _ => True
  change := Section self T
  ask := Request self T

/-- The rules of what a member does for others. -/
def servantRules (self : Peer) (T : List Peer) : TurnRules where
  assume := (memberRules self T).assume
  change := Minor self T
  ask := Request self T

/-- The rules of a newcomer: it does nothing but join. -/
def newcomerRules (self : Peer) (T : List Peer) : TurnRules where
  assume := (memberRules self T).assume
  change H s s' := ∃ known owner list, Joins self H owner list ∧ s' = s.joined known owner list
  ask H q := Request self T H q ∧ q.line ≠ notifyLine self

/-- The rules of a member's jobs: nothing is assumed of the answers. -/
def sectionRules (self : Peer) (T : List Peer) : TurnRules where
  assume := (memberRules self T).assume
  change := Section self T
  ask _ _ := True

/-! ### Evidence grows -/

section grow
variable {self : Peer} {T : List Peer} {H H' : Turns}

theorem Saw.mono {s : NodeState} (h : Saw H s) (hH : H ⊆ H') : Saw H' s := by
  obtain ⟨s', h⟩ := h
  exact ⟨s', hH h⟩

theorem Heard.mono {n : Peer} {line : Str} {a : Exchanged} (h : Heard H n line a) (hH : H ⊆ H') :
    Heard H' n line a :=
  hH h

theorem Joins.mono {owner : Peer} {list : Option (List Peer)} (h : Joins self H owner list)
    (hH : H ⊆ H') : Joins self H' owner list where
  named := by
    obtain ⟨n, a, hn, hj⟩ := h.named
    exact ⟨n, a, hn.mono hH, hj⟩
  id_ne := h.id_ne
  listed l hl := by
    obtain ⟨a, nb, ha, hnb⟩ := h.listed l hl
    exact ⟨a, nb, ha.mono hH, hnb⟩

theorem Request.knows {q : Call} (h : Request self T H q) : Knows self T H q.node := by
  cases h with
  | ping h => exact h
  | neighbours h => exact h
  | find h => exact h
  | notify hs hp _ => exact .saw hs (.inl hp)

theorem saw_held (s s' : NodeState) : Saw (.held s s' :: H) s := ⟨s', List.mem_cons_self⟩

theorem heard_said (n : Peer) (line : Str) (a : Exchanged) :
    Heard (asked n line a :: H) n line a := List.mem_cons_self

theorem subset_cons (e : MemberTurn) : H ⊆ e :: H :=
  List.subset_cons_self e H

theorem subset_cons₂ (e e' : MemberTurn) : H ⊆ e :: e' :: H :=
  fun _ h => List.mem_cons_of_mem _ (List.mem_cons_of_mem _ h)

theorem heard_of_merge {succ : Peer} {a : Exchanged} {s₀ s₁ : NodeState} {H' : Turns}
    (hH : H = .held s₀ s₁ :: asked succ "NEIGHBOURS".toList a :: H') :
    Heard H succ "NEIGHBOURS".toList a :=
  hH ▸ (heard_said _ _ a).mono (subset_cons _)

theorem heard_of_adopt {succ c : Peer} {a a' : Exchanged} {s₀ s₁ s₂ s₃ s₄ s₅ : NodeState}
    {H' : Turns}
    (hH : H = .held s₀ s₁ :: asked c "PING".toList a :: .held s₂ s₃ :: .held s₄ s₅ ::
      asked succ "NEIGHBOURS".toList a' :: H') :
    Heard H succ "NEIGHBOURS".toList a' :=
  hH ▸ (heard_said _ _ a').mono fun _ he => subset_cons₂ _ _ (subset_cons₂ _ _ he)

end grow

/-! ### Bookkeeping -/

section bookkeeping
variable {s s' s'' : NodeState}

theorem Chatter.of_eq (h : s'.counters.strikes = s.counters.strikes) (h' : s'.events = s.events) :
    Chatter s s' :=
  ⟨h, [], by rw [h', List.append_nil], by simp⟩

theorem Chatter.trans (h : Chatter s s') (h' : Chatter s' s'') : Chatter s s'' := by
  obtain ⟨lines, he, hl⟩ := h.events
  obtain ⟨lines', he', hl'⟩ := h'.events
  refine ⟨h'.strikes.trans h.strikes, lines ++ lines', by rw [he', he, List.append_assoc], ?_⟩
  intro line hline
  rcases List.mem_append.mp hline with hline | hline
  · exact hl line hline
  · exact hl' line hline

theorem SameRouting.refl (s : NodeState) : SameRouting s s := by
  constructor <;> first | rfl | exact .of_eq rfl rfl

theorem SameRouting.trans (h : SameRouting s s') (h' : SameRouting s' s'') : SameRouting s s'' where
  self := h'.self.trans h.self
  r := h'.r.trans h.r
  pred := h'.pred.trans h.pred
  succs := h'.succs.trans h.succs
  fingers := h'.fingers.trans h.fingers
  orphaned := h'.orphaned.trans h.orphaned
  strikes := h'.strikes.trans h.strikes
  chatter := h.chatter.trans h'.chatter

theorem head?_append_ne {w : Str} (h : w.head?.any (· ≠ 'e') = true) (rest : Str) :
    (w ++ rest).head? ≠ some 'e' := by
  cases w with
  | nil => cases h
  | cons c w => simpa using h

variable (s)

theorem Idle.refl : Idle s s := ⟨.refl s, rfl, rfl, rfl⟩

theorem sameRouting_log (line : Str) (h : line.head? ≠ some 'e') :
    SameRouting s (s.log [line]) := by
  refine ⟨rfl, rfl, rfl, rfl, rfl, rfl, rfl, rfl, [line], rfl, fun l hl => ?_⟩
  rw [List.mem_singleton.mp hl]
  exact h

theorem idle_log (line : Str) (h : line.head? ≠ some 'e') : Idle s (s.log [line]) :=
  ⟨sameRouting_log s line h, rfl, rfl, rfl⟩

theorem idle_refusing (c : Peer) (why : Str) :
    Idle s (s.log ["refusing ".toList ++ address c ++ why]) :=
  idle_log s _ (by rw [List.append_assoc]; exact head?_append_ne (by decide) _)

theorem sameRouting_remember (p : Peer) : SameRouting s (s.remember p) := by
  unfold NodeState.remember
  split
  · exact .refl s
  · constructor <;> first | rfl | exact .of_eq rfl rfl

theorem sameRouting_rememberAll (ps : List Peer) : SameRouting s (s.rememberAll ps) := by
  induction ps generalizing s with
  | nil => exact .refl s
  | cons p ps ih => exact (sameRouting_remember s p).trans (ih (s.remember p))

theorem sameRouting_joined (known owner : Peer) (list : Option (List Peer)) :
    SameRouting { s with
      pred := none
      succs := match list with
        | some l => mergeSuccessors s.self owner l s.r
        | none => [owner]
      fingers := List.replicate ID_BITS owner
      orphaned := false } (s.joined known owner list) := by
  refine SameRouting.trans ?_ ((sameRouting_remember _ known).trans (sameRouting_rememberAll _ _))
  constructor <;> first | rfl | exact .of_eq rfl rfl

theorem idle_nextWayIn : Idle s s.nextWayIn.2 := by
  unfold NodeState.nextWayIn
  split <;> refine ⟨⟨rfl, rfl, rfl, rfl, rfl, rfl, rfl, .of_eq rfl rfl⟩, rfl, rfl, rfl⟩

/-- The state after a list was merged into it. -/
abbrev NodeState.withMerged (s : NodeState) (l : List Peer) : NodeState :=
  { s with
    succs := mergeSuccessors s.self s.succ l s.r
    fingers := s.fingers.set 0 ((mergeSuccessors s.self s.succ l s.r).headD s.self) }

theorem applyNeighbours_eq (nb : Neighbours) : ∃ lines,
    (s.applyNeighbours s.succ nb).2 = ((s.withMerged nb.succs).rememberAll
      (s.withMerged nb.succs).succs.reverse).log lines ∧ ∀ line ∈ lines, line.head? ≠ some 'e' := by
  have hnone : ∀ s : NodeState, s = s.log [] := fun s => by simp [NodeState.log]
  rw [NodeState.applyNeighbours, if_neg (not_not_intro rfl)]
  dsimp only
  split
  · exact ⟨[], hnone _, by simp⟩
  split
  · exact ⟨[], hnone _, by simp⟩
  split
  · refine ⟨_, rfl, fun line hline => ?_⟩
    rw [List.mem_singleton.mp hline, List.append_assoc]
    exact head?_append_ne (by decide) _
  split
  · exact ⟨[], hnone _, by simp⟩
  · exact ⟨[], hnone _, by simp⟩

theorem sameRouting_applyNeighbours (nb : Neighbours) :
    SameRouting (s.withMerged nb.succs) (s.applyNeighbours s.succ nb).2 := by
  obtain ⟨lines, he, hlines⟩ := applyNeighbours_eq s nb
  rw [he]
  refine (sameRouting_rememberAll _ _).trans ⟨rfl, rfl, rfl, rfl, rfl, rfl, rfl, rfl,
    lines, rfl, hlines⟩

theorem sameRouting_adopt (c : Peer) : SameRouting
    { s with
      succs := (c :: s.succs.filter fun p => p ≠ s.self).take (max s.r 1)
      fingers := s.fingers.set 0 c } (s.adopt s.succ c).2 := by
  rw [NodeState.adopt, if_neg (not_not_intro rfl)]
  refine SameRouting.trans ?_
    ((sameRouting_remember _ c).trans (sameRouting_log _ _ (head?_append_ne (by decide) _)))
  constructor <;> first | rfl | exact .of_eq rfl rfl

theorem sameRouting_takePred (c : Peer) : SameRouting { s with pred := some c } (s.takePred c) :=
  (sameRouting_remember _ c).trans (sameRouting_log _ _ (head?_append_ne (by decide) _))

theorem notified_cases (c : Peer) : s.notified c = (none, s) ∧ s.pred = some c ∨
    (∃ p, s.pred = some p ∧ p ≠ c ∧ inRangeOo c.id p.id s.self.id = false ∧
      s.notified c = (some p, s)) ∨
    ((∀ p, s.pred = some p → inRangeOo c.id p.id s.self.id = true) ∧ (s.notified c).1 = none ∧
      SameRouting { s with pred := some c, strikes := s.strikes.erase (memberKey c) }
        (s.notified c).2) := by
  have htake := sameRouting_takePred { s with strikes := s.strikes.erase (memberKey c) } c
  rw [NodeState.notified]
  cases hp : s.pred with
  | none =>
    right
    right
    exact ⟨fun p h => (Option.some_ne_none p h.symm).elim, rfl, htake⟩
  | some p =>
    dsimp only
    by_cases hin : inRangeOo c.id p.id s.self.id = true
    · rw [if_pos hin]
      right
      right
      refine ⟨fun q h => ?_, rfl, htake⟩
      cases h
      exact hin
    · rw [if_neg hin]
      by_cases hne : p = c
      · left
        rw [if_neg (not_not_intro hne), hne]
        exact ⟨rfl, rfl⟩
      · right
        left
        rw [if_pos hne]
        exact ⟨p, rfl, hne, Bool.not_eq_true _ ▸ hin, rfl⟩

theorem pred_of_notified {s : NodeState} {c old : Peer} (h : (s.notified c).1 = some old) :
    s.pred = some old := by
  rcases notified_cases s c with ⟨he, -⟩ | ⟨p, hp, -, -, he⟩ | ⟨-, he, -⟩
  · rw [he] at h
    cases h
  · rw [he] at h
    rw [hp, ← h]
  · rw [he] at h
    cases h

theorem fixFinger_ok (i : ℕ) (owner : Peer) (path : List Peer) :
    SameRouting s (s.fixFinger i ⟨.ok owner, path⟩) ∨
    ∃ fingers, (fingers = (fillForward s.self owner (ID_BITS - i) i s.fingers).2 ∨
      fingers = (fillForward s.self owner (ID_BITS - i) i s.fingers).2.set i owner) ∧
      SameRouting { s with fingers := fingers.set 0 s.succ } (s.fixFinger i ⟨.ok owner, path⟩) := by
  rw [NodeState.fixFinger]
  dsimp only
  split
  · left
    have hlog := (idle_refusing s owner
      " as a finger: it carries my identifier".toList).toSameRouting
    exact ⟨rfl, rfl, rfl, rfl, rfl, rfl, rfl, hlog.chatter.strikes, hlog.chatter.events⟩
  · right
    split
    · refine ⟨_, .inr rfl, SameRouting.trans ?_ (sameRouting_remember _ owner)⟩
      constructor <;> first | rfl | exact .of_eq rfl rfl
    · refine ⟨_, .inl rfl, SameRouting.trans ?_ (sameRouting_remember _ owner)⟩
      constructor <;> first | rfl | exact .of_eq rfl rfl

theorem sameRouting_fixFinger (i : ℕ) (m : Str) (path : List Peer) :
    SameRouting s (s.fixFinger i ⟨.error (.tooManyRequests, m), path⟩) := by
  rw [NodeState.fixFinger]
  dsimp only
  cases path.getLast? <;> constructor <;> first | rfl | exact .of_eq rfl rfl

end bookkeeping

/-! ### Calls -/

section calls
variable {self : Peer} {T : List Peer} {H : Turns}

/-- Rules under which calls can be made. -/
structure Calling (R : TurnRules) (me : Peer) (T : List Peer) : Prop where
  assume_eq : R.assume = (memberRules me T).assume
  ask : ∀ H q, Request me T H q → R.ask H q
  minor : ∀ H s s', Minor me T H s s' → R.change H s s'

variable {α β : Type} {node : Peer} {line : Str}

theorem calling_memberRules : Calling (memberRules self T) self T :=
  ⟨rfl, fun _ _ h => h, fun _ _ _ h => .minor h⟩

theorem calling_servantRules : Calling (servantRules self T) self T :=
  ⟨rfl, fun _ _ h => h, fun _ _ _ h => h⟩

theorem calling_sectionRules : Calling (sectionRules self T) self T :=
  ⟨rfl, fun _ _ _ => trivial, fun _ _ _ h => .minor h⟩

variable {R : TurnRules}

theorem sat_minor (hR : Calling R self T) {f : NodeState → α × NodeState} {post : Turns → α → Prop}
    (h : ∀ s, s.self = self → Minor self T H s (f s).2 ∧ post (.held s (f s).2 :: H) (f s).1) :
    Sat R post H (.sect f) := by
  refine sat_sect fun s hs => ?_
  rw [hR.assume_eq] at hs
  exact (h s hs).imp_left (hR.minor _ _ _)

theorem sat_look (hR : Calling R self T) {f : NodeState → α} {post : Turns → α → Prop}
    (h : ∀ s, s.self = self → post (.held s s :: H) (f s)) :
    Sat R post H (.sect fun s => (f s, s)) :=
  sat_minor hR fun s hs => ⟨.idle (.refl s), h s hs⟩

theorem sat_callPeer (hR : Calling R self T) {valid : Str → Option β}
    {post : Turns → CallOutcome β → Prop} (hreq : Request self T H ⟨node, line⟩)
    (hline : Reported self line) (hvalid : ∀ a, answers line a = (goodReply a valid).isSome)
    (hgood : ∀ a b s, goodReply a valid = some b →
      post (.held s (s.clearStrikes node) :: asked node line a :: H) (.good b))
    (hbad : ∀ s s' H' o, (∀ b, o ≠ .good b) → post (.held s s' :: H') o) :
    Sat R post H (callPeer node line valid) := by
  apply Sat.bind
  refine sat_ask (hR.ask _ _ hreq) fun a _ => ?_
  cases hr : goodReply a valid with
  | some b =>
    have hanswer : answers line a = true := by rw [hvalid, hr]; rfl
    exact sat_minor hR fun s _ => ⟨.clear rfl hline hanswer, hgood a b s hr⟩
  | none =>
    have hanswer : answers line a = false := by rw [hvalid, hr]; rfl
    refine sat_minor hR fun s _ => ⟨.report rfl hline hanswer, hbad _ _ _ _ fun b => ?_⟩
    split <;> simp

theorem sat_freeCall {assume : Turns → MemberTurn → Prop} {valid : Str → Option β}
    {post : Turns → CallOutcome β → Prop}
    (hgood : ∀ a b s, assume H (asked node line a) → goodReply a valid = some b →
    post (.held s (s.clearStrikes node) :: asked node line a :: H) (.good b))
      (hbad : ∀ a s o, assume H (asked node line a) → goodReply a valid = none →
        assume (asked node line a :: H) (.held s (s.report node line a)) → (∀ b, o ≠ .good b) →
        post (.held s (s.report node line a) :: asked node line a :: H) o) :
    Sat (freeRules assume) post H (callPeer node line valid) := by
  apply Sat.bind
  refine sat_ask trivial fun a ha => ?_
  cases hr : goodReply a valid with
  | some b => exact sat_sect fun s _ => ⟨trivial, hgood a b s ha hr⟩
  | none =>
    refine sat_sect fun s hs => ⟨trivial, hbad a s _ ha hr hs fun b => ?_⟩
    split <;> simp

theorem answers_ping (a : Exchanged) : answers "PING".toList a = (goodReply a isPong).isSome :=
  if_pos rfl

theorem answers_neighbours (a : Exchanged) :
    answers "NEIGHBOURS".toList a = (goodReply a parsedNeighbours).isSome := by
  rw [answers, if_neg (by decide), if_pos rfl]

theorem notifyLine_ne (self : Peer) :
    notifyLine self ≠ "PING".toList ∧ notifyLine self ≠ "NEIGHBOURS".toList := by
  have hline : notifyLine self = "NOTIFY".toList ++ ' ' :: words self.wire := by
    rw [notifyLine, Peer.wire, words_cons_cons]
  have hspace : ' ' ∈ notifyLine self := by
    rw [hline]
    simp
  constructor
  · intro h
    rw [h] at hspace
    revert hspace
    decide
  · intro h
    rw [h] at hspace
    revert hspace
    decide

theorem answers_notify (self : Peer) (a : Exchanged) :
    answers (notifyLine self) a = (goodReply a isOk).isSome := by
  rw [answers, if_neg (notifyLine_ne self).1, if_neg (notifyLine_ne self).2]

theorem findRequest_ne_notifyLine (k : Id) (c : Peer) : findRequest k ≠ notifyLine c := by
  intro h
  rw [findRequest, notifyLine, Peer.wire, words_cons_cons, words_cons_cons] at h
  cases (List.cons.inj h).1

theorem sat_lookupFrom (hR : ∀ H q, Request self T H q → q.line ≠ notifyLine self → R.ask H q)
    {k : Id} {start : Peer} {left : ℕ} {path : List Peer} {post : Turns → LookupResult → Prop}
    (hk : Knows self T H start) (hpost : ∀ H' r, H ⊆ H' → LookupEnds H' k r → post H' r) :
    Sat R post H (lookupFrom k left path start) := by
  induction left generalizing H path start with
  | zero => exact hpost H _ (List.Subset.refl H) (.inl rfl)
  | succ left ih =>
    refine ⟨hR H _ (.find hk) (findRequest_ne_notifyLine k self), fun a _ => ?_⟩
    have hheard := heard_said (H := H) start (findRequest k) a
    cases hj : judge start k a with
    | owner p =>
      simp only [hj]
      exact hpost _ _ (subset_cons _) ⟨start, a, H, rfl, hj⟩
    | next p =>
      simp only [hj]
      exact ih (.named hheard (.inl hj)) fun H' r hH hr =>
        hpost H' r (List.Subset.trans (subset_cons _) hH) hr
    | fail e m =>
      simp only [hj]
      exact hpost _ _ (subset_cons _) (.inr ⟨start, a, H, rfl, by simp, hj⟩)

end calls

/-! ### The maintenance round -/

section round
variable {self : Peer} {T : List Peer} {H : Turns}

/-- Nothing is promised about the end. -/
def anyEnd {α : Type} (_ : Turns) (_ : α) : Prop := True

variable {s s₀ : NodeState} {c known succ : Peer} {nb : Neighbours} {a : Exchanged}
  {post : Turns → JoinStatus × Str → Prop}

theorem sat_notifySuccessor : Sat (memberRules self T) anyEnd H (notifySuccessor self) := by
  apply Sat.bind
  refine sat_look calling_memberRules fun s hs => ?_
  split
  · trivial
  · rename_i hne
    apply Sat.bind
    exact sat_callPeer calling_memberRules (.notify (saw_held s s) rfl hne) (.inr (.inr rfl))
      (answers_notify self) (fun _ _ _ _ => trivial) (fun _ _ _ _ _ => trivial)

theorem applyNeighbours_candidate {b : Bool} (h : (s.applyNeighbours succ nb).1 = (b, some c)) :
    nb.pred = some c ∧ c.id ≠ s.self.id ∧ inRangeOo c.id s.self.id succ.id = true := by
  unfold NodeState.applyNeighbours at h
  split at h
  · cases h
  cases hp : nb.pred with
  | none =>
    rw [hp] at h
    cases h
  | some p =>
    rw [hp] at h
    dsimp only at h
    split at h
    · cases h
    split at h
    · cases h
    rename_i hid
    split at h
    · rename_i hin
      cases h
      exact ⟨rfl, hid, hin⟩
    · cases h

theorem applyNeighbours_current (s : NodeState) (nb : Neighbours) :
    (s.applyNeighbours s.succ nb).1.1 = true := by
  rw [NodeState.applyNeighbours, if_neg (not_not_intro rfl)]
  dsimp only
  split
  · rfl
  split
  · rfl
  split
  · rfl
  split <;> rfl

theorem applyNeighbours_section (hr : goodReply a parsedNeighbours = some nb) :
    (memberRules self T).change (.held s₀ (s₀.clearStrikes succ) ::
      asked succ "NEIGHBOURS".toList a :: H) s (s.applyNeighbours succ nb).2 := by
  by_cases hs : s.succ = succ
  · subst hs
    exact .merge rfl hr
  · rw [NodeState.applyNeighbours, if_pos hs]
    exact .minor (.idle (.refl s))

theorem adopt_section {s₁ s₂ s₃ s₄ : NodeState} {a' : Exchanged} (ha : goodReply a isPong = some ())
    (hnb : goodReply a' parsedNeighbours = some nb) (hpred : nb.pred = some c)
    (hid : c.id ≠ self.id) (hin : inRangeOo c.id self.id succ.id = true) :
    (memberRules self T).change (.held s₀ (s₀.clearStrikes c) :: asked c "PING".toList a ::
      .held s₁ s₂ :: .held s₃ s₄ :: asked succ "NEIGHBOURS".toList a' :: H) s
      (s.adopt succ c).2 := by
  have hpong : answers "PING".toList a = true := by
    rw [answers_ping, ha]
    rfl
  by_cases hs : s.succ = succ
  · subst hs
    exact .adopt rfl hpong hnb hpred hid hin
  · rw [NodeState.adopt, if_pos hs]
    exact .minor (.idle (.refl s))

theorem sat_stabilizeLoop (left : ℕ) :
    Sat (memberRules self T) anyEnd H (stabilizeLoop self left) := by
  induction left generalizing H with
  | zero => trivial
  | succ left ih =>
    apply Sat.bind
    refine sat_look calling_memberRules fun s _ => ?_
    apply Sat.bind
    refine sat_callPeer calling_memberRules (.neighbours (.saw (saw_held s s) (.inl rfl)))
      (.inr (.inl rfl)) answers_neighbours ?_ ?_
    · -- the successor has answered
      intro a nb s₁ hr
      apply Sat.bind
      refine sat_sect fun s₂ hs₂ => ⟨applyNeighbours_section hr, ?_⟩
      rcases hc : (s₂.applyNeighbours s.succ nb).1 with ⟨_ | _, _ | c⟩
      · trivial
      · trivial
      · exact sat_notifySuccessor
      · obtain ⟨hpred, hid, hin⟩ := applyNeighbours_candidate hc
        rw [hs₂] at hid hin
        apply Sat.bind
        refine sat_callPeer calling_memberRules
          (.ping (.pred ((heard_said _ _ a).mono (subset_cons₂ _ _)) hr hpred))
            (.inl rfl) answers_ping ?_ ?_
        · intro a' _ s₃ hr'
          apply Sat.bind
          refine sat_sect fun s₄ _ => ⟨adopt_section hr' hr hpred hid hin, ?_⟩
          rcases (s₄.adopt s.succ c).1 with _ | _
          · exact sat_notifySuccessor
          · exact ih
        · intro _ _ _ o ho
          cases o with
          | good b => exact absurd rfl (ho b)
          | refused => exact sat_notifySuccessor
          | failed => exact sat_notifySuccessor
    · -- it has not
      intro _ _ _ o ho
      have hend : ∀ H',
        Sat (memberRules self T) anyEnd H' (stabilizeAgain s.succ (stabilizeLoop self left)) := by
        intro H'
        apply Sat.bind
        refine sat_look calling_memberRules fun s₂ _ => ?_
        rcases decide (s₂.succ = s.succ) with _ | _
        · exact ih
        · trivial
      cases o with
      | good b => exact absurd rfl (ho b)
      | refused => exact hend _
      | failed => exact hend _

theorem sat_checkPredecessor : Sat (memberRules self T) anyEnd H (checkPredecessor self) := by
  apply Sat.bind
  refine sat_look calling_memberRules fun s _ => ?_
  cases hp : s.pred with
  | none => trivial
  | some p =>
    dsimp only
    split
    · trivial
    · have hk : Knows self T (.held s s :: H) p :=
        .saw (saw_held s s) (.inr (by simp [NodeState.holds, hp]))
      apply Sat.bind
      exact sat_callPeer calling_memberRules (.ping hk) (.inl rfl) answers_ping
        (fun _ _ _ _ => trivial)
        (fun _ _ _ _ _ => trivial)

theorem sat_fixNextFinger : Sat (memberRules self T) anyEnd H (fixNextFinger self) := by
  apply Sat.bind
  refine sat_look calling_memberRules fun s _ => ?_
  apply Sat.bind
  refine sat_lookupFrom (fun _ _ h _ => h) .me fun H' r _ hr => ?_
  exact sat_sect fun s' _ => ⟨.finger s.nextFinger rfl hr, trivial⟩

theorem joins_of_said {owner n : Peer} {a' : Exchanged} (hj : judge n self.id a = .owner owner)
    (hid : owner.id ≠ self.id) : Joins self (asked owner "NEIGHBOURS".toList a' ::
      asked n (findRequest self.id) a :: H) owner (joinList a') := by
  refine ⟨⟨n, a, (heard_said _ _ _).mono (subset_cons _), hj⟩, hid, fun l hl => ?_⟩
  unfold joinList at hl
  split at hl
  · rename_i hok
    split at hl
    · rename_i nb hnb
      cases hl
      exact ⟨a', nb, heard_said _ _ _, hok, hnb, rfl⟩
    · cases hl
  · cases hl

/-- **Joining**: what the newcomer takes over, the nodes it asked have told it. -/
theorem sat_join {R : TurnRules}
    (hR : ∀ H q, Request self T H q → q.line ≠ notifyLine self → R.ask H q)
    (hk : Knows self T H known)
    (hchange : ∀ H' s owner n a a', H ⊆ asked n (findRequest self.id) a :: H' →
      judge n self.id a = .owner owner → owner.id ≠ self.id →
      R.change (asked owner "NEIGHBOURS".toList a' :: asked n (findRequest self.id) a :: H') s
        (s.joined known owner (joinList a')))
    (hpost : ∀ H' o, H ⊆ H' → (o.1 = .joined → ∃ s s', Turn.held s s' ∈ H') → post H' o) :
    Sat R post H (join self known) := by
  apply Sat.bind
  refine sat_lookupFrom hR hk fun H₁ r hH hr => ?_
  cases ho : r.outcome with
  | error e => exact hpost _ _ hH (fun h => by cases h)
  | ok owner =>
    rw [LookupEnds, ho] at hr
    obtain ⟨n, a, H', rfl, hj⟩ := hr
    have hheard := heard_said (H := H') n (findRequest self.id) a
    dsimp only
    split
    · exact hpost _ _ hH (fun h => by cases h)
    split
    · exact hpost _ _ hH (fun h => by cases h)
    rename_i hid
    apply Sat.bind
    refine sat_ask (hR _ _ (.neighbours (.named hheard (.inr hj)))
      (notifyLine_ne self).2.symm) fun a' _ => ?_
    exact sat_sect fun s _ => ⟨hchange H' s owner n a a' hH hj hid,
      hpost _ _ (fun e he => subset_cons₂ _ _ (hH he)) fun _ => ⟨_, _, List.mem_cons_self⟩⟩

theorem sat_join_newcomer (hk : known ∈ T)
    (hpost : ∀ H' o, (o.1 = .joined → ∃ s s', Turn.held s s' ∈ H') → post H' o) :
    Sat (newcomerRules self T) post H (join self known) :=
  sat_join (fun _ _ => And.intro) (.told hk)
    (fun _ _ owner _ _ _ _ hj hid => ⟨known, owner, _, joins_of_said hj hid, rfl⟩)
      fun H' o _ ho => hpost H' o ho

theorem sat_rejoin (hs : Saw H s₀) (ho : s₀.orphaned = true) (hc : c ∈ s₀.contacts) :
    Sat (memberRules self T) anyEnd H (rejoin self c) := by
  apply Sat.bind
  refine sat_join (fun _ _ h _ => h) (.contact hs ho hc)
    (fun _ _ _ _ _ _ hH hj hid => .joined ((hs.mono hH).mono (subset_cons _)) ho rfl hj hid)
      fun H' o _ _ => ?_
  obtain ⟨status, why⟩ := o
  refine sat_sect fun s _ => ⟨.minor (.idle ?_), trivial⟩
  dsimp only
  split
  · refine ⟨SameRouting.trans ?_ (sameRouting_log _ _ (head?_append_ne (by decide) _)),
      rfl, rfl, rfl⟩
    exact ⟨rfl, rfl, rfl, rfl, rfl, rfl, rfl, .of_eq rfl rfl⟩
  · refine idle_log s _ ?_
    rw [List.append_assoc, List.append_assoc]
    exact head?_append_ne (by decide) _

/-- **What a maintenance round does.** -/
theorem sat_maintenanceRound : Sat (memberRules self T) anyEnd H (maintenanceRound self) := by
  apply Sat.bind
  refine sat_minor calling_memberRules fun s₀ _ => ⟨.idle ?_, ?_⟩
  · exact ⟨⟨rfl, rfl, rfl, rfl, rfl, rfl, rfl, .of_eq rfl rfl⟩, rfl, rfl, rfl⟩
  apply Sat.bind
  refine sat_minor calling_memberRules fun s _ => ⟨.idle (idle_nextWayIn s), ?_⟩
  have hway : ∀ c, s.nextWayIn.1 = (true, some c) → s.orphaned = true ∧ c ∈ s.contacts := by
    intro c hc
    unfold NodeState.nextWayIn at hc
    split at hc
    · rename_i ho
      simp only [Prod.mk.injEq, true_and] at hc
      exact ⟨ho.1, List.mem_of_getElem? hc⟩
    · simp at hc
  rcases hc : s.nextWayIn.1 with ⟨_ | _, c⟩
  · apply Sat.bind
    refine (sat_stabilizeLoop _).mono fun _ _ _ => ?_
    apply Sat.bind
    exact sat_checkPredecessor.mono fun _ _ _ => sat_fixNextFinger
  · cases c with
    | none => trivial
    | some c =>
      obtain ⟨ho, hmem⟩ := hway c hc
      exact sat_rejoin (saw_held s _) ho hmem

end round

/-! ### Requests -/

variable {w : Str} {c self : Peer} {T : List Peer} {H : Turns} {q : Call}

theorem blankWords_words {ws : List Str} (h : ∀ w ∈ ws, w ≠ [] ∧ ∀ c ∈ w, isBlank c = false) :
    blankWords (words ws) = ws := by
  induction ws with
  | nil => rfl
  | cons w ws ih =>
    rw [List.forall_mem_cons] at h
    cases ws with
    | nil =>
      rw [words_singleton, blankWords, List.splitOnP_eq_singleton h.1.2]
      simp [h.1.1]
    | cons v vs =>
      have hrest := ih h.2
      rw [blankWords] at hrest
      rw [words_cons_cons, blankWords,
        List.splitOnP_append_cons_of_forall_mem h.1.2 ' ' (by decide), List.filter_cons, hrest]
      simp [h.1.1]

theorem isBlank_of_isHex {c : Char} (h : isHex c = true) : isBlank c = false := by
  by_contra hb
  simp only [isBlank, Bool.not_eq_false, decide_eq_true_eq, List.mem_cons, List.not_mem_nil,
    or_false] at hb
  rcases hb with rfl | rfl | rfl | rfl | rfl | rfl <;> cases h

theorem visible_of_all (hne : w ≠ []) (h : w.all (fun c => !isBlank c) = true) :
    w ≠ [] ∧ ∀ c ∈ w, isBlank c = false :=
  ⟨hne, by simpa using h⟩

theorem visible_wire {p : Peer} (hw : w ∈ p.wire) : w ≠ [] ∧ ∀ c ∈ w, isBlank c = false := by
  refine ⟨ne_nil_of_mem_wire hw, fun c hc => ?_⟩
  rcases visible_of_mem_wire hw hc with h | rfl
  · exact isBlank_of_isHex h
  · rfl

theorem blankWords_notifyLine (c : Peer) :
    blankWords (notifyLine c) = ["NOTIFY".toList, idToHex c.id, c.ip, num c.port] := by
  apply blankWords_words
  intro w hw
  rcases List.mem_cons.mp hw with h | h
  · rw [h]
    exact visible_of_all (by decide) (by decide)
  · exact visible_wire h

theorem notifyLine_injective {c' : Peer} (h : notifyLine c = notifyLine c') : c = c' := by
  have hwords := congrArg blankWords h
  rw [blankWords_notifyLine, blankWords_notifyLine] at hwords
  simp only [List.cons.injEq, and_true, true_and] at hwords
  have hc := parsePeerWords_wire c
  rw [hwords.1, hwords.2.1, hwords.2.2, parsePeerWords_wire c'] at hc
  exact (Except.ok.inj hc).symm

theorem blankWords_findRequest (k : Id) :
    blankWords (findRequest k) = ["FIND_SUCCESSOR".toList, idToHex k] := by
  apply blankWords_words
  simp only [List.mem_cons, List.not_mem_nil, or_false, forall_eq_or_imp, forall_eq]
  refine ⟨visible_of_all (by decide) (by decide),
    List.ne_nil_of_length_pos (by rw [length_idToHex]; decide), fun c hc => ?_⟩
  exact isBlank_of_isHex (isHex_of_mem_idToHex hc)

theorem Request.notifier (h : Request self T H q) (hq : q.line = notifyLine c) : c = self := by
  cases h with
  | ping _ => exact absurd hq.symm (notifyLine_ne c).1
  | neighbours _ => exact absurd hq.symm (notifyLine_ne c).2
  | @find p k _ =>
    have hwords := congrArg blankWords hq
    rw [blankWords_findRequest, blankWords_notifyLine] at hwords
    simp at hwords
  | notify _ _ _ => exact (notifyLine_injective hq).symm

theorem Request.notified (h : Request self T H q) (hq : q.line = notifyLine self) :
    ∃ s, Saw H s ∧ q.node = s.succ ∧ q.node ≠ self := by
  cases h with
  | ping _ => exact absurd hq.symm (notifyLine_ne self).1
  | neighbours _ => exact absurd hq.symm (notifyLine_ne self).2
  | @find _ k _ => exact absurd hq (findRequest_ne_notifyLine k self)
  | @notify _ s hs hp hne => exact ⟨s, hs, hp, hne⟩

/-- What a member replies to the requests of the ring, and what it leaves to do. -/
inductive Served (self : Peer) (H : Turns) : Str → Handled → Prop
  | orphan {line : Str} {s : NodeState} : Saw H s → s.orphaned = true →
      Served self H line (.just "ERR orphaned: rejoining the ring".toList)
  | ping : Served self H "PING".toList (.just (words ["PONG".toList, idToHex self.id]))
  | neighbours {s : NodeState} : Saw H s →
      Served self H "NEIGHBOURS".toList (.just (renderNeighbours ⟨s.pred, s.succs⟩))
  | find {s : NodeState} (k : Id) : Saw H s →
      Served self H (findRequest k) (.just (renderStep (routeStep s.self s.succ s.fingers k)))
  | twin {c : Peer} : c.id = self.id → Served self H (notifyLine c) (.just "OK".toList)
  | notify {c : Peer} {s : NodeState} : Turn.held s (s.notified c).2 ∈ H → c.id ≠ self.id →
      Served self H (notifyLine c) ⟨"OK".toList,
        match (s.notified c).1 with
        | none => .done ()
        | some old => probePred old c⟩

section requests
variable {self : Peer} {T : List Peer} {H : Turns}

theorem sat_probePred {R : TurnRules} (hR : Calling R self T)
    {old c : Peer} (hold : Knows self T H old)
    (hfill : ∀ s₀ s₁ H s, s.pred = none → R.change (.held s₀ s₁ :: H) s (s.takePred c)) :
    Sat R anyEnd H (probePred old c) := by
  apply Sat.bind
  refine sat_callPeer hR (.ping hold) (.inl rfl) answers_ping (fun _ _ _ _ => trivial) ?_
  intro s₀ s₁ H' o ho
  have hnext : Sat R anyEnd (.held s₀ s₁ :: H') (.sect fun s =>
      ((), if s.pred = none then s.takePred c else s)) := by
    refine sat_sect fun s _ => ⟨?_, trivial⟩
    dsimp only
    split
    · exact hfill _ _ _ _ ‹_›
    · exact hR.minor _ _ _ (.idle (.refl s))
  cases o with
  | good b => exact absurd rfl (ho b)
  | refused => exact hnext
  | failed => exact hnext

theorem sat_unlessOrphan {post : Turns → Handled → Prop} {w : List Str}
    (horphan : ∀ s, s.self = self → s.orphaned = true →
      post (.held s s :: H) (.just "ERR orphaned: rejoining the ring".toList))
    (h : ∀ s, Sat (servantRules self T) post (.held s s :: H) (serve self w)) :
    Sat (servantRules self T) post H (do
      match ← Prog.sect fun s => (s.orphaned, s) with
      | true => return .just "ERR orphaned: rejoining the ring".toList
      | false => serve self w) := by
  apply Sat.bind
  refine sat_look calling_servantRules fun s hs => ?_
  cases ho : s.orphaned with
  | true => exact horphan s hs ho
  | false => exact h s

theorem handleRequest_ringVerb {line verb : Str} {rest : List Str}
    (hw : blankWords line = verb :: rest) (hv : verb ∈ ringVerbs) :
    handleRequest self line = (do
      match ← Prog.sect fun s => (s.orphaned, s) with
      | true => return .just "ERR orphaned: rejoining the ring".toList
      | false => serve self (verb :: rest)) := by
  rw [handleRequest, hw]
  dsimp only
  exact if_pos (List.contains_iff_mem.mpr hv)

theorem sat_handleNotify {c : Peer} {s₀ s₁ : NodeState} (hc : c ∈ T) :
    Sat (servantRules self T) (fun H h => Served self H (notifyLine c) h) (.held s₀ s₁ :: H)
      (handleNotify self c) := by
  unfold handleNotify
  split
  · rename_i he
    exact sat_pure (.twin (by rw [he]))
  split
  · rename_i hid
    exact sat_sect fun s _ => ⟨.idle (idle_refusing s c _), .twin hid⟩
  · rename_i hid
    apply Sat.bind
    refine sat_sect fun s _ => ⟨.notify rfl hc hid, ?_⟩
    have hserved : Served self (.held s (s.notified c).2 :: .held s₀ s₁ :: H) (notifyLine c) _ :=
      .notify List.mem_cons_self hid
    cases ho : (s.notified c).1 with
    | none =>
      rw [ho] at hserved
      exact sat_pure hserved
    | some old =>
      rw [ho] at hserved
      exact sat_pure hserved

/-- **What a member does with a request of the ring**, sent by a peer it is told of. -/
theorem sat_handleRequest {caller : Peer} {T' : List Peer} {H' : Turns} {q : Call}
    (hq : Request caller T' H' q) (hc : q.line = notifyLine caller → caller ∈ T) :
    Sat (servantRules q.node T) (fun H h => Served q.node H q.line h) H
      (handleRequest q.node q.line) := by
  have horphan : ∀ {line : Str} (s : NodeState), s.self = q.node → s.orphaned = true →
      Served q.node (.held s s :: H) line (.just "ERR orphaned: rejoining the ring".toList) :=
    fun s _ ho => .orphan (saw_held s s) ho
  cases hq with
  | @ping p _ =>
    have hw : blankWords "PING".toList = ["PING".toList] := by decide
    rw [handleRequest_ringVerb hw (by decide)]
    refine sat_unlessOrphan horphan fun s => ?_
    rw [serve, if_pos rfl]
    exact sat_pure .ping
  | @neighbours p _ =>
    have hw : blankWords "NEIGHBOURS".toList = ["NEIGHBOURS".toList] := by decide
    rw [handleRequest_ringVerb hw (by decide)]
    refine sat_unlessOrphan horphan fun s => ?_
    rw [serve, if_neg (by decide), if_pos rfl]
    exact sat_look calling_servantRules fun s' _ => .neighbours (saw_held s' s')
  | @find p k _ =>
    rw [handleRequest_ringVerb (blankWords_findRequest k) (by decide)]
    refine sat_unlessOrphan horphan fun s => ?_
    rw [serve, if_pos rfl]
    refine sat_look calling_servantRules fun s' _ => ?_
    rw [findReply, idFromHex_idToHex]
    exact .find k (saw_held s' s')
  | @notify p _ _ _ _ =>
    rw [handleRequest_ringVerb (blankWords_notifyLine caller) (by decide)]
    refine sat_unlessOrphan horphan fun s => ?_
    rw [serve, if_pos rfl, parsePeerWords_wire]
    exact sat_handleNotify (hc rfl)

end requests

end ChordFs
