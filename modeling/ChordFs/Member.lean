import ChordFs.Lib.Pool
import ChordFs.StabilizeEffects

/-! # One member among nodes that can say anything

A member as a pool of programs over its routing state: its maintenance rounds, the requests it
answers, and the work it defers until a reply has been sent, in any interleaving of their critical
sections and with any replies.  `Section` says what one section does to the state and which event
right before it is the reason; `obeys_member` says that the code does nothing else. -/

namespace ChordFs

open Dialogue

/-! ### The pool -/

/-- What a job of a member is for. -/
inductive Chore where
  | round
  | request (line : Str)
deriving DecidableEq

abbrev MemberJob := Job NodeState Call Exchanged Chore (Option Handled)
abbrev Member := Pool NodeState Call Exchanged Chore (Option Handled)
abbrev MemberEvent := Happening NodeState Call Exchanged Chore (Option Handled)
abbrev MemberPick := Pick Exchanged Chore

/-- The jobs of the member `self`.  A request ends with its reply, and goes on with what it
deferred; a round ends for good. -/
def memberScheme (self : Peer) : Scheme NodeState Call Exchanged Chore (Option Handled) where
  start
    | .round => do
        maintenanceRound self
        return none
    | .request line => do
        let h ← handleRequest self line
        return some h
  resume
    | none => none
    | some h => some do
        h.after
        return none

/-- The states a member begins to serve in. -/
inductive Started (me : Peer) (r : ℕ) : NodeState → Prop
  | alone : Started me r (NodeState.fresh me r).initAlone
  | wired (R : Members) : me ∈ R → Started me r ((NodeState.fresh me r).initWired R)
  /-- It listens only after its join, so nothing else has touched the state. -/
  | joined {known : Peer} {H : Turns} {s : NodeState} :
      (join me known).Run (.held (NodeState.fresh me r) s :: H) (.done (.joined, [])) →
      Started me r s

/-- A member that has just begun to serve. -/
def Member.serving (s : NodeState) : Member := ⟨s, [], []⟩

/-! ### What one section does -/

/-- The peer that a request announces, if it can become the predecessor. -/
def announced (self : Peer) (line : Str) : List Peer :=
  match blankWords line with
  | [verb, id, ip, port] =>
    if verb = "NOTIFY".toList then
      match parsePeerWords id ip port with
      | .error _ => []
      | .ok c => if c.id = self.id then [] else [c]
    else []
  | _ => []

def Chore.announces (self : Peer) : Chore → List Peer
  | .round => []
  | .request line => announced self line

/-! ### The functions behind the sections, case by case -/

/-- The member is the same, and so is the length of its list. -/
structure Kin (s s' : NodeState) : Prop where
  self : s'.self = s.self
  r : s'.r = s.r

theorem SameRouting.kin {s s' : NodeState} (h : SameRouting s s') : Kin s s' := ⟨h.self, h.r⟩

section cases
variable (s : NodeState)

theorem kin_evict (dead : Peer) (why : Str) (w b : Bool) : Kin s (s.evict dead why w b) := by
  unfold NodeState.evict
  split
  · exact ⟨rfl, rfl⟩
  split <;> exact ⟨rfl, rfl⟩

/-- The strikes recorded against a peer. -/
def strikesOf (s : NodeState) (p : Peer) : ℕ := (s.strikes.find? (memberKey p)).getD 0

/-- The state with one more strike recorded. -/
def struck (s : NodeState) (p : Peer) (lines : List Str) : NodeState :=
  { s with
    strikes := s.strikes.set (memberKey p) (strikesOf s p + 1)
    counters := { s.counters with strikes := s.counters.strikes + 1 }
    events := s.events ++ lines }

/-- A strike counts against a peer of another process that is in the tables, and the second
evicts it. -/
theorem strike_cases (p : Peer) (why detail : Str) :
    (s.strike p why detail = s ∧ (sameProcess p s.self = true ∨ s.holds p = false)) ∨
    (sameProcess p s.self = false ∧ s.holds p = true ∧ ∃ lines,
      (strikesOf s p = 0 ∧ s.strike p why detail = struck s p lines) ∨
      (strikesOf s p ≠ 0 ∧ ∃ why', s.strike p why detail =
        (struck s p lines).evict p why' false false)) := by
  by_cases hproc : sameProcess p s.self = true
  · exact .inl ⟨if_pos hproc, .inl hproc⟩
  by_cases hheld : s.holds p = true
  · refine .inr ⟨Bool.not_eq_true _ ▸ hproc, hheld, ["strike ".toList ++ num (strikesOf s p + 1) ++
      " against ".toList ++ address p ++ " (".toList ++ why ++ ")".toList ++ detail], ?_⟩
    by_cases hn : strikesOf s p = 0
    · have hfew : ¬ (s.strikes.find? (memberKey p)).getD 0 + 1 ≥ STRIKES_TO_EVICT := by
        have : (s.strikes.find? (memberKey p)).getD 0 = 0 := hn
        simp [this, STRIKES_TO_EVICT]
      exact .inl ⟨hn, (if_neg hproc).trans ((if_neg (not_not_intro hheld)).trans (if_neg hfew))⟩
    · have hmany : (s.strikes.find? (memberKey p)).getD 0 + 1 ≥ STRIKES_TO_EVICT := by
        have : (s.strikes.find? (memberKey p)).getD 0 ≠ 0 := hn
        simp only [STRIKES_TO_EVICT]
        omega
      exact .inr ⟨hn, _, (if_neg hproc).trans ((if_neg (not_not_intro hheld)).trans (if_pos hmany))⟩
  · exact .inl ⟨(if_neg hproc).trans (if_pos hheld), .inr (Bool.not_eq_true _ ▸ hheld)⟩

theorem kin_strike (p : Peer) (why detail : Str) : Kin s (s.strike p why detail) := by
  rcases strike_cases s p why detail with ⟨h, -⟩ | ⟨-, -, lines, ⟨-, h⟩ | ⟨-, why', h⟩⟩ <;> rw [h]
  · exact ⟨rfl, rfl⟩
  · exact ⟨rfl, rfl⟩
  · have hk := kin_evict (struck s p lines) p why' false false
    exact ⟨hk.self, hk.r⟩

theorem report_cases (node : Peer) (line : Str) (a : Exchanged) :
    (saysOrphaned a = true ∧ ∃ why, s.report node line a = s.evict node why false true) ∨
    (a.delivery = .refused ∧ ∃ why, s.report node line a = s.evict node why true false) ∨
    (saysOrphaned a = false ∧ a.delivery ≠ .refused ∧
      ∃ why detail, s.report node line a = s.strike node why detail) := by
  by_cases ho : saysOrphaned a = true
  · exact .inl ⟨ho, _, if_pos ho⟩
  by_cases hd : a.delivery = .refused
  · exact .inr (.inl ⟨hd, _, (if_neg ho).trans (if_pos hd)⟩)
  · exact .inr (.inr ⟨Bool.not_eq_true _ ▸ ho, hd, _, _, (if_neg ho).trans (if_neg hd)⟩)

theorem report_rule {P : NodeState → Prop} {node : Peer} (hevict : ∀ why w b, P (s.evict node why w b))
    (hstrike : ∀ why detail, P (s.strike node why detail)) (line : Str) (a : Exchanged) :
    P (s.report node line a) := by
  rcases report_cases s node line a with ⟨-, why, h⟩ | ⟨-, why, h⟩ | ⟨-, -, why, detail, h⟩ <;> rw [h]
  · exact hevict ..
  · exact hevict ..
  · exact hstrike ..

theorem kin_report (node : Peer) (line : Str) (a : Exchanged) : Kin s (s.report node line a) :=
  report_rule s (kin_evict s node) (kin_strike s node) line a

theorem kin_notified (c : Peer) : Kin s (s.notified c).2 := by
  rcases notified_cases s c with ⟨h, -⟩ | ⟨p, -, -, -, h⟩ | ⟨-, -, h⟩
  · rw [h]
    exact ⟨rfl, rfl⟩
  · rw [h]
    exact ⟨rfl, rfl⟩
  · exact ⟨h.self, h.r⟩

theorem fixFinger_error (i : ℕ) (e : LookupError) (m : Str) (path : List Peer) :
    ∃ s', s.fixFinger i ⟨.error (e, m), path⟩ = { s' with nextFinger := afterFinger i } ∧
      (s' = s ∨ ∃ node why, path.getLast? = some node ∧ e ≠ .tooManyRequests ∧
        (e = .refused ∧ s' = s.evict node why true false ∨
          e ≠ .refused ∧ s' = s.strike node why [])) := by
  refine ⟨_, rfl, ?_⟩
  dsimp only
  cases path.getLast? with
  | none => exact .inl rfl
  | some node =>
    by_cases hcap : e = .tooManyRequests ∨ e = .unreachable
    · exact .inl (if_pos hcap)
    have hne : e ≠ .tooManyRequests := fun h => hcap (.inl h)
    right
    by_cases href : e = .refused
    · exact ⟨node, _, rfl, hne, .inl ⟨href, (if_neg hcap).trans (if_pos href)⟩⟩
    · exact ⟨node, _, rfl, hne, .inr ⟨href, (if_neg hcap).trans (if_neg href)⟩⟩

theorem fixFinger_rule {P : NodeState → Prop} {i : ℕ} (hsame : P s) (hevict : ∀ node why, P (s.evict node why true false))
    (hstrike : ∀ node why, P (s.strike node why [])) (hnext : ∀ s', P s' → P { s' with nextFinger := afterFinger i })
    (e : LookupError × Str) (path : List Peer) : P (s.fixFinger i ⟨.error e, path⟩) := by
  obtain ⟨s', h, rfl | ⟨node, why, -, -, ⟨-, rfl⟩ | ⟨-, rfl⟩⟩⟩ := fixFinger_error s i e.1 e.2 path <;> rw [h]
  · exact hnext _ hsame
  · exact hnext _ (hevict ..)
  · exact hnext _ (hstrike ..)

theorem kin_fixFinger (i : ℕ) (r : LookupResult) : Kin s (s.fixFinger i r) := by
  obtain ⟨outcome, path⟩ := r
  cases outcome with
  | ok owner =>
    rcases fixFinger_ok s i owner path with h | ⟨fingers, -, h⟩
    · exact h.kin
    · exact ⟨h.self, h.r⟩
  | error e =>
    exact fixFinger_rule s (P := Kin s) ⟨rfl, rfl⟩ (fun _ _ => kin_evict ..) (fun _ _ => kin_strike ..)
      (fun _ h => ⟨h.self, h.r⟩) e path

end cases

theorem Section.kin {self : Peer} {T : List Peer} {H : Turns} {s s' : NodeState}
    (h : Section self T H s s') : Kin s s' := by
  cases h with
  | minor h =>
    cases h with
    | idle h => exact ⟨h.self, h.r⟩
    | clear _ _ _ => exact ⟨rfl, rfl⟩
    | report _ _ _ => exact kin_report ..
    | notify _ _ _ => exact kin_notified ..
    | fill _ _ _ _ => exact ⟨(sameRouting_takePred _ _).self, (sameRouting_takePred _ _).r⟩
    | suspect _ _ => exact kin_evict ..
  | merge _ _ => exact ⟨(sameRouting_applyNeighbours _ _).self, (sameRouting_applyNeighbours _ _).r⟩
  | adopt _ _ _ _ _ _ => exact ⟨(sameRouting_adopt _ _).self, (sameRouting_adopt _ _).r⟩
  | finger i _ _ => exact kin_fixFinger ..
  | joined _ _ _ _ _ => exact ⟨(sameRouting_joined _ _ _ _).self, (sameRouting_joined _ _ _ _).r⟩

/-! ### The walk through the code -/

section walk
variable {self : Peer} {T : List Peer} {H : Turns}

theorem sections_maintenanceRound : Sat (sectionRules self T) anyEnd H (maintenanceRound self) :=
  sat_maintenanceRound.weaken (fun _ _ h => h) (fun _ _ _ h => h) fun _ _ _ => trivial

/-- What a handled request leaves to do follows the rules too: nothing, or a probe of the old
predecessor. -/
structure Defers (me : Peer) (T : List Peer) (H : Turns) (h : Handled) : Prop where
  follows : Sat (sectionRules me T) anyEnd H h.after
  probe : h.after = .done () ∨ ∃ old c, h.after = probePred old c

theorem Defers.just (me : Peer) (T : List Peer) (H : Turns) (reply : Str) :
    Defers me T H (.just reply) := ⟨trivial, .inl rfl⟩

/-- The rules of answering a request: whatever the state, a member PINGs at most. -/
def requestRules (self : Peer) (T : List Peer) : TurnRules where
  assume _ _ := True
  change := Minor self T
  ask _ q := q.line = "PING".toList

theorem looks {α : Type} {f : NodeState → α} {post : Turns → α → Prop}
    (h : ∀ s, post (.held s s :: H) (f s)) :
    Sat (requestRules self T) post H (.sect fun s => (f s, s)) :=
  sat_sect fun s _ => ⟨.idle (.refl s), h s⟩

theorem requests_handleNotify {c : Peer} {s₀ s₁ : NodeState} (hT : c.id ≠ self.id → c ∈ T) :
    Sat (requestRules self T) (Defers self T) (.held s₀ s₁ :: H) (handleNotify self c) := by
  unfold handleNotify
  split
  · exact sat_pure (.just ..)
  split
  · exact sat_sect fun s _ => ⟨.idle (idle_refusing s c _), .just ..⟩
  · rename_i hid
    apply Sat.bind
    refine sat_sect fun s _ => ⟨.notify rfl (hT hid) hid, ?_⟩
    rcases ho : (s.notified c).1 with _ | old
    · exact sat_pure (.just ..)
    · refine sat_pure ⟨sat_probePred calling_sectionRules (.saw (saw_held s _) (.inr ?_))
        fun _ _ _ _ hp => .minor (.fill rfl (hT hid) hid hp), .inr ⟨old, c, rfl⟩⟩
      simp [NodeState.holds, pred_of_notified ho]

theorem requests_handleSuspect {named : Str} :
    Sat (requestRules self T) (Defers self T) H (handleSuspect self named) := by
  apply Sat.bind
  refine looks fun s => ?_
  cases s.suspected named with
  | none => exact sat_pure (.just ..)
  | some target =>
    dsimp only
    split
    · exact sat_pure (.just ..)
    · apply Sat.bind
      refine sat_ask rfl fun a _ => ?_
      split
      · rename_i ha
        exact sat_sect fun s _ => ⟨.suspect rfl ha, .just ..⟩
      · exact sat_pure (.just ..)

theorem requests_serve {w : List Str}
    (hT : ∀ id ip port, w = ["NOTIFY".toList, id, ip, port] → (∃ s₀ s₁ H', H = .held s₀ s₁ :: H') ∧ ∀ c, parsePeerWords id ip port = .ok c → c.id ≠ self.id → c ∈ T) :
    Sat (requestRules self T) (Defers self T) H (serve self w) := by
  unfold serve
  split
  · split
    · exact sat_pure (.just ..)
    split
    · exact looks fun _ => .just ..
    split
    · exact looks fun _ => .just ..
    · exact sat_pure (.just ..)
  · split
    · exact looks fun _ => .just ..
    · exact sat_pure (.just ..)
  · split
    · exact requests_handleSuspect
    · exact sat_pure (.just ..)
  · rename_i verb id ip port
    split
    · rename_i hverb
      obtain ⟨⟨s₀, s₁, H', rfl⟩, hc⟩ := hT id ip port (by rw [hverb])
      cases hp : parsePeerWords id ip port with
      | error why => exact sat_pure (.just ..)
      | ok c => exact requests_handleNotify (hc c hp)
    · exact sat_pure (.just ..)
  · exact sat_pure (.just ..)

theorem mem_announced {line id ip port : Str} {c : Peer}
    (hw : blankWords line = ["NOTIFY".toList, id, ip, port])
    (hp : parsePeerWords id ip port = .ok c) (hid : c.id ≠ self.id) : c ∈ announced self line := by
  simp only [announced, hw, if_true, hp, if_neg hid, List.mem_singleton]

/-- **What a member does with a request**, whatever the line. -/
theorem requests_handleRequest (line : Str) :
    Sat (requestRules self (announced self line)) (Defers self (announced self line)) H
      (handleRequest self line) := by
  unfold handleRequest
  split
  · exact sat_pure (.just ..)
  · rename_i verb rest hw
    have hT : ∀ id ip port, verb :: rest = ["NOTIFY".toList, id, ip, port] → ∀ c,
        parsePeerWords id ip port = .ok c → c.id ≠ self.id → c ∈ announced self line :=
      fun id ip port hw' c hp hid => mem_announced (hw.trans hw') hp hid
    split
    · apply Sat.bind
      refine looks fun s => ?_
      cases s.orphaned with
      | true => exact sat_pure (.just ..)
      | false => exact requests_serve fun id ip port hw' => ⟨⟨s, s, H, rfl⟩, hT id ip port hw'⟩
    · rename_i hverb
      refine requests_serve fun id ip port hw' => absurd ?_ hverb
      rw [(List.cons.inj hw').1]
      decide

theorem sections_handleRequest (line : Str) :
    Sat (sectionRules self (announced self line)) (Defers self (announced self line)) H
      (handleRequest self line) :=
  (requests_handleRequest line).weaken (fun _ _ _ => trivial) (fun _ _ _ h => .minor h) fun _ _ _ => trivial

end walk

/-! ### The pool follows the rules -/

/-- Where a job may stand: a reply comes with deferred work that follows the rules. -/
def memberEnd (self : Peer) (t : Chore) (H : Turns) (o : Option Handled) : Prop :=
  ∀ h, o = some h → Defers self (t.announces self) H h

/-- **The jobs of a member do nothing but such sections**, whatever is answered and however they
interleave. -/
theorem obeys_member (self : Peer) : (memberScheme self).Obeys
    (fun t => sectionRules self (t.announces self)) (memberEnd self) (fun s => s.self = self) where
  held _ _ _ _ h := h
  said _ _ _ _ := trivial
  keeps _ _ _ _ hs h := h.kin.self.trans hs
  start t := by
    cases t with
    | round =>
      apply Sat.bind
      exact sections_maintenanceRound.mono fun _ _ _ => sat_pure (by simp [memberEnd])
    | request line =>
      apply Sat.bind
      refine (sections_handleRequest line).mono fun _ _ hd => sat_pure fun h hh => ?_
      cases hh
      exact hd
  resume t H b p hb hp := by
    cases b with
    | none => cases hp
    | some h =>
      cases hp
      apply Sat.bind
      exact (hb h rfl).follows.mono fun _ _ _ => sat_pure (by simp [memberEnd])

/-- The state is the member's own, and its tasks keep to the rules. -/
abbrev Member.Lawful (me : Peer) : Member → Prop :=
  Scheme.Lawful (fun t => sectionRules me (Chore.announces me t)) (memberEnd me) fun s => s.self = me

theorem lawful_serving {me : Peer} {s : NodeState} (h : s.self = me) :
    Member.Lawful me (Member.serving s) :=
  ⟨h, fun _ hj => by cases hj⟩

end ChordFs
