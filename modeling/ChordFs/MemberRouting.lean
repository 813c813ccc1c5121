import ChordFs.MemberInvariant

/-! # A member never claims the whole ring, unless it is orphaned while it answers

FIND_SUCCESSOR is answered in two critical sections: the check for orphans, and the routing step.
Each request that takes its second section while the member is not orphaned is answered with another
node as the first successor (`find_other_successor`).  An eviction that falls between the two and
leaves nobody makes the member claim the arc from itself to itself (`find_claims_whole_ring`). -/

namespace ChordFs

open Dialogue

/-- The job answers a FIND_SUCCESSOR with this word. -/
def FindJob (j : MemberJob) (w : Str) : Prop :=
  ∃ line, j.tag = .request line ∧ blankWords line = ["FIND_SUCCESSOR".toList, w]

/-- How a FIND_SUCCESSOR ends: refused by the check, or with a routing step on the state that the
second section found. -/
def findEnd (t : Chore) (H : Turns) (o : Option Handled) : Prop :=
  ∀ line w, t = .request line → blankWords line = ["FIND_SUCCESSOR".toList, w] → ∀ h, o = some h →
    h = .just "ERR orphaned: rejoining the ring".toList ∨
    ∃ s H', H = .held s s :: H' ∧ H' ≠ [] ∧ h = .just (findReply s.self s.succ s.fingers w)

/-- Nothing is asked of the dialogue. -/
def noRules : TurnRules := freeRules fun _ _ => True

theorem sat_noRules {α : Type} {post : Turns → α → Prop} (hpost : ∀ H a, post H a) (H : Turns)
    (p : Task α) : Sat noRules post H p :=
  (sat_of_stable (P := fun _ => True) (fun _ _ h => h) trivial p).mono fun H a _ => hpost H a

theorem sat_find {self : Peer} {line w : Str} (hw : blankWords line = ["FIND_SUCCESSOR".toList, w]) :
    Sat noRules (fun H h => h = .just "ERR orphaned: rejoining the ring".toList ∨
      ∃ s H', H = .held s s :: H' ∧ H' ≠ [] ∧ h = .just (findReply s.self s.succ s.fingers w)) []
      (handleRequest self line) := by
  rw [handleRequest_ringVerb hw (by decide)]
  apply Sat.bind
  refine sat_sect fun s _ => ⟨trivial, ?_⟩
  cases s.orphaned with
  | true => exact sat_pure (.inl rfl)
  | false =>
    rw [serve, if_pos rfl]
    exact sat_sect fun s' _ => ⟨trivial, .inr ⟨s', _, rfl, by simp, rfl⟩⟩

theorem obeys_find (self : Peer) :
    (memberScheme self).Obeys (fun _ => noRules) findEnd (fun _ => True) where
  held _ _ _ _ _ := trivial
  said _ _ _ _ := trivial
  keeps _ _ _ _ _ _ := trivial
  start t := by
    cases t with
    | round => exact sat_noRules (fun _ _ line w ht => by cases ht) _ _
    | request line =>
      by_cases hfind : ∃ w, blankWords line = ["FIND_SUCCESSOR".toList, w]
      · obtain ⟨w, hw⟩ := hfind
        apply Sat.bind
        refine (sat_find hw).mono fun H h hh => sat_pure ?_
        intro line' w' ht hw' h' hh'
        cases ht
        cases hh'
        rw [hw] at hw'
        simp only [List.cons.injEq, and_true, true_and] at hw'
        rwa [← hw']
      · exact sat_noRules (fun _ _ line' w ht hw => by cases ht; exact absurd ⟨w, hw⟩ hfind) _ _
  resume t H b p hb hp := by
    cases b with
    | none => cases hp
    | some h =>
      cases hp
      by_cases hfind : ∃ line w, t = .request line ∧ blankWords line = ["FIND_SUCCESSOR".toList, w]
      · obtain ⟨line, w, ht, hw⟩ := hfind
        -- a FIND_SUCCESSOR leaves nothing for later
        have hafter : h.after = .done () := by
          rcases hb line w ht hw h rfl with rfl | ⟨s, H', -, -, rfl⟩ <;> rfl
        rw [hafter]
        exact sat_pure (fun _ _ _ _ _ hh => by cases hh)
      · refine sat_noRules (fun _ _ line w ht hw => ?_) _ _
        exact absurd ⟨line, w, ht, hw⟩ hfind

/-- The reply that the job has ready. -/
def Member.answered (P : Member) (i : ℕ) : Option Str :=
  match P.jobs[i]? with
  | some ⟨_, _, .done (some h)⟩ => some h.reply
  | _ => none

/-- No FIND_SUCCESSOR that has passed the check takes its second section while the member is
orphaned. -/
def RoutesInRing (P : Member) (pick : MemberPick) : Prop :=
  ∀ i j w, pick = .lock i → P.jobs[i]? = some j → FindJob j w → j.turns ≠ [] →
    P.state.orphaned = false

theorem find_answered {me : Peer} {s : NodeState} {picks : List MemberPick} {P P' : Member} {i : ℕ}
    (h : (memberScheme me).exec (Member.serving s) picks = some P)
    (hstep : (memberScheme me).step? P (.lock i) = some P') {j : MemberJob} {w reply : Str}
    (hj : P.jobs[i]? = some j) (hfind : FindJob j w) (hans : Member.answered P' i = some reply) :
    reply = "ERR orphaned: rejoining the ring".toList ∨
      j.turns ≠ [] ∧ reply = findReply P.state.self P.state.succ P.state.fingers w := by
  have hlaw : Scheme.Lawful (fun _ => noRules) findEnd (fun _ => True) P :=
    (obeys_find me).exec h ⟨trivial, fun _ hj => by cases hj⟩
  have hm := Scheme.moves_of_step? hstep
  have hlaw' := (obeys_find me).moves hm hlaw
  cases hm with
  | @lock _ tag H f next hi =>
    rw [hi] at hj
    cases hj
    obtain ⟨line, rfl, hw⟩ := hfind
    have hget : (P.jobs.set i ⟨.request line, .held P.state (f P.state) :: H, next P.state⟩)[i]? =
        some ⟨.request line, .held P.state (f P.state) :: H, next P.state⟩ := by
      rw [List.getElem?_set_self (List.getElem?_eq_some_iff.mp hi).1]
    have hsat := hlaw'.2 _ (List.mem_of_getElem? hget)
    simp only [Member.answered, hget] at hans
    cases hcode : next P.state with
    | lock _ _ => simp [hcode] at hans
    | call _ _ => simp [hcode] at hans
    | done o =>
      cases o with
      | none => simp [hcode] at hans
      | some hd =>
        simp only [hcode, Option.some.injEq] at hans hsat
        rcases hsat line w rfl hw hd rfl with rfl | ⟨s, H', hH, hne, rfl⟩
        · exact .inl hans.symm
        · simp only [List.cons.injEq, Turn.held.injEq] at hH
          obtain ⟨⟨rfl, -⟩, rfl⟩ := hH
          exact .inr ⟨hne, hans.symm⟩

/-- **Answered with another node as the successor.**  Once a member has had a first successor other
than itself, every FIND_SUCCESSOR that it answers is refused as an orphan's or decided with a first
successor other than itself, in every run in which no such request takes its routing section while
the member is orphaned. -/
theorem find_other_successor (me : Peer) (r : ℕ) (hr : 1 ≤ r) (s : NodeState) (hs : Started me r s)
    (picks later : List MemberPick) (P P' P'' : Member) (i : ℕ)
    (h : (memberScheme me).exec (Member.serving s) picks = some P) (hother : P.state.succ ≠ me)
    (h' : (memberScheme me).exec P later = some P')
    (hstep : (memberScheme me).step? P' (.lock i) = some P'')
    (hmeets : (memberScheme me).Meets RoutesInRing P (later ++ [.lock i])) (j : MemberJob)
    (w reply : Str) (hj : P'.jobs[i]? = some j) (hfind : FindJob j w)
    (hans : Member.answered P'' i = some reply) :
    reply = "ERR orphaned: rejoining the ring".toList ∨
      P'.state.succ ≠ me ∧ reply = findReply me P'.state.succ P'.state.fingers w := by
  have hall : (memberScheme me).exec (Member.serving s) (picks ++ later) = some P' := by
    rw [Scheme.exec_append, h]
    exact h'
  have hself := (member_routingSound hr hs hall).2.2
  rcases find_answered hall hstep hj hfind hans with he | ⟨hne, he⟩
  · exact .inl he
  · refine .inr ⟨fun hlone => ?_, by rw [he, hself]⟩
    have hin : P'.state.orphaned = false := (hmeets.append h').1 i j w rfl hj hfind hne
    have ho := loneOrphaned_of_other hr hs h h' hother (hlone.trans hself.symm)
    rw [ho] at hin
    cases hin

/-- Two processes with one member each. -/
def twoMembers : Members where
  list := [hostPeer 5 1, hostPeer 0x8000000000000000 2]
  ne_nil := by decide
  sorted := by decide

/-- The first of them. -/
def twoMembers.first : Peer := hostPeer 5 1

/-- A request, and the check it passes. -/
def findChecked : List MemberPick := [.start (.request (findRequest 7)), .lock 0]

/-- A round in which the successor refuses the connection. -/
def successorRefuses : List MemberPick :=
  [.start .round, .lock 1, .lock 1, .lock 1, .answer 1 ⟨.refused, [], 0⟩, .lock 1]

theorem find_other_successor_two : ∃ P P', (memberScheme twoMembers.first).exec
    (Member.serving (wired twoMembers 1 twoMembers.first)) findChecked = some P ∧
    (memberScheme twoMembers.first).step? P (.lock 0) = some P' ∧
    ∃ reply, Member.answered P' 0 = some reply ∧
      (reply = "ERR orphaned: rejoining the ring".toList ∨ P.state.succ ≠ twoMembers.first ∧
        reply = findReply twoMembers.first P.state.succ P.state.fingers (idToHex 7)) := by
  refine ⟨_, _, rfl, rfl, _, rfl, ?_⟩
  refine find_other_successor twoMembers.first 1 (by decide) _ (.wired twoMembers (by decide)) []
    findChecked _ _ _ 0 rfl (by decide +kernel) rfl rfl ?_ _ (idToHex 7) _ rfl
    ⟨_, rfl, blankWords_findRequest 7⟩ rfl
  refine Runs.meets_of_checks (c := fun P _ => !P.state.orphaned) ?_ (by decide +kernel)
  intro P pick hP i j w _ _ _ _
  simpa using hP

/-- **The member claims the whole ring.**  Its successor is the other of two members when the
request comes and passes the check; then the other refuses a connection, the member evicts it and is
orphaned, and the routing step names the member itself on the arc from itself to itself. -/
theorem find_claims_whole_ring :
    (wired twoMembers 1 twoMembers.first).succ ≠ twoMembers.first ∧
    ∃ P P', (memberScheme twoMembers.first).exec
        (Member.serving (wired twoMembers 1 twoMembers.first)) (findChecked ++ successorRefuses) = some P ∧
      (memberScheme twoMembers.first).step? P (.lock 0) = some P' ∧
      P.state.succ = twoMembers.first ∧
      Member.answered P' 0 = some (renderStep ⟨true, twoMembers.first⟩) :=
  ⟨by decide +kernel, _, _, rfl, rfl, by decide +kernel, by decide +kernel⟩

end ChordFs
