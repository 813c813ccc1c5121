import ChordFs.RingWired

/-! # An orphan finds its way back

A member that has lost everyone it knew tries one remembered contact per round.  A contact that is
dead or answers an error leaves it as it was, one contact further (`StillOut.round`).  A contact in
a wired ring leads its lookup to the owner of its identifier, and `join` has no reason left to
refuse (`StillOut.found`).  So the first round that comes to such a contact ends the search, and it
comes before every contact has been tried (`orphan_rejoins`). -/

namespace ChordFs

open Circle Dialogue

/-- What a member in this state replies; nobody answers the calls of its handler. -/
def replyIn (s : NodeState) (line : Str) : Str :=
  ((handleRequest s.self line).run (fun _ e => (⟨.timeout, [], 0⟩, e)) s ()).1.reply

/-- No reply, or an ERR line. -/
def Denies (a : Exchanged) : Prop :=
  a.delivery ≠ .ok ∨ a.reply = "ERR".toList ∨ a.reply.take 4 = "ERR ".toList

/-- What `n` rounds without a way in have made of the orphan `x`. -/
structure StillOut (x : NodeState) (n : ℕ) (y : NodeState) : Prop where
  orphaned : y.orphaned = true
  contacts : y.contacts = x.contacts
  nextContact : y.nextContact = x.nextContact + n

section rejoin
variable {ε : Type} {env : Call → ε → Exchanged × ε} {R : Members} {r n : ℕ} {x y : NodeState}
  {c : Peer} {e : ε}

theorem Denies.judge {a : Exchanged} (h : Denies a) (current : Peer) (k : Id) :
    ∃ error message, ChordFs.judge current k a = .fail error message := by
  rw [ChordFs.judge]
  by_cases hd : a.delivery ≠ .ok
  · rw [if_pos hd]
    exact ⟨_, _, rfl⟩
  · rw [if_neg hd, if_pos (h.resolve_left hd)]
    exact ⟨_, _, rfl⟩

theorem replyIn_find (hr : 1 ≤ r) (hc : c ∈ R) (k : Id) : replyIn (wired R r c) (findRequest k) =
    renderStep (routeStep c (successorOf (c.id + 1) R) (buildFingers c.id R) k) := by
  have hsame := sameRouting_wired R r c
  have hself : (wired R r c).self = c := hsame.self
  have horphaned : (wired R r c).orphaned = false := hsame.orphaned
  rw [replyIn, handleRequest_ringVerb (blankWords_findRequest k) (by decide), Prog.run_bind]
  simp only [Prog.sect, Prog.run, horphaned]
  rw [serve, if_pos rfl]
  simp only [Prog.sect, Prog.run, Handled.just, findReply, idFromHex_idToHex, hself,
    wired_succ hr hc, wired_fingers hr hc]

section
variable (h : StillOut x n y) (hc : x.contacts[(x.nextContact + n) % x.contacts.length]? = some c)
include h hc

theorem StillOut.run_round (env : Call → ε → Exchanged × ε) (e : ε) :
    ∃ y', StillOut x (n + 1) y' ∧
      (maintenanceRound x.self).run env y e = (rejoin x.self c).run env y' e := by
  have hne : y.contacts ≠ [] := by
    intro hnil
    rw [← h.contacts, hnil] at hc
    cases hc
  have hturn : y.contacts[y.nextContact % y.contacts.length]? = some c := by
    rw [h.contacts, h.nextContact, hc]
  let counted := { y with counters := { y.counters with rounds := y.counters.rounds + 1 } }
  have hway : counted.nextWayIn =
      ((true, some c), { counted with nextContact := y.nextContact + 1 }) := by
    rw [NodeState.nextWayIn, if_pos ⟨h.orphaned, hne⟩]
    exact congrArg (fun way => ((true, way), _)) hturn
  refine ⟨{ counted with nextContact := y.nextContact + 1 }, ⟨h.orphaned, h.contacts, ?_⟩, ?_⟩
  · exact congrArg (· + 1) h.nextContact
  · rw [maintenanceRound, Prog.run_bind]
    simp only [Prog.sect, Prog.run]
    rw [Prog.run_bind]
    simp only [Prog.run]
    rw [hway]

/-- **A contact that is of no use leaves the orphan as it was.** -/
theorem StillOut.round (hno : ∀ e, Denies (env ⟨c, findRequest x.self.id⟩ e).1) :
    StillOut x (n + 1) ((maintenanceRound x.self).run env y e).2.1 := by
  obtain ⟨y', hy', hrun⟩ := h.run_round hc env e
  obtain ⟨error, message, hjudge⟩ := (hno e).judge c x.self.id
  rw [hrun, rejoin, join, lookup, MAX_REQUESTS, lookupFrom, Prog.run_bind, Prog.run_bind,
    Prog.run, hjudge]
  exact ⟨hy'.orphaned, hy'.contacts, hy'.nextContact⟩

end

/-- A newcomer that knows a member of a wired ring joins it, at the owner of its identifier. -/
theorem run_join (hr : 1 ≤ r) {self : Peer} (hx : ∀ p ∈ R, p.id ≠ self.id)
    (hlive : ∀ q e, q.node ∈ R →
      ∃ took, (env q e).1 = ⟨.ok, replyIn (wired R r q.node) q.line, took⟩)
    (hc : c ∈ R) : ∃ list e', (join self c).run env y e =
      ((.joined, []), y.joined c (successorOf self.id R) list, e') := by
  obtain ⟨hsame, hstate, -⟩ :=
    run_lookupFrom_eq (k := self.id) env (fun _ => True) (fun p hp e _ => by
    obtain ⟨took, hanswer⟩ := hlive ⟨p, findRequest self.id⟩ e hp
    rw [hanswer, replyIn_find hr hp]
    exact ⟨trivial, judge_renderStep took (routeStep_covers ..)⟩) MAX_REQUESTS [] hc y
      (e := e) trivial []
  rw [← lookup] at hsame hstate
  have hfinds := hsame.symm ▸ outcome_lookup (k := self.id) hc ()
  have howner := successorOf_mem self.id R
  have hne : successorOf self.id R ≠ self := fun he => hx _ howner (congrArg Peer.id he)
  -- the owner is neither the newcomer nor carries its identifier
  rw [join, Prog.run_bind, hfinds, hstate]
  dsimp only
  rw [if_neg hne, if_neg (hx _ howner)]
  exact ⟨_, _, rfl⟩

/-- **A contact in the ring brings the orphan back.** -/
theorem StillOut.found (h : StillOut x n y) (hr : 1 ≤ r) (hx : ∀ p ∈ R, p.id ≠ x.self.id)
    (hlive : ∀ q e, q.node ∈ R →
      ∃ took, (env q e).1 = ⟨.ok, replyIn (wired R r q.node) q.line, took⟩)
    (hturn : x.contacts[(x.nextContact + n) % x.contacts.length]? = some c) (hc : c ∈ R) :
    ((maintenanceRound x.self).run env y e).2.1.orphaned = false ∧
      ((maintenanceRound x.self).run env y e).2.1.succ = successorOf x.self.id R := by
  obtain ⟨y', -, hrun⟩ := h.run_round hturn env e
  obtain ⟨list, e', hjoin⟩ := run_join (y := y') (e := e) hr hx hlive hc
  have hsame := sameRouting_joined y' c (successorOf x.self.id R) list
  rw [hrun, rejoin, Prog.run_bind, hjoin]
  refine ⟨hsame.orphaned, ?_⟩
  have hhead : ∀ self, (y'.joined c (successorOf x.self.id R) list).succs.headD self =
      successorOf x.self.id R := by
    intro self
    rw [hsame.succs]
    cases list with
    | none => rfl
    | some l =>
      obtain ⟨rest, hmerge⟩ := mergeSuccessors_eq_cons y'.self (successorOf x.self.id R) l y'.r
      exact congrArg (List.headD · self) hmerge
  exact hhead _

end rejoin

theorem exists_turn {n i : ℕ} (first : ℕ) (h : i < n) : ∃ j < n, (first + j) % n = i := by
  refine ⟨(i + (n - first % n)) % n, Nat.mod_lt _ (by omega), ?_⟩
  have hlt := Nat.mod_lt first (Nat.zero_lt_of_lt h)
  have hsum : first + (i + (n - first % n)) = i + n * (first / n + 1) := by
    have := Nat.div_add_mod first n
    rw [Nat.mul_add, Nat.mul_one]
    omega
  rw [Nat.add_mod_mod, hsum, Nat.add_mul_mod_self_left, Nat.mod_eq_of_lt h]

/-- **An orphan finds its way back.**  The members of `R` answer as `init_wired` left them, and
neither the orphan nor its identifier is among them.  If one of its contacts is in `R` and the
others are dead or answer errors, it stops being an orphan in one of its next maintenance rounds, no
more of them than it has contacts; its successor is then the owner of its identifier in `R`.  The
turns of the contacts are counted in `ℕ`, the code's `size_t` being out of reach of a run. -/
theorem orphan_rejoins {ε : Type} (env : Call → ε → Exchanged × ε) (R : Members) (r : ℕ)
    (hr : 1 ≤ r) (x : NodeState) (horphaned : x.orphaned = true) (hx : ∀ p ∈ R, p.id ≠ x.self.id)
    (hlive : ∀ q e, q.node ∈ R →
      ∃ took, (env q e).1 = ⟨.ok, replyIn (wired R r q.node) q.line, took⟩)
    (hdead : ∀ c ∈ x.contacts, c ∉ R → ∀ line e, Denies (env ⟨c, line⟩ e).1)
    (hin : ∃ c ∈ x.contacts, c ∈ R) (e : ε) :
    let round := fun t : NodeState × ε => ((maintenanceRound x.self).run env t.1 t.2).2
    ∃ n, n ≤ x.contacts.length ∧ (∀ m < n, (round^[m] (x, e)).1.orphaned = true) ∧
      (round^[n] (x, e)).1.orphaned = false ∧
        (round^[n] (x, e)).1.succ = successorOf x.self.id R := by
  intro round
  let turn := fun j => x.contacts[(x.nextContact + j) % x.contacts.length]?
  have hcomes : ∃ j, j < x.contacts.length ∧ ∃ c ∈ R, turn j = some c := by
    obtain ⟨c, hc, hcR⟩ := hin
    obtain ⟨i, hi, hget⟩ := List.mem_iff_getElem.mp hc
    obtain ⟨j, hj, hturn⟩ := exists_turn x.nextContact hi
    refine ⟨j, hj, c, hcR, ?_⟩
    dsimp only [turn]
    rw [hturn, List.getElem?_eq_getElem hi, hget]
  -- the first turn of a contact in the ring
  obtain ⟨j, ⟨hj, c, hcR, hturn⟩, hfirst⟩ := Nat.findX hcomes
  have hout : ∀ m ≤ j, StillOut x m (round^[m] (x, e)).1 := by
    intro m
    induction m with
    | zero => exact fun _ => ⟨horphaned, rfl, rfl⟩
    | succ m ih =>
      intro hm
      have hlt : (x.nextContact + m) % x.contacts.length < x.contacts.length :=
        Nat.mod_lt _ (by omega)
      have hget : turn m = some (x.contacts[(x.nextContact + m) % x.contacts.length]) :=
        List.getElem?_eq_getElem hlt
      have hnot : x.contacts[(x.nextContact + m) % x.contacts.length] ∉ R :=
        fun hmem => hfirst m (by omega) ⟨by omega, _, hmem, hget⟩
      rw [Function.iterate_succ_apply']
      exact (ih (by omega)).round hget fun e => hdead _ (List.getElem_mem hlt) hnot _ e
  refine ⟨j + 1, hj, fun m hm => (hout m (by omega)).orphaned, ?_⟩
  rw [Function.iterate_succ_apply']
  exact (hout j (Nat.le_refl j)).found hr hx hlive hturn hcR

/-- An orphan between the first two of three members; its first contact is dead. -/
theorem orphan_rejoins_three : let env : Call → Unit → Exchanged × Unit := fun q e =>
      (if q.node ∈ threeMembers then ⟨.ok, replyIn (wired threeMembers 2 q.node) q.line, 0⟩
        else ⟨.refused, [], 0⟩, e)
    let dead : Peer := hostPeer 9 4
    let x : NodeState := { NodeState.fresh (hostPeer 7 4) 2 with
      orphaned := true, contacts := [dead, successorOf 6 threeMembers] }
    let round := fun t : NodeState × Unit => ((maintenanceRound x.self).run env t.1 t.2).2
    dead ∉ threeMembers ∧ ∃ n, n ≤ 2 ∧ (∀ m < n, (round^[m] (x, ())).1.orphaned = true) ∧
      (round^[n] (x, ())).1.orphaned = false ∧
        (round^[n] (x, ())).1.succ = successorOf 7 threeMembers := by
  intro env dead x round
  have hdead : dead ∉ threeMembers := by decide
  refine ⟨hdead, orphan_rejoins env threeMembers 2 (by decide) x rfl (by decide) ?_ ?_ ?_ ()⟩
  · intro q e hq
    exact ⟨0, if_pos hq⟩
  · intro c _ hnot line e
    left
    have hrefused : (env ⟨c, line⟩ e).1 = ⟨.refused, [], 0⟩ := if_neg hnot
    rw [hrefused]
    decide
  · exact ⟨successorOf 6 threeMembers, List.mem_cons_of_mem _ (List.mem_singleton_self _),
      successorOf_mem _ _⟩

end ChordFs
