import ChordFs.RingConverge

/-! # One join takes two steps

A ring taken one task at a time: each call is answered, with the work its handler leaves behind,
before the caller goes on (`Ring.perform`, `Ring.deliver`).  A newcomer that joins a wired ring
through any member needs its own `stabilize` and that of the member before it, and all first
successors and predecessors are right (`join_needs_two_steps`).

What the argument follows is each member's predecessor and first successor (`Pointing`); a step
moves one of them, and the rest of the state may do what it likes. -/

namespace ChordFs

open Circle Dialogue Function

/-! ### Tasks, one at a time -/

namespace Ring

/-- A task of `p`, run to its end. -/
def perform {α : Type} (deliver : Call → Ring → Exchanged × Ring) (p : Peer) :
    Task α → Ring → α × Ring
  | .done a, ρ => (a, ρ)
  | .lock f next, ρ => perform deliver p (next (ρ.node p)) (ρ.set p (f (ρ.node p)))
  | .call q next, ρ => perform deliver p (next (deliver q ρ).1) (deliver q ρ).2

/-- A request is handled where it arrives, then what the handler left to do.  The first argument
bounds how deep calls of handlers may nest; their own handlers make none. -/
def deliver : ℕ → Call → Ring → Exchanged × Ring
  | 0, _, ρ => (⟨.timeout, [], 0⟩, ρ)
  | depth + 1, q, ρ =>
    if q.node ∈ ρ.members then
      let handled := perform (deliver depth) q.node (handleRequest q.node q.line) ρ
      (⟨.ok, handled.1.reply, 0⟩, (perform (deliver depth) q.node handled.1.after handled.2).2)
    else (ρ.absent q.node 0, ρ)

/-- A newcomer joins through `known`, and listens once it has joined. -/
def joinBy (depth : ℕ) (ρ : Ring) (x known : Peer) (r : ℕ) : JoinStatus × Ring :=
  let joined := perform (deliver depth) x (join x known) (ρ.set x (.fresh x r))
  (joined.1.1, if joined.1.1 = .joined then joined.2.listen x (joined.2.node x) else joined.2)

/-- One `stabilize` of `p`. -/
def stabilizeBy (depth : ℕ) (ρ : Ring) (p : Peer) : Ring :=
  (perform (deliver depth) p (stabilize p) ρ).2

section perform
variable {α β : Type} {deliver : Call → Ring → Exchanged × Ring} {p : Peer} {ρ ρ' : Ring}

theorem perform_bind (t : Task α) (k : α → Task β) (ρ : Ring) :
    perform deliver p (t >>= k) ρ =
      perform deliver p (k (perform deliver p t ρ).1) (perform deliver p t ρ).2 := by
  induction t generalizing ρ with
  | done a => rfl
  | lock f next ih => exact ih (ρ.node p) (ρ.set p (f (ρ.node p)))
  | call q next ih => exact ih (deliver q ρ).1 (deliver q ρ).2

theorem perform_sect (f : NodeState → α × NodeState) (ρ : Ring) :
    perform deliver p (.sect f) ρ = ((f (ρ.node p)).1, ρ.set p (f (ρ.node p)).2) := rfl

theorem set_node (ρ : Ring) (p : Peer) : ρ.set p (ρ.node p) = ρ := by
  rw [set, update_eq_self]

theorem perform_look (f : NodeState → α) (ρ : Ring) :
    perform deliver p (.sect fun s => (f s, s)) ρ = (f (ρ.node p), ρ) := by
  rw [perform_sect, set_node]

theorem perform_callPeer {n : Peer} {line : Str} {valid : Str → Option β} {a : Exchanged} {b : β}
    (hd : deliver ⟨n, line⟩ ρ = (a, ρ')) (hb : goodReply a valid = some b) :
    perform deliver p (callPeer n line valid) ρ =
      (.good b, ρ'.set p ((ρ'.node p).clearStrikes n)) := by
  rw [callPeer, perform_bind]
  have hask : perform deliver p (.ask ⟨n, line⟩) ρ = (a, ρ') := hd
  rw [hask]
  dsimp only
  rw [hb]
  rfl

end perform

end Ring

/-! ### What members answer -/

section answers
variable {ρ : Ring} {q : Peer} {depth : ℕ}

theorem deliver_ringVerb {line verb : Str} {rest : List Str} {h : Handled} {ρ' : Ring}
    (hq : q ∈ ρ.members) (ho : (ρ.node q).orphaned = false) (hw : blankWords line = verb :: rest)
    (hv : verb ∈ ringVerbs)
    (hs : ρ.perform (Ring.deliver depth) q (serve q (verb :: rest)) = (h, ρ'))
    (hafter : h.after = .done ()) :
    Ring.deliver (depth + 1) ⟨q, line⟩ ρ = (⟨.ok, h.reply, 0⟩, ρ') := by
  have hserve : ρ.perform (Ring.deliver depth) q (handleRequest q line) = (h, ρ') := by
    rw [handleRequest_ringVerb hw hv, Ring.perform_bind, Ring.perform_look, ho]
    exact hs
  rw [Ring.deliver, if_pos hq]
  dsimp only
  rw [hserve, hafter]
  rfl

section
variable (hq : q ∈ ρ.members) (ho : (ρ.node q).orphaned = false)
include hq ho

theorem deliver_ping : Ring.deliver (depth + 1) ⟨q, "PING".toList⟩ ρ =
      (⟨.ok, words ["PONG".toList, idToHex q.id], 0⟩, ρ) :=
  @deliver_ringVerb _ _ depth _ "PING".toList []
    (.just (words ["PONG".toList, idToHex q.id])) _ hq ho
    (by decide) (by decide) rfl rfl

theorem deliver_neighbours : Ring.deliver (depth + 1) ⟨q, "NEIGHBOURS".toList⟩ ρ =
      (⟨.ok, renderNeighbours ⟨(ρ.node q).pred, (ρ.node q).succs⟩, 0⟩, ρ) :=
  @deliver_ringVerb _ _ depth _ "NEIGHBOURS".toList []
    (.just (renderNeighbours ⟨(ρ.node q).pred, (ρ.node q).succs⟩)) _ hq ho (by decide) (by decide)
    (Ring.perform_look (fun s => Handled.just (renderNeighbours ⟨s.pred, s.succs⟩)) ρ) rfl

theorem deliver_find (hself : (ρ.node q).self = q) (k : Id) :
    Ring.deliver (depth + 1) ⟨q, findRequest k⟩ ρ =
      (⟨.ok, renderStep (routeStep q (ρ.node q).succ (ρ.node q).fingers k), 0⟩, ρ) := by
  have hserve : ρ.perform (Ring.deliver depth) q (serve q ["FIND_SUCCESSOR".toList, idToHex k]) =
      (.just (renderStep (routeStep q (ρ.node q).succ (ρ.node q).fingers k)), ρ) := by
    rw [serve, if_pos rfl, Ring.perform_look fun s => Handled.just
      (findReply s.self s.succ s.fingers _), findReply, idFromHex_idToHex, hself]
  exact deliver_ringVerb hq ho (blankWords_findRequest k) (by decide) hserve rfl

end

theorem deliver_notify {c : Peer} (hq : q ∈ ρ.members) (ho : (ρ.node q).orphaned = false)
    (hid : c.id ≠ q.id) (hold : ((ρ.node q).notified c).1 = none) :
    Ring.deliver (depth + 1) ⟨q, notifyLine c⟩ ρ =
      (⟨.ok, "OK".toList, 0⟩, ρ.set q ((ρ.node q).notified c).2) := by
  have hne : c ≠ q := fun he => hid (congrArg Peer.id he)
  have hserve : ρ.perform (Ring.deliver depth) q
      (serve q ["NOTIFY".toList, idToHex c.id, c.ip, num c.port]) =
      (.just "OK".toList, ρ.set q ((ρ.node q).notified c).2) := by
    rw [serve, if_pos rfl, parsePeerWords_wire]
    dsimp only
    rw [handleNotify, if_neg hne, if_neg hid, Ring.perform_bind, Ring.perform_sect, hold]
    rfl
  exact deliver_ringVerb hq ho (blankWords_notifyLine c) (by decide) hserve rfl

end answers

/-! ### Pointers -/

/-- A member in its ring with this predecessor and this successor. -/
structure Points (p : Peer) (pred : Option Peer) (succ : Peer) (s : NodeState) : Prop where
  self : s.self = p
  pred : s.pred = pred
  succ : s.succ = succ
  orphaned : s.orphaned = false
  length : 1 ≤ s.succs.length ∧ s.succs.length ≤ MAX_SUCCESSORS
  room : 1 ≤ s.r ∧ s.r ≤ MAX_SUCCESSORS

/-- The members of a ring with their predecessors and successors. -/
structure Pointing (M : List Peer) (pred : Peer → Option Peer) (succ : Peer → Peer) (ρ : Ring) :
    Prop where
  members : ρ.members = M
  placed : ∀ p ∈ M, Points p (pred p) (succ p) (ρ.node p)

section pointing
variable {M : List Peer} {pred : Peer → Option Peer} {succ : Peer → Peer} {ρ : Ring} {p q c : Peer}
  {s s' : NodeState} {a : Option Peer} {b : Peer} {depth : ℕ}

theorem Points.of_sameRouting (h : Points p a b s) (hs : SameRouting s s') : Points p a b s' where
  self := hs.self.trans h.self
  pred := hs.pred.trans h.pred
  succ := by
    rw [NodeState.succ, hs.succs, hs.self]
    exact h.succ
  orphaned := hs.orphaned.trans h.orphaned
  length := by
    rw [hs.succs]
    exact h.length
  room := by
    rw [hs.r]
    exact h.room

theorem Points.clearStrikes (h : Points p a b s) (n : Peer) : Points p a b (s.clearStrikes n) :=
  ⟨h.self, h.pred, h.succ, h.orphaned, h.length, h.room⟩

section
variable (h : Pointing M pred succ ρ)
include h

theorem Pointing.set (hs : p ∈ M → Points p a b s) :
    Pointing M (update pred p a) (update succ p b) (ρ.set p s) where
  members := h.members
  placed q hq := by
    by_cases he : q = p
    · subst he
      rw [update_self, update_self, Ring.node_set_self]
      exact hs hq
    · rw [update_of_ne he, update_of_ne he, Ring.node_set_ne _ _ he]
      exact h.placed q hq

theorem Pointing.set_same (hs : p ∈ M → Points p (pred p) (succ p) s) :
    Pointing M pred succ (ρ.set p s) := by
  have hset := h.set hs
  rwa [update_eq_self, update_eq_self] at hset

theorem Pointing.clear (p n : Peer) : Pointing M pred succ (ρ.set p ((ρ.node p).clearStrikes n)) :=
  h.set_same fun hp => (h.placed p hp).clearStrikes n

/-! ### The calls of a stabilize -/

theorem Pointing.ask_ping (hq : q ∈ M) :
    ∃ ρ', ρ.perform (Ring.deliver (depth + 1)) p (callPeer q "PING".toList isPong) = (.good (),
      ρ') ∧
      Pointing M pred succ ρ' := by
  have hpong : goodReply ⟨.ok, words ["PONG".toList, idToHex q.id], 0⟩ isPong = some () := by
    rw [goodReply, words_cons_cons, if_pos ⟨rfl, by simp⟩, isPong, if_pos (by rfl)]
  refine ⟨_, Ring.perform_callPeer (deliver_ping ?_ (h.placed q hq).orphaned) hpong, h.clear p q⟩
  rw [h.members]
  exact hq

theorem Pointing.ask_neighbours (hq : q ∈ M) :
    ∃ l ρ', ρ.perform (Ring.deliver (depth + 1)) p
      (callPeer q "NEIGHBOURS".toList parsedNeighbours) =
      (.good ⟨pred q, l⟩, ρ') ∧ Pointing M pred succ ρ' := by
  have hplaced := h.placed q hq
  have hparse := @parseNeighbours_renderNeighbours ⟨(ρ.node q).pred, (ρ.node q).succs⟩
    hplaced.length.1 hplaced.length.2
  have hgood : goodReply ⟨.ok, renderNeighbours ⟨(ρ.node q).pred, (ρ.node q).succs⟩,
      0⟩ parsedNeighbours = some ⟨pred q, (ρ.node q).succs⟩ := by
    rw [goodReply, if_pos ⟨rfl, by rw [take_renderNeighbours]; decide⟩, parsedNeighbours, hparse,
      hplaced.pred]
    rfl
  refine ⟨_, _, Ring.perform_callPeer (deliver_neighbours ?_ hplaced.orphaned) hgood, h.clear p q⟩
  rw [h.members]
  exact hq

/-- **A member takes the one that announces itself**, if nobody closer is in the slot. -/
theorem Pointing.notify (hq : q ∈ M) (hid : p.id ≠ q.id)
    (hcloser : ∀ c, pred q = some c → inRangeOo p.id c.id q.id = true) :
    ∃ ρ', ρ.perform (Ring.deliver (depth + 1)) p (callPeer q (notifyLine p) isOk) = (.good (), ρ') ∧
      Pointing M (update pred q (some p)) succ ρ' := by
  have hplaced := h.placed q hq
  have hok : goodReply ⟨.ok, "OK".toList, 0⟩ isOk = some () := by rfl
  have htaken : ((ρ.node q).notified p).1 = none ∧
      Points q (some p) (succ q) ((ρ.node q).notified p).2 := by
    have hin : ∀ c, (ρ.node q).pred = some c → inRangeOo p.id c.id (ρ.node q).self.id = true := by
      intro c hc
      rw [hplaced.self]
      exact hcloser c (hplaced.pred ▸ hc)
    rcases notified_cases (ρ.node q) p with ⟨-, hc⟩ | ⟨c, hc, -, hout, -⟩ | ⟨-, hnone, hsame⟩
    · exact absurd rfl (ne_of_inRangeOo (hin p hc))
    · rw [hin c hc] at hout
      cases hout
    · refine ⟨hnone, Points.of_sameRouting ?_ hsame⟩
      exact ⟨hplaced.self, rfl, hplaced.succ, hplaced.orphaned, hplaced.length, hplaced.room⟩
  have hset := h.set fun _ => htaken.2
  rw [update_eq_self] at hset
  refine ⟨_, Ring.perform_callPeer (deliver_notify ?_ hplaced.orphaned hid htaken.1) hok,
    hset.clear p q⟩
  rw [h.members]
  exact hq

end

/-! ### One pass of stabilize -/

theorem Points.applyNeighbours (h : Points p a b s) (nb : Neighbours) :
    Points p a b (s.applyNeighbours b nb).2 := by
  have hsame := sameRouting_applyNeighbours s nb
  rw [NodeState.withMerged, h.succ] at hsame
  obtain ⟨rest, hmerge⟩ := mergeSuccessors_eq_cons s.self b nb.succs s.r
  have hlen : (mergeSuccessors s.self b nb.succs s.r).length ≤ s.r := length_mergeFrom h.room.1
  refine Points.of_sameRouting ?_ hsame
  refine ⟨h.self, h.pred, ?_, h.orphaned, ⟨?_, ?_⟩, h.room⟩
  · rw [NodeState.succ]
    dsimp only
    rw [hmerge]
    rfl
  · dsimp only
    rw [hmerge]
    simp
  · exact hlen.trans h.room.2

theorem Points.adopt (h : Points p a b s) (c : Peer) :
    (s.adopt b c).1 = true ∧ Points p a c (s.adopt b c).2 := by
  have hsame := sameRouting_adopt s c
  rw [h.succ] at hsame
  obtain ⟨r, hr⟩ : ∃ r, max s.r 1 = r + 1 := ⟨max s.r 1 - 1, by omega⟩
  rw [hr, List.take_succ_cons] at hsame
  refine ⟨by rw [NodeState.adopt, if_neg (not_not_intro h.succ)], Points.of_sameRouting ?_ hsame⟩
  refine ⟨h.self, h.pred, rfl, h.orphaned, ⟨?_, ?_⟩, h.room⟩
  · simp
  · have := h.room
    simp only [List.length_cons, List.length_take]
    omega

variable (left : ℕ)

/-- **A pass that finds nobody closer** ends with the member in its successor's slot. -/
theorem Pointing.settle (h : Pointing M pred succ ρ) (hp : p ∈ M) (hq : succ p = q) (hqM : q ∈ M)
    (hid : p.id ≠ q.id) (hout : ∀ c, pred q = some c → inRangeOo c.id p.id q.id = false)
    (hcloser : ∀ c, pred q = some c → inRangeOo p.id c.id q.id = true) :
    ∃ ρ', ρ.perform (Ring.deliver (depth + 1)) p (stabilizeLoop p (left + 1)) = ((), ρ') ∧
      Pointing M (update pred q (some p)) succ ρ' := by
  obtain ⟨l, ρ₁, hask, h₁⟩ := @Pointing.ask_neighbours _ _ _ _ p _ depth h hqM
  have hplaced := h₁.placed p hp
  rw [hq] at hplaced
  have happly : ((ρ₁.node p).applyNeighbours q ⟨pred q, l⟩).1 = (true, none) := by
    have hcurrent := applyNeighbours_current (ρ₁.node p) ⟨pred q, l⟩
    rw [hplaced.succ] at hcurrent
    refine Prod.ext hcurrent (Option.eq_none_iff_forall_ne_some.mpr fun c hc => ?_)
    obtain ⟨hc, -, hin⟩ := applyNeighbours_candidate (Prod.ext rfl hc)
    rw [hplaced.self, hout c hc] at hin
    cases hin
  have hmerged : Pointing M pred succ (ρ₁.set p ((ρ₁.node p).applyNeighbours q ⟨pred q, l⟩).2) :=
    h₁.set_same fun _ => hq ▸ hplaced.applyNeighbours _
  obtain ⟨ρ₂, htell, h₂⟩ := @Pointing.notify _ _ _ _ p _ depth hmerged hqM hid hcloser
  refine ⟨ρ₂, ?_, h₂⟩
  have hne : q ≠ p := fun he => hid (congrArg Peer.id he.symm)
  rw [stabilizeLoop, Ring.perform_bind, Ring.perform_look NodeState.succ, (h.placed p hp).succ, hq,
    Ring.perform_bind, hask]
  dsimp only
  rw [Ring.perform_bind, Ring.perform_sect, happly]
  dsimp only
  rw [notifySuccessor, Ring.perform_bind, Ring.perform_look NodeState.succ,
    (hmerged.placed p hp).succ, hq, if_neg hne, Ring.perform_bind]
  exact congrArg (fun o => ((), o.2)) htell

/-- **A pass that finds a closer member** takes it and goes on. -/
theorem Pointing.advance (h : Pointing M pred succ ρ) (hp : p ∈ M) (hq : succ p = q) (hqM : q ∈ M)
    (hc : pred q = some c) (hcM : c ∈ M) (hcq : c ≠ q) (hin : inRangeOo c.id p.id q.id = true) :
    ∃ ρ', ρ.perform (Ring.deliver (depth + 1)) p (stabilizeLoop p (left + 1)) =
        ρ'.perform (Ring.deliver (depth + 1)) p (stabilizeLoop p left) ∧
      Pointing M pred (update succ p c) ρ' := by
  obtain ⟨l, ρ₁, hask, h₁⟩ := @Pointing.ask_neighbours _ _ _ _ p _ depth h hqM
  have hplaced := h₁.placed p hp
  rw [hq] at hplaced
  have hid := ne_of_inRangeOo hin
  have hcp : c ≠ p := fun he => hid (congrArg Peer.id he)
  have happly : ((ρ₁.node p).applyNeighbours q ⟨pred q, l⟩).1 = (true, some c) := by
    rw [NodeState.applyNeighbours, if_neg (not_not_intro hplaced.succ), hc]
    dsimp only
    rw [hplaced.self, if_neg (by simp [hcp, hcq]), if_neg hid, if_pos hin]
  have hmerged : Pointing M pred succ (ρ₁.set p ((ρ₁.node p).applyNeighbours q ⟨pred q, l⟩).2) :=
    h₁.set_same fun _ => hq ▸ hplaced.applyNeighbours _
  obtain ⟨ρ₂, hping, h₂⟩ := @Pointing.ask_ping _ _ _ _ p _ depth hmerged hcM
  have hplaced₂ := h₂.placed p hp
  rw [hq] at hplaced₂
  obtain ⟨htaken, hadopted⟩ := hplaced₂.adopt c
  have h₃ := h₂.set fun _ => hadopted
  rw [update_eq_self] at h₃
  refine ⟨_, ?_, h₃⟩
  rw [stabilizeLoop, Ring.perform_bind, Ring.perform_look NodeState.succ, (h.placed p hp).succ, hq,
    Ring.perform_bind, hask]
  dsimp only
  rw [Ring.perform_bind, Ring.perform_sect, happly]
  dsimp only
  rw [Ring.perform_bind, hping]
  dsimp only
  rw [Ring.perform_bind, Ring.perform_sect, htaken]

end pointing

/-! ### Joining a wired ring -/

section join
variable {R : Members} {r depth : ℕ} {x known current : Peer} {ρ : Ring} {k : Id}

/-- The members of `R` listen, as `init_wired` left them. -/
def WiredRing (R : Members) (r : ℕ) (ρ : Ring) : Prop :=
  ρ.members = R.list ∧ ∀ p ∈ R, ρ.node p = wired R r p

theorem points_wired (hr : 1 ≤ r ∧ r ≤ MAX_SUCCESSORS) {p : Peer} (hp : p ∈ R) :
    Points p (wired R r p).pred (successorOf (p.id + 1) R) (wired R r p) := by
  have hsame := sameRouting_wired R r p
  refine ⟨hsame.self, rfl, wired_succ hr.1 hp, hsame.orphaned, ?_, by rw [hsame.r]; exact hr⟩
  obtain ⟨hpos, hle⟩ := length_succList hr.1 hp
  rw [hsame.succs]
  exact ⟨hpos, hle.trans hr.2⟩

theorem points_joined (hr : 1 ≤ r ∧ r ≤ MAX_SUCCESSORS) (x known owner : Peer)
    (list : Option (List Peer)) :
    Points x none owner ((NodeState.fresh x r).joined known owner list) := by
  refine Points.of_sameRouting ?_ (sameRouting_joined _ known owner list)
  cases list with
  | none => exact ⟨rfl, rfl, rfl, rfl, ⟨Nat.le_refl 1, Nat.le_of_ble_eq_true rfl⟩, hr⟩
  | some l =>
    obtain ⟨rest, hmerge⟩ := mergeSuccessors_eq_cons x owner l r
    have hlen : (mergeSuccessors x owner l r).length ≤ r := length_mergeFrom hr.1
    have hpos : 1 ≤ (mergeSuccessors x owner l r).length := by simp [hmerge]
    exact ⟨rfl, rfl, congrArg (List.headD · x) hmerge, rfl, ⟨hpos, hlen.trans hr.2⟩, hr⟩

variable (h : WiredRing R r ρ) (hr : 1 ≤ r ∧ r ≤ MAX_SUCCESSORS)
include h hr

theorem WiredRing.find {q : Peer} (hq : q ∈ R) :
    Ring.deliver (depth + 1) ⟨q, findRequest k⟩ ρ = (⟨.ok, renderStep (routeStep q
      (successorOf (q.id + 1) R) (buildFingers q.id R) k), 0⟩, ρ) := by
  have hpoints := points_wired hr hq
  rw [← h.2 q hq] at hpoints
  rw [deliver_find (by rw [h.1]; exact hq) hpoints.orphaned hpoints.self, hpoints.succ, h.2 q hq,
    wired_fingers hr.1 hq]

theorem WiredRing.lookupFrom (left : ℕ)
    (path : List Peer) (hc : current ∈ R) (s : NodeState) (sent : List Call) :
    ρ.perform (Ring.deliver (depth + 1)) x (ChordFs.lookupFrom k left path current) =
      (((ChordFs.lookupFrom k left path current).run (wiredAnswers R) s sent).1, ρ) := by
  induction left generalizing path current sent with
  | zero => rfl
  | succ left ih =>
    have hcovers := routeStep_covers current (successorOf (current.id + 1) R)
      (buildFingers current.id R) k
    rw [run_lookupFrom_succ left path hc, ChordFs.lookupFrom, Ring.perform, h.find hr hc]
    dsimp only
    rw [judge_renderStep 0 hcovers]
    by_cases hown : (routeStep current (successorOf (current.id + 1) R)
        (buildFingers current.id R) k).owner = true
    · simp only [if_pos hown]
      rfl
    · simp only [if_neg hown]
      exact ih _ (routeStep_peer_mem (successorOf_mem _ R) fun f hf => mem_of_mem_buildFingers hf) _

theorem WiredRing.join (hx : ∀ p ∈ R, p.id ≠ x.id) (hk : known ∈ R) :
    ∃ list, ρ.perform (Ring.deliver (depth + 1)) x (ChordFs.join x known) =
      ((.joined, []), ρ.set x ((ρ.node x).joined known (successorOf x.id R) list)) := by
  have howner := successorOf_mem x.id R
  have hpoints := points_wired hr howner
  rw [← h.2 _ howner] at hpoints
  have hlookup := @WiredRing.lookupFrom R r depth x known ρ x.id h hr MAX_REQUESTS
    [] hk (ρ.node x) []
  have hfinds := outcome_lookup (k := x.id) hk (ρ.node x)
  have hasks := @deliver_neighbours ρ _ depth (by rw [h.1]; exact howner) hpoints.orphaned
  have hne : successorOf x.id R ≠ x := fun he => hx _ howner (congrArg Peer.id he)
  rw [ChordFs.join, Ring.perform_bind, lookup, hlookup]
  dsimp only
  rw [← lookup, hfinds]
  dsimp only
  rw [if_neg hne, if_neg (hx _ howner), Ring.perform_bind]
  have hask : ρ.perform (Ring.deliver (depth + 1)) x
    (.ask ⟨successorOf x.id R, "NEIGHBOURS".toList⟩) = (_, ρ) := hasks
  rw [hask]
  exact ⟨_, rfl⟩

/-- **A newcomer joins**: its successor is the owner of its identifier, and nobody else has
moved. -/
theorem WiredRing.joinBy (hx : ∀ p ∈ R, p.id ≠ x.id) (hk : known ∈ R) :
    (ρ.joinBy (depth + 1) x known r).1 = .joined ∧
    Pointing (x :: R.list) (update (fun p => (wired R r p).pred) x none)
      (update (fun p => successorOf (p.id + 1) R) x (successorOf x.id R))
      (ρ.joinBy (depth + 1) x known r).2 := by
  have hother : ∀ p ∈ R, p ≠ x := fun p hp he => hx p hp (congrArg Peer.id he)
  -- the newcomer does not listen yet, so the ring is still the wired one
  have hring : WiredRing R r (ρ.set x (.fresh x r)) := by
    refine ⟨h.1, fun p hp => ?_⟩
    rw [Ring.node_set_ne _ _ (hother p hp)]
    exact h.2 p hp
  obtain ⟨list, hjoin⟩ := @WiredRing.join R r depth x known _ hring hr hx hk
  rw [Ring.node_set_self] at hjoin
  rw [Ring.joinBy, hjoin]
  refine ⟨rfl, ?_⟩
  dsimp only
  rw [if_pos rfl, Ring.node_set_self]
  refine ⟨congrArg (x :: ·) h.1, fun p hp => ?_⟩
  rw [Ring.listen]
  dsimp only
  by_cases he : p = x
  · rw [he, update_self, update_self, Ring.node_set_self]
    exact points_joined hr x known _ list
  · have hpR : p ∈ R := (List.mem_cons.mp hp).resolve_left he
    rw [update_of_ne he, update_of_ne he, Ring.node_set_ne _ _ he,
      Ring.node_set_ne _ _ he, hring.2 p hpR]
    exact points_wired hr hpR

end join

/-! ### The place of the newcomer -/

section place
variable {R R' : Members} {x : Peer}

/-- The ring `R` with a newcomer. -/
structure Grown (R R' : Members) (x : Peer) : Prop where
  mem : ∀ p, p ∈ R' ↔ p = x ∨ p ∈ R
  new : ∀ p ∈ R, p.id ≠ x.id

theorem exists_grown (hx : ∀ p ∈ R, p.id ≠ x.id) : ∃ R', Grown R R' x := by
  have hinj : ∀ p ∈ x :: R.list, ∀ q ∈ x :: R.list, p.id = q.id → p = q := by
    intro p hp q hq hid
    simp only [List.mem_cons] at hp hq
    rcases hp with rfl | hp
    · rcases hq with rfl | hq
      · rfl
      · exact absurd hid.symm (hx q hq)
    · rcases hq with rfl | hq
      · exact absurd hid (hx p hp)
      · exact Members.eq_of_id hp hq hid
  refine ⟨.ofPeers (x :: R.list) (List.cons_ne_nil _ _) hinj, fun p => ?_, hx⟩
  rw [Members.mem_ofPeers, List.mem_cons]
  rfl

section
variable (h : Grown R R' x)
include h

theorem Grown.mem_self : x ∈ R' := (h.mem x).mpr (.inl rfl)

theorem Grown.mem_old {p : Peer} (hp : p ∈ R) : p ∈ R' := (h.mem p).mpr (.inr hp)

theorem Grown.ne {p : Peer} (hp : p ∈ R) : p ≠ x := fun he =>
  h.new p hp (congrArg Peer.id he)

theorem Grown.ids_eq : R'.ids = insert x.id R.ids := by
  ext i
  simp only [Members.ids, Set.mem_ofPred_eq, Set.mem_insert_iff, h.mem]
  grind

theorem Grown.id_notMem : x.id ∉ R.ids := by
  rintro ⟨p, hp, hid⟩
  exact h.new p hp hid

theorem Grown.predecessorOf_eq : predecessorOf x.id R' = predecessorOf x.id R := by
  have hfirst := (last_predecessorOf x.id R).first_insert
  rw [← h.ids_eq] at hfirst
  have hp := h.mem_old (predecessorOf_mem x.id R)
  exact Members.eq_of_id (predecessorOf_mem _ R') hp
    ((last_predecessorOf x.id R').unique (hfirst.last (Members.id_mem hp)))

theorem Grown.successorOf_new : successorOf (x.id + 1) R' = successorOf x.id R := by
  have hfirst := (owner_successorOf x.id R).first_insert h.id_notMem
  rw [← h.ids_eq] at hfirst
  exact Members.eq_of_id (successorOf_mem _ R') (h.mem_old (successorOf_mem _ R))
    ((first_successorOf h.mem_self).unique hfirst)

end

theorem Grown.successorOf_old (h : Grown R R' x) {p : Peer} (hp : p ∈ R)
    (hne : p ≠ predecessorOf x.id R) : successorOf (p.id + 1) R' = successorOf (p.id + 1) R := by
  have hid : p.id ≠ (predecessorOf x.id R).id := fun he =>
    hne (Members.eq_of_id hp (predecessorOf_mem _ R) he)
  have hfirst := (first_successorOf hp).insert_of_ne (last_predecessorOf x.id R)
    (Members.id_mem hp) hid
  rw [← h.ids_eq] at hfirst
  exact Members.eq_of_id (successorOf_mem _ R') (h.mem_old (successorOf_mem _ R))
    ((first_successorOf (h.mem_old hp)).unique hfirst)

theorem Grown.predecessorOf_owner (h : Grown R R' x) :
    predecessorOf (successorOf x.id R).id R' = x :=
  (ChordFs.predecessorOf_eq (h.mem_old (successorOf_mem _ R)) h.mem_self
    (h.ne (successorOf_mem _ R)).symm h.successorOf_new).2

theorem Grown.predecessorOf_old (h : Grown R R' x) {p : Peer} (hp : p ∈ R)
    (hne : p ≠ successorOf x.id R) :
    R.list.length > 1 ∧ predecessorOf p.id R' = predecessorOf p.id R := by
  have hsucc := successorOf_predecessorOf hp
  have hpred := predecessorOf_mem p.id R
  have hlen : R.list.length > 1 := by
    have := length_others (show p ∈ R.list from hp)
    have := List.length_pos_of_mem
      ((mem_others R.nodup hp).mpr ⟨successorOf_mem x.id R, fun he => hne he.symm⟩)
    omega
  have hother : predecessorOf p.id R ≠ predecessorOf x.id R := by
    intro he
    rw [he, successorOf_predecessorOf_key] at hsucc
    exact hne hsucc.symm
  refine ⟨hlen, (ChordFs.predecessorOf_eq (h.mem_old hp) (h.mem_old hpred)
    (predecessorOf_ne hp hlen) ?_).2⟩
  rw [h.successorOf_old hpred hother, hsucc]

end place

/-! ### The two steps -/

section steps
variable {R R' : Members} {r depth : ℕ} {x : Peer} {ρ : Ring} {pred : Peer → Option Peer}
  {succ : Peer → Peer}

theorem Grown.first_step (h : Grown R R' x) (hpoint : Pointing (x :: R.list) pred succ ρ)
    (hsucc : succ x = successorOf x.id R)
    (hbefore : ∀ c, pred (successorOf x.id R) = some c → c ∈ R) :
    Pointing (x :: R.list) (update pred (successorOf x.id R) (some x)) succ
      (ρ.stabilizeBy (depth + 1) x) := by
  have howner := successorOf_mem x.id R
  have hfirst := (owner_successorOf x.id R).first_insert h.id_notMem
  have hout : ∀ c ∈ R, inRangeOo c.id x.id (successorOf x.id R).id = false := by
    intro c hc
    rw [inRangeOo_eq_false]
    exact hfirst.le c.id (Set.mem_insert_of_mem _ (Members.id_mem hc))
  obtain ⟨ρ', hrun, hpoint'⟩ := @Pointing.settle _ _ _ _ x _ depth 80 hpoint List.mem_cons_self
    hsucc (List.mem_cons_of_mem _ howner) (h.new _ howner).symm (fun c hc => hout c (hbefore c hc))
    (fun c hc => inRangeOo_or (h.new c (hbefore c hc)).symm (hout c (hbefore c hc)))
  rw [Ring.stabilizeBy, stabilize]
  exact (congrArg Prod.snd hrun) ▸ hpoint'

theorem Grown.second_step (h : Grown R R' x) (hpoint : Pointing (x :: R.list) pred succ ρ)
    (hsucc : succ (predecessorOf x.id R) = successorOf x.id R)
    (hpred : pred (successorOf x.id R) = some x) (hempty : pred x = none) :
    Pointing (x :: R.list) (update pred x (some (predecessorOf x.id R)))
      (update succ (predecessorOf x.id R) x)
      (ρ.stabilizeBy (depth + 1) (predecessorOf x.id R)) := by
  have howner := successorOf_mem x.id R
  have hbefore := predecessorOf_mem x.id R
  have hp : predecessorOf x.id R ∈ x :: R.list := List.mem_cons_of_mem _ hbefore
  have hin : inRangeOo x.id (predecessorOf x.id R).id (successorOf x.id R).id = true := by
    have hfirst := (last_predecessorOf x.id R).first_insert
    have hle := hfirst.le _ (Set.mem_insert_of_mem _ (Members.id_mem howner))
    rw [inRangeOo_iff]
    refine Nat.lt_of_le_of_ne hle fun he => h.new _ howner (steps_injective he).symm
  obtain ⟨ρ₁, hrun₁, hpoint₁⟩ :=
    @Pointing.advance _ _ _ _ (predecessorOf x.id R) _ x depth 80 hpoint hp
    hsucc (List.mem_cons_of_mem _ howner) hpred List.mem_cons_self (h.ne howner).symm hin
  obtain ⟨ρ₂, hrun₂, hpoint₂⟩ :=
    @Pointing.settle _ _ _ _ (predecessorOf x.id R) _ depth 79 hpoint₁ hp
    (update_self ..) List.mem_cons_self (h.new _ hbefore)
    (fun c hc => by rw [hempty] at hc; cases hc) (fun c hc => by rw [hempty] at hc; cases hc)
  rw [Ring.stabilizeBy, stabilize]
  exact (congrArg Prod.snd (hrun₁.trans hrun₂)) ▸ hpoint₂

theorem Grown.pointers (h : Grown R R' x) {p : Peer} (hp : p ∈ R') :
    update (update (update (fun p => (wired R r p).pred) x none)
        (successorOf x.id R) (some x)) x (some (predecessorOf x.id R)) p =
      some (predecessorOf p.id R') ∧
    update (update (fun p => successorOf (p.id + 1) R) x (successorOf x.id R))
        (predecessorOf x.id R) x p = successorOf (p.id + 1) R' := by
  constructor
  · by_cases hx : p = x
    · rw [hx, update_self, h.predecessorOf_eq]
    rw [update_of_ne hx]
    by_cases hs : p = successorOf x.id R
    · rw [hs, update_self, h.predecessorOf_owner]
    obtain ⟨hlen, hsame⟩ := h.predecessorOf_old (((h.mem p).mp hp).resolve_left hx) hs
    rw [update_of_ne hs, update_of_ne hx, hsame, (sameRouting_wired R r p).pred]
    exact if_pos hlen
  · by_cases hq : p = predecessorOf x.id R
    · rw [hq, update_self, ← h.predecessorOf_eq, successorOf_predecessorOf h.mem_self]
    rw [update_of_ne hq]
    by_cases hx : p = x
    · rw [hx, update_self, h.successorOf_new]
    rw [update_of_ne hx, h.successorOf_old (((h.mem p).mp hp).resolve_left hx) hq]

end steps

/-- **One join needs two steps.**  On a ring wired by `init_wired`, with lists of any length, a
newcomer with an identifier of its own joins through any member; after one `stabilize` of the
newcomer and then one of the member before it, every member's first successor and predecessor is
right. -/
theorem join_needs_two_steps (R : Members) (r : ℕ) (hr : 1 ≤ r ∧ r ≤ MAX_SUCCESSORS)
    (x known : Peer) (hx : ∀ p ∈ R, p.id ≠ x.id) (hknown : known ∈ R) (depth : ℕ) :
    let joined := (wiredNet R r).ring.joinBy (depth + 1) x known r
    joined.1 = .joined ∧ ∃ R' : Members, (∀ p, p ∈ R' ↔ p = x ∨ p ∈ R) ∧
      let ρ := (joined.2.stabilizeBy (depth + 1) x).stabilizeBy (depth + 1) (predecessorOf x.id R')
      ∀ p ∈ R', (ρ.node p).succ = successorOf (p.id + 1) R' ∧
        (ρ.node p).pred = some (predecessorOf p.id R') := by
  have hwired : WiredRing R r (wiredNet R r).ring := ⟨rfl, fun _ _ => rfl⟩
  obtain ⟨hstatus, hjoined⟩ := @WiredRing.joinBy R r depth x known _ hwired hr hx hknown
  obtain ⟨R', hgrown⟩ := exists_grown hx
  refine ⟨hstatus, R', hgrown.mem, fun p hp => ?_⟩
  have hne := hgrown.ne (successorOf_mem x.id R)
  have hfirst := @Grown.first_step R R' depth x _ _ _ hgrown hjoined (Function.update_self ..)
    fun c hc => by
    rw [Function.update_of_ne hne, (sameRouting_wired R r _).pred] at hc
    obtain ⟨-, ⟨⟩⟩ := Option.ite_none_right_eq_some.mp hc
    exact predecessorOf_mem _ R
  have hsteps := @Grown.second_step R R' depth x _ _ _ hgrown hfirst
    (by rw [Function.update_of_ne (hgrown.ne (predecessorOf_mem x.id R)),
      successorOf_predecessorOf_key])
    (Function.update_self ..) (by rw [Function.update_of_ne hne.symm, Function.update_self])
  have hpoints := hsteps.placed p (List.mem_cons.mpr ((hgrown.mem p).mp hp))
  obtain ⟨hpred, hsucc⟩ := hgrown.pointers (r := r) hp
  rw [hgrown.predecessorOf_eq]
  exact ⟨hpoints.succ.trans hsucc, hpoints.pred.trans hpred⟩

/-- A newcomer between the first and the second of three members, which joins through the last. -/
theorem join_needs_two_steps_three :
    let joined := (wiredNet threeMembers 2).ring.joinBy (2 + 1) (hostPeer 7 4)
      (predecessorOf 0 threeMembers) 2
    joined.1 = .joined ∧ ∃ R' : Members, (∀ p, p ∈ R' ↔ p = hostPeer 7 4 ∨ p ∈ threeMembers) ∧
      let ρ := (joined.2.stabilizeBy (2 + 1) (hostPeer 7 4)).stabilizeBy (2 + 1)
        (predecessorOf 7 R')
      ∀ p ∈ R', (ρ.node p).succ = successorOf (p.id + 1) R' ∧
        (ρ.node p).pred = some (predecessorOf p.id R') :=
  join_needs_two_steps threeMembers 2 (by decide) (hostPeer 7 4) (predecessorOf 0 threeMembers)
    (by decide)
    (predecessorOf_mem 0 threeMembers) 2

end ChordFs
