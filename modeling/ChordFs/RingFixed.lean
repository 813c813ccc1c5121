import ChordFs.RingWired

/-! # A correct ring stays as it is

Maintenance finds nothing to do on a ring that is wired correctly: `wired_ring_fixed`.  Every answer
a member gets there is an honest one from a wired state, so of all the changes a section can make
(`Change`) the only ones left are those that write back what was there. -/

namespace ChordFs

open Circle Dialogue

section fixed
variable {R : Members} {r : ℕ} {p q c : Peer} {T : List Peer} {H : Turns} {s s' : NodeState}

/-! ### Pieces of a section -/

/-- The tables a member was wired with, whatever else has changed. -/
abbrev Wired (R : Members) (r : ℕ) (p : Peer) (s : NodeState) : Prop := SameRouting (wired R r p) s

section
variable (h : Wired R r p s)
include h

theorem Wired.self_eq : s.self = p :=
  h.self.trans (sameRouting_wired R r p).self

theorem Wired.succs_eq : s.succs = succList R r p :=
  h.succs.trans (sameRouting_wired R r p).succs

theorem Wired.succ_eq (hr : 1 ≤ r) (hp : p ∈ R) : s.succ = successorOf (p.id + 1) R := by
  rw [← wired_succ hr hp, NodeState.succ, NodeState.succ, h.succs, h.self]

theorem Wired.fingers_eq (hr : 1 ≤ r) (hp : p ∈ R) : s.fingers = buildFingers p.id R :=
  h.fingers.trans (wired_fingers hr hp)

theorem Wired.pred_eq : s.pred = if R.list.length > 1 then some (predecessorOf p.id R) else none :=
  h.pred.trans (sameRouting_wired R r p).pred

theorem Wired.strikes_eq : s.strikes = .empty :=
  h.strikes.trans (sameRouting_wired R r p).strikes

theorem Wired.orphaned_eq : s.orphaned = false :=
  h.orphaned.trans (sameRouting_wired R r p).orphaned

theorem Wired.mem_of_holds (hr : 1 ≤ r) (hp : p ∈ R) (hq : q = s.succ ∨ s.holds q = true) : q ∈ R := by
  rcases hq with rfl | hq
  · rw [h.succ_eq hr hp]
    exact successorOf_mem _ R
  simp only [NodeState.holds, decide_eq_true_eq] at hq
  rcases hq with hq | hq | hq
  · rw [h.pred_eq] at hq
    split at hq
    · cases hq
      exact predecessorOf_mem _ R
    · cases hq
  · rw [h.succs_eq] at hq
    exact mem_of_mem_succList hp hq
  · rw [h.fingers_eq hr hp] at hq
    exact mem_of_mem_buildFingers hq

end

/-- The owner of the start of a finger is the owner of every later start that it covers. -/
theorem successorOf_covered (hp : p ∈ R) {i j : ℕ} (hij : i ≤ j) (hj : j < ID_BITS)
    (hin : inRangeOc (fingerStart p.id j) p.id (successorOf (fingerStart p.id i) R).id = true) :
    successorOf (fingerStart p.id i) R = successorOf (fingerStart p.id j) R := by
  rw [inRangeOc_iff, steps_fingerStart p.id hj] at hin
  obtain ⟨_, hmin⟩ := steps_successorOf_fingerStart hp (hij.trans_lt hj)
  obtain ⟨hge, hmin'⟩ := steps_successorOf_fingerStart hp hj
  have hpow : 2 ^ i ≤ 2 ^ j := Nat.pow_le_pow_right (by decide) hij
  have h₁ := hmin _ (Members.id_mem (successorOf_mem _ R)) (hpow.trans hge)
  have h₂ := hmin' _ (Members.id_mem (successorOf_mem _ R)) hin
  exact Members.eq_of_id (successorOf_mem _ R) (successorOf_mem _ R) (steps_injective (Nat.le_antisymm h₁ h₂))

/-- **The right owner for a finger is filled in where it is right**: the fingers it reaches are
right then, and no other finger changes. -/
theorem fillForward_right (hp : p ∈ R) {i : ℕ} (left j : ℕ) (hij : i ≤ j) (hj : j + left ≤ ID_BITS)
    {fingers : List Peer} (hlen : fingers.length = ID_BITS) (m : ℕ) :
    let out := fillForward p (successorOf (fingerStart p.id i) R) left j fingers
    (fingers[m]? = (buildFingers p.id R)[m]? ∨ (j ≤ m ∧ m < out.1)) → out.2[m]? = (buildFingers p.id R)[m]? := by
  induction left generalizing j fingers with
  | zero =>
    rintro _ (h | h)
    · exact h
    · exact absurd h.2 (Nat.not_lt.mpr h.1)
  | succ left ih =>
    rw [fillForward]
    split
    · rename_i hin
      have hown := successorOf_covered hp hij (by omega) hin
      have hset : (fingers.set j (successorOf (fingerStart p.id i) R))[j]? = (buildFingers p.id R)[j]? := by
        rw [List.getElem?_set_self (by omega), hown, getElem?_buildFingers p.id R (by omega)]
      intro out h
      refine ih (j + 1) (by omega) (by omega) (by rwa [List.length_set]) ?_
      by_cases hmj : m = j
      · exact .inl (hmj ▸ hset)
      · rw [List.getElem?_set_ne (Ne.symm hmj)]
        exact h.imp_right fun h => ⟨by omega, h.2⟩
    · rintro _ (h | h)
      · exact h
      · exact absurd h.2 (Nat.not_lt.mpr h.1)

theorem fillForward_buildFingers (hp : p ∈ R) {i : ℕ} (hi : i < ID_BITS) :
    (fillForward p (successorOf (fingerStart p.id i) R) (ID_BITS - i) i (buildFingers p.id R)).2 =
      buildFingers p.id R :=
  List.ext_getElem? fun m => fillForward_right hp _ i (Nat.le_refl i) (by omega) (length_buildFingers ..) m (.inl rfl)

/-- **The right owner for a finger changes no finger.** -/
theorem fixFinger_wired (hw : Wired R r p s) (hr : 1 ≤ r) (hp : p ∈ R) (i : ℕ) {path : List Peer} :
    SameRouting s (s.fixFinger i ⟨.ok (successorOf (fingerStart p.id i) R), path⟩) := by
  have hzero : (buildFingers p.id R)[0]? = some (successorOf (p.id + 1) R) :=
    getElem?_buildFingers p.id R (by decide)
  have hfill : (fillForward p (successorOf (fingerStart p.id i) R) (ID_BITS - i) i
      (buildFingers p.id R)).2 = buildFingers p.id R := by
    rcases Nat.lt_or_ge i ID_BITS with hi | hi
    · exact fillForward_buildFingers hp hi
    · rw [Nat.sub_eq_zero_of_le hi]
      rfl
  have hset : (buildFingers p.id R).set i (successorOf (fingerStart p.id i) R) =
      buildFingers p.id R := by
    rcases Nat.lt_or_ge i ID_BITS with hi | hi
    · exact set_eq_self (getElem?_buildFingers p.id R hi)
    · exact List.set_eq_of_length_le (by rw [length_buildFingers]; exact hi)
  rcases fixFinger_ok s i (successorOf (fingerStart p.id i) R) path with h | ⟨fingers, hf, h⟩
  · exact h
  · rw [hw.self_eq, hw.fingers_eq hr hp, hfill, hset, or_self] at hf
    refine SameRouting.trans ?_ h
    refine ⟨rfl, rfl, rfl, rfl, ?_, rfl, rfl, .of_eq rfl rfl⟩
    dsimp only
    rw [hf, hw.succ_eq hr hp, hw.fingers_eq hr hp, set_eq_self hzero]

/-- **The list of the successor changes nothing.** -/
theorem applyNeighbours_wired (hw : Wired R r p s) (hr : 1 ≤ r) (hp : p ∈ R) {nb : Neighbours}
    (hnb : nb.succs = succList R r s.succ) : SameRouting s (s.applyNeighbours s.succ nb).2 := by
  have hsucc := hw.succ_eq hr hp
  have hself := hw.self_eq
  have hrr : s.r = r := hw.r.trans (sameRouting_wired R r p).r
  have hmerge : mergeSuccessors s.self s.succ nb.succs s.r = s.succs := by
    rw [hnb, hsucc, hself, hrr, hw.succs_eq]
    exact merge_succList hr hp
  have hzero : s.fingers[0]? = some (s.succs.headD s.self) := by
    rw [hw.fingers_eq hr hp, getElem?_buildFingers p.id R (by decide)]
    exact congrArg some hsucc.symm
  refine SameRouting.trans ?_ (sameRouting_applyNeighbours s nb)
  refine ⟨rfl, rfl, rfl, hmerge, ?_, rfl, rfl, .of_eq rfl rfl⟩
  dsimp only
  rw [hmerge, set_eq_self hzero]

/-! ### What a member of a wired ring sees -/

/-- What is known of the dialogue of a task at `p`. -/
structure WiredTurns (R : Members) (r : ℕ) (p : Peer) (T : List Peer) (H : Turns) : Prop where
  mem : p ∈ R
  told : ∀ c ∈ T, c ∈ R ∧ c ≠ p ∧ successorOf (c.id + 1) R = p
  saw : ∀ s, Saw H s → Wired R r p s
  heard : ∀ (q : Call) (a : Exchanged), Turn.said q a ∈ H → q.node ∈ R ∧ Honest (Wired R r q.node) q a

section
variable (h : WiredTurns R r p T H)
include h

theorem WiredTurns.owner (hr : 1 ≤ r) {n x : Peer} {k : Id} {a : Exchanged}
    (hn : Heard H n (findRequest k) a) (hj : judge n k a = .owner x) : x = successorOf k R := by
  obtain ⟨hmem, honest⟩ := h.heard _ a hn
  obtain ⟨s, hs, hjudge⟩ := honest.find k rfl
  dsimp only at hmem hs hjudge
  have hsucc := hs.succ_eq hr hmem
  rw [hjudge] at hj
  by_cases hown : (routeStep n s.succ s.fingers k).owner = true
  · rw [if_pos hown] at hj
    cases hj
    rw [hsucc] at hown ⊢
    exact routeStep_peer_eq_successorOf hmem hown
  · rw [if_neg hown] at hj
    cases hj

theorem WiredTurns.knows (hr : 1 ≤ r) {x : Peer} (hk : Knows p T H x) : x ∈ R := by
  have hwithin : ∀ {m : Peer} {s : NodeState}, m ∈ R → Wired R r m s → Within (· ∈ R) s :=
    fun hm hs => ⟨hs.mem_of_holds hr hm (.inl rfl), fun q hq => hs.mem_of_holds hr hm (.inr hq)⟩
  refine knows_mem h.mem (fun c hc => (h.told c hc).1) (fun s hs => ?_) (fun q a hq => .inl ?_) hk
  · exact ⟨(h.saw s hs).orphaned_eq, hwithin h.mem (h.saw s hs)⟩
  · exact (h.heard q a hq).2.mono fun s hs => hwithin (h.heard q a hq).1 hs

theorem WiredTurns.minor (hw : Wired R r p s) (hc : Minor p T H s s') : SameRouting s s' := by
  cases hc with
  | idle hs => exact hs.toSameRouting
  | clear _ _ _ =>
    refine ⟨rfl, rfl, rfl, rfl, rfl, rfl, ?_, .of_eq rfl rfl⟩
    rw [NodeState.clearStrikes, hw.strikes_eq]
    rfl
  | @report node line a _ hH hline hbad =>
    -- every answer is a good one
    have := ((h.heard ⟨node, line⟩ a (hH ▸ List.mem_cons_self)).2.checked (hline.imp_right (Or.imp_right fun hl => ⟨p, hl⟩)))
    rw [hbad] at this
    cases this
  | @notify c _ _ _ _ hcT _ =>
    obtain ⟨hcR, hcne, hcs⟩ := h.told c hcT
    obtain ⟨hlen, hpred⟩ := predecessorOf_eq h.mem hcR hcne hcs
    have hs : s.pred = some c := by rw [hw.pred_eq, if_pos hlen, hpred]
    rcases notified_cases s c with ⟨he, _⟩ | ⟨x, hx, hxne, _⟩ | ⟨hin, _⟩
    · rw [he]
      exact .refl s
    · rw [hs] at hx
      exact absurd (Option.some.inj hx).symm hxne
    · exact absurd rfl (ne_of_inRangeOo (hin c hs))
  | @fill c _ _ _ _ hcT _ hnone =>
    obtain ⟨hcR, hcne, hcs⟩ := h.told c hcT
    obtain ⟨hlen, _⟩ := predecessorOf_eq h.mem hcR hcne hcs
    rw [hw.pred_eq, if_pos hlen] at hnone
    cases hnone
  | @suspect target a _ hH hrefused =>
    have := (h.heard ⟨target, "PING".toList⟩ a (hH ▸ List.mem_cons_self ..)).2.ok
    rw [hrefused] at this
    cases this

/-- **Every section of a member leaves the tables as they are.** -/
theorem WiredTurns.change (hr : 1 ≤ r) (hw : Wired R r p s)
    (hc : Section p T H s s') : SameRouting s s' := by
  cases hc with
  | minor hm => exact h.minor hw hm
  | merge hH hgood =>
    obtain ⟨hmem, honest⟩ := h.heard _ _ (heard_of_merge hH)
    obtain ⟨s₀, hs₀, hparse⟩ := honest.neighbours rfl
    apply applyNeighbours_wired hw hr h.mem
    rw [goodReply_parsed hgood hparse]
    exact hs₀.succs_eq
  | adopt hH _ hgood hpred hid _ =>
    -- the successor names this member and no other
    obtain ⟨hmem, honest⟩ := h.heard _ _ (heard_of_adopt hH)
    obtain ⟨s₀, hs₀, hparse⟩ := honest.neighbours rfl
    rw [goodReply_parsed hgood hparse] at hpred
    dsimp only at hpred hmem hs₀
    rw [hs₀.pred_eq] at hpred
    split at hpred
    · rename_i hlen
      cases hpred
      by_cases hself : p = s.succ
      · exact absurd (hself.trans (hw.succ_eq hr h.mem)).symm (successorOf_ne h.mem hlen)
      · have := (predecessorOf_eq hmem h.mem hself (hw.succ_eq hr h.mem).symm).2
        exact absurd (congrArg Peer.id this) hid
    · cases hpred
  | @finger k res i hk hres =>
    obtain ⟨outcome, path⟩ := res
    cases outcome with
    | ok owner =>
      obtain ⟨n, a, H', rfl, hj⟩ := hres
      rw [h.owner hr (heard_said _ _ _) hj, hk]
      exact fixFinger_wired hw hr h.mem i
    | error e =>
      obtain ⟨e, m⟩ := e
      rcases hres with he | ⟨n, a, H', rfl, _, hj⟩
      · subst he
        exact sameRouting_fixFinger s i m path
      · obtain ⟨_, honest⟩ := h.heard _ a (heard_said _ _ _)
        exact absurd hj (honest.not_fail rfl e m)
  | joined hs₀ ho _ _ _ =>
    rw [(h.saw _ hs₀).orphaned_eq] at ho
    cases ho

end

theorem WiredTurns.nil (hp : p ∈ R)
    (hT : ∀ c ∈ T, c ∈ R ∧ c ≠ p ∧ successorOf (c.id + 1) R = p) : WiredTurns R r p T [] where
  mem := hp
  told := hT
  saw s hs := by
    obtain ⟨s', hs⟩ := hs
    cases hs
  heard q a h := by cases h

theorem WiredTurns.cons (h : WiredTurns R r p T H) {e : MemberTurn}
    (he : match e with | .held s _ => Wired R r p s | .said q a => q.node ∈ R ∧ Honest (Wired R r q.node) q a) :
    WiredTurns R r p T (e :: H) where
  mem := h.mem
  told := h.told
  saw s hs := by
    obtain ⟨s', hmem⟩ := hs
    rcases List.mem_cons.mp hmem with heq | hmem
    · subst heq
      exact he
    · exact h.saw s ⟨s', hmem⟩
  heard q a hmem := by
    rcases List.mem_cons.mp hmem with heq | hmem
    · subst heq
      exact he
    · exact h.heard q a hmem

end fixed

/-! ### The discipline of a wired ring -/

def fixedDiscipline (R : Members) (r : ℕ) : Discipline where
  Inv ρ := ρ.members = R.list ∧ ∀ p ∈ R, Wired R r p (ρ.node p)
  Later ρ ρ' := ρ.members = ρ'.members
  Known _ _ := WiredTurns R r
  assume _ _ _ := True
  goal _ _ := True
  admits _ _ := False

section discipline
variable {R : Members} {r : ℕ}

theorem sound_fixedDiscipline (hr : 1 ≤ r ∧ r ≤ MAX_SUCCESSORS) : (fixedDiscipline R r).Sound where
  later_refl _ := rfl
  members_subset h := by rw [show _ = _ from h]; exact fun _ h => h
  known_later _ h := h
  self_eq hI hp := (hI.2 _ (by rwa [hI.1] at hp)).self_eq
  known_round hI hp := .nil (by rwa [hI.1] at hp) (by simp)
  known_join _ _ h := h.elim
  goal_round p := sat_of_stable (fun _ _ _ => trivial) trivial _
  goal_joins := trivial
  goal_deferred _ _ := sat_of_stable (fun _ _ _ => trivial) trivial _
  change hI _ hp hk hc := by
    rw [hI.1] at hp
    exact ⟨rfl, trivial, hk.cons (hI.2 _ hp)⟩
  asked {ρ b p T H q} hI hk hq _ hmem := by
    rw [hI.1] at hmem
    by_cases hline : q.line = notifyLine p
    · refine ⟨[p], fun _ => List.mem_singleton.mpr rfl, .nil hmem fun c hc => ?_⟩
      rw [List.mem_singleton.mp hc]
      obtain ⟨s, hs, hx, hne⟩ := hq.notified hline
      refine ⟨hk.mem, fun he => hne he.symm, ?_⟩
      rw [hx, (hk.saw s hs).succ_eq hr.1 hk.mem]
    · exact ⟨[], fun h => absurd h hline, .nil hmem (by simp)⟩
  replied {ρ b p T T' H H' q h} took hI hmem hk' hs hk _ := by
    rw [hI.1] at hmem
    refine ⟨rfl, fun _ => trivial, hk.cons ⟨hmem, hs.honest took fun s hsaw => ?_⟩⟩
    have hw := hk'.saw s hsaw
    have hlen := length_succList hr.1 hmem
    rw [hw.succs_eq]
    exact ⟨hw, hw.orphaned_eq, hw.self_eq, hlen.1, hlen.2.trans hr.2⟩
  absent {ρ b p T H q} took hI hmem hk hq := by
    rw [hI.1] at hmem
    exact absurd (hk.knows hr.1 hq.knows) hmem
  mine _ h := h.elim
  listens _ _ _ h := h.elim

theorem keeps_fixedDiscipline (hr : 1 ≤ r) : (fixedDiscipline R r).Keeps where
  change {ρ p T H s'} hI hp hk hc := by
    rw [hI.1] at hp
    refine ⟨hI.1, fun q hq => ?_⟩
    by_cases hqp : q = p
    · subst hqp
      rw [Ring.node_set_self]
      exact (hI.2 q hq).trans (hk.change hr (hI.2 q hq) hc)
    · rw [Ring.node_set_ne _ _ hqp]
      exact hI.2 q hq
  answer hI := hI
  listens _ _ h := h.elim

end discipline

/-! ### The fixed point -/

/-- The members of a ring, wired, with nothing going on. -/
def wiredNet (R : Members) (r : ℕ) : Net := ⟨⟨wired R r, R.list, []⟩, []⟩

/-- **A correct ring is a fixed point of maintenance.**  On a ring that `init_wired` has wired, with
lists of any length, rounds by any members in any order, even at the same time, leave every member's
successor list, predecessor, fingers, strikes and orphaned flag as they were. -/
theorem wired_ring_fixed (R : Members) (r : ℕ) (hr : 1 ≤ r ∧ r ≤ MAX_SUCCESSORS) (moves : List Move)
    (hmoves : ∀ p known r', Move.join p known r' ∉ moves) (n : Net)
    (h : (wiredNet R r).exec moves = some n) (p : Peer) (hp : p ∈ R) :
    (n.ring.node p).succs = (wired R r p).succs ∧ (n.ring.node p).pred = (wired R r p).pred ∧
    (n.ring.node p).fingers = (wired R r p).fingers ∧
    (n.ring.node p).strikes = (wired R r p).strikes ∧
    (n.ring.node p).orphaned = (wired R r p).orphaned := by
  have hstart : (fixedDiscipline R r).Holds (wiredNet R r) :=
    ⟨⟨rfl, fun p _ => .refl _⟩, fun t ht => by cases ht⟩
  have hend := (sound_fixedDiscipline hr).exec (keeps_fixedDiscipline hr.1)
    (fun m hm p known r' he => absurd (he ▸ hm) (hmoves p known r')) hstart h
  have hw := hend.inv.2 p hp
  exact ⟨hw.succs, hw.pred, hw.fingers, hw.strikes, hw.orphaned⟩

/-- Two members run a whole round at the same time, step by step in turn. -/
def twoRounds : List Move :=
  (threeMembers.list.take 2).map .round ++ (List.replicate 26 [Move.run 0 7, .run 1 9]).flatten

theorem wired_ring_fixed_two_rounds : ∃ n, (wiredNet threeMembers 2).exec twoRounds = some n ∧
    (n.threads.take 2).all Thread.isDone = true ∧ ∀ p ∈ threeMembers,
      (n.ring.node p).succs = (wired threeMembers 2 p).succs ∧
      (n.ring.node p).pred = (wired threeMembers 2 p).pred ∧
      (n.ring.node p).fingers = (wired threeMembers 2 p).fingers ∧
      (n.ring.node p).strikes = (wired threeMembers 2 p).strikes ∧
      (n.ring.node p).orphaned = (wired threeMembers 2 p).orphaned := by
  refine Runs.exists_of_any (fun n => (n.threads.take 2).all Thread.isDone)
    (fun n hn hdone => ⟨hdone, fun p hp => ?_⟩) (by decide +kernel)
  refine wired_ring_fixed threeMembers 2 (by decide) twoRounds (fun p known r' h => ?_) n hn p hp
  simp [twoRounds, threeMembers] at h

end ChordFs
