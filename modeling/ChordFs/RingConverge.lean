import ChordFs.RingJoins
import ChordFs.RingTimeline
import Mathlib.Algebra.Order.Ring.Int
import Mathlib.Order.Filter.AtTopBot.Basic
import Mathlib.Order.Filter.Finite

/-! # Joins converge

After the last newcomer has joined, successors and predecessors only come closer, so from some time
on none of them moves (`Settled.still`).  A round that starts later finds its successor's
predecessor no nearer than itself and is told nothing new by it; then every member is the
predecessor of its successor, the successors are injective, and on a connected ring that makes them
the nearest members (`Settled.nearest`).  The lists follow, one entry after another: as soon as
every list has its first `j` entries right for ever, the rounds that were running have ended, and
every member has run one more, the next entry is right for ever (`Settled.lists`). -/

namespace ChordFs

open Circle Dialogue

/-! ### A round in which nothing moves -/

/-- What a round of `p` finds out where no successor moves: the list of its successor `n` with no
nearer member in it, and what `n` makes of the NOTIFY. -/
structure Quiet (Q : Peer → NodeState → Prop) (p n : Peer) : Prop where
  merged : ∃ s s₀ : NodeState, s.self = p ∧ s.succ = n ∧ Q p s ∧ Q n s₀ ∧
    Q p (s.applyNeighbours n ⟨s₀.pred, s₀.succs⟩).2 ∧
    (s.applyNeighbours n ⟨s₀.pred, s₀.succs⟩).1 = (true, none)
  told : n ≠ p → p.id ≠ n.id → ∃ s : NodeState, s.self = n ∧ Q n s ∧ Q n (s.notified p).2

section quiet
variable {Q : Peer → NodeState → Prop} {S : Peer → Peer} {p : Peer} {H : Turns}

theorem Attested.good {q : Call} {a : Exchanged} (h : Attested Q q a)
    (hline : q.line = "PING".toList ∨ q.line = "NEIGHBOURS".toList ∨ ∃ c, q.line = notifyLine c) :
    answers q.line a = true :=
  h.honest.checked hline

theorem quiet_notifySuccessor (hQ : ∀ p s, Q p s → s.succ = S p)
    (hm : ∃ s s₀ : NodeState, s.self = p ∧ s.succ = S p ∧ Q p s ∧ Q (S p) s₀ ∧ Q p (s.applyNeighbours (S p) ⟨s₀.pred, s₀.succs⟩).2 ∧ (s.applyNeighbours (S p) ⟨s₀.pred, s₀.succs⟩).1 = (true, none)) :
    Sat (freeRules (joinAssume Q p)) (fun _ _ => Quiet Q p (S p)) H (notifySuccessor p) := by
  apply Sat.bind
  refine sat_sect fun s hs => ⟨trivial, ?_⟩
  have hsucc : s.succ = S p := hQ p s hs.2.2.1
  dsimp only
  split
  · rename_i hself
    exact ⟨hm, fun hne => absurd (hsucc.symm.trans hself) hne⟩
  · apply Sat.bind
    have hquiet : ∀ a, Attested Q ⟨s.succ, notifyLine p⟩ a → Quiet Q p (S p) := by
      intro a ha
      rw [hsucc] at ha
      exact ⟨hm, fun _ hid => ha.notified p rfl hid⟩
    exact sat_freeCall (fun a _ _ ha _ => hquiet a ha) (fun a _ _ ha _ _ _ => hquiet a ha)

theorem adopt_ne {s : NodeState} {c : Peer} (hc : c.id ≠ s.succ.id) :
    (s.adopt s.succ c).2.succ ≠ s.succ := by
  have hsame := sameRouting_adopt s c
  rw [NodeState.succ, hsame.succs, hsame.self]
  obtain ⟨d, hd⟩ : ∃ d, max s.r 1 = d + 1 := ⟨max s.r 1 - 1, by omega⟩
  dsimp only
  rw [hd, List.take_succ_cons, List.headD_cons]
  intro he
  exact hc (congrArg Peer.id he)

theorem quiet_stabilize (hQ : ∀ p s, Q p s → s.succ = S p) :
    Sat (freeRules (joinAssume Q p)) (fun _ _ => Quiet Q p (S p)) H (stabilize p) := by
  rw [stabilize, stabilizeLoop]
  apply Sat.bind
  refine sat_sect fun s hs => ⟨trivial, ?_⟩
  have hsucc : s.succ = S p := hQ p s hs.2.2.1
  dsimp only
  rw [hsucc]
  apply Sat.bind
  refine sat_freeCall (fun a nb s' ha hgood => ?_) (fun a s' o ha hbad _ _ => ?_)
  · obtain ⟨s₀, hs₀, hparse⟩ := ha.honest.neighbours rfl
    rw [goodReply_parsed hgood hparse]
    apply Sat.bind
    refine sat_sect fun s₁ hs₁ => ⟨trivial, ?_⟩
    have hsucc₁ : s₁.succ = S p := hQ p s₁ hs₁.2.2.1
    have hcurrent := applyNeighbours_current s₁ ⟨s₀.pred, s₀.succs⟩
    rw [hsucc₁] at hcurrent
    cases hres : (s₁.applyNeighbours (S p) ⟨s₀.pred, s₀.succs⟩).1 with
    | mk current candidate =>
      rw [hres] at hcurrent
      dsimp only at hcurrent
      subst hcurrent
      cases candidate with
      | none => exact quiet_notifySuccessor hQ ⟨s₁, s₀, hs₁.1, hsucc₁, hs₁.2.2.1, hs₀, hs₁.2.2.2, hres⟩
      | some c =>
        -- a nearer successor would be taken
        have hin := (applyNeighbours_candidate hres).2.2
        apply Sat.bind
        refine sat_freeCall (fun a' b s₂ ha' hgood' => ?_) (fun a' s₂ o ha' hbad' _ _ => ?_)
        · apply Sat.bind
          refine sat_sect fun s₃ hs₃ => ⟨trivial, ?_⟩
          have hsucc₃ : s₃.succ = S p := hQ p s₃ hs₃.2.2.1
          have hsucc₄ := hQ p _ hs₃.2.2.2
          rw [← hsucc₃] at hsucc₄ hin
          exact absurd hsucc₄ (adopt_ne (ne_end_of_inRangeOo hin))
        · have hok := ha'.good (.inl rfl)
          dsimp only at hok
          rw [answers_ping, hbad'] at hok
          cases hok
  · have hok := ha.good (.inr (.inl rfl))
    dsimp only at hok
    rw [answers_neighbours, hbad] at hok
    cases hok

/-- **A round where no successor moves.** -/
theorem quiet_maintenanceRound (hQ : ∀ p s, Q p s → s.succ = S p) (p : Peer) :
    Sat (freeRules (joinAssume Q p)) (fun _ _ => Quiet Q p (S p)) [] (maintenanceRound p) := by
  apply Sat.bind
  refine sat_sect fun s _ => ⟨trivial, ?_⟩
  apply Sat.bind
  refine sat_sect fun s₁ hs₁ => ⟨trivial, ?_⟩
  have hmember : ¬ (s₁.orphaned = true ∧ s₁.contacts ≠ []) := by
    rw [hs₁.2.1]
    simp
  have hway : s₁.nextWayIn = ((false, none), s₁) := by
    rw [NodeState.nextWayIn, if_neg hmember, hs₁.2.1]
  rw [hway]
  apply Sat.bind
  refine (quiet_stabilize hQ).mono fun H _ h => ?_
  exact sat_of_stable (fun _ _ h => h) h _

end quiet

/-! ### When nothing moves any more -/

theorem exists_constant {f : ℕ → ℕ} {K : ℕ} (h : ∀ k ≥ K, f (k + 1) ≤ f k) :
    ∃ c, ∃ J, ∀ k ≥ J, f k = c := by
  have hle : ∀ J ≥ K, ∀ k ≥ J, f k ≤ f J := by
    intro J hJ k hk
    induction k, hk using Nat.le_induction with
    | base => exact le_rfl
    | succ k hk ih => exact Nat.le_trans (h k (hJ.trans hk)) ih
  induction hn : f K using Nat.strong_induction_on generalizing K with
  | _ n ih =>
    subst hn
    by_cases hlt : ∃ J ≥ K, f J < f K
    · obtain ⟨J, hJ, hlt⟩ := hlt
      exact ih (f J) hlt (fun k hk => h k (hJ.trans hk))
        (fun J' hJ' => hle J' (hJ.trans hJ')) rfl
    · refine ⟨f K, K, fun k hk => Nat.le_antisymm (hle K (Nat.le_refl K) k hk) ?_⟩
      exact Nat.le_of_not_lt fun h => hlt ⟨k, hk, h⟩

theorem exists_time {M : List Peer} {P : Peer → ℕ → Prop} (h : ∀ p ∈ M, ∃ J, ∀ k ≥ J, P p k) :
    ∃ J, ∀ k ≥ J, ∀ p ∈ M, P p k := by
  simp only [← Filter.eventually_atTop] at h ⊢
  exact (Filter.eventually_all_finite (List.finite_toSet M)).mpr h

/-- A run of a connected ring whose newcomers have all come in by time `K`. -/
structure Settled (τ : Timeline) (U : Peer → Prop) (r : ℕ) (a : Peer) (K : ℕ) : Prop where
  bound : 1 ≤ r ∧ r ≤ MAX_SUCCESSORS
  inj : ∀ p q, U p → U q → p.id = q.id → p = q
  holds : ∀ k, (joinDiscipline U r a (fun _ _ => True) (fun _ => True)).Holds (τ.net k)
  closer : ∀ k, Closer (τ.ring k) (τ.ring (k + 1))
  members : ∀ k ≥ K, τ.members k = τ.members K
  rounds : τ.KeepsRounds K
  ends : τ.RoundsEnd

/-- From `J` on no first successor and no predecessor changes. -/
def Timeline.Still (τ : Timeline) (K J : ℕ) : Prop :=
  ∀ k ≥ J, ∀ p ∈ τ.members K, (τ.ring k).succ p = (τ.ring J).succ p ∧
    ((τ.ring k).node p).pred = ((τ.ring J).node p).pred

section settled
variable {τ : Timeline} {U : Peer → Prop} {r : ℕ} {a : Peer} {K J : ℕ} {p q : Peer}

theorem predGap_some {s : NodeState} (h : s.pred = some q) : predGap s = steps q.id s.self.id := by
  rw [predGap, h]

theorem predGap_none {s : NodeState} (h : s.pred = none) : predGap s = 2 ^ ID_BITS + 1 := by
  rw [predGap, h]

theorem applyNeighbours_none {s : NodeState} {nb : Neighbours}
    (h : (s.applyNeighbours s.succ nb).1 = (true, none)) (hq : nb.pred = some q) :
    q = s.self ∨ q = s.succ ∨ q.id = s.self.id ∨ inRangeOo q.id s.self.id s.succ.id = false := by
  by_contra hno
  simp only [not_or, Bool.not_eq_false] at hno
  obtain ⟨h1, h2, h3, h4⟩ := hno
  rw [NodeState.applyNeighbours, if_neg (fun hne => hne rfl), hq] at h
  dsimp only at h
  rw [if_neg (by simp [h1, h2]), if_neg h3, if_pos h4] at h
  cases h

theorem inRangeOo_or {p q n : Peer} (hpq : p.id ≠ q.id)
    (h : inRangeOo q.id p.id n.id = false) : inRangeOo p.id q.id n.id = true := by
  rw [inRangeOo_eq_false] at h
  have hlt := steps_lt hpq
  have hturn : steps p.id q.id < steps p.id p.id := by rwa [steps_self]
  have := steps_pos p.id n.id
  rw [inRangeOo_iff, steps_of_lt hturn, steps_of_le h, steps_self]
  omega

theorem take_one {l : List Peer} (h : l ≠ []) (x : Peer) : l.take 1 = [l.headD x] := by
  cases l with
  | nil => exact absurd rfl h
  | cons y l => rfl

theorem Thread.Steps.node_cases {ρ ρ' : Ring} {t t' : Thread} {new : List Thread}
    (h : t.Steps ρ ρ' t' new) (hp : p ∈ ρ.members) : ρ'.node p = ρ.node p ∨
      ∃ f next, t.code = .lock f next ∧ (t.stack ≠ [] ∨ t.own = none) ∧ t.me = p ∧
        ρ'.node p = f (ρ.node p) := by
  cases h with
  | @lock f next hcode hown =>
    by_cases hme : p = t.me
    · subst hme
      exact .inr ⟨f, next, hcode, hown, rfl, Ring.node_set_self ..⟩
    · exact .inl (Ring.node_set_ne _ _ hme)
  | mine _ _ _ => exact .inl rfl
  | call _ _ => exact .inl rfl
  | absent _ _ _ => exact .inl rfl
  | reply _ _ _ => exact .inl rfl
  | listen _ _ _ hmem =>
    refine .inl (Ring.node_set_ne _ _ ?_)
    rintro rfl
    exact hmem hp

/-- A state that is right in its first `j` entries. -/
structure RightTo (R : Members) (r j : ℕ) (p : Peer) (s : NodeState) : Prop where
  r_eq : s.r = r
  succ_eq : s.succ = successorOf (p.id + 1) R
  take_eq : s.succs.take j = (succList R r p).take j

variable {R : Members} {j : ℕ}

/-- The list of a successor that is right in its first `j` entries. -/
theorem take_applyNeighbours {s s₀ : NodeState} (hj : 1 ≤ j) (hjr : j < r) (hp : p ∈ R)
    (hself : s.self = p) (hr : s.r = r) (hsucc : s.succ = successorOf (p.id + 1) R)
    (hs₀ : RightTo R r j s.succ s₀) :
    (s.applyNeighbours s.succ ⟨s₀.pred, s₀.succs⟩).2.succs.take (j + 1) =
      (succList R r p).take (j + 1) := by
  have htake := hs₀.take_eq
  rw [(sameRouting_applyNeighbours s _).succs]
  dsimp only
  rw [hself, hr]
  rw [hsucc] at htake ⊢
  exact take_merge hj hjr hp htake

variable (h : Settled τ U r a K)
include h

theorem Settled.connected (k : ℕ) : Connected U r a (τ.ring k) :=
  (h.holds k).inv.1

theorem Settled.mem (hJ : K ≤ J) : p ∈ (τ.ring J).members ↔ p ∈ τ.members K := by
  rw [← h.members J hJ]
  rfl

theorem Settled.eq_of_id (hp : p ∈ τ.members K) (hq : q ∈ τ.members K)
    (hid : p.id = q.id) : p = q :=
  h.inj p q ((h.connected K).used p hp) ((h.connected K).used q hq) hid

section
variable (hJ : K ≤ J) (hp : p ∈ τ.members K)
include hJ hp

theorem Settled.placed : Placed r (τ.ring J) p ((τ.ring J).node p) :=
  (h.connected J).placed p ((h.mem hJ).mpr hp)

theorem Settled.succ_mem : (τ.ring J).succ p ∈ τ.members K :=
  (h.mem hJ).mp ((h.connected J).succ_mem ((h.mem hJ).mpr hp))

theorem Settled.pred_mem (hq : ((τ.ring J).node p).pred = some q) : q ∈ τ.members K ∧ q ≠ p := by
  obtain ⟨hmem, hne, _⟩ := (h.placed hJ hp).pred_walk q hq
  exact ⟨(h.mem hJ).mp hmem, hne⟩

end

theorem Settled.pred_eq {J' : ℕ} (hJ : K ≤ J) (hJ' : K ≤ J')
    (hp : p ∈ τ.members K) (hgap : predGap ((τ.ring J).node p) = predGap ((τ.ring J').node p)) :
    ((τ.ring J).node p).pred = ((τ.ring J').node p).pred := by
  have hself := (h.placed hJ hp).self_eq
  have hself' := (h.placed hJ' hp).self_eq
  cases hq : ((τ.ring J).node p).pred with
  | none =>
    cases hq' : ((τ.ring J').node p).pred with
    | none => rfl
    | some q' =>
      rw [predGap_none hq, predGap_some hq'] at hgap
      have : steps q'.id _ ≤ 2 ^ ID_BITS := steps_le q'.id ((τ.ring J').node p).self.id
      omega
  | some q =>
    cases hq' : ((τ.ring J').node p).pred with
    | none =>
      rw [predGap_some hq, predGap_none hq'] at hgap
      have : steps q.id _ ≤ 2 ^ ID_BITS := steps_le q.id ((τ.ring J).node p).self.id
      omega
    | some q' =>
      rw [predGap_some hq, predGap_some hq', hself, hself'] at hgap
      rw [h.eq_of_id (h.pred_mem hJ hp hq).1 (h.pred_mem hJ' hp hq').1 (steps_injective_left hgap)]

/-- **From some time on no successor and no predecessor moves.** -/
theorem Settled.still : ∃ J ≥ K, τ.Still K J := by
  have hconst : ∀ p ∈ τ.members K, ∃ J, ∀ k ≥ J, ∀ j ≥ k,
      steps p.id ((τ.ring j).succ p).id = steps p.id ((τ.ring k).succ p).id ∧
      predGap ((τ.ring j).node p) = predGap ((τ.ring k).node p) := by
    intro p hp
    obtain ⟨c, J, hc⟩ := @exists_constant (fun k => steps p.id ((τ.ring k).succ p).id) K
      fun k hk => (h.closer k).succ p ((h.mem hk).mpr hp)
    obtain ⟨g, J', hg⟩ := @exists_constant (fun k => predGap ((τ.ring k).node p)) K
      fun k hk => (h.closer k).pred p ((h.mem hk).mpr hp)
    refine ⟨max J J', fun k hk j hj => ⟨?_, ?_⟩⟩
    · exact (hc j (by omega)).trans (hc k (by omega)).symm
    · exact (hg j (by omega)).trans (hg k (by omega)).symm
  obtain ⟨J, hJ⟩ := exists_time hconst
  refine ⟨max J K, Nat.le_max_right _ _, fun k hk p hp => ?_⟩
  have hK : K ≤ max J K := Nat.le_max_right _ _
  obtain ⟨hsteps, hgap⟩ := hJ (max J K) (Nat.le_max_left _ _) p hp k hk
  refine ⟨?_, h.pred_eq (hK.trans hk) hK hp hgap⟩
  exact h.eq_of_id (h.succ_mem (hK.trans hk) hp) (h.succ_mem hK hp) (steps_injective hsteps)

/-- **What a round finds out** if it starts when every state is like `Q` for ever. -/
theorem Settled.quiet {Q : Peer → NodeState → Prop} {S : Peer → Peer}
    (hQ : ∀ p s, Q p s → s.succ = S p) (hJ : K ≤ J)
    (hheld : ∀ k ≥ J, ∀ p ∈ τ.members K, Q p ((τ.ring k).node p)) (hp : p ∈ τ.members K) :
    Quiet Q p (S p) := by
  have hD := sound_joinDiscipline (U := U) (a := a) h.bound (quiet_maintenanceRound hQ)
  obtain ⟨j, hj, hmove⟩ := h.rounds J hJ p (by rwa [h.members J hJ])
  obtain ⟨_, hgoal⟩ := hD.round_goal
    (fun k hk => ⟨h.connected k, fun q hq => hheld k hk q ((h.mem (hJ.trans hk)).mp hq)⟩)
    (fun k _ => h.closer k) h.ends hj hmove
  exact hgoal

/-! ### The nearest members -/

/-- **A member is the predecessor of its successor**, or alone. -/
theorem Settled.mutual (hJ : K ≤ J) (hstill : τ.Still K J) (hp : p ∈ τ.members K) :
    ((τ.ring J).node ((τ.ring J).succ p)).pred = some p ∨
      (τ.ring J).succ p = p ∧ ((τ.ring J).node p).pred = none := by
  obtain ⟨⟨s, s₀, hself, hsucc, _, hs₀, _, hnone⟩, htold⟩ := h.quiet (Q := fun p s =>
    s.succ = (τ.ring J).succ p ∧ s.pred = ((τ.ring J).node p).pred) (fun _ _ hs => hs.1) hJ hstill hp
  have hn := h.succ_mem hJ hp
  generalize (τ.ring J).succ p = n at *
  -- the successor names nobody nearer
  have hfar : ∀ q, ((τ.ring J).node n).pred = some q → q = p ∨ q ≠ p ∧ p.id ≠ q.id ∧
      inRangeOo q.id p.id n.id = false := by
    intro q hq
    by_cases hqp : q = p
    · exact .inl hqp
    obtain ⟨hq', hqn⟩ := h.pred_mem hJ hn hq
    have hid : p.id ≠ q.id := fun he => hqp (h.eq_of_id hp hq' he).symm
    subst hsucc
    rcases applyNeighbours_none hnone (hs₀.2.trans hq) with he | he | he | he
    · exact absurd (he.trans hself) hqp
    · exact absurd he hqn
    · exact absurd (he.trans (congrArg Peer.id hself)).symm hid
    · rw [hself] at he
      exact .inr ⟨hqp, hid, he⟩
  by_cases hnp : n = p
  · subst hnp
    right
    refine ⟨rfl, ?_⟩
    cases hq : ((τ.ring J).node n).pred with
    | none => rfl
    | some q =>
      rcases hfar q hq with rfl | ⟨hqp, hid, hout⟩
      · exact absurd rfl (h.pred_mem hJ hn hq).2
      · rw [inRangeOo_eq_false, steps_self] at hout
        exact absurd (steps_lt hid) (Nat.not_lt.mpr hout)
  · left
    have hid : p.id ≠ n.id := fun he => hnp (h.eq_of_id hp hn he).symm
    obtain ⟨s₁, hself₁, ⟨_, hpred⟩, ⟨_, hpred'⟩⟩ := htold hnp hid
    rcases notified_cases s₁ p with ⟨_, hsome⟩ | ⟨q, hq, _, hout, _⟩ | ⟨_, _, hsame⟩
    · rw [← hpred, hsome]
    · rw [hpred] at hq
      rcases hfar q hq with rfl | ⟨_, hpq, hfar⟩
      · exact hq
      · rw [hself₁, inRangeOo_or hpq hfar] at hout
        cases hout
    · rw [← hpred', hsame.pred]

/-- **Everyone's successor is the nearest member.** -/
theorem Settled.nearest (hJ : K ≤ J) (hstill : τ.Still K J) (hp : p ∈ τ.members K)
    (hq : q ∈ τ.members K) : steps p.id ((τ.ring J).succ p).id ≤ steps p.id q.id := by
  have hI := h.connected J
  refine @first_of_walk _ _ _ _ a p q (· ∈ τ.members K) (fun x y hx hy => h.eq_of_id hx hy)
    (fun x hx => h.succ_mem hJ hx) (fun x y hx hy hxy => ?_) ((h.mem hJ).mp hI.start) hI.round
    (fun x hx => hI.leads x ((h.mem hJ).mpr hx)) hp hq
  -- whoever has the same successor is its predecessor
  rcases h.mutual hJ hstill hx with hx' | ⟨hx', hnone⟩
  · rcases h.mutual hJ hstill hy with hy' | ⟨hy', hnone⟩
    · rw [hxy, hy'] at hx'
      exact (Option.some.inj hx').symm
    · rw [hxy, hy', hnone] at hx'
      cases hx'
  · rcases h.mutual hJ hstill hy with hy' | ⟨hy', _⟩
    · rw [← hxy, hx', hnone] at hy'
      cases hy'
    · rw [← hx', ← hy', hxy]

/-! ### The lists -/

section
variable (hR : ∀ p, p ∈ R ↔ p ∈ τ.members K)
include hR

theorem Settled.stays_right (hJ : K ≤ J) (hj : 1 ≤ j) (hjr : j < r)
    (hright : ∀ k ≥ J, ∀ p ∈ τ.members K, RightTo R r j p ((τ.ring k).node p)) :
    ∃ J' ≥ J, ∀ k ≥ J', ∀ p ∈ τ.members K,
      ((τ.ring k).node p).succs.take (j + 1) = (succList R r p).take (j + 1) →
      ((τ.ring (k + 1)).node p).succs.take (j + 1) = (succList R r p).take (j + 1) := by
  have hD := sound_joinDiscipline (U := U) (a := a) (Q := RightTo R r j) h.bound
    fun p => sat_of_stable (P := fun _ => True) (fun _ _ _ => trivial) trivial (maintenanceRound p)
  have hD₀ := sound_joinDiscipline (U := U) (a := a) (Q := fun _ _ => True) h.bound
    fun p => sat_of_stable (P := fun _ => True) (fun _ _ _ => trivial) trivial (maintenanceRound p)
  obtain ⟨J', hJ', hdone⟩ := h.ends.all_done J
  refine ⟨J', hJ', fun k hk p hp htake => ?_⟩
  have hJk : J ≤ k := hJ'.trans hk
  have hKk : K ≤ k := hJ.trans hJk
  have hplaced := h.placed hKk hp
  have hnow := hright k hJk p hp
  have hthen := hright (k + 1) (Nat.le_succ_of_le hJk) p hp
  rcases τ.ring_step k with hsame | ⟨i, t, t', new, ht, hsteps⟩
  · rwa [hsame]
  rcases hsteps.node_cases ((h.mem hKk).mpr hp) with hsame | ⟨f, next, hcode, hown, hme, hnode⟩
  · rwa [hsame]
  subst hme
  obtain ⟨T, hf⟩ := (h.holds k).follows t (List.mem_of_getElem? ht)
  obtain ⟨_, hknown, _, hbase, _⟩ := hf.change hD₀ (h.holds k).inv hcode hown
  rcases hbase with ⟨he, _⟩ | hminor
  · -- a round of the member; it started when all was right up to `j`
    have hnew : (τ.net J).threads.length ≤ i := by
      by_contra hlt
      have := hdone k hk i t _ (Nat.lt_of_not_le hlt) ht he
      rw [hsteps.not_done] at this
      cases this
    have hI : ∀ k ≥ J, (joinDiscipline U r a (RightTo R r j) fun _ => True).Inv (τ.ring k) := fun k hk =>
      ⟨h.connected k, fun q hq => hright k hk q ((h.mem (hJ.trans hk)).mp hq)⟩
    obtain ⟨T', hf'⟩ := hD.rounds_follow hI (fun k _ => h.closer k) k hJk i t _ hnew ht he
    obtain ⟨_, hknown', hchange, _⟩ := hf'.change hD (hI k hJk) hcode hown
    obtain ⟨_, hlearns⟩ := JoinTurns.change hknown' h.bound.1 hplaced hchange
    rw [hnode] at hthen ⊢
    generalize f ((τ.ring k).node t.me) = s' at hlearns hthen ⊢
    cases hlearns with
    | nothing hsuccs =>
      rw [hsuccs]
      exact htake
    | list _ hQ =>
      exact take_applyNeighbours hj hjr ((hR _).mpr hp) hplaced.self_eq hnow.r_eq hnow.succ_eq hQ
    | closer hin =>
      exact absurd (hthen.succ_eq.trans hnow.succ_eq.symm) (adopt_ne (ne_end_of_inRangeOo hin))
  · have hsuccs : (f ((τ.ring k).node t.me)).succs = ((τ.ring k).node t.me).succs :=
      (JoinTurns.minor hknown hplaced hminor).2
    rwa [hnode, hsuccs]

theorem Settled.becomes_right (hJ : K ≤ J) (hj : 1 ≤ j) (hjr : j < r)
    (hright : ∀ k ≥ J, ∀ p ∈ τ.members K, RightTo R r j p ((τ.ring k).node p)) (hp : p ∈ τ.members K) :
    ∃ k ≥ J, ((τ.ring k).node p).succs.take (j + 1) = (succList R r p).take (j + 1) := by
  by_contra hnever
  simp only [not_exists, not_and] at hnever
  have hquiet := h.quiet (Q := fun q s => RightTo R r j q s ∧
      (q = p → s.succs.take (j + 1) ≠ (succList R r p).take (j + 1)))
    (fun q s hs => hs.1.succ_eq) hJ (fun k hk q hq => ⟨hright k hk q hq, fun hqp => ?_⟩) hp
  · obtain ⟨s, s₀, hself, hsucc, hs, hs₀, hs', _⟩ := hquiet.merged
    rw [← hsucc] at hs₀ hs'
    exact hs'.2 rfl (take_applyNeighbours hj hjr ((hR p).mpr hp) hself hs.1.r_eq hs.1.succ_eq hs₀.1)
  · subst hqp
    exact hnever k hk

/-- **The lists become right, entry by entry.** -/
theorem Settled.lists (hJ : K ≤ J)
    (hsucc : ∀ k ≥ J, ∀ p ∈ τ.members K, (τ.ring k).succ p = successorOf (p.id + 1) R)
    (hj : 1 ≤ j) (hjr : j ≤ r) : ∃ J' ≥ J, ∀ k ≥ J', ∀ p ∈ τ.members K,
      ((τ.ring k).node p).succs.take j = (succList R r p).take j := by
  induction j, hj using Nat.le_induction with
  | base =>
    refine ⟨J, Nat.le_refl J, fun k hk p hp => ?_⟩
    have hplaced := h.placed (hJ.trans hk) hp
    have hlen := length_succList h.bound.1 ((hR p).mpr hp)
    rw [take_one hplaced.ne_nil p, take_one (List.ne_nil_of_length_pos hlen.1) p,
      headD_succList h.bound.1 ((hR p).mpr hp), ← hsucc k hk p hp, Ring.succ, NodeState.succ,
      hplaced.self_eq]
  | succ j hj ih =>
    obtain ⟨J₁, hJ₁, htake⟩ := ih (Nat.le_of_succ_le hjr)
    have hK₁ : K ≤ J₁ := hJ.trans hJ₁
    have hright : ∀ k ≥ J₁, ∀ p ∈ τ.members K, RightTo R r j p ((τ.ring k).node p) :=
      fun k hk p hp => ⟨(h.placed (hK₁.trans hk) hp).r_eq,
        hsucc k (hJ₁.trans hk) p hp, htake k hk p hp⟩
    obtain ⟨J₂, hJ₂, hstays⟩ := h.stays_right hR hK₁ hj hjr hright
    obtain ⟨J₃, hJ₃⟩ := @exists_time (τ.members K)
      (fun p k => ((τ.ring k).node p).succs.take (j + 1) = (succList R r p).take (j + 1))
      fun p hp => by
        obtain ⟨k, hk, hnow⟩ := h.becomes_right hR (hK₁.trans hJ₂) hj hjr
          (fun k hk => hright k (hJ₂.trans hk)) hp
        refine ⟨k, fun m hm => ?_⟩
        induction m, hm using Nat.le_induction with
        | base => exact hnow
        | succ m hm ih => exact hstays m (hk.trans hm) p hp ih
    exact ⟨max J J₃, Nat.le_max_left _ _, fun k hk p hp => hJ₃ k (by omega) p hp⟩

theorem Settled.pointers (hJ : K ≤ J) (hstill : τ.Still K J) (hp : p ∈ τ.members K) :
    (τ.ring J).succ p = successorOf (p.id + 1) R ∧
    ((τ.ring J).node p).pred = if R.list.length > 1 then some (predecessorOf p.id R) else none := by
  have hsucc : ∀ x ∈ τ.members K, (τ.ring J).succ x = successorOf (x.id + 1) R := by
    intro x hx
    have hmem := (hR _).mpr (h.succ_mem hJ hx)
    refine Members.eq_of_id hmem (successorOf_mem _ R) (First.unique (M := R.ids) ⟨Members.id_mem hmem, ?_⟩
      (first_successorOf ((hR x).mpr hx)))
    rintro _ ⟨m, hm, rfl⟩
    exact h.nearest hJ hstill hx ((hR m).mp hm)
  refine ⟨hsucc p hp, ?_⟩
  have hpR := (hR p).mpr hp
  split
  · rename_i hlen
    -- the predecessor is who has this member for its successor
    have hq := (hR _).mp (predecessorOf_mem p.id R)
    have hnext := (hsucc _ hq).trans (successorOf_predecessorOf hpR)
    rcases h.mutual hJ hstill hq with hmutual | ⟨halone, _⟩
    · rwa [hnext] at hmutual
    · exact absurd (halone.symm.trans hnext) (predecessorOf_ne hpR hlen)
  · rename_i hlen
    have hself : (τ.ring J).succ p = p := by
      by_contra hne
      have hother := (mem_others R.nodup hpR).mpr ⟨(hR _).mpr (h.succ_mem hJ hp), hne⟩
      have := List.length_pos_of_mem hother
      have := length_others hpR
      omega
    rcases h.mutual hJ hstill hp with hmutual | ⟨_, hnone⟩
    · rw [hself] at hmutual
      exact absurd rfl (h.pred_mem hJ hp hmutual).2
    · exact hnone

/-- **A settled run comes to a wired ring and stays there.** -/
theorem Settled.wired : ∃ J, ∀ k ≥ J, ∀ p ∈ R, ((τ.ring k).node p).pred = (wired R r p).pred ∧
      ((τ.ring k).node p).succs = (wired R r p).succs := by
  obtain ⟨J, hJ, hstill⟩ := h.still
  have hpointers := fun p hp => h.pointers hR hJ hstill (p := p) hp
  obtain ⟨J', hJ', hlists⟩ := h.lists hR hJ
    (fun k hk p hp => (hstill k hk p hp).1.trans (hpointers p hp).1) h.bound.1 (Nat.le_refl r)
  refine ⟨J', fun k hk p hp => ?_⟩
  have hp' := (hR p).mp hp
  have hsame := sameRouting_wired R r p
  refine ⟨?_, ?_⟩
  · rw [(hstill k (hJ'.trans hk) p hp').2, (hpointers p hp').2, hsame.pred]
  · have hlen := (h.placed (hJ.trans (hJ'.trans hk)) hp').length_le
    have htake := hlists k hk p hp'
    rw [List.take_of_length_le hlen, List.take_of_length_le (length_succList h.bound.1 hp).2] at htake
    rw [htake, hsame.succs]

end

end settled

/-! ### The members of a list -/

/-- The ring of some peers with distinct identifiers. -/
def Members.ofPeers (l : List Peer) (hne : l ≠ []) (hinj : ∀ p ∈ l, ∀ q ∈ l, p.id = q.id → p = q) :
    Members where
  list := sortById l.dedup
  ne_nil := by
    intro h
    have hlen := congrArg List.length h
    rw [sortById, List.length_mergeSort, List.length_nil, List.length_eq_zero_iff, List.dedup_eq_nil] at hlen
    exact hne hlen
  sorted := by
    have hne : (sortById l.dedup).Pairwise (· ≠ ·) :=
      (List.mergeSort_perm _ _).nodup_iff.mpr (List.nodup_dedup l)
    have hmem : ∀ x ∈ sortById l.dedup, x ∈ l := fun x hx =>
      List.mem_dedup.mp (List.mem_mergeSort.mp hx)
    refine ((sortById_sorted l.dedup).and hne).imp_of_mem fun {x y} hx hy hxy => ?_
    have hid : x.id.toNat ≠ y.id.toNat := fun he =>
      hxy.2 (hinj x (hmem x hx) y (hmem y hy) (BitVec.eq_of_toNat_eq he))
    have hxy := hxy.1
    rw [BitVec.le_def] at hxy
    rw [BitVec.lt_def]
    omega

theorem Members.mem_ofPeers {l : List Peer} {hne : l ≠ []}
    {hinj : ∀ p ∈ l, ∀ q ∈ l, p.id = q.id → p = q} {p : Peer} :
    p ∈ Members.ofPeers l hne hinj ↔ p ∈ l := by
  exact List.mem_mergeSort.trans List.mem_dedup

/-! ### Joins converge -/

/-- **Joins converge.**  A ring starts wired, or with one member on its own; newcomers with
identifiers of their own join it through members, at any time and at the same time as each other and
as the rounds of the members.  Once the last of them has joined, at time `K`, and as long as every
member starts one round after another and rounds end, there is a time from which on every member's
predecessor and whole successor list are those `init_wired` gives it on the ring of all members. -/
theorem joins_converge (R : Members) (r : ℕ) (hr : 1 ≤ r ∧ r ≤ MAX_SUCCESSORS) (τ : Timeline)
    (hstart : τ.net 0 = wiredNet R r ∨ ∃ p, R.list = [p] ∧ τ.net 0 = aloneNet p r)
    (hlength : ∀ k p known r', τ.move k = .join p known r' → r' = r)
    (hids : ∀ p q, τ.Involves p → τ.Involves q → p.id = q.id → p = q) (K : ℕ)
    (hjoined : ∀ k ≥ K, τ.members k = τ.members K) (hrounds : τ.KeepsRounds K) (hends : τ.RoundsEnd) :
    ∃ R' : Members, (∀ p, p ∈ R' ↔ p ∈ τ.members K) ∧ ∃ J, ∀ k ≥ J, ∀ p ∈ R',
      ((τ.ring k).node p).pred = (wired R' r p).pred ∧
      ((τ.ring k).node p).succs = (wired R' r p).succs := by
  -- one of the first members
  obtain ⟨a, hfirst, hthreads⟩ : ∃ a, Connected τ.Involves r a (τ.ring 0) ∧ (τ.net 0).threads = [] := by
    rcases hstart with h | ⟨p, _, h⟩
    · refine ⟨R.list.head R.ne_nil, ?_, by rw [h]; rfl⟩
      rw [Timeline.ring, h]
      refine connected_wired hr.1 (fun p hp => .inl ?_) (List.head_mem R.ne_nil)
      rw [Timeline.members, Timeline.ring, h]
      exact hp
    · refine ⟨p, ?_, by rw [h]; rfl⟩
      rw [Timeline.ring, h]
      refine connected_alone hr.1 (.inl ?_)
      rw [Timeline.members, Timeline.ring, h]
      exact List.mem_singleton.mpr rfl
  have hD := sound_joinDiscipline (U := τ.Involves) (a := a) (Q := fun _ _ => True) hr
    fun p => sat_of_stable (P := fun _ => True) (fun _ _ _ => trivial) trivial (maintenanceRound p)
  have hK : (joinDiscipline τ.Involves r a (fun _ _ => True) fun _ => True).Keeps :=
    keeps_joinDiscipline hr.1
  have hadmits : ∀ k, (joinDiscipline τ.Involves r a (fun _ _ => True) fun _ => True).Admits (τ.move k) :=
    fun k p known r' he => ⟨.inr ⟨k, known, r', he⟩, hlength k p known r' he⟩
  have hholds := hD.forever hK hadmits ⟨⟨hfirst, fun _ _ => trivial⟩, fun t ht => by
    rw [hthreads] at ht
    cases ht⟩
  have hsettled : Settled τ τ.Involves r a K := ⟨hr, hids, hholds,
    fun k => (hD.step hK (hadmits k) (hholds k) (τ.step k)).2, hjoined, hrounds, hends⟩
  have hne : τ.members K ≠ [] := List.ne_nil_of_mem (hsettled.connected K).start
  refine ⟨.ofPeers (τ.members K) hne fun p hp q hq hid => hsettled.eq_of_id hp hq hid,
    fun p => Members.mem_ofPeers, ?_⟩
  exact hsettled.wired fun p => Members.mem_ofPeers

/-- One member on its own, and a newcomer that joins it. -/
def firstMember : Peer := hostPeer 5 1

def newcomer : Peer := hostPeer 0x8000000000000000 2

def firstJoin : List Move := .join newcomer firstMember 2 :: List.replicate 10 (.run 0 0)

theorem joins_converge_first_join : ∃ τ : Timeline, τ.net 0 = aloneNet firstMember 2 ∧
    τ.members 11 = [newcomer, firstMember] ∧ ∃ R' : Members, (∀ p, p ∈ R' ↔ p ∈ τ.members 11) ∧
      ∃ J, ∀ k ≥ J, ∀ p ∈ R', ((τ.ring k).node p).pred = (wired R' 2 p).pred ∧
        ((τ.ring k).node p).succs = (wired R' 2 p).succs := by
  have hrun : ((aloneNet firstMember 2).exec firstJoin).any (fun n =>
      n.ring.members = [newcomer, firstMember] ∧ n.threads.all fun t => !t.errand.isRound) = true := by
    decide +kernel
  obtain ⟨n, hn, hend⟩ := (Option.any_eq_true _ _).mp hrun
  rw [decide_eq_true_eq] at hend
  have hrests : n.Rests [newcomer, firstMember] := by
    refine ⟨hend.1, fun i t p ht he => ?_⟩
    have := List.all_eq_true.mp hend.2 t (List.mem_of_getElem? ht)
    rw [he] at this
    cases this
  obtain ⟨τ, hzero, hmembers, hrounds, hends, hmoves⟩ := exists_fair hn hrests (by simp)
  have hjoin : ∀ k p known r, τ.move k = .join p known r → p = newcomer ∧ r = 2 := by
    intro k p known r he
    rcases hmoves k with h | h
    · rw [he] at h
      simp only [firstJoin, List.mem_cons, List.mem_replicate, Move.join.injEq, reduceCtorEq,
        and_false, or_false] at h
      exact ⟨h.1, h.2.2⟩
    · exact absurd he (h p known r)
  have hinvolved : ∀ p, τ.Involves p → p = firstMember ∨ p = newcomer := by
    rintro p (hp | ⟨k, known, r, he⟩)
    · rw [Timeline.members, Timeline.ring, hzero] at hp
      exact .inl (List.mem_singleton.mp hp)
    · exact .inr (hjoin k p known r he).1
  have hids : firstMember.id ≠ newcomer.id := by decide
  refine ⟨τ, hzero, hmembers 11 (le_rfl), ?_⟩
  refine joins_converge ⟨[firstMember], by simp, by simp⟩ 2 (by decide) τ
    (.inr ⟨firstMember, rfl, hzero⟩) (fun k p known r' he => (hjoin k p known r' he).2)
    (fun p q hp hq hid => ?_) 11 (fun k hk => ?_) hrounds hends
  · rcases hinvolved p hp with rfl | rfl <;> rcases hinvolved q hq with rfl | rfl
    · rfl
    · exact absurd hid hids
    · exact absurd hid.symm hids
    · rfl
  · rw [hmembers k hk, hmembers 11 (le_rfl)]

end ChordFs
