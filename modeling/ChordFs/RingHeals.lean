import ChordFs.RingWired

/-! # The ring heals

Some members of a wired ring have died: every connection to them is refused.  If every survivor
still has a survivor in its successor list, one maintenance round of each survivor is enough to make
the survivors a ring again (`ring_heals`).

Two things can only get better.  The dead entries in front of the first survivor in a member's list,
`ahead`, are evicted one by one and none ever comes back; and the predecessor goes from a dead node
to nobody to the nearest survivor, `predRank`.  The first survivor in the list is the right
successor all along, so a survivor is never replaced, evicted or struck. -/

namespace ChordFs

open Circle Dialogue

/-- What the log says when a peer is evicted. -/
def accusation (q : Peer) : Str := "evict ".toList ++ address q ++ " (".toList

/-- The dead in front of the first survivor. -/
def ahead (A : Members) (s : NodeState) : List Peer := s.succs.takeWhile fun q => q ∉ A

/-- How far the predecessor has got: dead, nobody, or a survivor. -/
def predRank (A : Members) (s : NodeState) : ℕ :=
  match s.pred with
  | none => 1
  | some q => if q ∈ A then 2 else 0

/-- The survivors `A` of a ring `R` of single-member processes. -/
structure Outage (R A : Members) (r : ℕ) : Prop where
  sub : ∀ p ∈ A, p ∈ R
  single : ∀ p ∈ R, ∀ q ∈ R, sameProcess p q = true → p = q
  survivor : ∀ p ∈ A, ∃ q ∈ (wired R r p).succs, q ∈ A
  one_le : 1 ≤ r
  le_max : r ≤ MAX_SUCCESSORS

/-- What always holds of a survivor. -/
structure Healing (R A : Members) (r : ℕ) (p : Peer) (s : NodeState) : Prop where
  self_eq : s.self = p
  r_eq : s.r = r
  orphaned : s.orphaned = false
  strikes : s.strikes = .empty
  struck : s.counters.strikes = 0
  succs_mem : ∀ q ∈ s.succs, q ∈ R
  fingers_mem : ∀ q ∈ s.fingers, q ∈ R
  length_le : s.succs.length ≤ r
  /-- The first survivor in the list is the nearest one. -/
  alive : s.succs.find? (fun q => q ∈ A) = some (successorOf (p.id + 1) A)
  pred_ok : ∀ q, s.pred = some q → q ∈ R ∧ q ≠ p ∧
    q = if q ∈ A then predecessorOf p.id A else predecessorOf p.id R
  innocent : ∀ line ∈ s.events, ∀ q ∈ A, ¬ accusation q <+: line

/-- What a later state of a survivor has kept. -/
structure Mends (A : Members) (s s' : NodeState) : Prop where
  ahead : (ahead A s').Sublist (ahead A s)
  pred : predRank A s ≤ predRank A s'

section lists
variable {α : Type} {f g : α → Bool} {l : List α}

theorem find?_filter_of_imp (h : ∀ a, f a = true → g a = true) : (l.filter g).find? f = l.find? f := by
  rw [List.find?_filter]
  congr 1
  funext a
  cases hf : f a with
  | false => simp
  | true => simp [h a hf]

theorem takeWhile_filter_of_imp (h : ∀ a, f a = false → g a = true) :
    (l.filter g).takeWhile f = (l.takeWhile f).filter g := by
  induction l with
  | nil => rfl
  | cons x l ih =>
    cases hf : f x with
    | false => simp [h x hf, hf]
    | true =>
      cases hg : g x <;> simp [hf, hg, ih]

end lists

section states
variable {R A : Members} {r : ℕ} {p q d : Peer} {s s' s'' : NodeState}

theorem Mends.refl (s : NodeState) : Mends A s s := ⟨List.Sublist.refl _, le_rfl⟩

theorem Mends.trans (h : Mends A s s') (h' : Mends A s' s'') : Mends A s s'' :=
  ⟨h'.ahead.trans h.ahead, h.pred.trans h'.pred⟩

theorem Mends.of_eq (h : s'.succs = s.succs) (h' : s'.pred = s.pred) : Mends A s s' :=
  ⟨by rw [ChordFs.ahead, ChordFs.ahead, h], by rw [predRank, predRank, h']⟩

/-! ### The first survivor -/

section
variable (h : Healing R A r p s)
include h

theorem Healing.succs_ne_nil : s.succs ≠ [] := by
  intro hnil
  have := h.alive
  rw [hnil] at this
  cases this

theorem Healing.succ_eq (ha : s.succ ∈ A) : s.succ = successorOf (p.id + 1) A := by
  obtain ⟨rest, hs⟩ := succs_eq_cons h.succs_ne_nil
  have halive := h.alive
  rw [hs, List.find?_cons_of_pos (by simpa using ha)] at halive
  exact Option.some.inj halive

theorem Healing.ahead_of_succ (ha : s.succ ∈ A) : ahead A s = [] := by
  obtain ⟨rest, hs⟩ := succs_eq_cons h.succs_ne_nil
  rw [ahead, hs, List.takeWhile_cons, if_neg (by simpa using ha)]

theorem Healing.succ_mem_ahead (hd : s.succ ∉ A) : s.succ ∈ ahead A s := by
  obtain ⟨rest, hs⟩ := succs_eq_cons h.succs_ne_nil
  rw [ahead, hs, List.takeWhile_cons, if_pos (by simpa using hd)]
  exact List.mem_cons_self

theorem Healing.succ_of_ahead (ha : ahead A s = []) : s.succ = successorOf (p.id + 1) A := by
  apply h.succ_eq
  by_contra hd
  have := h.succ_mem_ahead hd
  rw [ha] at this
  cases this

theorem Healing.same (hs : SameRouting s s') : Healing R A r p s' where
  self_eq := hs.self.trans h.self_eq
  r_eq := hs.r.trans h.r_eq
  orphaned := hs.orphaned.trans h.orphaned
  strikes := hs.strikes.trans h.strikes
  struck := hs.chatter.strikes.trans h.struck
  succs_mem := by rw [hs.succs]; exact h.succs_mem
  fingers_mem := by rw [hs.fingers]; exact h.fingers_mem
  length_le := by rw [hs.succs]; exact h.length_le
  alive := by rw [hs.succs]; exact h.alive
  pred_ok := by rw [hs.pred]; exact h.pred_ok
  innocent line hline q hq hpre := by
    obtain ⟨lines, he, hl⟩ := hs.chatter.events
    rw [he] at hline
    rcases List.mem_append.mp hline with hline | hline
    · exact h.innocent line hline q hq hpre
    · apply hl line hline
      obtain ⟨rest, rfl⟩ := hpre
      rfl

end

theorem Mends.same (hs : SameRouting s s') : Mends A s s' := .of_eq hs.succs hs.pred

/-! ### Evicting the dead -/

theorem accusation_ne {p q : Peer} (hne : sameProcess p q = false) (why : Str) :
    ¬ accusation p <+: accusation q ++ why := by
  rintro ⟨rest, h⟩
  have hno : ∀ x : Peer, ' ' ∉ address x := fun x hmem => by
    rcases List.mem_append.mp hmem with h | h
    · rcases mem_ip h with h | h
      · exact absurd h (by decide)
      · exact absurd h (by decide)
    · rcases List.mem_cons.mp h with h | h
      · exact absurd h (by decide)
      · exact space_not_mem_num _ h
  have hcut : ∀ (x : Peer) (t : Str),
      Text.cutFirst ' ' (address x ++ ' ' :: '(' :: t) = some (address x, '(' :: t) :=
    fun x t => Text.cutFirst_append (hno x) _
  have hshape : ∀ (x : Peer) (t : Str),
      accusation x ++ t = "evict ".toList ++ (address x ++ ' ' :: '(' :: t) := fun x t => by
    delta accusation
    rw [List.append_assoc, List.append_assoc]
    rfl
  have h' := (hshape p rest).symm.trans (h.trans (hshape q why))
  have h := List.append_cancel_left h'
  have := hcut p rest
  rw [h, hcut q why] at this
  simp only [Option.some.injEq, Prod.mk.injEq] at this
  rw [address_injective this.1.symm] at hne
  cases hne

section evict
variable (ho : Outage R A r) (hd : d ∈ R) (hdead : d ∉ A)
include ho hd hdead

theorem gone_iff (hq : q ∈ R) : NodeState.gone d true q = true ↔ q = d := by
  constructor
  · exact fun hs => ho.single q hq d hd hs
  · rintro rfl
    exact sameProcess_self q

theorem gone_survivor (hq : q ∈ A) : NodeState.gone d true q = false := by
  rw [← Bool.not_eq_true, gone_iff ho hd hdead (ho.sub q hq)]
  rintro rfl
  exact hdead hq

/-- The list keeps its first survivor, so nothing but the dead node goes. -/
theorem evict_eq (h : Healing R A r p s) (hp : p ∈ A) (why : Str) :
    ∃ first ∈ s.succs, ∃ counters : RingCounters, counters.strikes = s.counters.strikes ∧
      ∃ lines : List Str, (∀ line ∈ lines, ∃ rest, line = accusation d ++ rest) ∧
      s.evict d why true false = { s with
        succs := s.succs.filter fun x => ¬ NodeState.gone d true x
        pred := s.pred.filter fun x => ¬ NodeState.gone d true x
        fingers := (s.fingers.map fun f =>
          if NodeState.gone d true f then (s.replacement (NodeState.gone d true)).getD first
          else f).set 0 first
        strikes := s.strikes.filterKeys fun key => ¬ NodeState.forgets d true key
        counters := counters
        events := s.events ++ lines } := by
  have hself : ¬ d = s.self := by
    rw [h.self_eq]
    rintro rfl
    exact hdead hp
  have hproc : ¬ (sameProcess d s.self = true ∧ ¬ (false = true)) := by
    rw [h.self_eq]
    rintro ⟨hs, _⟩
    exact hdead (ho.single d hd p (ho.sub p hp) hs ▸ hp)
  obtain ⟨x, hx, hxA⟩ : ∃ x ∈ s.succs, x ∈ A :=
    ⟨_, List.mem_of_find?_eq_some h.alive, successorOf_mem _ A⟩
  have hxgone := gone_survivor ho hd hdead hxA
  have hall : s.succs.all (NodeState.gone d true) = false := List.all_eq_false.mpr ⟨x, hx, by simp [hxgone]⟩
  have hne : (s.succs.filter fun x => ¬ NodeState.gone d true x) ≠ [] :=
    List.ne_nil_of_mem (List.mem_filter.mpr ⟨hx, by simp [hxgone]⟩)
  have hkept : s.keptSuccs (NodeState.gone d true) =
      s.succs.filter fun x => ¬ NodeState.gone d true x := by
    rw [NodeState.keptSuccs, if_neg hne]
  have horphan : s.becomesOrphan (NodeState.gone d true) = false := by
    simp [NodeState.becomesOrphan, hall]
  have hfirst : (s.keptSuccs (NodeState.gone d true)).headD s.self ∈ s.succs := by
    obtain ⟨y, l, hyl⟩ := List.exists_cons_of_ne_nil hne
    rw [hkept, hyl]
    exact (List.mem_filter.mp (hyl ▸ List.mem_cons_self)).1
  refine ⟨_, hfirst, if s.isKnown (NodeState.gone d true) then
    NodeState.countEviction s.counters true false else s.counters, ?_, s.evictLines d why true, ?_, ?_⟩
  · split <;> rfl
  · intro line hline
    rw [NodeState.evictLines, hall] at hline
    simp only [Bool.false_eq_true, not_false_eq_true, if_true, List.nil_append] at hline
    split at hline
    · cases hline
    · refine ⟨why ++ ")".toList, ?_⟩
      delta accusation
      rw [List.mem_singleton.mp hline]
      simp
  · rw [NodeState.evict, if_neg hself, if_neg hproc]
    dsimp only
    rw [horphan, hkept, Bool.or_false]

/-- **Evicting a dead node** brings a survivor forward and harms no other. -/
theorem Healing.evict (h : Healing R A r p s) (hp : p ∈ A) (why : Str) :
    Healing R A r p (s.evict d why true false) ∧ Mends A s (s.evict d why true false) ∧
      d ∉ ahead A (s.evict d why true false) ∧ (s.evict d why true false).pred ≠ some d := by
  obtain ⟨first, hfirst, counters, hcounters, lines, hlines, heq⟩ := evict_eq ho hd hdead h hp why
  have hself : NodeState.gone d true d = true := (gone_iff ho hd hdead hd).mpr rfl
  have hkeep : ∀ x ∈ A, decide (¬ NodeState.gone d true x) = true := fun x hx => by
    simp [gone_survivor ho hd hdead hx]
  rw [heq]
  have hahead : ahead A { s with succs := s.succs.filter fun x => ¬ NodeState.gone d true x } =
      (ahead A s).filter fun x => ¬ NodeState.gone d true x :=
    takeWhile_filter_of_imp fun x hx => hkeep x (by simpa using hx)
  refine ⟨{ h with
      strikes := by
        dsimp only
        rw [h.strikes]
        rfl
      struck := hcounters.trans h.struck
      succs_mem := fun q hq => h.succs_mem q (List.mem_filter.mp hq).1
      fingers_mem := fun q hq => ?_
      length_le := Nat.le_trans (List.length_filter_le _ _) h.length_le
      alive := (find?_filter_of_imp fun x hx => hkeep x (by simpa using hx)).trans h.alive
      pred_ok := fun q hq => h.pred_ok q (Option.filter_eq_some_iff.mp hq).1
      innocent := fun line hline q hq hpre => ?_ }, ⟨hahead ▸ List.filter_sublist, ?_⟩, ?_, ?_⟩
  · rcases List.mem_or_eq_of_mem_set hq with hq | rfl
    · obtain ⟨f, hf, rfl⟩ := List.mem_map.mp hq
      split
      · cases hr : s.replacement (NodeState.gone d true) with
        | none => exact h.succs_mem _ hfirst
        | some x =>
          rw [NodeState.replacement] at hr
          exact h.succs_mem x ((List.dropWhile_sublist _).subset (List.mem_of_find?_eq_some hr))
      · exact h.fingers_mem f hf
    · exact h.succs_mem _ hfirst
  · rcases List.mem_append.mp hline with hline | hline
    · exact h.innocent line hline q hq hpre
    · obtain ⟨rest, rfl⟩ := hlines line hline
      refine accusation_ne ?_ rest hpre
      rw [← Bool.not_eq_true]
      intro hs
      exact hdead (ho.single q (ho.sub q hq) d hd hs ▸ hq)
  · rw [predRank, predRank]
    cases s.pred with
    | none => exact le_rfl
    | some x =>
      by_cases hx : x ∈ A
      · rw [Option.filter_some, if_pos (hkeep x hx)]
      · dsimp only
        rw [if_neg hx]
        exact Nat.zero_le _
  · intro hmem
    have := (List.mem_filter.mp (hahead ▸ hmem)).2
    simp [hself] at this
  · intro hsome
    have := (Option.filter_eq_some_iff.mp hsome).2
    simp [hself] at this

end evict

/-! ### The start -/

theorem healing_wired (ho : Outage R A r) (hp : p ∈ A) : Healing R A r p (wired R r p) := by
  have hpR := ho.sub p hp
  have hw := sameRouting_wired R r p
  have hsuccs : (wired R r p).succs = succList R r p := hw.succs
  have hsub : ∀ i ∈ A.ids, i ∈ R.ids := by
    rintro _ ⟨q, hq, rfl⟩
    exact Members.id_mem (ho.sub q hq)
  have hfirst := first_successorOf hp
  refine ⟨hw.self, hw.r, hw.orphaned, hw.strikes, hw.chatter.strikes, ?_, ?_, ?_, ?_, ?_, ?_⟩
  · rw [hsuccs]
    exact fun q hq => mem_of_mem_succList hpR hq
  · rw [wired_fingers ho.one_le hpR]
    exact fun q hq => mem_of_mem_buildFingers hq
  · rw [hsuccs]
    exact (length_succList ho.one_le hpR).2
  · -- the list is in the order of the ring
    obtain ⟨q, hq, hqA⟩ := ho.survivor p hp
    cases hf : (wired R r p).succs.find? fun q => q ∈ A with
    | none =>
      have := List.find?_eq_none.mp hf q hq
      exact absurd (by simpa using hqA) this
    | some x =>
      have hxA : x ∈ A := by simpa using List.find?_some hf
      obtain ⟨_, dead, behind, hlist, hdead⟩ := List.find?_eq_some_iff_append.mp hf
      rw [hsuccs] at hlist
      congr 1
      refine Members.eq_of_id hxA (successorOf_mem _ A) (First.unique ⟨Members.id_mem hxA, ?_⟩ hfirst)
      rintro _ ⟨m, hm, rfl⟩
      by_cases hmp : m = p
      · rw [hmp, steps_self]
        exact steps_le _ _
      have hmem : m ∈ others p R.list := (mem_others R.nodup hpR).mpr ⟨ho.sub m hm, hmp⟩
      obtain ⟨y, rest, hothers⟩ := List.exists_cons_of_ne_nil (List.ne_nil_of_mem hmem)
      rw [succList_cons ho.one_le hpR hothers] at hlist
      have hpair := pairwise_others hpR
      have hsplit : others p R.list = dead ++ x :: (behind ++ rest.drop (r - 1)) := by
        rw [hothers, ← List.take_append_drop (r - 1) rest, ← List.cons_append, hlist]
        simp
      rw [hsplit] at hpair hmem
      rcases List.mem_append.mp hmem with hmem | hmem
      · have := hdead m hmem
        simp [hm] at this
      rcases List.mem_cons.mp hmem with rfl | hmem
      · exact le_rfl
      · exact Nat.le_of_lt ((List.pairwise_cons.mp (List.pairwise_append.mp hpair).2.1).1 m hmem)
  · intro q hq
    rw [hw.pred] at hq
    dsimp only at hq
    split at hq
    · rename_i hlen
      cases hq
      have hlast := last_predecessorOf p.id R
      refine ⟨predecessorOf_mem _ R, predecessorOf_ne hpR hlen, ?_⟩
      · split
        · rename_i hqA
          refine Members.eq_of_id hqA (predecessorOf_mem _ A) (Last.unique ⟨Members.id_mem hqA, ?_⟩
            (last_predecessorOf p.id A))
          exact fun m hm => hlast.le m (hsub m hm)
        · rfl
    · cases hq
  · obtain ⟨lines, he, hl⟩ := hw.chatter.events
    intro line hline q _ hpre
    rw [he] at hline
    apply hl line hline
    obtain ⟨rest, rfl⟩ := hpre
    rfl

/-! ### Better predecessors -/

theorem Healing.withPred (h : Healing R A r p s) (hp : p ∈ A) (ho : Outage R A r) (hq : q ∈ A)
    (hne : q ≠ p) (hs : successorOf (q.id + 1) A = p) {strikes : SortedMap Str ℕ}
    (hst : strikes = .empty) (hsame : SameRouting { s with pred := some q, strikes := strikes } s') :
    Healing R A r p s' ∧ Mends A s s' := by
  have hok : Healing R A r p { s with pred := some q, strikes := strikes } :=
    { h with
      strikes := hst
      pred_ok := by
        intro x hx
        cases hx
        exact ⟨ho.sub q hq, hne, by rw [if_pos hq, (predecessorOf_eq hp hq hne hs).2]⟩ }
  refine ⟨hok.same hsame, ⟨?_, ?_⟩⟩
  · rw [ahead, hsame.succs]
    exact List.Sublist.refl _
  · have hrank : predRank A s' = 2 := by
      rw [predRank, hsame.pred]
      exact if_pos hq
    rw [hrank, predRank]
    split
    · decide
    · split <;> decide

theorem predRank_eq_two (h : Healing R A r p s) : predRank A s = 2 ↔ s.pred = some (predecessorOf p.id A) := by
  rw [predRank]
  cases hp : s.pred with
  | none => simp
  | some q =>
    have hq := (h.pred_ok q hp).2.2
    by_cases hqA : q ∈ A
    · rw [if_pos hqA] at hq
      simp [hqA, ← hq]
    · simp only [if_neg hqA, Option.some.injEq]
      refine ⟨fun h => (by cases h), fun he => absurd ?_ hqA⟩
      rw [he]
      exact predecessorOf_mem _ A

theorem Healing.withFingers (h : Healing R A r p s) {fingers : List Peer}
    (hf : ∀ q ∈ fingers, q ∈ R) (hs : SameRouting { s with fingers := fingers } s') :
    Healing R A r p s' ∧ Mends A s s' := by
  have hok : Healing R A r p { s with fingers := fingers } := { h with fingers_mem := hf }
  exact ⟨hok.same hs, .of_eq hs.succs hs.pred⟩

/-- **The list of a live successor** has it in front. -/
theorem Healing.merge (h : Healing R A r p s) (ho : Outage R A r) (hsucc : s.succ ∈ A)
    {nb : Neighbours} (hnb : ∀ q ∈ nb.succs, q ∈ R) :
    Healing R A r p (s.applyNeighbours s.succ nb).2 ∧ Mends A s (s.applyNeighbours s.succ nb).2 := by
  have hs := sameRouting_applyNeighbours s nb
  obtain ⟨rest, hcons⟩ := mergeSuccessors_eq_cons s.self s.succ nb.succs s.r
  have hmem : ∀ q ∈ mergeSuccessors s.self s.succ nb.succs s.r, q ∈ R := by
    intro q hq
    rcases mem_mergeSuccessors hq with rfl | hq
    · exact ho.sub _ hsucc
    · exact hnb q hq
  have hlen : (mergeSuccessors s.self s.succ nb.succs s.r).length ≤ r := by
    rw [h.r_eq]
    exact length_mergeFrom ho.one_le
  have hok : Healing R A r p (s.withMerged nb.succs) :=
    { h with
      succs_mem := hmem
      fingers_mem := by
        intro q hq
        rcases List.mem_or_eq_of_mem_set hq with hq | rfl
        · exact h.fingers_mem q hq
        · rw [hcons]
          exact ho.sub _ hsucc
      length_le := hlen
      alive := by
        dsimp only
        rw [hcons, List.find?_cons_of_pos (by simpa using hsucc), h.succ_eq hsucc] }
  refine ⟨hok.same hs, ⟨?_, ?_⟩⟩
  · rw [ahead, hs.succs]
    dsimp only
    rw [hcons, List.takeWhile_cons, if_neg (by simpa using hsucc)]
    exact List.nil_sublist _
  · rw [predRank, predRank, hs.pred]

end states

/-! ### What a survivor sees -/

/-- What is known of the dialogue of a task at `p`. -/
structure HealingTurns (R A : Members) (r : ℕ) (ρ : Ring) (p : Peer) (T : List Peer) (H : Turns) :
    Prop where
  mem : p ∈ A
  told : ∀ c ∈ T, c ∈ A ∧ c ≠ p ∧ successorOf (c.id + 1) A = p
  saw : ∀ s s', Turn.held s s' ∈ H → Healing R A r p s ∧ Mends A s' (ρ.node p)
  heard : ∀ (q : Call) (a : Exchanged), Turn.said q a ∈ H →
    (q.node ∈ A ∧ Honest (Healing R A r q.node) q a ∧ q ∈ ρ.answered) ∨
    (q.node ∈ R ∧ q.node ∉ A ∧ a.delivery = .refused)

section turns
variable {R A : Members} {r : ℕ} {ρ : Ring} {p n x : Peer} {T : List Peer} {H : Turns}
  {s s' : NodeState} {a : Exchanged} {line : Str}

theorem ne_refused {β : Type} {valid : Str → Option β} {b : β} (hg : goodReply a valid = some b) :
    a.delivery ≠ .refused := fun h => by
  rw [goodReply, h, if_neg (by simp)] at hg
  cases hg

theorem report_refused (line : Str) (h : a.delivery = .refused) :
    s.report n line a = s.evict n "refused".toList true false := by
  rw [NodeState.report, show saysOrphaned a = false by simp [saysOrphaned, h], h]
  rfl

theorem HealingTurns.alive (h : HealingTurns R A r ρ p T H) (hn : Heard H n line a) {β : Type}
    {valid : Str → Option β} {b : β} (hg : goodReply a valid = some b) :
    n ∈ A ∧ Honest (Healing R A r n) ⟨n, line⟩ a := by
  rcases h.heard _ a hn with ⟨hA, honest, _⟩ | ⟨_, _, href⟩
  · exact ⟨hA, honest⟩
  · exact absurd href (ne_refused hg)

theorem judge_refused (k : Id) (h : a.delivery = .refused) :
    judge n k a = .fail .refused (transportMessage .refused n) := by
  rw [judge, h, if_pos (by simp)]
  rfl

theorem Healing.within (hs : Healing R A r p s) : Within (· ∈ R) s :=
  .of_tables hs.succs_ne_nil (fun q hq => (hs.pred_ok q hq).1) hs.succs_mem hs.fingers_mem

theorem HealingTurns.honest_or_useless (h : HealingTurns R A r ρ p T H) {q : Call}
    (hq : Turn.said q a ∈ H) : Honest (Within (· ∈ R)) q a ∨ Useless a := by
  rcases h.heard q a hq with ⟨_, honest, _⟩ | ⟨_, _, href⟩
  · exact .inl (honest.mono fun s hs => hs.within)
  · exact .inr (useless_refused href)

section
variable (h : HealingTurns R A r ρ p T H) (ho : Outage R A r)
include h ho

theorem HealingTurns.knows (hk : Knows p T H x) : x ∈ R := by
  refine knows_mem (ho.sub p h.mem) (fun c hc => ho.sub c (h.told c hc).1) (fun s hs => ?_)
    (fun q a hq => h.honest_or_useless hq) hk
  obtain ⟨s', hs⟩ := hs
  exact ⟨(h.saw s s' hs).1.orphaned, (h.saw s s' hs).1.within⟩

theorem HealingTurns.evicted (hs : Healing R A r p s) {d : Peer} (hd : d ∈ R) (hdead : d ∉ A) (why : Str) :
    Healing R A r p (s.evict d why true false) ∧ Mends A s (s.evict d why true false) :=
  ⟨(Healing.evict ho hd hdead hs h.mem why).1, (Healing.evict ho hd hdead hs h.mem why).2.1⟩

theorem HealingTurns.minor (hs : Healing R A r p s) (hc : Minor p T H s s') : Healing R A r p s' ∧ Mends A s s' := by
  cases hc with
  | idle hidle => exact ⟨hs.same hidle.toSameRouting, .same hidle.toSameRouting⟩
  | clear _ _ _ =>
    refine ⟨{ hs with strikes := ?_ }, .of_eq rfl rfl⟩
    rw [NodeState.clearStrikes, hs.strikes]
    rfl
  | @report node line a _ hH hline hbad =>
    rcases h.heard ⟨node, line⟩ a (hH ▸ List.mem_cons_self) with ⟨_, honest, _⟩ | ⟨hR, hA, href⟩
    · have := honest.checked (hline.imp_right (Or.imp_right fun hl => ⟨p, hl⟩))
      rw [hbad] at this
      cases this
    · rw [report_refused _ href]
      exact h.evicted ho hs hR hA _
  | @notify c _ _ _ _ hcT _ =>
    obtain ⟨hcA, hne, hnext⟩ := h.told c hcT
    rcases notified_cases s c with ⟨he, _⟩ | ⟨_, _, _, _, he⟩ | ⟨_, _, hsame⟩
    · rw [he]
      exact ⟨hs, .refl s⟩
    · rw [he]
      exact ⟨hs, .refl s⟩
    · refine hs.withPred h.mem ho hcA hne hnext ?_ hsame
      rw [hs.strikes]
      rfl
  | @fill c _ _ _ _ hcT _ _ =>
    obtain ⟨hcA, hne, hnext⟩ := h.told c hcT
    exact hs.withPred h.mem ho hcA hne hnext hs.strikes (sameRouting_takePred s c)
  | @suspect target a _ hH hrefused =>
    rcases h.heard ⟨target, "PING".toList⟩ a (hH ▸ List.mem_cons_self ..) with ⟨_, honest, _⟩ | ⟨hR, hA, _⟩
    · have := honest.ok
      rw [hrefused] at this
      cases this
    · exact h.evicted ho hs hR hA _

/-- **What a section does to a survivor.** -/
theorem HealingTurns.change (hs : Healing R A r p s) (hc : Section p T H s s') : Healing R A r p s' ∧ Mends A s s' := by
  cases hc with
  | minor hm => exact h.minor ho hs hm
  | merge hH hgood =>
    obtain ⟨hA, honest⟩ := h.alive (heard_of_merge hH) hgood
    obtain ⟨s₀, hs₀, hparse⟩ := honest.neighbours rfl
    apply hs.merge ho hA
    rw [goodReply_parsed hgood hparse]
    exact hs₀.succs_mem
  | @adopt c a _ _ _ _ _ _ _ _ hH hpong hgood _ _ hin =>
    -- no survivor is nearer than the successor
    obtain ⟨hA, _⟩ := h.alive (heard_of_adopt hH) hgood
    obtain ⟨b, hb⟩ := Option.isSome_iff_exists.mp ((answers_ping a).symm.trans hpong)
    obtain ⟨hcA, _⟩ := h.alive (hH ▸ (heard_said _ _ a).mono (subset_cons _)) hb
    rw [inRangeOo_iff, hs.succ_eq hA] at hin
    have := (first_successorOf h.mem).le c.id (Members.id_mem hcA)
    omega
  | @finger k res i hk hres =>
    obtain ⟨outcome, path⟩ := res
    cases outcome with
    | ok owner =>
      obtain ⟨n, a, H', rfl, hj⟩ := hres
      have howner := h.knows ho (.named (heard_said _ _ _) (.inr hj))
      obtain ⟨fingers, hf, hsame⟩ := fixFinger_ok_mem s i owner path
      refine hs.withFingers (fun q hq => ?_) hsame
      rcases hf q hq with rfl | rfl | hq
      · exact howner
      · exact hs.within.succ
      · exact hs.fingers_mem q hq
    | error e =>
      obtain ⟨e, m⟩ := e
      rcases hres with he | ⟨n, a, H', rfl, hlast, hj⟩
      · subst he
        have hsame := sameRouting_fixFinger s i m path
        exact ⟨hs.same hsame, .same hsame⟩
      · rcases h.heard _ a (heard_said _ _ _) with ⟨_, honest, _⟩ | ⟨hR, hA, href⟩
        · exact absurd hj (honest.not_fail rfl e m)
        · rw [judge_refused k href] at hj
          cases hj
          have hfix : s.fixFinger i ⟨.error (.refused, transportMessage .refused n), path⟩ =
              { s.evict n (lookupErrorName .refused ++ " during fix_fingers".toList) true false with
                nextFinger := afterFinger i } := by
            dsimp only at hlast
            rw [NodeState.fixFinger]
            dsimp only
            rw [hlast]
            rfl
          obtain ⟨h₁, h₂⟩ := h.evicted ho hs hR hA (lookupErrorName .refused ++ " during fix_fingers".toList)
          have hsame : SameRouting (s.evict n (lookupErrorName .refused ++
              " during fix_fingers".toList) true false)
              (s.fixFinger i ⟨.error (.refused, transportMessage .refused n), path⟩) := by
            rw [hfix]
            constructor <;> first | rfl | exact .of_eq rfl rfl
          exact ⟨h₁.same hsame, h₂.trans (.same hsame)⟩
  | joined hs₀ horphan _ _ _ =>
    obtain ⟨s₁, hs₀⟩ := hs₀
    rw [(h.saw _ s₁ hs₀).1.orphaned] at horphan
    cases horphan

end

end turns

/-! ### How a round gets there -/

/-- What a task at `p` can rely on. -/
def healAssume (R A : Members) (r : ℕ) (p : Peer) (H : Turns) : MemberTurn → Prop
  | .held s _ => Healing R A r p s ∧ ∀ s₀ s₀', Turn.held s₀ s₀' ∈ H → Mends A s₀' s
  | .said q a => (q.node ∈ A ∧ Honest (Healing R A r q.node) q a) ∨ (q.node ∉ A ∧ a.delivery = .refused)

/-- The nearest survivor is the successor, and has been told. -/
structure Rounded (A : Members) (p : Peer) (H : Turns) : Prop where
  settled : ∃ s s', Turn.held s s' ∈ H ∧ ahead A s' = []
  notified : successorOf (p.id + 1) A ≠ p →
    ∃ a, Heard H (successorOf (p.id + 1) A) (notifyLine p) a

/-- The announcement of `c` has made it the predecessor. -/
def Announced (A : Members) (q : Call) (H : Turns) : Prop :=
  ∀ c ∈ A, c ≠ q.node → successorOf (c.id + 1) A = q.node → q.line = notifyLine c →
    ∃ s s', Turn.held s s' ∈ H ∧ predRank A s' = 2

theorem eq_of_alone {A : Members} {p q : Peer} (h : ¬ A.list.length > 1) (hp : p ∈ A) (hq : q ∈ A) :
    p = q := by
  by_contra hne
  have hmem : p ∈ others q A.list := (mem_others A.nodup hq).mpr ⟨hp, hne⟩
  have := List.length_pos_of_mem hmem
  have := length_others hq
  omega

section progress
variable {R A : Members} {r : ℕ} {p : Peer} {H : Turns}

theorem Rounded.cons (e : MemberTurn) (H : Turns) (h : Rounded A p H) : Rounded A p (e :: H) := by
  refine ⟨?_, fun hne => ?_⟩
  · obtain ⟨s, s', hmem, hs⟩ := h.settled
    exact ⟨s, s', List.mem_cons_of_mem _ hmem, hs⟩
  · obtain ⟨a, ha⟩ := h.notified hne
    exact ⟨a, ha.mono (subset_cons e)⟩

theorem Announced.cons {q : Call} (e : MemberTurn) (H : Turns)
    (h : Announced A q H) : Announced A q (e :: H) := by
  intro c hc hne hnext hline
  obtain ⟨s, s', hmem, hs⟩ := h c hc hne hnext hline
  exact ⟨s, s', List.mem_cons_of_mem _ hmem, hs⟩

theorem rounded_notifySuccessor (hsettled : ∃ s s', Turn.held s s' ∈ H ∧ ahead A s' = []) :
    Sat (freeRules (healAssume R A r p)) (fun H _ => Rounded A p H) H (notifySuccessor p) := by
  obtain ⟨s₀, s₀', hmem, hahead⟩ := hsettled
  apply Sat.bind
  refine sat_sect fun s hs => ⟨trivial, ?_⟩
  have hnext : s.succ = successorOf (p.id + 1) A := by
    apply hs.1.succ_of_ahead
    have := (hs.2 s₀ s₀' hmem).ahead
    rwa [hahead, List.sublist_nil] at this
  have hkeep : ∃ s₁ s₁', Turn.held s₁ s₁' ∈ (.held s s :: H : Turns) ∧ ahead A s₁' = [] :=
    ⟨s₀, s₀', List.mem_cons_of_mem _ hmem, hahead⟩
  dsimp only
  rw [hnext]
  split
  · rename_i hself
    exact sat_pure ⟨hkeep, fun hne => absurd hself hne⟩
  · apply Sat.bind
    apply Sat.bind
    refine sat_ask trivial fun a _ => ?_
    have hdone : Rounded A p (asked (successorOf (p.id + 1) A) (notifyLine p) a ::
        .held s s :: H) := by
      refine ⟨?_, fun _ => ⟨a, heard_said _ _ _⟩⟩
      obtain ⟨s₁, s₁', hmem₁, hs₁⟩ := hkeep
      exact ⟨s₁, s₁', List.mem_cons_of_mem _ hmem₁, hs₁⟩
    refine (sat_of_stable Rounded.cons hdone _).mono fun H' _ h => ?_
    exact h

/-- **The loop of `stabilize`** passes the dead ahead one by one. -/
theorem rounded_stabilizeLoop (ho : Outage R A r) (hp : p ∈ A) (left : ℕ)
    (hleft : ∃ s s', Turn.held s s' ∈ H ∧ (ahead A s').length < left) :
    Sat (freeRules (healAssume R A r p)) (fun H _ => Rounded A p H) H (stabilizeLoop p left) := by
  induction left generalizing H with
  | zero =>
    obtain ⟨_, _, _, h⟩ := hleft
    exact absurd h (Nat.not_lt_zero _)
  | succ left ih =>
    obtain ⟨s₀, s₀', hmem₀, hlen₀⟩ := hleft
    apply Sat.bind
    refine sat_sect fun s hs => ⟨trivial, ?_⟩
    obtain ⟨hs, hmends⟩ := hs
    have hahead := (hmends s₀ s₀' hmem₀).ahead
    dsimp only
    apply Sat.bind
    refine sat_freeCall ?_ ?_
    · -- the successor has answered: it is alive
      intro a nb s₁ ha hgood
      rcases ha with ⟨hA, honest⟩ | ⟨_, href⟩
      · obtain ⟨s₂, hs₂, hparse⟩ := honest.neighbours rfl
        have hnb := goodReply_parsed hgood hparse
        have hnone := hs.ahead_of_succ hA
        dsimp only at hA hs₂ ⊢
        have hsettled : ∀ H' : Turns, Turn.held s s ∈ H' →
            ∃ s s', Turn.held s s' ∈ H' ∧ ahead A s' = [] := fun H' hH => ⟨s, s, hH, hnone⟩
        apply Sat.bind
        refine sat_sect fun s₃ hs₃ => ⟨trivial, ?_⟩
        have hsucc : s₃.succ = s.succ := by
          have := (hs₃.2 s s (by simp)).ahead
          rw [hnone, List.sublist_nil] at this
          rw [hs₃.1.succ_of_ahead this, hs.succ_eq hA]
        have hcur := applyNeighbours_current s₃ nb
        rw [hsucc] at hcur
        rcases hc : (s₃.applyNeighbours s.succ nb).1 with ⟨_ | _, _ | c⟩
        · rw [hc] at hcur
          cases hcur
        · rw [hc] at hcur
          cases hcur
        · exact rounded_notifySuccessor (hsettled _ (by simp))
        · -- a survivor would be this member: the candidate is dead
          obtain ⟨hpred, hid, _⟩ := applyNeighbours_candidate hc
          rw [hs₃.1.self_eq] at hid
          have hself : c ≠ p := fun he => hid (he ▸ rfl)
          rw [hnb] at hpred
          have hcA : c ∉ A := by
            intro hcA
            have hok := (hs₂.pred_ok c hpred).2.2
            rw [if_pos hcA] at hok
            by_cases hloop : p = s.succ
            · rw [← hloop] at hok hA
              by_cases hlen : A.list.length > 1
              · exact successorOf_ne hp hlen ((hs.succ_eq (hloop ▸ hA)).symm.trans hloop.symm)
              · exact hself (eq_of_alone hlen hcA hp)
            · rw [(predecessorOf_eq hA hp hloop (hs.succ_eq hA).symm).2] at hok
              exact hself hok
          apply Sat.bind
          refine sat_freeCall ?_ ?_
          · intro a' b _ ha' hg
            rcases ha' with ⟨hcA', _⟩ | ⟨_, href⟩
            · exact absurd hcA' hcA
            · exact absurd href (ne_refused hg)
          · intro a' s₄ o _ _ _ hbad
            cases o with
            | good b => exact absurd rfl (hbad b)
            | refused => exact rounded_notifySuccessor (hsettled _ (by simp))
            | failed => exact rounded_notifySuccessor (hsettled _ (by simp))
      · exact absurd href (ne_refused hgood)
    · -- the successor has not answered: it is dead, and it is evicted
      intro a s₁ o ha hbad hs₁ hno
      rcases ha with ⟨hA, honest⟩ | ⟨hA, href⟩
      · have := honest.checked (.inr (.inl rfl))
        rw [answers_neighbours, hbad] at this
        cases this
      · dsimp only at hA
        have hgone := (Healing.evict ho hs.within.succ hA hs₁.1 hp "refused".toList).2.2.1
        rw [← report_refused "NEIGHBOURS".toList href] at hgone
        have hloop : Sat (freeRules (healAssume R A r p)) (fun H _ => Rounded A p H)
            (.held s₁ (s₁.report s.succ "NEIGHBOURS".toList a) ::
              asked s.succ "NEIGHBOURS".toList a :: .held s s :: H)
            (stabilizeAgain s.succ (stabilizeLoop p left)) := by
          apply Sat.bind
          refine sat_sect fun s₂ hs₂ => ⟨trivial, ?_⟩
          have hout : s.succ ∉ ahead A s₂ := fun hmem =>
            hgone ((hs₂.2 s₁ _ List.mem_cons_self).ahead.subset hmem)
          have hne : decide (s₂.succ = s.succ) = false := by
            rw [decide_eq_false_iff_not]
            intro he
            rw [← he] at hout hA
            exact hout (hs₂.1.succ_mem_ahead hA)
          dsimp only
          rw [hne]
          refine ih ⟨s₂, s₂, List.mem_cons_self, ?_⟩
          have hsub := (hs₂.2 s s (by simp)).ahead
          have hlt : (ahead A s₂).length < (ahead A s).length := by
            refine Nat.lt_of_le_of_ne hsub.length_le fun heq => hout ?_
            rw [hsub.eq_of_length heq]
            exact hs.succ_mem_ahead hA
          have := hahead.length_le
          omega
        cases o with
        | good b => exact absurd rfl (hno b)
        | refused => exact hloop
        | failed => exact hloop

/-- **A round of a survivor** finds its successor and tells it. -/
theorem rounded_maintenanceRound (ho : Outage R A r) (hp : p ∈ A) :
    Sat (freeRules (healAssume R A r p)) (fun H _ => Rounded A p H) H (maintenanceRound p) := by
  apply Sat.bind
  refine sat_sect fun s hs => ⟨trivial, ?_⟩
  apply Sat.bind
  refine sat_sect fun s₁ hs₁ => ⟨trivial, ?_⟩
  have hway : s₁.nextWayIn.1 = (false, none) := by
    simp [NodeState.nextWayIn, hs₁.1.orphaned]
  rw [hway]
  dsimp only
  apply Sat.bind
  refine (rounded_stabilizeLoop ho hp _ ⟨s, _, List.mem_cons_of_mem _ List.mem_cons_self, ?_⟩).mono
    fun H' _ h => ?_
  · have h₁ := (@List.takeWhile_sublist _ s.succs fun q => decide (q ∉ A)).length_le
    have h₂ := hs.1.length_le.trans ho.le_max
    exact Nat.lt_of_le_of_lt h₁ (Nat.lt_of_le_of_lt h₂ (by decide))
  · apply Sat.bind
    refine (sat_of_stable Rounded.cons h _).mono fun H'' _ h' => ?_
    exact sat_of_stable Rounded.cons h' _

/-- **The probe of a dead predecessor** leaves the slot to the member that announced itself. -/
theorem announced_probePred (ho : Outage R A r) {c old : Peer} {s : NodeState} {q : Call}
    (hp : p ∈ A) (hs : Healing R A r p s) (hpred : s.pred = some old) (hne : old ≠ c) (hc : c ∈ A)
    (hcp : c ≠ p) (hnext : successorOf (c.id + 1) A = p) :
    Sat (freeRules (healAssume R A r p)) (fun H _ => Announced A q H) H (probePred old c) := by
  obtain ⟨hold, _, hwho⟩ := hs.pred_ok old hpred
  have hdead : old ∉ A := by
    intro hA
    rw [if_pos hA, (predecessorOf_eq hp hc hcp hnext).2] at hwho
    exact hne hwho
  rw [if_neg hdead] at hwho
  apply Sat.bind
  refine sat_freeCall ?_ ?_
  · intro a b _ ha hg
    rcases ha with ⟨hA, _⟩ | ⟨_, href⟩
    · exact absurd hA hdead
    · exact absurd href (ne_refused hg)
  · intro a s₁ o ha _ hs₁ hno
    rcases ha with ⟨hA, _⟩ | ⟨_, href⟩
    · exact absurd hA hdead
    · obtain ⟨hs₁', _, _, hslot⟩ := Healing.evict ho hold hdead hs₁.1 hp "refused".toList
      rw [← report_refused "PING".toList href] at hs₁' hslot
      -- the slot is empty or a survivor's from here on
      have hrank : 1 ≤ predRank A (s₁.report old "PING".toList a) := by
        rw [predRank]
        cases hx : (s₁.report old "PING".toList a).pred with
        | none => exact Nat.le_refl 1
        | some x =>
          have hxwho := (hs₁'.pred_ok x hx).2.2
          by_cases hxA : x ∈ A
          · simp [hxA]
          · rw [if_neg hxA, ← hwho] at hxwho
            rw [hx, hxwho] at hslot
            exact absurd rfl hslot
      have hfill : Sat (freeRules (healAssume R A r p)) (fun H _ => Announced A q H)
          (.held s₁ (s₁.report old "PING".toList a) :: asked old "PING".toList a :: H)
          (.sect fun s => ((), if s.pred = none then s.takePred c else s)) := by
        refine sat_sect fun s₂ hs₂ => ⟨trivial, fun _ _ _ _ _ => ⟨s₂, _, List.mem_cons_self, ?_⟩⟩
        have hle := hrank.trans (hs₂.2 s₁ _ List.mem_cons_self).pred
        dsimp only
        cases hx : s₂.pred with
        | none =>
          rw [if_pos rfl, predRank, (sameRouting_takePred s₂ c).pred]
          exact if_pos hc
        | some x =>
          rw [if_neg (by simp), predRank, hx]
          rw [predRank, hx] at hle
          dsimp only at hle ⊢
          split
          · rfl
          · rename_i hxA
            rw [if_neg hxA] at hle
            omega
      cases o with
      | good b => exact absurd rfl (hno b)
      | refused => exact hfill
      | failed => exact hfill

/-- What an announcement comes to, with the work it leaves behind. -/
theorem announced_after (ho : Outage R A r) {ρ : Ring} {q : Call} {T : List Peer} {h : Handled}
    (hk : HealingTurns R A r ρ q.node T H) (hs : Served q.node H q.line h) :
    Sat (freeRules (healAssume R A r q.node)) (fun H _ => Announced A q H) H h.after := by
  have hvacuous : (∀ c, c ∈ A → c ≠ q.node → successorOf (c.id + 1) A = q.node →
      q.line ≠ notifyLine c) → Sat (freeRules (healAssume R A r q.node))
        (fun H _ => Announced A q H) H h.after := fun hno =>
    sat_of_stable Announced.cons (fun c hc hne hnext hline => absurd hline (hno c hc hne hnext)) _
  generalize hline : q.line = line at hs
  cases hs with
  | @orphan _ s hsaw horphan =>
    obtain ⟨s', hmem⟩ := hsaw
    rw [(hk.saw s s' hmem).1.orphaned] at horphan
    cases horphan
  | ping => exact hvacuous fun c _ _ _ hc => (notifyLine_ne c).1 (hline.symm.trans hc).symm
  | neighbours _ => exact hvacuous fun c _ _ _ hc => (notifyLine_ne c).2 (hline.symm.trans hc).symm
  | @find _ k _ => exact hvacuous fun c _ _ _ hc => (findRequest_ne k).2.2 c (hline.symm.trans hc)
  | @twin c hid =>
    refine hvacuous fun c' hc' hne _ hc => hne ?_
    have := notifyLine_injective (hline.symm.trans hc)
    subst this
    exact Members.eq_of_id hc' hk.mem hid
  | @notify c s hheld _ =>
    by_cases hcond : c ∈ A ∧ c ≠ q.node ∧ successorOf (c.id + 1) A = q.node
    · obtain ⟨hc, hne, hnext⟩ := hcond
      have hs := (hk.saw s _ hheld).1
      have hleft : predRank A (s.notified c).2 = 2 → Announced A q H :=
        fun hr _ _ _ _ _ => ⟨s, _, hheld, hr⟩
      rcases notified_cases s c with ⟨he, hp⟩ | ⟨old, hold, hne', _, he⟩ | ⟨_, hnone, hsame⟩
      · rw [he] at hleft ⊢
        exact hleft (by rw [predRank, hp]; exact if_pos hc)
      · rw [he]
        exact announced_probePred ho hk.mem hs hold hne' hc hne hnext
      · rw [hnone]
        exact hleft (by rw [predRank, hsame.pred]; exact if_pos hc)
    · refine hvacuous fun c' hc' hne hnext hc => hcond ?_
      have := notifyLine_injective (hline.symm.trans hc)
      subst this
      exact ⟨hc', hne, hnext⟩

end progress

/-! ### The discipline of a healing ring -/

def healDiscipline (R A : Members) (r : ℕ) : Discipline where
  Inv ρ := ρ.members = A.list ∧ ∀ p ∈ A, Healing R A r p (ρ.node p)
  Later ρ ρ' := ρ.members = ρ'.members ∧ ρ.answered ⊆ ρ'.answered ∧
    ∀ p ∈ A, Mends A (ρ.node p) (ρ'.node p)
  Known ρ _ := HealingTurns R A r ρ
  assume := healAssume R A r
  goal
    | .round p, H => p ∈ A → Rounded A p H
    | .deferred q, H => Announced A q H
    | .joins _ _ _, _ => True
  admits _ _ := False

section discipline
variable {R A : Members} {r : ℕ}

variable {ρ : Ring} {p : Peer} {T : List Peer} {H : Turns}

theorem HealingTurns.nil (hp : p ∈ A) (hT : ∀ c ∈ T, c ∈ A ∧ c ≠ p ∧ successorOf (c.id + 1) A = p) :
    HealingTurns R A r ρ p T [] where
  mem := hp
  told := hT
  saw s s' h := by cases h
  heard q a h := by cases h

theorem HealingTurns.later {ρ' : Ring} (h : HealingTurns R A r ρ p T H)
    (hl : (healDiscipline R A r).Later ρ ρ') : HealingTurns R A r ρ' p T H where
  mem := h.mem
  told := h.told
  saw s s' hmem := ⟨(h.saw s s' hmem).1, (h.saw s s' hmem).2.trans (hl.2.2 p h.mem)⟩
  heard q a hmem := by
    rcases h.heard q a hmem with ⟨hA, honest, hans⟩ | hdead
    · exact .inl ⟨hA, honest, hl.2.1 hans⟩
    · exact .inr hdead

theorem HealingTurns.cons (h : HealingTurns R A r ρ p T H) {e : MemberTurn}
    (he : match e with
      | .held s s' => Healing R A r p s ∧ Mends A s' (ρ.node p)
      | .said q a => (q.node ∈ A ∧ Honest (Healing R A r q.node) q a ∧ q ∈ ρ.answered) ∨
          (q.node ∈ R ∧ q.node ∉ A ∧ a.delivery = .refused)) : HealingTurns R A r ρ p T (e :: H) where
  mem := h.mem
  told := h.told
  saw s s' hmem := by
    rcases List.mem_cons.mp hmem with rfl | hmem
    · exact he
    · exact h.saw s s' hmem
  heard q a hmem := by
    rcases List.mem_cons.mp hmem with rfl | hmem
    · exact he
    · exact h.heard q a hmem

theorem later_set {s : NodeState} (h : Mends A (ρ.node p) s) :
    (healDiscipline R A r).Later ρ (ρ.set p s) := by
  refine ⟨rfl, List.Subset.refl _, fun q _ => ?_⟩
  by_cases hqp : q = p
  · subst hqp
    rw [Ring.node_set_self]
    exact h
  · rw [Ring.node_set_ne _ _ hqp]
    exact .refl _

theorem sound_healDiscipline (ho : Outage R A r) : (healDiscipline R A r).Sound where
  later_refl ρ := ⟨rfl, List.Subset.refl _, fun p _ => .refl _⟩
  members_subset h := by rw [h.1]; exact fun _ h => h
  known_later hl h := h.later hl
  self_eq hI hp := (hI.2 _ (by rwa [hI.1] at hp)).self_eq
  known_round hI hp := .nil (by rwa [hI.1] at hp) (by simp)
  known_join _ _ h := h.elim
  goal_round p := by
    by_cases hp : p ∈ A
    · exact (rounded_maintenanceRound ho hp).mono fun H _ h _ => h
    · exact sat_of_stable (fun _ _ _ h => absurd h hp) (fun h => absurd h hp) _
  goal_joins := trivial
  goal_deferred hk hs := announced_after ho hk hs
  change {ρ p T H s'} hI hI' hp hk hc := by
    rw [hI.1] at hp
    have hs := hI.2 p hp
    have hmends := (hk.change ho hs hc).2
    refine ⟨later_set hmends, ⟨hs, fun s₀ s₀' h => (hk.saw s₀ s₀' h).2⟩, ?_⟩
    refine (hk.later (later_set hmends)).cons ⟨hs, ?_⟩
    rw [Ring.node_set_self]
    exact .refl _
  asked {ρ b p T H q} hI hk hq _ hmem := by
    rw [hI.1] at hmem
    by_cases hline : q.line = notifyLine p
    · refine ⟨[p], fun _ => List.mem_singleton.mpr rfl, .nil hmem fun c hc => ?_⟩
      rw [List.mem_singleton.mp hc]
      obtain ⟨s, ⟨s', hs⟩, hx, hne⟩ := hq.notified hline
      refine ⟨hk.mem, fun he => hne he.symm, ?_⟩
      rw [hx] at hmem ⊢
      exact ((hk.saw s s' hs).1.succ_eq hmem).symm
    · exact ⟨[], fun h => absurd h hline, .nil hmem (by simp)⟩
  replied {ρ b p T T' H H' q h} took hI hmem hk' hs hk _ := by
    rw [hI.1] at hmem
    have honest : Honest (Healing R A r q.node) q ⟨.ok, h.reply, took⟩ := by
      refine hs.honest took fun s hsaw => ?_
      obtain ⟨s', hsaw⟩ := hsaw
      have hw := (hk'.saw s s' hsaw).1
      exact ⟨hw, hw.orphaned, hw.self_eq, List.length_pos_iff.mpr hw.succs_ne_nil,
        hw.length_le.trans ho.le_max⟩
    have hl : (healDiscipline R A r).Later ρ (ρ.answer q) :=
      ⟨rfl, List.subset_cons_self _ _, fun p _ => .refl _⟩
    exact ⟨hl, fun _ => .inl ⟨hmem, honest⟩,
      (hk.later hl).cons (.inl ⟨hmem, honest, List.mem_cons_self⟩)⟩
  absent {ρ b p T H q} took hI hmem hk hq := by
    rw [hI.1] at hmem
    have hknows : q.node ∈ R := hk.knows ho hq.knows
    have hrefused : (ρ.absent q.node took).delivery = .refused := by
      rw [Ring.absent, if_neg]
      rw [hI.1, List.any_eq_true]
      rintro ⟨m, hm, hsame⟩
      exact hmem (ho.single q.node hknows m (ho.sub m hm) hsame ▸ hm)
    exact ⟨fun _ => .inr ⟨hmem, hrefused⟩, hk.cons (.inr ⟨hknows, hmem, hrefused⟩)⟩
  mine _ h := h.elim
  listens _ _ _ h := h.elim

theorem keeps_healDiscipline (ho : Outage R A r) : (healDiscipline R A r).Keeps where
  change {ρ p T H s'} hI hp hk hc := by
    rw [hI.1] at hp
    refine ⟨hI.1, fun q hq => ?_⟩
    by_cases hqp : q = p
    · subst hqp
      rw [Ring.node_set_self]
      exact (hk.change ho (hI.2 q hq) hc).1
    · rw [Ring.node_set_ne _ _ hqp]
      exact hI.2 q hq
  answer hI := hI
  listens _ _ h := h.elim

end discipline

/-! ### Healed -/

/-- A wired ring of which the members `A` are left. -/
def crashedNet (R A : Members) (r : ℕ) : Net := ⟨⟨wired R r, A.list, []⟩, []⟩

theorem Outage.pred_alone {R A : Members} {r : ℕ} {p : Peer} {s : NodeState} (ho : Outage R A r)
    (hp : p ∈ A) (h : Healing R A r p s) (hlen : ¬ A.list.length > 1) : s.pred = none := by
  cases hx : s.pred with
  | none => rfl
  | some x =>
    obtain ⟨hxR, hxp, hwho⟩ := h.pred_ok x hx
    by_cases hxA : x ∈ A
    · exact absurd (eq_of_alone hlen hxA hp) hxp
    · obtain ⟨y, hy, hyA⟩ := ho.survivor p hp
      rw [(sameRouting_wired R r p).succs, eq_of_alone hlen hyA hp] at hy
      obtain ⟨z, rest, hothers⟩ := List.exists_cons_of_ne_nil
        (List.ne_nil_of_mem ((mem_others R.nodup (ho.sub p hp)).mpr ⟨hxR, hxp⟩))
      dsimp only at hy
      rw [succList_cons ho.one_le (ho.sub p hp) hothers] at hy
      have hno := (List.nodup_cons.mp (nodup_others R.nodup (ho.sub p hp))).1
      rw [hothers] at hno
      exact absurd ((List.Sublist.cons_cons z (List.take_sublist _ rest)).subset hy) hno

/-- **The ring heals in one round.**  Of a wired ring of single-member processes any members have
died, but every survivor still has a survivor in its list.  After every survivor has run a
maintenance round, in any order or at the same time, and what is left to do after the announcements
has been done, every survivor's successor and predecessor are the nearest survivors, and nobody has
struck or evicted one. -/
theorem ring_heals (R A : Members) (r : ℕ) (hr : 1 ≤ r ∧ r ≤ MAX_SUCCESSORS)
    (hsingle : ∀ p ∈ R, ∀ q ∈ R, sameProcess p q = true → p = q) (hsub : ∀ p ∈ A, p ∈ R)
    (hsurvivor : ∀ p ∈ A, ∃ q ∈ (wired R r p).succs, q ∈ A) (moves : List Move)
    (hmoves : ∀ p known r', Move.join p known r' ∉ moves) (hrounds : ∀ p ∈ A, Move.round p ∈ moves)
    (n : Net) (h : (crashedNet R A r).exec moves = some n)
    (hdone : ∀ t ∈ n.threads, t.isDone = true) (p : Peer) (hp : p ∈ A) :
    (n.ring.node p).succ = successorOf (p.id + 1) A ∧
    (n.ring.node p).pred = (if A.list.length > 1 then some (predecessorOf p.id A) else none) ∧
    (n.ring.node p).strikes = .empty ∧ (n.ring.node p).counters.strikes = 0 ∧
    ∀ q ∈ A, ∀ line ∈ (n.ring.node p).events, ¬ accusation q <+: line := by
  have ho : Outage R A r := ⟨hsub, hsingle, hsurvivor, hr.1, hr.2⟩
  have hD := sound_healDiscipline ho
  have hstart : (healDiscipline R A r).Holds (crashedNet R A r) :=
    ⟨⟨rfl, fun q hq => healing_wired ho hq⟩, fun t ht => by cases ht⟩
  have hend := hD.exec (keeps_healDiscipline ho)
    (fun m hm p known r' he => absurd (he ▸ hm) (hmoves p known r')) hstart h
  have hok := hend.inv.2
  -- every round has got to its goal
  have hround : ∀ q ∈ A, ∃ H T, HealingTurns R A r n.ring q T H ∧ Rounded A q H := by
    intro q hq
    obtain ⟨t, ht, he⟩ := Net.runs_round h (hrounds q hq)
    obtain ⟨T, hf⟩ := hend.follows t ht
    obtain ⟨⟨hme, -⟩, hgoal⟩ := hf.done_errand (hdone t ht) he
    have hknown := hf.known
    rw [hme] at hknown
    exact ⟨t.turns, T, hknown, hgoal hq⟩
  have hsucc : (n.ring.node p).succ = successorOf (p.id + 1) A := by
    obtain ⟨H, T, hk, hrounded⟩ := hround p hp
    obtain ⟨s, s', hmem, hahead⟩ := hrounded.settled
    have hsub := (hk.saw s s' hmem).2.ahead
    rw [hahead, List.sublist_nil] at hsub
    exact (hok p hp).succ_of_ahead hsub
  refine ⟨hsucc, ?_, (hok p hp).strikes, (hok p hp).struck, fun q hq line hline =>
    (hok p hp).innocent line hline q hq⟩
  split
  · -- the predecessor has announced itself in its own round
    rename_i hlen
    have hc := predecessorOf_mem p.id A
    have hne := predecessorOf_ne hp hlen
    have hnext := successorOf_predecessorOf hp
    obtain ⟨H, T, hk, hrounded⟩ := hround _ hc
    obtain ⟨a, ha⟩ := hrounded.notified (by rw [hnext]; exact fun he => hne he.symm)
    rw [hnext] at ha
    rcases hk.heard _ a ha with ⟨_, _, hans⟩ | ⟨_, hdead, _⟩
    · obtain ⟨t, ht, he⟩ := Net.runs_deferred h (by intro q hq; cases hq) hans
      obtain ⟨T', hf⟩ := hend.follows t ht
      obtain ⟨⟨hme, -⟩, hgoal⟩ := hf.done_errand (hdone t ht) he
      have hknown : HealingTurns R A r n.ring p T' t.turns := by
        have := hf.known
        rwa [hme] at this
      obtain ⟨s, s', hmem, hrank⟩ := hgoal _ hc hne hnext rfl
      have hle := (hknown.saw s s' hmem).2.pred
      have htwo : predRank A (n.ring.node p) = 2 := by
        have : predRank A (n.ring.node p) ≤ 2 := by
          rw [predRank]
          split
          · decide
          · split <;> decide
        omega
      exact (predRank_eq_two (hok p hp)).mp htwo
    · exact absurd hp hdead
  · rename_i hlen
    exact ho.pred_alone hp (hok p hp) hlen

/-- The first and the last of three members, when the one between them is dead. -/
def twoSurvivors : Members where
  list := threeMembers.list.eraseIdx 1
  ne_nil := by decide
  sorted := by decide

/-- One round after the other, and then the probe that the second announcement has left behind. -/
def healingRun : List Move :=
  twoSurvivors.list.map .round ++ List.replicate 32 (.run 0 7) ++ List.replicate 24 (.run 1 7) ++
    List.replicate 3 (.run 3 7)

theorem ring_heals_one_dead : ∃ n, (crashedNet threeMembers twoSurvivors 2).exec healingRun = some n ∧
    ∀ p ∈ twoSurvivors, (n.ring.node p).succ = successorOf (p.id + 1) twoSurvivors ∧
      (n.ring.node p).pred = some (predecessorOf p.id twoSurvivors) := by
  refine Runs.exists_of_any (fun n => n.threads.all Thread.isDone) (fun n hn hdone p hp => ?_)
    (by decide +kernel)
  obtain ⟨hsucc, hpred, _⟩ := ring_heals threeMembers twoSurvivors 2 (by decide) (by decide +kernel)
    (by decide +kernel) (by decide +kernel) healingRun
    (fun p known r' h => by simp [healingRun] at h) (fun p hp => by simp [healingRun, Members.mem_def.mp hp])
    n hn
    (fun t ht => List.all_eq_true.mp hdone t ht) p hp
  exact ⟨hsucc, hpred⟩

end ChordFs
