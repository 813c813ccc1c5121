import ChordFs.RaftGroup

/-! # Safety of the group

The four safety properties of Raft, for every run of a group of any size: election safety, log
matching, leader completeness and state machine safety.  Each is a property of the abstract
protocol carried over by the refinement; what is left to say here concerns replicas that a failed
save has stopped, and the group of one. -/

namespace ChordFs

open Consensus TermLog Function

variable {n : ℕ} {P : Str → Prop} {g g' : Facts n} {w w' : World n} {s s' : Raft n} {i j : Fin n}

variable {T k t : ℕ} {l p : List Entry} {e : Entry}

theorem exists_rel_of_runs (h : World.Runs .init w) (h' : World.Runs w w') :
    ∃ g g', Rel (fun _ => True) g w ∧ Rel (fun _ => True) g' w' ∧ Extends g g' := by
  obtain ⟨g, hg⟩ := rel_of_reachable trivial h
  obtain ⟨g', he, hg'⟩ := hg.steps trivial h'
  exact ⟨g, g', hg, hg', he⟩

/-! ### Election safety -/

theorem Rel.leader_log (h : Rel P g w) (hl : (w.machine i).leads t) :
    ∃ s, w.machine i = .up s ∧ s.term = t ∧
      (g.lead t = some i ∧ g.ledger t = s.log ∨ Limbo g s ∧ s.cfg.id = i) := by
  have hag := h.machine i
  cases hm : w.machine i with
  | down d => rw [hm] at hl; exact hl.elim
  | up s =>
    rw [hm] at hl hag
    obtain ⟨hr, rfl⟩ := hl
    obtain ⟨rfl, -, hlive, hhalt⟩ := hag
    refine ⟨s, rfl, rfl, ?_⟩
    cases hs : s.stopped with
    | false => exact .inl ((hlive hs).leads hr)
    | true => exact (hhalt hs).1.rooted.imp (fun h1 => h1.leads hr) fun h1 => ⟨h1, rfl⟩

/-- A replica in the leader role leads its term, or was stopped before that term was durable. -/
theorem Rel.leads (h : Rel P g w) (hl : (w.machine i).leads t) : g.lead t = some i ∨ n = 1 := by
  obtain ⟨s, -, -, h1⟩ := h.leader_log hl
  exact h1.imp And.left fun h1 => h1.1.single

/-- **Election safety**: whoever leads a term at one moment of a run is the only one to lead it at
any moment of it. -/
theorem election_safety (h : World.Runs .init w) (h' : World.Runs w w') {t : ℕ}
    (hi : (w.machine i).leads t) (hj : (w'.machine j).leads t) : i = j := by
  obtain ⟨g, g', hg, hg', he⟩ := exists_rel_of_runs h h'
  rcases hg.leads hi with h1 | rfl
  · rcases hg'.leads hj with h2 | rfl
    · exact Option.some.inj ((he.lead h1).symm.trans h2)
    · exact Subsingleton.elim i j
  · exact Subsingleton.elim i j

/-- The three replicas of the runs below. -/
abbrev r0 : Fin 3 := 0

abbrev r1 : Fin 3 := 1

abbrev r2 : Fin 3 := 2

/-- Three replicas with the default settings. -/
def trio (i : Fin 3) : RaftConfig 3 := { id := i, spread := fun _ => 0 }

/-- Replica 0 is elected in term 1 and commits its no-op with replica 1. -/
def election : List (Event 3) :=
  let vote : VoteRequest := ⟨1, 0, 0, 0⟩
  let noop : AppendRequest := ⟨1, 0, 0, 0, [⟨1, NOOP⟩], 0, 1⟩
  [.boot r0 (trio r0) 0 .ok, .boot r1 (trio r1) 0 .ok, .boot r2 (trio r2) 0 .ok,
    .input r0 (.tick 150) .ok, .input r0 .takeOutgoing .ok,
    .input r1 (.handleVote vote 151) .ok, .input r0 (.handleVoteReply r1 vote ⟨1, true⟩ 152) .ok,
    .input r0 .takeOutgoing .ok, .input r1 (.handleAppend noop 153) .ok,
    .input r0 (.handleAppendReply r1 noop ⟨1, true, 1⟩ 154) .ok]

/-- Then replica 1, which hears no more of it, is elected in term 2 by replica 2. -/
def replacement : List (Event 3) :=
  let vote : VoteRequest := ⟨2, 1, 1, 1⟩
  [.input r1 (.tick 400) .ok, .input r1 .takeOutgoing .ok, .input r2 (.handleVote vote 401) .ok,
    .input r1 (.handleVoteReply r2 vote ⟨2, true⟩ 402) .ok]

def elected : World 3 := (World.init.run election).getD .init

def replaced : World 3 := (elected.run replacement).getD elected

theorem runs_elected : World.Runs .init elected :=
  World.runs_getD_run election (by decide +kernel)

theorem runs_replaced : World.Runs elected replaced :=
  World.runs_getD_run replacement (by decide +kernel)

theorem election_safety_elected :
    (elected.machine 0).leads 1 ∧ (replaced.machine 0).leads 1 ∧ (0 : Fin 3) = 0 :=
  ⟨by decide +kernel, by decide +kernel,
    election_safety (t := 1) runs_elected runs_replaced (by decide +kernel) (by decide +kernel)⟩

/-- **One vote a term**: whatever crashes and failed saves come in between, a replica grants its
vote to one candidate of a term. -/
theorem one_vote_a_term (h : World.Runs .init w) {req req' : VoteRequest} {reply reply' : VoteReply}
    (ha : .vote i req reply ∈ w.answers) (ha' : .vote i req' reply' ∈ w.answers) (hr : reply.granted = true)
    (hr' : reply'.granted = true) (ht : req.term = req'.term) : req.candidate = req'.candidate := by
  obtain ⟨g, hg⟩ := rel_of_reachable trivial h
  obtain ⟨c, hc, l, hl⟩ := hg.answers _ ha hr
  obtain ⟨c', hc', l', hl'⟩ := hg.answers _ ha' hr'
  rw [ht] at hl
  rw [hc, hc', hg.inv.once hl hl']

theorem one_vote_a_term_elected : .vote 1 ⟨1, 0, 0, 0⟩ ⟨1, true⟩ ∈ elected.answers ∧
    ∀ req, .vote 1 req ⟨1, true⟩ ∈ elected.answers → req.term = 1 → 0 = req.candidate :=
  ⟨by decide +kernel, fun _ h ht => @one_vote_a_term 3 elected 1 runs_elected ⟨1, 0, 0, 0⟩ _ ⟨1, true⟩ _
    (by decide +kernel) h rfl rfl ht.symm⟩

/-! ### Log matching -/

/-- A replica's logs agree with the ledgers; in the group of one they may instead be a log and its
continuation by an entry whose term is not durable. -/
theorem Rel.logs (h : Rel P g w) (i : Fin n) :
    (∀ l ∈ (w.machine i).logs, Coherent g.ledger l) ∨
    n = 1 ∧ ∃ L, ∀ l ∈ (w.machine i).logs, l <+: L := by
  have hag := h.machine i
  have hco := h.inv.coherent i
  cases hm : w.machine i with
  | down d =>
    rw [hm] at hag
    refine .inl fun l hl => ?_
    rw [List.mem_singleton.mp hl, ← show onDisk (g.node i) = d from hag]
    exact hco
  | up s =>
    rw [hm] at hag
    obtain ⟨hid, hdisk, hlive, hhalt⟩ := hag
    have hst : s.storage.log = (g.node i).log := by rw [← hdisk]; rfl
    have hroot : Rooted g s ∨ Limbo g s := by
      cases hs : s.stopped with
      | false => exact .inl (hlive hs).toRooted
      | true => exact (hhalt hs).1.rooted
    rcases hroot with h1 | h1
    · refine .inl fun l hl => ?_
      rcases List.mem_cons.mp hl with rfl | hl
      · exact h1.coherent
      · rw [List.mem_singleton.mp hl, hst]; exact hco
    · refine .inr ⟨h1.single, s.log, fun l hl => ?_⟩
      rcases List.mem_cons.mp hl with rfl | hl
      · exact List.prefix_refl _
      · rw [List.mem_singleton.mp hl, hst, h1.log, hid]
        exact List.prefix_append _ _

/-- **Log matching**: two logs of the group, in memory or durable, that hold entries of one term at
one position are equal up to that position. -/
theorem log_matching (h : World.Runs .init w) {l l' : List Entry} (hl : l ∈ (w.machine i).logs)
    (hl' : l' ∈ (w.machine j).logs) {k : ℕ} {e e' : Entry} (he : l[k]? = some e)
    (he' : l'[k]? = some e') (ht : e.term = e'.term) : l.take (k + 1) = l'.take (k + 1) := by
  obtain ⟨g, hg⟩ := rel_of_reachable trivial h
  have hlen : k + 1 ≤ l.length := (List.getElem?_eq_some_iff.mp he).1
  have hlen' : k + 1 ≤ l'.length := (List.getElem?_eq_some_iff.mp he').1
  have hprefix : n = 1 → (∃ L, ∀ l ∈ (w.machine i).logs, l <+: L) →
      l.take (k + 1) = l'.take (k + 1) := by
    rintro rfl ⟨L, hL⟩
    obtain rfl : i = j := Subsingleton.elim i j
    have h1 := List.prefix_iff_eq_take.mp ((List.take_prefix (k + 1) l).trans (hL l hl))
    have h2 := List.prefix_iff_eq_take.mp ((List.take_prefix (k + 1) l').trans (hL l' hl'))
    rw [List.length_take, Nat.min_eq_left hlen] at h1
    rw [List.length_take, Nat.min_eq_left hlen'] at h2
    rw [h1, h2]
  rcases hg.logs i with h1 | ⟨hn, hL⟩
  · rcases hg.logs j with h2 | ⟨hn, hL⟩
    · exact (h1 l hl).take_eq (h2 l' hl') he he' ht
    · subst hn
      obtain rfl : i = j := Subsingleton.elim i j
      exact hprefix rfl hL
  · exact hprefix hn hL

theorem log_matching_replaced :
    [⟨1, NOOP⟩] ∈ (replaced.machine 0).logs ∧ [⟨1, NOOP⟩, ⟨2, NOOP⟩] ∈ (replaced.machine 1).logs ∧
    ([⟨1, NOOP⟩] : List Entry).take 1 = ([⟨1, NOOP⟩, ⟨2, NOOP⟩] : List Entry).take 1 :=
  ⟨by decide +kernel, by decide +kernel,
    log_matching (runs_elected.trans runs_replaced) (i := 0) (j := 1) (by decide +kernel)
      (by decide +kernel) (k := 0) rfl rfl rfl⟩

/-! ### Leader completeness -/

theorem prefix_node_of_single (hn : n = 1) (hi : RaftInv P g) (h : CommittedBy g T p) (v : Fin n) :
    p <+: (g.node v).log := by
  rcases h with rfl | ⟨t, m, -, hc, hp⟩
  · exact List.nil_prefix
  obtain ⟨-, -, -, A, hA, ha⟩ := hi.committed hc
  obtain ⟨u, hu⟩ := (majorities n).inter hA hA
  obtain ⟨m', hm, hack⟩ := ha u (Finset.mem_inter.mp hu).1
  subst hn
  obtain rfl : u = v := Subsingleton.elim u v
  rcases (hi.acked hack).2.2 m hm with h1 | ⟨t', h1, -, h2, h3⟩
  · exact hp.trans h1
  · exact absurd (hi.completeness hc t' h1 h2) h3

/-- In the group of one, every life opens a new term: terms in memory do not fall over a crash. -/
theorem Rel.single_term_le (hn : n = 1) (hP : P NOOP) (h : Rel P g w) (hs : World.Steps P w w')
    (ht : t ≤ (g.node i).term + 1) (hw : ∀ s, w.machine i = .up s → t ≤ s.term) :
    ∀ s, w'.machine i = .up s → t ≤ s.term := by
  induction hs with
  | refl => exact hw
  | @tail w₁ w₂ hrun hst ih =>
    obtain ⟨g₁, he₁, h₁⟩ := h.steps hP hrun
    have hd : t ≤ (g₁.node i).term + 1 := ht.trans (Nat.succ_le_succ (he₁.term i))
    obtain ⟨e, -, hstep⟩ := hst
    intro s hm
    subst hn
    rcases World.step_cases hstep with ⟨k, cfg, now, o, d, -, hk, hc, rfl⟩ |
      ⟨k, x, o, s₁, -, hk, -, rfl⟩ | ⟨k, s₁, -, hk, rfl⟩ <;>
      obtain rfl : k = i := Subsingleton.elim k i
    · have hag := h₁.machine k
      rw [hk] at hag
      simp only [World.setMachine, update_self, Machine.up.injEq] at hm
      rw [← hm, Raft.start, if_pos rfl, Raft.finish_term, Raft.startElection_term]
      rw [show (g₁.node k).term = d.term by rw [← show onDisk (g₁.node k) = d from hag]; rfl] at hd
      exact hd
    · rw [World.record_machine] at hm
      simp only [World.setMachine, update_self, Machine.up.injEq] at hm
      rw [← hm]
      exact (ih s₁ hk).trans (Raft.term_le_input s₁ x o)
    · simp [World.setMachine] at hm

theorem Rel.sound (h : Rel P g w) (hm : w.machine i = .up s) : Sound g s := by
  have hag := h.machine i
  rw [hm] at hag
  obtain ⟨-, -, hlive, hhalt⟩ := hag
  cases hs : s.stopped with
  | false => exact (hlive hs).toSound
  | true => exact (hhalt hs).1.toSound

theorem Rel.commits (h : Rel P g w) (hc : (w.machine i).commits k e T) :
    ∃ p, CommittedBy g T p ∧ p[k - 1]? = some e := by
  cases hm : w.machine i with
  | down d => rw [hm] at hc; exact hc.elim
  | up s =>
    rw [hm] at hc
    obtain ⟨h0, hk, he, rfl⟩ := hc
    refine ⟨s.log.take s.commit, (h.sound hm).committed, ?_⟩
    rw [List.getElem?_take_of_lt (by omega)]
    exact he

/-! ### The leader's bookkeeping -/

namespace Machine

/-- The replica's own term. -/
def term : Machine n → ℕ
  | .up s => s.term
  | .down d => d.term

/-- What a replica's disk holds. -/
def disk : Machine n → Durable
  | .up s => s.storage
  | .down d => d

end Machine

theorem Rel.disk (h : Rel P g w) (i : Fin n) : onDisk (g.node i) = (w.machine i).disk ∧
    (g.node i).term ≤ (w.machine i).term := by
  have hag := h.machine i
  cases hm : w.machine i with
  | down d =>
    rw [hm] at hag
    exact ⟨hag, hag ▸ le_rfl⟩
  | up s =>
    rw [hm] at hag
    exact ⟨hag.2.1, h.term_le hm⟩

/-- **The leader's bookkeeping.**  In every state of the group, whatever was lost, delayed or
repeated, what a leader has noted as confirmed by a replica lies before what it sends it next, which
is at most one past its log; and as long as that replica is in the leader's term, its durable log is
the leader's up to there. -/
theorem leader_bookkeeping (h : World.Runs .init w) (hm : w.machine i = .up s) (hr : s.role = .leader)
    (p : Fin n) :
    s.match_ p < s.next p ∧ s.next p ≤ s.lastIndex + 1 ∧ 1 ≤ s.next p ∧
      (s.appendCall p).prevIndex + 1 = s.next p ∧
      ((w.machine p).term = s.term →
        (w.machine p).disk.log.take (s.match_ p) = s.log.take (s.match_ p)) := by
  obtain ⟨g, hg⟩ := rel_of_reachable trivial h
  obtain ⟨hnext, hmatched⟩ : (∀ p, s.match_ p < s.next p ∧ s.next p ≤ s.log.length + 1) ∧
      ∀ p, 0 < s.match_ p → ∃ m, s.match_ p ≤ m ∧ g.acked p s.term m := by
    have hag := hg.machine i
    rw [hm] at hag
    cases hs : s.stopped with
    | false => exact ⟨((hag.2.2.1 hs).leader hr).next, ((hag.2.2.1 hs).leader hr).matched⟩
    | true => exact (hag.2.2.2 hs).1.leader hr
  obtain ⟨hlt, hle⟩ := hnext p
  have hone : 1 ≤ s.next p := Nat.one_le_of_lt hlt
  refine ⟨hlt, hle, hone, Nat.sub_add_cancel hone, fun hterm => ?_⟩
  rcases Nat.eq_zero_or_pos (s.match_ p) with h0 | hpos
  · rw [h0]; rfl
  obtain ⟨m, hmm, hack⟩ := hmatched p hpos
  obtain ⟨hdisk, hnode⟩ := hg.disk p
  obtain ⟨hack1, hack2, hkept⟩ := hg.inv.acked hack
  -- what was confirmed in the replica's own term it has kept
  have hpre : (g.ledger s.term).take (s.match_ p) <+: (g.node p).log := by
    rcases hkept _ hmm with h1 | ⟨t', h1, h2, -⟩
    · exact h1
    · omega
  obtain ⟨s', hm', -, hlog⟩ := hg.leader_log (i := i) (t := s.term) (by rw [hm]; exact ⟨hr, rfl⟩)
  cases hm.symm.trans hm'
  rcases hlog with ⟨-, hlog⟩ | ⟨hlimbo, hid⟩
  · rw [hlog] at hpre hack2
    have htake := List.prefix_iff_eq_take.mp hpre
    rw [List.length_take, Nat.min_eq_left (hmm.trans hack2)] at htake
    rw [← hdisk, htake]
    rfl
  · -- nobody has confirmed a term that is not durable
    obtain rfl : p = i := Fin.ext (by have := hlimbo.single; omega)
    have := hlimbo.term
    rw [hid] at this
    omega

theorem leader_bookkeeping_elected : ∃ s, elected.machine 0 = .up s ∧ s.match_ 1 = 1 ∧ s.next 1 = 2 ∧
    (elected.machine 1).disk.log.take (s.match_ 1) = s.log.take (s.match_ 1) := by
  obtain ⟨s, hs, hq⟩ := Machine.exists_of_runs (m := elected.machine 0)
    (q := fun s => s.role = .leader ∧ s.match_ 1 = 1 ∧ s.next 1 = 2 ∧ s.term = 1) (by decide +kernel)
  obtain ⟨hr, h1, h2, ht⟩ := of_decide_eq_true hq
  refine ⟨s, hs, h1, h2, (leader_bookkeeping runs_elected hs hr 1).2.2.2.2 ?_⟩
  rw [ht]
  decide +kernel

theorem getElem?_of_isPrefix_some (h : p <+: l) (he : p[k]? = some e) : l[k]? = some e := by
  rw [← getElem?_of_isPrefix h (List.getElem?_eq_some_iff.mp he).1]
  exact he

/-- **Leader completeness**: an entry committed at index `k` by a replica in term `T` is held there
by every replica that leads a later term, whichever of the two is seen first in the run. -/
theorem leader_completeness (h : World.Runs .init w) (h' : World.Runs w w') {k T T' : ℕ} {e : Entry}
    (hT : T < T') :
    ((w.machine i).commits k e T → (w'.machine j).leads T' → (w'.machine j).holds k e) ∧
    ((w'.machine i).commits k e T → (w.machine j).leads T' → (w.machine j).holds k e) := by
  obtain ⟨g, g', hg, hg', he⟩ := exists_rel_of_runs h h'
  constructor
  · intro hc hl
    obtain ⟨p, hp, hpe⟩ := hg.commits hc
    have hp' := hp.extends hg.inv he
    obtain ⟨s, hm, ht, hlog⟩ := hg'.leader_log hl
    rw [hm]
    refine getElem?_of_isPrefix_some ?_ hpe
    rcases hlog with ⟨h1, h2⟩ | ⟨h1, -⟩
    · rw [← h2]
      exact hp'.prefix_ledger hg'.inv hT.le (by rw [h1]; exact Option.some_ne_none j)
    · rw [h1.log]
      exact (prefix_node_of_single h1.single hg'.inv hp' _).trans (List.prefix_append _ _)
  · intro hc hl
    obtain ⟨p, hp, hpe⟩ := hg'.commits hc
    obtain ⟨s, hm, ht, hlog⟩ := hg.leader_log hl
    rw [hm]
    refine getElem?_of_isPrefix_some ?_ hpe
    rcases hlog with ⟨h1, h2⟩ | ⟨h1, hid⟩
    · -- the entry was already in the log the leader stood with
      obtain ⟨l, r, hs, hlr, -⟩ := hg.inv.led h1
      rw [← h2, hlr]
      exact (hp.prefix_stood hg'.inv hT (he.lead h1) (he.stood hs)).trans (List.prefix_append _ _)
    · -- a stopped group of one commits nothing more in an older term
      exfalso
      have hn := h1.single
      subst hn
      obtain rfl : i = j := Subsingleton.elim i j
      have hle := hg.single_term_le rfl trivial h' (t := T') (i := i)
        (by have := h1.term; rw [hid] at this; omega)
        (fun s' hs' => by rw [hm] at hs'; cases hs'; exact ht.ge)
      cases hm' : w'.machine i with
      | down d => rw [hm'] at hc; exact hc
      | up s' =>
        have := hle s' hm'
        rw [hm'] at hc
        have := hc.2.2.2
        omega

theorem leader_completeness_replaced :
    (elected.machine 0).commits 1 ⟨1, NOOP⟩ 1 ∧ (replaced.machine 1).leads 2 ∧
    (replaced.machine 1).holds 1 ⟨1, NOOP⟩ :=
  ⟨by decide +kernel, by decide +kernel,
    (leader_completeness (i := 0) (j := 1) runs_elected runs_replaced (show 1 < 2 by decide)).1
      (by decide +kernel) (by decide +kernel)⟩

/-! ### State machine safety -/

theorem mem_numbered (h : (k, e) ∈ Raft.numbered l) : l[k - 1]? = some e := by
  obtain ⟨i, hi, heq⟩ := List.mem_mapIdx.mp h
  cases heq
  rw [Nat.add_sub_cancel]
  exact List.getElem?_eq_getElem hi

theorem numbered_fst (l : List Entry) :
    (Raft.numbered l).map Prod.fst = List.range' 1 (Raft.numbered l).length := by
  apply List.ext_getElem
  · simp
  · intro i h1 h2
    simp [Raft.numbered, Nat.add_comm]

/-- What a replica applied in its current life is the numbered list of entries committed by the
protocol. -/
theorem Rel.applies (h : Rel P g w) (i : Fin n) :
    ∃ T p, CommittedBy g T p ∧ (w.machine i).applies = Raft.numbered p := by
  cases hm : w.machine i with
  | down d => exact ⟨0, [], CommittedBy.nil _ _, rfl⟩
  | up s => exact ⟨_, _, (h.sound hm).appliedBy, (h.sound hm).applies⟩

theorem Rel.not_stopsOnConflict (h : Rel P g w) (hm : w.machine i = .up s) {req : AppendRequest}
    (hc : (j, Outgoing.append i req) ∈ w.calls) (now : Millis) : ¬ s.stopsOnConflict req now := by
  rintro ⟨hs, ht, hst⟩
  have hd := Raft.stepsDown_append s req now
  obtain ⟨g', hp, -⟩ := (h.live hm hs).prepared_onAppend h.inv (h.appendFact hc) hd ht
  exact absurd (hp.tracks.running.symm.trans hst) Bool.false_ne_true

/-- The replica whose save an event decides, and how it turns out. -/
def Event.saved : Event n → Option (Fin n × Saved)
  | .boot i _ _ o => some (i, o)
  | .input i _ o => some (i, o)
  | .crash _ => none

/-- A replica that was not stopped before is stopped only by a failed save. -/
theorem Rel.stopped_step (h : Rel P g w) {e : Event n} (hs : w.step e = some w')
    (hm : w'.machine i = .up s') (hst : s'.stopped = true) :
    (∃ s, w.machine i = .up s ∧ s.stopped = true) ∨ ∃ k, e.saved = some (i, .fails k) := by
  have hother : ∀ {k : Fin n} {m : Machine n}, w'.machine = update w.machine k m →
      k ≠ i → ∃ s, w.machine i = .up s ∧ s.stopped = true := fun hw hk => by
    rw [hw, update_of_ne hk.symm] at hm
    exact ⟨s', hm, hst⟩
  rcases World.step_cases hs with ⟨k, cfg, now, o, d, rfl, hk, -, rfl⟩ |
    ⟨k, x, o, s₁, rfl, hk, ha, rfl⟩ | ⟨k, s₁, rfl, hk, rfl⟩
  · by_cases hki : k = i
    · subst hki
      simp only [World.setMachine, update_self, Machine.up.injEq] at hm
      obtain ⟨f, rfl⟩ := Raft.fails_of_stopped_start cfg d now (hm ▸ hst)
      exact .inr ⟨f, rfl⟩
    · exact .inl (hother rfl hki)
  · by_cases hki : k = i
    · subst hki
      rw [World.record_machine] at hm
      simp only [World.setMachine, update_self, Machine.up.injEq] at hm
      cases hs₁ : s₁.stopped with
      | true => exact .inl ⟨s₁, hk, hs₁⟩
      | false =>
        have hl := h.live hk hs₁
        rcases Raft.stopped_input_cases ⟨hl.toSynced, hl.saved⟩ hs₁ (hm ▸ hst) with
          ⟨f, rfl⟩ | ⟨req, now, rfl, hcf⟩
        · exact .inr ⟨f, rfl⟩
        · obtain ⟨⟨c, o'⟩, hcm, rfl⟩ := ha
          exact absurd hcf (h.not_stopsOnConflict hk hcm now)
    · exact .inl (hother (World.record_machine _ _ _ _) hki)
  · by_cases hki : k = i
    · subst hki
      simp [World.setMachine] at hm
    · exact .inl (hother rfl hki)

/-- **State machine safety**: at any two moments of a run, in any two lives, entries applied at one
index are equal; a life applies the indexes `1, 2, 3, …` in order; the branch of `handle_append`
that stops a replica on a conflict below its commit index is not taken, so that a replica stops
only when a save fails. -/
theorem state_machine_safety (h : World.Runs .init w) (h' : World.Runs w w') :
    (∀ i j k e e', (k, e) ∈ (w.machine i).applies → (k, e') ∈ (w'.machine j).applies → e = e') ∧
    (∀ i, (w'.machine i).applies.map Prod.fst = List.range' 1 (w'.machine i).applies.length) ∧
    (∀ i j s req now, w'.machine i = .up s → (j, Outgoing.append i req) ∈ w'.calls →
      ¬ s.stopsOnConflict req now) ∧
    (∀ e w'' i s', w'.step e = some w'' → w''.machine i = .up s' → s'.stopped = true →
      (∃ s, w'.machine i = .up s ∧ s.stopped = true) ∨ ∃ k, e.saved = some (i, .fails k)) := by
  obtain ⟨g, g', hg, hg', he⟩ := exists_rel_of_runs h h'
  refine ⟨fun i j k e e' h1 h2 => ?_, fun i => ?_, fun i j s req now hm hc => ?_,
    fun e w'' i s' hs hm hst => hg'.stopped_step hs hm hst⟩
  · obtain ⟨T, p, hp, hpa⟩ := hg.applies i
    obtain ⟨T', q, hq, hqa⟩ := hg'.applies j
    have hpe := mem_numbered (hpa ▸ h1)
    have hqe := mem_numbered (hqa ▸ h2)
    rcases (hp.extends hg.inv he).comparable hg'.inv hq with hpq | hqp
    · exact Option.some.inj ((getElem?_of_isPrefix_some hpq hpe).symm.trans hqe)
    · exact Option.some.inj (hpe.symm.trans (getElem?_of_isPrefix_some hqp hqe))
  · obtain ⟨T, p, -, hpa⟩ := hg'.applies i
    rw [hpa]
    exact numbered_fst p
  · exact hg'.not_stopsOnConflict hm hc now

theorem state_machine_safety_replaced :
    (1, ⟨1, NOOP⟩) ∈ (elected.machine 0).applies ∧
    ∀ j e, (1, e) ∈ (replaced.machine j).applies → (⟨1, NOOP⟩ : Entry) = e :=
  ⟨by decide +kernel, fun j e he => (state_machine_safety runs_elected runs_replaced).1 0 j 1 _ e
    (by decide +kernel) he⟩

end ChordFs
