import ChordFs.RaftSafety

/-! # Reads through the read index

A read is answered once a majority has confirmed, by a reply to a call sent after the read arrived,
that it knows no newer leader, and the leader has applied up to the commit index it noted.  The
replies bound the terms of a majority at the moment of the read, so nothing was committed by then
in a later term; and the noted commit index, of the leader's own term, lies beyond whatever was
committed up to its term.  Hence the replica has applied everything that was committed when the
read was called (`read_index_fresh`). -/

namespace ChordFs

open Consensus TermLog Function

namespace Raft

variable {n : ℕ} {s s' s'' : Raft n} {G : PendingRead n → Prop} {T id : ℕ}

/-! ### A pending read -/

/-- As long as the read `id` is pending, the replica leads term `T` and the read satisfies `G`. -/
def Awaits (G : PendingRead n → Prop) (T id : ℕ) (s : Raft n) : Prop :=
  ∀ r ∈ s.reads, r.id = id → s.role = .leader ∧ s.term = T ∧ G r

/-- Between `s` and `s'` the read `id` was not answered. -/
structure Waits (G : PendingRead n → Prop) (T id : ℕ) (s s' : Raft n) : Prop where
  awaits : Awaits G T id s → Awaits G T id s'
  ok : ⟨id, true⟩ ∈ s'.readResults → ⟨id, true⟩ ∈ s.readResults
  applies : s'.applies = s.applies

theorem Waits.refl (s : Raft n) : Waits G T id s s := ⟨fun h => h, fun h => h, rfl⟩

theorem Waits.trans (h : Waits G T id s s') (h' : Waits G T id s' s'') : Waits G T id s s'' :=
  ⟨fun ha => h'.awaits (h.awaits ha), fun hr => h.ok (h'.ok hr), h'.applies.trans h.applies⟩

theorem waits_of_eq (hr : s'.role = s.role) (ht : s'.term = s.term) (hd : s'.reads = s.reads)
    (hres : s'.readResults = s.readResults) (ha : s'.applies = s.applies) : Waits G T id s s' := by
  refine ⟨fun h => ?_, fun h => hres ▸ h, ha⟩
  simp only [Awaits, hr, ht, hd]
  exact h

theorem Sends.waits (h : Sends s s') : Waits G T id s s' :=
  waits_of_eq h.role h.term h.reads h.readResults h.applies

theorem not_mem_failed (rs : List (PendingRead n)) :
    (⟨id, true⟩ : ReadResult) ∉ rs.map fun r => ⟨r.id, false⟩ := by
  simp

theorem StepsDown.waits {t : ℕ} (h : StepsDown s t s') : Waits G T id s s' := by
  refine ⟨fun ha r hr hid => ?_, fun hres => ?_, h.applies⟩
  · rw [h.reads] at hr
    split at hr
    · -- a follower has no pending reads
      rename_i hf
      have := (ha r hr hid).1
      rw [hf] at this
      cases this
    · cases hr
  · rw [h.readResults] at hres
    split at hres
    · exact hres
    · exact (List.mem_append.mp hres).resolve_right (not_mem_failed _)

/-! ### Up to `finish` -/

/-- A reply counts for a read once the call it answers is late enough. -/
theorem waits_noteAcks (s : Raft n) (p : Fin n) (seq : ℕ)
    (hG : s.term = T → ∀ r, G r → r.seq ≤ seq → G { r with acks := update r.acks p true }) :
    Waits G T id s (s.noteAcks p seq) := by
  refine ⟨fun ha r' hr' hid => ?_, fun h => h, rfl⟩
  obtain ⟨r, hr, rfl⟩ := List.mem_map.mp hr'
  split at hid
  · rename_i hseq
    obtain ⟨h1, h2, h3⟩ := ha r hr hid
    rw [if_pos hseq]
    exact ⟨h1, h2, hG h2 r h3 hseq⟩
  · rename_i hseq
    rw [if_neg hseq]
    exact ha r hr hid

/-- A further read does not matter, unless it is the one in question. -/
theorem waits_enter {k : ℕ} (hr : s.role = .leader) (hG : k = id → s.term = T ∧ G (s.newRead k)) :
    Waits G T id s { s with reads := s.reads ++ [s.newRead k] } := by
  refine ⟨fun ha r hmem hid => ?_, fun h => h, rfl⟩
  rcases List.mem_append.mp hmem with hmem | hmem
  · exact ha r hmem hid
  · rw [List.mem_singleton.mp hmem] at hid ⊢
    exact ⟨hr, hG hid⟩

theorem waits_onAppend (s : Raft n) (req : AppendRequest) : Waits G T id s (s.onAppend req).1 :=
  have h := s.onAppend_fixes req
  waits_of_eq h.role h.term h.reads h.readResults h.applies

section acts
variable {x : Input n} {s₁ : Raft n}
  (hack : ∀ p sent reply now, x = .handleAppendReply p sent reply now → sent.term = T →
    reply.term = T → ∀ r, G r → r.seq ≤ sent.seq →
    G { r with acks := Function.update r.acks p true })

include hack

theorem Act.waits (hread : ∀ now, x ≠ .read id now) (ha : Act x s s') : Waits G T id s s' := by
  cases ha with
  | sends h => exact h.waits
  | stepsDown h => exact h.waits
  | stands =>
    refine ⟨fun _ r hr => (by cases hr), fun h => ?_, rfl⟩
    exact (List.mem_append.mp h).resolve_right (not_mem_failed _)
  | takesLead hr =>
    refine ⟨fun ha r hmem hid => ?_, fun h => h, rfl⟩
    have := (ha r hmem hid).1
    rw [hr] at this
    cases this
  | @notes p sent reply now hx _ _ hsent hreply =>
    have hprogress : Waits G T id s (s.noteProgress p sent reply now) := by
      unfold noteProgress
      split <;> exact waits_of_eq rfl rfl rfl rfl rfl
    refine hprogress.trans (waits_noteAcks _ p sent.seq fun ht => ?_)
    rw [(frame_noteProgress s p sent reply now).term] at ht
    exact hack p sent reply now hx (hsent.trans ht) (hreply.trans ht)
  | appends => exact s.waits_onAppend _
  | enters hx hr => exact waits_enter hr fun hid => absurd (hid ▸ hx) (hread _)
  | asks | counts | grants | pushes => exact waits_of_eq rfl rfl rfl rfl rfl

theorem Acts.waits (hread : ∀ now, x ≠ .read id now) (ha : Acts x s s') : Waits G T id s s' := by
  induction ha with
  | refl => exact Waits.refl s
  | tail _ hact ih => exact ih.trans (hact.waits hack hread)

theorem waits_of_beforeFinish
    (hread : ∀ now, x = .read id now → s.stopped = false → s.role = .leader → s.term = T ∧ G (s.newRead id))
    (hb : s.beforeFinish x = some s₁) : Waits G T id s s₁ := by
  by_cases hx : ∃ now, x = .read id now
  · obtain ⟨now, rfl⟩ := hx
    obtain ⟨hs, ⟨⟩⟩ := Option.ite_none_left_eq_some.mp hb
    rw [not_or, not_not] at hs
    have hG := hread now rfl (Bool.eq_false_iff.mpr hs.1) hs.2
    exact (waits_enter hs.2 fun _ => hG).trans (s.sends_onRead id now hs.2).waits
  · exact (acts_of_beforeFinish hb).waits hack fun now h => hx ⟨now, h⟩

end acts

theorem Unfinished.waits {x : Input n} {r : Raft n × Output n} (ha : Unfinished s x r) :
    Waits G T id s r.1 := by
  cases ha with
  | refuses | notLeading => exact Waits.refl s
  | fails to_ sent now => exact (sends_callFailed s to_ sent now).waits
  | givesCalls => exact waits_of_eq rfl rfl rfl rfl rfl
  | givesReads => exact ⟨fun h => h, fun h => (by cases h), rfl⟩
  | stops _ _ hd => exact hd.waits.trans (waits_onAppend _ _)

/-! ### `finish` -/

/-- What makes the read `r` an answered one in the state `s`. -/
structure Answers (G : PendingRead n → Prop) (T : ℕ) (s : Raft n) (r : PendingRead n) : Prop where
  running : s.stopped = false
  role : s.role = .leader
  term : s.term = T
  holds : G r
  noted : r.index ≠ 0
  acks : Majority n ((List.finRange n).countP r.acks)
  applied : r.index ≤ s.applied

/-- Between `s` and `s'` the read `id` was answered at most by an `Answers`. -/
structure Serves (G : PendingRead n → Prop) (T id : ℕ) (s s' : Raft n) : Prop where
  awaits : Awaits G T id s → Awaits G T id s'
  ok : Awaits G T id s → ⟨id, true⟩ ∈ s'.readResults →
    ⟨id, true⟩ ∈ s.readResults ∨ ∃ r, Answers G T s' r
  applies : s.applies <+: s'.applies

theorem Waits.serves (h : Waits G T id s s') : Serves G T id s s' :=
  ⟨h.awaits, fun _ hr => .inl (h.ok hr), by rw [h.applies]⟩

theorem Waits.trans_serves (h : Waits G T id s s') (h' : Serves G T id s' s'') :
    Serves G T id s s'' :=
  ⟨fun ha => h'.awaits (h.awaits ha), fun ha hr => (h'.ok (h.awaits ha) hr).imp h.ok fun hx => hx,
    by rw [← h.applies]; exact h'.applies⟩

theorem serves_resolveReads (hs : s.stopped = false)
    (hG : s.role = .leader → s.term = T → s.termAt s.commit = T → ∀ r, G r → G { r with index := s.commit }) :
    Serves G T id s s.resolveReads := by
  unfold resolveReads
  split
  · exact (Waits.refl s).serves
  split
  · rename_i hr
    refine Waits.serves ⟨fun _ r hmem => (by cases hmem), fun h => ?_, rfl⟩
    exact (List.mem_append.mp h).resolve_right (not_mem_failed _)
  have hnote : ∀ r ∈ s.reads, (s.noteIndex r).id = id → Awaits G T id s →
      s.role = .leader ∧ s.term = T ∧ G (s.noteIndex r) := by
    intro r hr hid ha
    unfold noteIndex at hid ⊢
    split at hid
    · rename_i hc
      obtain ⟨h1, h2, h3⟩ := ha r hr hid
      rw [if_pos hc]
      exact ⟨h1, h2, hG h1 h2 (hc.2.trans h2) r h3⟩
    · rename_i hc
      rw [if_neg hc]
      exact ha r hr hid
  dsimp only
  refine ⟨fun ha r' hr' hid => ?_, fun ha hok => ?_, List.prefix_refl _⟩
  · obtain ⟨hmem, -⟩ := List.mem_filter.mp hr'
    obtain ⟨r, hr, rfl⟩ := List.mem_map.mp hmem
    exact hnote r hr hid ha
  · refine (List.mem_append.mp hok).imp (fun h => h) fun h => ?_
    obtain ⟨r', hr', heq⟩ := List.mem_map.mp h
    obtain ⟨hmem, hans⟩ := List.mem_filter.mp hr'
    obtain ⟨r, hr, rfl⟩ := List.mem_map.mp hmem
    obtain ⟨h1, h2, h3⟩ := hnote r hr (congrArg ReadResult.id heq) ha
    obtain ⟨h4, h5, h6⟩ := of_decide_eq_true hans
    exact ⟨_, hs, h1, h2, h3, h4, h5, h6⟩

theorem applies_applyCommitted (s : Raft n) : s.applies <+: s.applyCommitted.applies := by
  have hiter : ∀ (k : ℕ) (s : Raft n), s.applies <+: (applyNext^[k] s).applies := by
    intro k
    induction k with
    | zero => intro s; exact List.prefix_refl _
    | succ k ih =>
      intro s
      rw [iterate_succ_apply]
      exact (List.prefix_append _ _).trans (ih s.applyNext)
  exact hiter _ s

/-- The condition under which a read may note the commit index of `s`. -/
def Notes (G : PendingRead n → Prop) (T : ℕ) (s : Raft n) : Prop :=
  s.stopped = false → s.role = .leader → s.term = T → s.termAt s.commit = T → ∀ r, G r →
    G { r with index := s.commit }

theorem serves_settle (hs : s.stopped = false) (hG : Notes G T s.settle) :
    Serves G T id s s.settle := by
  have hadv : Waits G T id s (if s.role = .leader then s.advanceCommit else s) := by
    split
    · rcases s.advanceCommit_cases with h | ⟨i, -, -, -, -, h⟩ <;> rw [h]
      · exact Waits.refl s
      · exact waits_of_eq rfl rfl rfl rfl rfl
    · exact Waits.refl s
  have hst : (if s.role = .leader then s.advanceCommit else s).stopped = false := by
    split
    · rcases s.advanceCommit_cases with h | ⟨i, -, -, -, -, h⟩ <;> rw [h] <;> exact hs
    · exact hs
  unfold settle at hG ⊢
  generalize (if s.role = .leader then s.advanceCommit else s) = s₁ at hadv hst hG ⊢
  have happ : Serves G T id s₁ s₁.applyCommitted := by
    refine ⟨fun ha => ?_, fun _ h => .inl ?_, applies_applyCommitted s₁⟩
    · rw [applyCommitted_eq]; exact ha
    · rw [applyCommitted_eq] at h; exact h
  have hst₂ : s₁.applyCommitted.stopped = false := by rw [applyCommitted_eq]; exact hst
  have hf := frame_resolveReads s₁.applyCommitted
  have hrole : s₁.applyCommitted.resolveReads.role = s₁.applyCommitted.role := by
    obtain ⟨reads, results, h⟩ := s₁.applyCommitted.resolveReads_eq
    rw [h]
  have hres : Serves G T id _ _ := serves_resolveReads hst₂ fun h1 h2 h3 r hr => by
    have hn := hG (hf.stopped.trans hst₂) (hrole.trans h1) (hf.term.trans h2)
      (by rw [Raft.termAt, hf.log, hf.commit]; exact h3) r hr
    rwa [hf.commit] at hn
  refine ⟨fun ha => hres.awaits (happ.awaits (hadv.awaits ha)), fun ha hok => ?_, ?_⟩
  · rcases hres.ok (happ.awaits (hadv.awaits ha)) hok with h | h
    · rw [applyCommitted_eq] at h
      exact .inl (hadv.ok h)
    · exact .inr h
  · rw [← hadv.applies]
    exact happ.applies.trans hres.applies

theorem serves_finish (s : Raft n) (o : Saved) (hG : Notes G T (s.finish o)) :
    Serves G T id s (s.finish o) := by
  have hquiet : ∀ s' : Raft n, s'.role = s.role → s'.term = s.term → s'.reads = s.reads →
      s'.readResults = [] → s'.applies = s.applies → Serves G T id s s' := by
    intro s' h1 h2 h3 h4 h5
    refine Waits.serves ⟨fun ha => ?_, fun h => ?_, h5⟩
    · simp only [Awaits, h1, h2, h3]; exact ha
    · rw [h4] at h; cases h
  unfold finish at hG ⊢
  by_cases hs : s.stopped = true
  · rw [if_pos hs]
    exact hquiet _ rfl rfl rfl rfl rfl
  · rw [if_neg hs] at hG ⊢
    unfold persist at hG ⊢
    have hs' : s.stopped = false := Bool.eq_false_iff.mpr hs
    cases hd : s.dirty with
    | false =>
      simp only [hd, hs', Bool.false_eq_true, if_false] at hG ⊢
      exact serves_settle hs' hG
    | true =>
      cases o with
      | ok =>
        simp only [hd, hs', if_true, Bool.false_eq_true, if_false] at hG ⊢
        refine Waits.trans_serves ?_ (serves_settle rfl hG)
        exact waits_of_eq rfl rfl rfl rfl rfl
      | fails k =>
        simp only [if_true]
        exact hquiet _ rfl rfl rfl rfl rfl

/-- **One input**: the read `id` goes on waiting, or is answered by an `Answers`.  What must be
known of the input: a reply counts only if `G` allows it, and the read itself satisfies `G` when it
is called. -/
theorem serves_input {x : Input n} {o : Saved}
    (hack : ∀ p sent reply now, x = .handleAppendReply p sent reply now → sent.term = T → reply.term = T → ∀ r, G r → r.seq ≤ sent.seq → G { r with acks := update r.acks p true })
    (hread : ∀ now, x = .read id now → s.stopped = false → s.role = .leader →
      s.term = T ∧ G (s.newRead id))
    (hG : Notes G T (s.input x o).1) : Serves G T id s (s.input x o).1 := by
  cases hb : s.beforeFinish x with
  | none => exact (unfinished_of_beforeFinish hb o).waits.serves
  | some s₁ =>
    rw [(input_of_beforeFinish hb o).1] at hG ⊢
    exact (waits_of_beforeFinish hack hread hb).trans_serves (serves_finish s₁ o hG)

theorem term_le_reply (s : Raft n) (req : AppendRequest) (now : Millis) (o : Saved) :
    s.term ≤ (s.handleAppend req now o).2.term := by
  unfold handleAppend
  split
  · exact le_rfl
  split
  · exact (finish_term s o).ge
  have hd := stepsDown_append s req now
  generalize (s.becomeFollower req.term req.leader now).resetElectionTimer now = s₁ at hd ⊢
  have hle : s.term ≤ s₁.term := by rw [hd.term]; exact le_max_left _ _
  have hfix := (s₁.onAppend_fixes req).term
  have hreply : (s₁.onAppend req).2.term = s₁.term := by
    unfold onAppend
    split
    · rfl
    split
    · rfl
    have ha := (appends_appendEntries req.entries s₁ req.prevIndex).term
    dsimp only
    split <;> exact ha
  dsimp only
  split
  · rw [hreply]; exact hle
  · split
    · simp only [finish_term, hfix]; exact hle
    · rw [hreply]; exact hle

end Raft

variable {n : ℕ} {P : Str → Prop} {g g₀ : Facts n} {w w' : World n} {s : Raft n} {i : Fin n}
  {id : ℕ}

/-! ### Reads of the group -/

variable {p : List Entry} {s₀ : Raft n} {w₁ w₂ : World n} {o : Saved}

/-- An id that was not used in this life has neither a pending read nor an ok result. -/
theorem unused_read (h : World.Reachable P w) (i : Fin n) (s : Raft n) (hm : w.machine i = .up s)
    (id : ℕ) (hid : id ∉ w.readIds i) :
    s.Awaits (fun _ => False) 0 id ∧ ⟨id, true⟩ ∉ s.readResults := by
  have hserve : ∀ {s s' : Raft n}, Raft.Serves (fun _ => False) 0 id s s' →
      s.Awaits (fun _ => False) 0 id ∧ ⟨id, true⟩ ∉ s.readResults →
      s'.Awaits (fun _ => False) 0 id ∧ ⟨id, true⟩ ∉ s'.readResults := by
    rintro s s' hs ⟨h1, h2⟩
    refine ⟨hs.awaits h1, fun hok => ?_⟩
    rcases hs.ok h1 hok with h3 | ⟨r, h3⟩
    · exact h2 h3
    · exact h3.holds
  have hnotes : ∀ s : Raft n, Raft.Notes (fun _ => False) 0 s := fun _ _ _ _ _ _ hr => hr
  induction h generalizing i s with
  | refl => simp [World.init] at hm
  | @tail w₁ _ _ hst ih =>
    obtain ⟨e, -, he⟩ := hst
    rcases World.step_cases he with ⟨k, cfg, now, o, d, -, -, -, rfl⟩ |
      ⟨k, x, o, s₁, -, hk, ha, rfl⟩ | ⟨k, s₁, -, -, rfl⟩
    · by_cases hki : i = k
      · subst hki
        simp only [World.setMachine, update_self, Machine.up.injEq] at hm
        rw [← hm, Raft.start_eq]
        have hfresh : ((Raft.fresh cfg d).resetElectionTimer now).Awaits (fun _ => False) 0 id ∧
            ⟨id, true⟩ ∉ ((Raft.fresh cfg d).resetElectionTimer now).readResults := by
          refine ⟨fun r hr => ?_, fun h => ?_⟩
          · cases hr
          · cases h
        have hwaits : Raft.Waits (fun _ => False) 0 id _ _ := (Raft.acts_beforeStart .takeReads
          cfg d now).waits (fun _ _ _ _ hx => by cases hx) (fun _ hx => by cases hx)
        exact hserve (hwaits.trans_serves (Raft.serves_finish _ o (hnotes _))) hfresh
      · simp only [World.setMachine, update_of_ne hki] at hm hid
        exact ih i s hm hid
    · have hold : id ∉ w₁.readIds i := fun h =>
        hid (World.readIds_subset_record (w₁.setMachine k (.up (s₁.input x o).1)) k i x _ h)
      rw [World.record_machine] at hm
      by_cases hki : i = k
      · subst hki
        simp only [World.setMachine, update_self, Machine.up.injEq] at hm
        rw [← hm]
        refine hserve (Raft.serves_input (fun _ _ _ _ _ _ _ _ hr => hr.elim) ?_ (hnotes _))
          (ih i s₁ hk hold)
        rintro now' rfl
        exact absurd (World.mem_readIds_record _ _ _ _ _) hid
      · simp only [World.setMachine, update_of_ne hki] at hm
        exact ih i s hm hold
    · by_cases hki : i = k
      · subst hki; simp [World.setMachine] at hm
      · simp only [World.setMachine, update_of_ne hki] at hm
        exact ih i s hm hid

/-- An answer given since then comes from a replica whose term has not gone back. -/
theorem Rel.term_le_answer (hP : P NOOP) (h : Rel P g₀ w) (hs : World.Steps P w w') {p : Fin n}
    {req : AppendRequest} {reply : AppendReply} (ha : .append p req reply ∈ w'.answers) :
    .append p req reply ∈ w.answers ∨ (g₀.node p).term ≤ reply.term := by
  induction hs with
  | refl => exact .inl ha
  | tail hrun hst ih =>
    obtain ⟨g₁, he₁, h₁⟩ := h.steps hP hrun
    obtain ⟨e, -, he⟩ := hst
    rcases World.step_cases he with ⟨k, cfg, now, o, d, -, -, -, rfl⟩ |
      ⟨k, x, o, s₁, -, hk, -, rfl⟩ | ⟨k, s₁, -, -, rfl⟩
    · exact ih ha
    · rcases World.mem_record_answers ha with h1 | ⟨req', now, reply', -, -, heq⟩ |
        ⟨req', now, reply', rfl, hy, heq⟩
      · exact ih h1
      · cases heq
      · cases heq
        cases hy
        right
        calc (g₀.node p).term ≤ (g₁.node p).term := he₁.term p
          _ ≤ s₁.term := h₁.term_le hk
          _ ≤ _ := Raft.term_le_reply s₁ req now o
    · exact ih ha

/-- A leader whose commit index is of its own term knows what was committed up to its term. -/
theorem Live.covers (hi : RaftInv P g) (h : Live g s) (hr : s.role = .leader) (h0 : s.commit ≠ 0)
    (ht : s.termAt s.commit = s.term) (hp : CommittedBy g s.term p) : p.length ≤ s.commit := by
  obtain ⟨hl, hlog⟩ := h.leads hr
  refine hp.length_le hi hl (Nat.pos_of_ne_zero h0) ?_ ?_ (h.leader hr).commits
  · rw [hlog]; exact h.commit_le
  · rw [hlog]; exact ht

/-- What is known of a read called on the replica `s₀`, at the time of the facts `g₀`: the replies
that count come from replicas that were in no later term, and the index noted is beyond what was
committed up to that term. -/
structure Confirms (g₀ : Facts n) (s₀ : Raft n) (r : PendingRead n) : Prop where
  running : s₀.stopped = false
  role : s₀.role = .leader
  seq : s₀.seq < r.seq
  acks : ∀ p, r.acks p = true → (g₀.node p).term ≤ s₀.term
  index : r.index ≠ 0 → ∀ p, CommittedBy g₀ s₀.term p → p.length ≤ r.index

/-- Everything committed in the facts `g` has been applied. -/
def Told (g : Facts n) (s : Raft n) : Prop :=
  ∀ T p, CommittedBy g T p → Raft.numbered p <+: s.applies

theorem numbered_isPrefix {l : List Entry} (h : p <+: l) : Raft.numbered p <+: Raft.numbered l := by
  obtain ⟨r, rfl⟩ := h
  rw [Raft.numbered, Raft.numbered, List.mapIdx_append]
  exact List.prefix_append _ _

theorem Confirms.newRead (hi : RaftInv P g₀) (h : Live g₀ s₀) (hr : s₀.role = .leader) (id : ℕ) :
    Confirms g₀ s₀ (s₀.newRead id) where
  running := h.running
  role := hr
  seq := Nat.lt_succ_self _
  acks p hp := by
    rw [of_decide_eq_true hp]
    exact h.term.le
  index h0 p hp := by
    by_cases ht : s₀.termAt s₀.commit = s₀.term
    · simp only [Raft.newRead, if_pos ht] at h0 ⊢
      exact h.covers hi hr h0 ht hp
    · simp [Raft.newRead, ht] at h0

/-- **An answered read is fresh**: a majority was in no later term when it was called. -/
theorem told_of_answers (hi₀ : RaftInv P g₀) (hi : RaftInv P g) (he : Extends g₀ g)
    (h : Live g s) {r : PendingRead n} (ha : Raft.Answers (Confirms g₀ s₀) s₀.term s r) : Told g₀ s := by
  intro T p hp
  have hq : (majorities n).isQuorum (Finset.univ.filter fun p => r.acks p = true) := by
    show Majority n _
    rw [← countP_finRange]
    exact ha.acks
  have hp₀ : CommittedBy g₀ s₀.term p :=
    hp.of_quorum hi₀ hq fun u hu => ha.holds.acks u (Finset.mem_filter.mp hu).2
  obtain ⟨hl, hlog⟩ := h.leads ha.role
  have hpl : p <+: s.log := by
    rw [← hlog]
    exact (hp₀.extends hi₀ he).prefix_ledger hi ha.term.ge (by rw [hl]; exact Option.some_ne_none _)
  have hlen : p.length ≤ s.applied := (ha.holds.index ha.noted p hp₀).trans ha.applied
  rw [h.applies]
  refine numbered_isPrefix ?_
  rw [List.prefix_iff_eq_take.mp hpl]
  exact List.take_prefix_take_left hlen

theorem Rel.read_step (hP : P NOOP) (h₀ : World.Reachable P w) (hg₀ : Rel P g₀ w)
    (hm₀ : w.machine i = .up s₀) (hrun : World.Steps P w w₁) {x : Input n}
    (hx : World.Proposes P (.input i x o)) (hstep : w₁.step (.input i x o) = some w₂)
    (hm : w₁.machine i = .up s) (id : ℕ) (hread : ∀ now, x = .read id now → s = s₀)
    (hs : s.Awaits (Confirms g₀ s₀) s₀.term id) (htold : ⟨id, true⟩ ∈ s.readResults → Told g₀ s) :
    (s.input x o).1.Awaits (Confirms g₀ s₀) s₀.term id ∧
      (⟨id, true⟩ ∈ (s.input x o).1.readResults → Told g₀ (s.input x o).1) := by
  obtain ⟨g₁, he₁, hg₁⟩ := hg₀.steps hP hrun
  obtain ⟨_, g₂, hst, hg₂⟩ := hg₁.step hP hx hstep
  have he₂ := he₁.trans (hg₁.inv.steps hst).2
  have hadm : w₁.admits i x ∧ w₂.machine i = .up (s.input x o).1 := by
    rcases World.step_cases hstep with ⟨k, cfg, now, o', d, heq, -⟩ |
      ⟨k, x', o', s', heq, hk, ha, rfl⟩ | ⟨k, s', heq, -⟩
    · cases heq
    · cases heq
      rw [hm] at hk
      cases hk
      exact ⟨ha, by rw [World.record_machine]; simp [World.setMachine]⟩
    · cases heq
  have hlive := fun hst => hg₂.live hadm.2 hst
  have hserve : Raft.Serves (Confirms g₀ s₀) s₀.term id s (s.input x o).1 := by
    refine Raft.serves_input ?_ ?_ ?_
    · -- the reply counts: the call it answers was sent after the read was called
      rintro p sent reply now rfl hst hrt r hr hseq
      refine ⟨hr.running, hr.role, hr.seq, fun q hq => ?_, hr.index⟩
      by_cases hqp : q = p
      · subst hqp
        obtain ⟨hc, ha⟩ := hadm.1
        rcases hg₀.term_le_answer hP hrun ha with hold | hle
        · obtain ⟨j, hj⟩ := World.called_of_answered h₀ hold
          have hi := (hg₁.appendFact hc).leader
          have hji := (hg₀.appendFact hj).leader
          obtain rfl : i = j := Fin.ext (by omega)
          have := hg₀.seqs hm₀ hr.running hr.role hj hst
          have := hr.seq
          omega
        · exact hle.trans hrt.le
      · dsimp only at hq
        rw [update_of_ne hqp] at hq
        exact hr.acks q hq
    · rintro now rfl hrun' hr
      obtain rfl := hread now rfl
      exact ⟨rfl, Confirms.newRead hg₀.inv (hg₀.live hm₀ hrun') hr id⟩
    · intro hrun' hr ht htc r hG
      refine ⟨hG.running, hG.role, hG.seq, hG.acks, fun h0 p hp => ?_⟩
      have hp₂ := hp.extends hg₀.inv he₂
      rw [← ht] at hp₂ htc
      exact (hlive hrun').covers hg₂.inv hr h0 htc hp₂
  refine ⟨hserve.awaits hs, fun hok => ?_⟩
  rcases hserve.ok hs hok with hold | ⟨r, hr⟩
  · exact fun T p hp => (htold hold T p hp).trans hserve.applies
  · exact told_of_answers hg₀.inv hg₂.inv he₂ (hlive hr.running) hr

/-- **A read reported ok has been told everything committed when it was called**, whenever in the
same life of the replica the report comes. -/
theorem told_after_read {w : World n} (hreach : World.Runs .init w) (hg₀ : Rel (fun _ => True) g₀ w)
    {now : Millis} (hread : w.step (.input i (.read id now) o) = some w₁) (h' : World.Runs w₁ w₂)
    (hm : w₂.machine i = .up s) (hl : w₂.life i = w₁.life i) (hok : ⟨id, true⟩ ∈ s.takeReads.2) :
    Told g₀ s := by
  obtain ⟨s₀, hm₀, hid, hm₁⟩ : ∃ s₀, w.machine i = .up s₀ ∧ id ∉ w.readIds i ∧
      w₁ = (w.setMachine i (.up (s₀.input (.read id now) o).1)).record i (.read id now)
        (s₀.input (.read id now) o).2 := by
    rcases World.step_cases hread with ⟨k, cfg, now', o', d, heq, -⟩ |
      ⟨k, x, o', s₀, heq, hk, ha, rfl⟩ | ⟨k, s', heq, -⟩
    · cases heq
    · cases heq
      exact ⟨s₀, hk, ha, rfl⟩
    · cases heq
  obtain ⟨hnone, hnok⟩ := unused_read hreach i s₀ hm₀ id hid
  have hpr : World.Proposes (fun _ => True) (.input i (.read id now) o) := trivial
  have hstep₁ : World.Step (fun _ => True) w w₁ := ⟨_, hpr, hread⟩
  have hfirst := hg₀.read_step (P := fun _ => True) trivial hreach hm₀ .refl hpr hread hm₀
    id (fun _ _ => rfl) (fun r hr hrid => (hnone r hr hrid).2.2.elim)
    (fun hok => absurd hok hnok)
  -- from the call on, to the end of the life
  have hall : s.Awaits (Confirms g₀ s₀) s₀.term id ∧
      (⟨id, true⟩ ∈ s.readResults → Told g₀ s) ∧ id ∈ w₂.readIds i := by
    refine World.life_induction (R := World.Step fun _ => True)
      (Q := fun w' s => s.Awaits (Confirms g₀ s₀) s₀.term id ∧
        (⟨id, true⟩ ∈ s.readResults → Told g₀ s) ∧ id ∈ w'.readIds i)
      (fun ⟨e, _, he⟩ => ⟨e, he⟩) h' ?_ ?_ hl hm
    · intro s₁ hs₁
      rw [hm₁, World.record_machine] at hs₁
      simp only [World.setMachine, update_self, Machine.up.injEq] at hs₁
      rw [← hs₁, hm₁]
      exact ⟨hfirst.1, hfirst.2, World.mem_readIds_record _ _ _ _ _⟩
    · rintro wa wb sa sb hra ⟨ev, hpe, hst⟩ hsa hsb hlab ⟨h1, h2, h3⟩
      have hmem := World.readIds_subset hst hlab h3
      rcases World.same_life_cases hst hsb hlab with hsame | ⟨x, o', s', rfl, hs', ha, rfl⟩
      · rw [hsa] at hsame
        cases hsame
        exact ⟨h1, h2, hmem⟩
      · rw [hsa] at hs'
        cases hs'
        have hrun : World.Steps (fun _ => True) w wa := .head hstep₁ hra
        have hnext := hg₀.read_step (P := fun _ => True) trivial hreach hm₀ hrun hpe hst hsa
          id (fun now' hx => ?_) h1 h2
        · exact ⟨hnext.1, hnext.2, hmem⟩
        · rw [hx] at ha
          exact absurd h3 ha
  exact hall.2.1 hok

/-- **ReadIndex freshness**: when `take_reads` reports ok for a read, the replica has applied every
entry that any replica had committed before the read was called. -/
theorem read_index_fresh {w₀ w w₁ w₂ : World n} (h₀ : World.Runs .init w₀) (h : World.Runs w₀ w)
    {now : Millis} {o : Saved} (hread : w.step (.input i (.read id now) o) = some w₁)
    (h' : World.Runs w₁ w₂) (hm : w₂.machine i = .up s) (hl : w₂.life i = w₁.life i)
    (hok : ⟨id, true⟩ ∈ s.takeReads.2) {j : Fin n} {k T : ℕ} {e : Entry}
    (hc : (w₀.machine j).commits k e T) : (k, e) ∈ s.applies := by
  obtain ⟨g, g₀, hg, hg₀, he⟩ := exists_rel_of_runs h₀ h
  obtain ⟨p, hp, hpe⟩ := hg.commits hc
  have hpre := told_after_read (h₀.trans h) hg₀ hread h' hm hl hok T p (hp.extends hg.inv he)
  have hk : 0 < k := by
    cases hmj : w₀.machine j with
    | up s' => rw [hmj] at hc; exact hc.1
    | down d => rw [hmj] at hc; exact hc.elim
  refine hpre.subset (List.mem_mapIdx.mpr ⟨k - 1, (List.getElem?_eq_some_iff.mp hpe).1, ?_⟩)
  rw [(List.getElem?_eq_some_iff.mp hpe).2, Nat.sub_add_cancel hk]

/-- Replica 1 answers the call that the read makes replica 0 send. -/
def confirmation : List (Event 3) :=
  let call : AppendRequest := ⟨1, 0, 1, 1, [], 1, 3⟩
  [.input r0 .takeOutgoing .ok, .input r1 (.handleAppend call 156) .ok,
    .input r0 (.handleAppendReply r1 call ⟨1, true, 1⟩ 157) .ok]

theorem read_index_fresh_elected :
    let w₁ := (elected.step (.input 0 (.read 7 155) .ok)).getD elected
    let w₂ := (w₁.run confirmation).getD w₁
    ∃ s, w₂.machine 0 = .up s ∧ ⟨7, true⟩ ∈ s.takeReads.2 ∧ (1, ⟨1, NOOP⟩) ∈ s.applies := by
  intro w₁ w₂
  have hread : elected.step (.input 0 (.read 7 155) .ok) = some w₁ :=
    World.step_getD (by decide +kernel)
  have h' : World.Runs w₁ w₂ := World.runs_getD_run confirmation (by decide +kernel)
  obtain ⟨s, hs, hok⟩ := Machine.exists_of_runs (m := w₂.machine 0)
    (q := fun s => ⟨7, true⟩ ∈ s.takeReads.2) (by decide +kernel)
  have hok := of_decide_eq_true hok
  exact ⟨s, hs, hok, read_index_fresh (T := 1) (j := 0) runs_elected .refl hread h' hs
    (by decide +kernel) hok (by decide +kernel)⟩

end ChordFs
