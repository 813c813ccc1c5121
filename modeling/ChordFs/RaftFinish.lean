import ChordFs.RaftAppend

/-! # `finish` refines the protocol

The end of every input: when the save succeeds, the node takes over the rewritten log, a leader
confirms its own copy and commits what a majority holds, and the replica applies it; when the save
fails, the node takes over as much as reached the disk. -/

namespace ChordFs

open Consensus TermLog

variable {n : ℕ} {P : Str → Prop} {g g' : Facts n} {s s' : Raft n}

/-- A running replica between two inputs: everything is saved. -/
structure Live (g : Facts n) (s : Raft n) : Prop extends Tracks g s where
  saved : s.dirty = false

theorem Live.dirtyFrom (h : Live g s) : s.dirtyFrom = 0 := (h.toSynced.clean h.saved).2.2

theorem Live.log_eq (h : Live g s) : (g.node s.cfg.id).log = s.log := h.toTracks.log_eq h.dirtyFrom

theorem Live.onDisk_eq (h : Live g s) : onDisk (g.node s.cfg.id) = s.storage :=
  h.toTracks.onDisk_eq h.saved

theorem Live.extends (hi : RaftInv P g) (he : Extends g g') (ha : Apart s.cfg.id g g')
    (h : Live g s) : Live g' s :=
  ⟨h.toTracks.extends hi he ha h.dirtyFrom, h.saved⟩

theorem Volatile.frame (hf : Raft.Frame s s') (hr : s'.role = s.role) (hv : s'.votes = s.votes)
    (hn : s'.next = s.next) (hm : s'.match_ = s.match_) (hq : s'.seq = s.seq)
    (ho : ∀ o ∈ s'.out, o ∈ s.out) (h : Volatile g s) : Volatile g s' where
  toSound := h.toSound.frame hf
  toRooted := h.toRooted.frame hf hr
  candidate hr' := by
    obtain ⟨h1, h2, h3⟩ := h.candidate (hr ▸ hr')
    exact ⟨by rw [hf.cfg, hf.term, hf.log]; exact h1, by rw [hf.cfg, hf.term]; exact h2,
      by rw [hf.cfg, hf.term, hv]; exact h3⟩
  leader hr' := by
    obtain ⟨h1, h2, h3⟩ := h.leader (hr ▸ hr')
    exact ⟨by rw [hn, hm, hf.log]; exact h1, by rw [hm, hf.term]; exact h2,
      by rw [hf.term, hf.commit]; exact h3⟩
  out o ho' := by rw [hf.cfg]; exact h.out o (ho o ho')
  seqs hr' p req ho' ht := by
    rw [hq]
    exact h.seqs (hr ▸ hr') p req (ho _ ho') (ht.trans hf.term)

theorem Live.frame (hf : Raft.Frame s s') (hv : Volatile g s') (h : Live g s) : Live g s' :=
  ⟨h.toTracks.frame hf hv, hf.dirty.trans h.saved⟩

/-! ### Commit, apply, answer -/

/-- The replicas a leader counts for index `k`. -/
def holders (s : Raft n) (k : ℕ) : Finset (Fin n) :=
  insert s.cfg.id (Finset.univ.filter fun p => p ≠ s.cfg.id ∧ k ≤ s.match_ p)

theorem card_holders (s : Raft n) (k : ℕ) : (holders s k).card = s.copies k := by
  rw [holders, Finset.card_insert_of_notMem (by simp), Raft.copies, Raft.peers, List.countP_filter,
    countP_finRange, Nat.add_comm]
  congr 3
  ext p
  simp [and_comm]

/-- A leader's own copy counts once it is durable. -/
theorem Live.ack (hi : RaftInv P g) (h : Live g s) {m : ℕ}
    (hm : m ≤ (g.ledger s.term).length) (hp : (g.ledger s.term).take m <+: s.log) :
    ∃ g', RaftSteps P s.cfg.id g g' ∧ Live g' s ∧ g'.node = g.node ∧
      g'.ledger = g.ledger ∧ g'.acked s.cfg.id s.term m := by
  have hst : RaftStep P s.cfg.id g _ :=
    .ack g m (by rw [h.term]; exact hm) (by rw [h.term, h.log_eq]; exact hp)
  exact ⟨_, .single hst, h.extends hi (hi.step_extends hst)
    ⟨⟨fun _ => Iff.rfl, fun _ => rfl, fun _ h => h⟩, rfl⟩, rfl, rfl, .inr ⟨rfl, h.term.symm, rfl⟩⟩

theorem Live.advanceCommit (hi : RaftInv P g) (h : Live g s) (hr : s.role = .leader)
    (hack : g.acked s.cfg.id s.term s.log.length) :
    ∃ g', RaftSteps P s.cfg.id g g' ∧ Live g' s.advanceCommit := by
  rcases s.advanceCommit_cases with h1 | ⟨k, hk, hkl, ht, hm, h1⟩
  · rw [h1]; exact ⟨g, .refl, h⟩
  obtain ⟨hl, hlog⟩ := h.leads hr
  have hA : (majorities n).isQuorum (holders s k) := by
    show Majority n (holders s k).card
    rw [card_holders]; exact hm
  have hacks : ∀ u ∈ holders s k, ∃ m, k ≤ m ∧ g.acked u s.term m := by
    intro u hu
    rcases Finset.mem_insert.mp hu with rfl | hu
    · exact ⟨_, hkl, hack⟩
    · obtain ⟨-, -, h2⟩ := Finset.mem_filter.mp hu
      obtain ⟨m, hm, ha⟩ := (h.leader hr).matched u (by omega)
      exact ⟨m, by omega, ha⟩
  have hst : RaftStep P s.cfg.id g _ :=
    .commit g s.term k (holders s k) hl (by rw [hlog]; exact hkl) (by omega)
      (by rw [hlog]; exact ht) hA hacks
  have he := hi.step_extends hst
  rw [h1]
  refine ⟨_, .single hst, ⟨⟨⟨⟨hkl, h.applied_le, ?_, h.appliedBy.extends hi he, h.applies⟩,
    ⟨h.coherent, h.leads⟩, fun hr' => ?_, fun _ => ⟨(h.leader hr).next, (h.leader hr).matched, ?_⟩,
    fun o ho => (h.out o ho).extends hi he, h.seqs⟩,
    h.toSynced.of_log_eq rfl rfl rfl (.inr ⟨rfl, rfl, rfl⟩), h.running, h.term, h.vote, h.stored,
    .inl h.dirtyFrom⟩, h.saved⟩⟩
  · refine .inr ⟨s.term, k, le_rfl, .inr ⟨rfl, rfl⟩, ?_⟩
    dsimp only
    rw [hlog]
  · dsimp only at hr'
    rw [hr] at hr'; cases hr'
  · rintro m (hc | ⟨-, rfl⟩)
    · exact ((h.leader hr).commits m hc).trans hk.le
    · exact le_rfl

theorem Live.applyCommitted (h : Live g s) : Live g s.applyCommitted := by
  have ha := Raft.applyCommitted_applies h.applies h.commit_le h.applied_le
  rw [Raft.applyCommitted_eq]
  refine ⟨⟨⟨⟨h.commit_le, max_le h.applied_le h.commit_le, h.committed, ?_, ha⟩,
    ⟨h.coherent, h.leads⟩, fun hr => ?_, fun hr => ?_, h.out, h.seqs⟩,
    h.toSynced.of_log_eq rfl rfl rfl (.inr ⟨rfl, rfl, rfl⟩), h.running, h.term, h.vote, h.stored,
    .inl h.dirtyFrom⟩, h.saved⟩
  · dsimp only
    rcases max_choice s.applied s.commit with h1 | h1 <;> rw [h1]
    · exact h.appliedBy
    · exact h.committed
  · obtain ⟨h1, h2, h3⟩ := h.candidate hr
    exact ⟨h1, h2, h3⟩
  · obtain ⟨h1, h2, h3⟩ := h.leader hr
    exact ⟨h1, h2, h3⟩

theorem Live.resolveReads (h : Live g s) : Live g s.resolveReads := by
  obtain ⟨rs, res, heq⟩ := s.resolveReads_eq
  refine h.frame (Raft.frame_resolveReads s) (h.toVolatile.frame (Raft.frame_resolveReads s)
    ?_ ?_ ?_ ?_ ?_ ?_) <;> rw [heq]
  exact fun o ho => ho

/-- **The second half of `finish`** refines the protocol. -/
theorem Live.settle (hi : RaftInv P g) (h : Live g s) :
    ∃ g', RaftSteps P s.cfg.id g g' ∧ Live g' s.settle := by
  unfold Raft.settle
  by_cases hr : s.role = .leader
  · rw [if_pos hr]
    obtain ⟨hl, hlog⟩ := h.leads hr
    obtain ⟨g₁, hs₁, h₁, -, -, hack⟩ := h.ack hi (m := s.log.length) (by rw [hlog])
      (by rw [hlog, List.take_length])
    obtain ⟨g₂, hs₂, h₂⟩ := h₁.advanceCommit (hi.steps hs₁).1 hr hack
    exact ⟨g₂, hs₁.trans hs₂, h₂.applyCommitted.resolveReads⟩
  · rw [if_neg hr]
    exact ⟨g, .refl, h.applyCommitted.resolveReads⟩

/-! ### The save -/

/-- A replica's process or disk agrees with the facts. -/
def Agrees (g : Facts n) (i : Fin n) : Machine n → Prop
  | .up s => s.cfg.id = i ∧ onDisk (g.node i) = s.storage ∧ (s.stopped = false → Live g s) ∧
      (s.stopped = true → Halted g s ∧ s.out = [] ∧ s.readResults = [] ∧ s.storage.term ≤ s.term)
  | .down d => onDisk (g.node i) = d

theorem Live.agrees (h : Live g s) : Agrees g s.cfg.id (.up s) :=
  ⟨rfl, h.onDisk_eq, fun _ => h, fun hs => by rw [h.running] at hs; cases hs⟩

/-- The replica is ready for `finish`: what it changed since it was `s₀` is matched by steps of its
node from `g₀` to `g`, and if its term or vote is not yet durable it could as well stop at `g₀`. -/
structure Prepared (P : Str → Prop) (g₀ g : Facts n) (s₀ s : Raft n) : Prop where
  steps : RaftSteps P s.cfg.id g₀ g
  tracks : Tracks g s
  cfg : s.cfg = s₀.cfg
  disk : onDisk (g₀.node s.cfg.id) = s.storage
  back : s.storage.term = s.term ∧ s.storage.votedFor = s.votedFor ∨ Halted g₀ s
  newer : s.role = .leader →
    s₀.role = .leader ∧ s₀.term = s.term ∧ s₀.seq ≤ s.seq ∨ g₀.lead s.term ≠ some s.cfg.id

theorem Live.prepared (h : Live g s) : Prepared P g g s s :=
  ⟨.refl, h.toTracks, rfl, h.onDisk_eq,
    .inl ⟨(h.toSynced.clean h.saved).1, (h.toSynced.clean h.saved).2.1⟩,
    fun hr => .inl ⟨hr, rfl, le_rfl⟩⟩

/-- The node takes over the log the replica has written up to entry `j`. -/
theorem Tracks.accept (hi : RaftInv P g) (h : Tracks g s) {j : ℕ} (hj : s.saveFrom ≤ j + 1) :
    ∃ g', RaftSteps P s.cfg.id g g' ∧ Extends g g' ∧ Idle s.cfg.id g g' ∧
      (g'.node s.cfg.id).term = s.term ∧ voteOf (g'.node s.cfg.id).vote = s.votedFor ∧
      (g'.node s.cfg.id).log = s.log.take j := by
  rcases h.written with hd | ⟨hl, ⟨c, hc, hsp⟩, hlog⟩
  · refine ⟨g, .refl, Extends.refl g, Idle.refl _ g, h.term, h.vote, ?_⟩
    rw [Raft.saveFrom, if_pos hd, Raft.lastIndex] at hj
    rw [h.log_eq hd, List.take_of_length_le (by omega)]
  · have hb := h.bound
    have hdf : s.dirtyFrom ≠ 0 := by omega
    rw [Raft.saveFrom, if_neg hdf] at hj
    have hst : RaftStep P s.cfg.id g _ :=
      .accept g c (min j s.log.length) (by rw [h.term]; exact hl)
        (by rw [h.term, h.stored]; exact hsp) (by omega)
    refine ⟨_, .single hst, hi.step_extends hst, ⟨fun _ => Iff.rfl, fun _ => rfl, fun _ h => h⟩,
      ?_, ?_, ?_⟩ <;> dsimp only <;> rw [Function.update_self]
    · exact h.term
    · exact h.vote
    · dsimp only
      rw [h.term]
      conv_rhs => rw [List.prefix_iff_eq_take.mp hlog, List.take_take]

theorem Tracks.persisted (hi : RaftInv P g) (h : Tracks g s) :
    ∃ g', RaftSteps P s.cfg.id g g' ∧ Live g' s.persisted := by
  obtain ⟨g', hs, he, hid, h1, h2, h3⟩ := h.accept hi (j := s.log.length) h.toSynced.saveFrom_le
  have hv := h.toVolatile.extends hi he hid
  refine ⟨g', hs, ⟨⟨⟨⟨hv.commit_le, hv.applied_le, hv.committed, hv.appliedBy, hv.applies⟩,
    ⟨hv.coherent, hv.leads⟩, fun hr => ?_, fun hr => ?_, hv.out, hv.seqs⟩,
    (Raft.clean_of_storage rfl rfl rfl).toSynced, h.running, h1, h2, ?_, .inl rfl⟩, rfl⟩⟩
  · obtain ⟨h4, h5, h6⟩ := hv.candidate hr
    exact ⟨h4, h5, h6⟩
  · obtain ⟨h4, h5, h6⟩ := hv.leader hr
    exact ⟨h4, h5, h6⟩
  · rw [List.take_length] at h3; exact h3

theorem Halted.halt (h : Halted g s) (d : Durable) : Halted g (s.halted d) := by
  refine ⟨⟨h.commit_le, h.applied_le, h.committed, h.appliedBy, h.applies⟩, ?_, h.leader⟩
  exact h.rooted.imp (fun h1 => ⟨h1.coherent, h1.leads⟩) fun h1 => ⟨h1.single, h1.term, h1.log⟩

/-- **`finish` refines the protocol**, whatever becomes of its save. -/
theorem Prepared.finish {g₀ : Facts n} {s₀ : Raft n} (hi : RaftInv P g₀)
    (h : Prepared P g₀ g s₀ s) (o : Saved) :
    ∃ g', RaftSteps P s.cfg.id g₀ g' ∧
      Agrees g' s.cfg.id (.up (s.finish o)) ∧
      ((s.finish o).stopped = false → Extends g g' ∧ s.finish o = s.persisted.settle) := by
  have hig := (hi.steps h.steps).1
  rcases h.tracks.toSynced.finish_cases h.tracks.running o with h1 | ⟨k, d, -, h1, h2⟩
  · obtain ⟨g₁, hs₁, h₁⟩ := h.tracks.persisted hig
    obtain ⟨g₂, hs₂, h₂⟩ := h₁.settle (hig.steps hs₁).1
    have hset := Raft.settles_settle s.persisted
    have hcfg : s.persisted.settle.cfg = s.cfg := hset.cfg
    refine ⟨g₂, (h.steps.trans hs₁).trans hs₂, ?_, fun _ => ⟨(hig.steps (hs₁.trans hs₂)).2, h1⟩⟩
    rw [h1, ← hcfg]
    exact h₂.agrees
  · -- how much of the save reached the disk
    have hnot : ∀ g' : Facts n, (s.finish o).stopped = false →
        Extends g g' ∧ s.finish o = s.persisted.settle := by
      intro g' hst; rw [h1] at hst; cases hst
    have hterm : d.term ≤ s.term := by
      cases h2 with
      | none => rw [← h.disk, ← h.tracks.term]; exact (hi.steps h.steps).2.term _
      | term => exact le_rfl
      | log j hj => exact le_rfl
    have hag : ∀ {g'}, onDisk (g'.node s.cfg.id) = d → Halted g' s →
        Agrees g' s.cfg.id (.up (s.finish o)) := by
      intro g' hd hh
      rw [h1]
      exact ⟨rfl, hd, fun hst => (by cases hst), fun _ => ⟨hh.halt d, rfl, rfl, hterm⟩⟩
    have hdisk : onDisk (g.node s.cfg.id) = { s.storage with term := s.term, votedFor := s.votedFor } := by
      rw [onDisk, h.tracks.term, h.tracks.vote, h.tracks.stored]
    cases h2 with
    | none =>
      rcases h.back with ⟨ht, hv⟩ | hb
      · refine ⟨g, h.steps, hag ?_ h.tracks.toVolatile.halted, hnot g⟩
        rw [hdisk, ← ht, ← hv]
      · exact ⟨g₀, .refl, hag h.disk hb, hnot g₀⟩
    | term => exact ⟨g, h.steps, hag hdisk h.tracks.toVolatile.halted, hnot g⟩
    | log j hj =>
      obtain ⟨g', hs, he, hid, h3, h4, h5⟩ := h.tracks.accept hig hj
      refine ⟨g', h.steps.trans hs, hag ?_ (h.tracks.toVolatile.extends hig he hid).halted, hnot g'⟩
      rw [onDisk, h3, h4, h5]

end ChordFs
