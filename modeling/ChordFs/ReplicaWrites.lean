import ChordFs.Lib.Runs
import ChordFs.NamesHistory
import ChordFs.RaftReads

/-! # What a group answers

The processes around the cores: a replica applies what its core commits to its namespace, and a
client's write waits for the index and term its entry will get.  All answers ever given, by any
replica in any life, lie on one history (`answers_on_one_history`), in the order of real time
(`answered_before`), and a confirmed read has them all (`read_sees_answered`). -/

namespace ChordFs

open Consensus TermLog Function

/-- A client's write that waits: the index and term its entry will get. -/
structure WriteWaiter where
  index : ℕ
  term : ℕ
  command : Str
deriving DecidableEq

def REPLACED : Str :=
  "UNAVAILABLE a new leader replaced this request before it was committed; retrying is safe".toList

/-- The process around a core: `ns_`, `writes_`, and all that its waiters were ever told. -/
structure Replica where
  names : Namespace := .empty
  writes : List WriteWaiter := []
  said : List (WriteWaiter × Str) := []

/-- `on_apply`: the writes that wait for the index are told, and the term says whether the entry is
theirs. -/
def Replica.onApply (r : Replica) (a : ℕ × Entry) : Replica where
  names := (applyCommand r.names a.2.command).1
  writes := r.writes.filter (·.index ≠ a.1)
  said := r.said ++ (r.writes.filter (·.index = a.1)).map fun w =>
    (w, if w.term = a.2.term then (applyCommand r.names a.2.command).2 else REPLACED)

/-- The replica after its core, which had applied `old`, became `m`; a new process starts empty. -/
def Replica.follow (r : Replica) (old : List (ℕ × Entry)) : {n : ℕ} → Machine n → Replica
  | _, .up s => (s.applies.drop old.length).foldl onApply r
  | _, .down _ => { said := r.said }

variable {n : ℕ}

/-- What `client_request` enters before it proposes. -/
def Raft.waiter (s : Raft n) (command : Str) : WriteWaiter := ⟨s.lastIndex + 1, s.term, command⟩

structure ReplicaGroup (n : ℕ) where
  group : World n
  replica : Fin n → Replica

/-- A core's event, a client's REGISTER or UNREGISTER line, or a write whose deadline passes. -/
inductive GroupEvent (n : ℕ) where
  | core (e : Event n)
  | write (i : Fin n) (line : Str) (now : Millis) (o : Saved)
  | giveUp (i : Fin n) (w : WriteWaiter)

namespace ReplicaGroup

def init : ReplicaGroup n := ⟨.init, fun _ => {}⟩

def after (f : ReplicaGroup n) (w : World n) : ReplicaGroup n :=
  ⟨w, fun i => (f.replica i).follow (f.group.machine i).applies (w.machine i)⟩

def setWrites (f : ReplicaGroup n) (i : Fin n) (ws : List WriteWaiter) : ReplicaGroup n :=
  { f with replica := update f.replica i { f.replica i with writes := ws } }

def enter (f : ReplicaGroup n) (i : Fin n) (w : WriteWaiter) : ReplicaGroup n :=
  f.setWrites i (w :: (f.replica i).writes)

def leave (f : ReplicaGroup n) (i : Fin n) (w : WriteWaiter) : ReplicaGroup n :=
  f.setWrites i ((f.replica i).writes.erase w)

/-- One event; `none` if it cannot happen. -/
def step (sha : Sha1) (f : ReplicaGroup n) : GroupEvent n → Option (ReplicaGroup n)
  | .core e => (f.group.step e).map f.after
  | .write i line now o =>
    match f.group.machine i, proposal sha (parseNamesRequest line) with
    | .up s, some command =>
      if s.stopped = false ∧ s.role = .leader then
        (f.group.step (.input i (.propose command now) o)).map fun w =>
          let f := (f.enter i (s.waiter command)).after w
          -- a proposal that was refused is not waited for
          if (s.propose command now o).2.isSome then f else f.leave i (s.waiter command)
      else none
    | _, _ => none
  | .giveUp i w => some (f.leave i w)

/-- The group after some events, if all of them can happen. -/
abbrev exec (sha : Sha1) (f : ReplicaGroup n) (es : List (GroupEvent n)) :
    Option (ReplicaGroup n) :=
  Runs.exec (step sha) f es

theorem step_write {sha : Sha1} {f f' : ReplicaGroup n} {i : Fin n} {line : Str} {now : Millis}
    {o : Saved} (h : f.step sha (.write i line now o) = some f') :
    ∃ s command w, f.group.machine i = .up s ∧ s.stopped = false ∧ s.role = .leader ∧
    f.group.step (.input i (.propose command now) o) = some w ∧
    (f' = (f.enter i (s.waiter command)).after w ∨
      f' = ((f.enter i (s.waiter command)).after w).leave i (s.waiter command)) := by
  simp only [step] at h
  split at h
  · rename_i s command hm _
    split at h
    · rename_i hc
      obtain ⟨w, hw, rfl⟩ := Option.map_eq_some_iff.mp h
      refine ⟨s, command, w, hm, hc.1, hc.2, hw, ?_⟩
      split
      · exact .inl rfl
      · exact .inr rfl
    · cases h
  · cases h

end ReplicaGroup

/-! ### What the cores give -/

variable {g g' : Facts n} {w w' : World n} {s s' : Raft n} {i : Fin n} {p q : List Entry}
  {T k m : ℕ} {r : Replica} {f f' : ReplicaGroup n} {sha : Sha1} {P : Str → Prop}
  {line command : Str} {now : Millis} {o : Saved} {es es' : List (GroupEvent n)}

theorem World.applies_step {e : Event n} (h : w.step e = some w') (hm : w'.machine i = .up s') :
    (w.machine i).applies <+: s'.applies := by
  have hother : w.machine i = .up s' → (w.machine i).applies <+: s'.applies := fun h => by
    rw [h]; exact List.prefix_refl _
  rcases World.step_cases h with ⟨j, cfg, now, o, d, -, hj, -, rfl⟩ | ⟨j, x, o, s, -, hj, -, rfl⟩ |
    ⟨j, s, -, -, rfl⟩
  · rcases up_of_setMachine hm with ⟨rfl, -⟩ | ⟨-, hm⟩
    · rw [hj]; exact List.nil_prefix
    · exact hother hm
  · rw [record_machine] at hm
    rcases up_of_setMachine hm with ⟨rfl, ⟨⟩⟩ | ⟨-, hm⟩
    · rw [hj]
      exact (@Raft.serves_input _ _ (fun _ => True) s.term 0 x o (fun _ _ _ _ _ _ _ _ h _ => h)
        (fun _ _ _ _ => ⟨rfl, trivial⟩) fun _ _ _ _ _ h => h).applies
    · exact hother hm
  · rcases up_of_setMachine hm with ⟨-, ⟨⟩⟩ | ⟨-, hm⟩
    exact hother hm

/-- A committed entry stands at its place in the ledger of its own term. -/
theorem committed_ledger {e : Entry} (hi : RaftInv P g) (h : CommittedBy g T p)
    (he : p[k]? = some e) : (g.ledger e.term)[k]? = some e := by
  rcases h with rfl | ⟨t, m, -, -, hp⟩
  · cases he
  have hc := (hi.ledger_coherent t).of_isPrefix (hp.trans (List.take_prefix _ _)) k e he
  exact getElem?_of_isPrefix_some hc ((List.getElem?_take_of_lt k.lt_succ_self).trans he)

theorem Raft.finish_keeps (s : Raft n) (o : Saved) :
    (s.finish o).role = s.role ∧ (s.finish o).log = s.log := by
  have hp : (s.persist o).role = s.role ∧ (s.persist o).log = s.log := by
    unfold persist
    split
    · cases o <;> exact ⟨rfl, rfl⟩
    · exact ⟨rfl, rfl⟩
  unfold finish
  split
  · exact ⟨rfl, rfl⟩
  · dsimp only
    split
    · exact hp
    · rwa [(settles_settle _).role, (settles_settle _).log]

/-- After a proposal the leader's log is the ledger of its term, also if the save failed. -/
theorem Rel.proposed (h : Rel P g w) (hm : w.machine i = .up s) (hs : s.stopped = false)
    (hr : s.role = .leader) (he : Extends g g')
    (hw : w.step (.input i (.propose command now) o) = some w') (h' : Rel P g' w') :
    g'.ledger s.term = s.log ++ [⟨s.term, command⟩] := by
  have hsend := s.sends_onPropose command now hr
  obtain ⟨hrole, hlog⟩ := (s.onPropose command now).finish_keeps o
  have hterm : _ = s.term := ((s.onPropose command now).finish_term o).trans hsend.term
  have hm' : w'.machine i = .up ((s.onPropose command now).finish o) := by
    simp only [World.step, hm] at hw
    rw [← Option.some.inj hw, World.record_machine, World.setMachine]
    simp [Raft.input, Raft.propose, hs, hr]
  obtain ⟨s', hs', -, ⟨-, hled⟩ | ⟨hl, hid⟩⟩ := h'.leader_log (i := i) (t := s.term)
    (by rw [hm']; exact ⟨hrole.trans (hsend.role.trans hr), hterm⟩)
  · cases hm'.symm.trans hs'
    rw [hled, hlog, hsend.log]
    rfl
  · -- the term was open, and durable, before the proposal
    cases hm'.symm.trans hs'
    have h1 := hl.term
    have h2 := (h.live hm hs).term
    have h3 := he.term i
    rw [hid, hterm] at h1
    rw [h.cfg_id hm] at h2
    omega

/-! ### One history -/

/-- The namespace after some entries. -/
def namesAfter (es : List Entry) : Namespace := runCommands .empty (es.map (·.command))

/-- The entry of the write stands in the ledger of its term. -/
def WriteWaiter.Lies (g : Facts n) (w : WriteWaiter) : Prop :=
  (g.ledger w.term)[w.index - 1]? = some ⟨w.term, w.command⟩

/-- The answer is the write's result at its place in the history, unless the write was replaced. -/
def Given (hist : List Entry) (a : WriteWaiter × Str) : Prop :=
  a.2 = REPLACED ∨ hist[a.1.index - 1]? = some ⟨a.1.term, a.1.command⟩ ∧
    a.2 = (applyCommand (namesAfter (hist.take (a.1.index - 1))) a.1.command).2

/-- The replica has applied the first `m` entries of `q`, and all it said was given on `q`. -/
structure Applied (g : Facts n) (q : List Entry) (m : ℕ) (r : Replica) : Prop where
  names : r.names = namesAfter (q.take m)
  waits : ∀ w ∈ r.writes, w.Lies g
  said : ∀ a ∈ r.said, Given q a

theorem Given.mono {a : WriteWaiter × Str} (hp : p <+: q) (h : Given p a) : Given q a := by
  refine h.imp id ?_
  rintro ⟨h1, h2⟩
  refine ⟨getElem?_of_isPrefix_some hp h1, ?_⟩
  obtain ⟨r, rfl⟩ := hp
  rwa [List.take_append_of_le_length (List.getElem?_eq_some_iff.mp h1).1.le]

theorem Applied.mono (hp : p <+: q) (hm : m ≤ p.length) (h : Applied g p m r) :
    Applied g q m r := by
  refine ⟨?_, h.waits, fun a ha => (h.said a ha).mono hp⟩
  obtain ⟨r, rfl⟩ := hp
  rw [List.take_append_of_le_length hm]
  exact h.names

theorem Applied.onApply (hi : RaftInv P g) (hq : CommittedBy g T q) (hk : k < q.length)
    (h : Applied g q k r) (d : Entry) : Applied g q (k + 1) (r.onApply (k + 1, q.getD k d)) := by
  have hget : q[k]? = some (q.getD k d) := by simp [hk]
  generalize q.getD k d = e at hget
  refine ⟨?_, fun w hw => h.waits w (List.mem_of_mem_filter hw), fun a ha => ?_⟩
  · rw [List.take_add_one, hget, namesAfter, Option.toList_some, List.map_append,
      List.map_singleton, runCommands_concat, ← namesAfter, ← h.names]
    rfl
  · refine (List.mem_append.mp ha).elim (h.said a) fun ha => ?_
    obtain ⟨w, hw, rfl⟩ := List.mem_map.mp ha
    obtain ⟨hmem, hd⟩ := List.mem_filter.mp hw
    have hidx : w.index = k + 1 := of_decide_eq_true hd
    by_cases ht : w.term = e.term
    · -- the waiter's entry and the applied one stand at one place of one ledger
      have hl := h.waits w hmem
      rw [WriteWaiter.Lies, hidx, ht, Nat.add_sub_cancel, committed_ledger hi hq hget, ← ht] at hl
      cases hl
      exact .inr ⟨by rw [hidx]; exact hget,
        by rw [hidx, Nat.add_sub_cancel, ← h.names]; exact if_pos rfl⟩
    · exact .inl (if_neg ht)

theorem Applied.foldl (hi : RaftInv P g) (hq : CommittedBy g T q) (hm : m ≤ k)
    (hk : k ≤ q.length) (h : Applied g q m r) :
    Applied g q k (((Raft.numbered (q.take k)).drop m).foldl Replica.onApply r) := by
  induction k, hm using Nat.le_induction with
  | base =>
    rw [List.drop_eq_nil_of_le (by simp [Raft.numbered])]
    exact h
  | succ k hm ih =>
    rw [Raft.numbered_take_succ hk ⟨0, []⟩, List.drop_append_of_le_length, List.foldl_concat]
    · exact (ih (by omega)).onApply hi hq hk _
    · simp only [Raft.numbered, List.length_mapIdx, List.length_take]
      omega

/-- Of two committed lists the longer one holds both. -/
theorem exists_both {T' : ℕ} (hi : RaftInv P g) (hp : CommittedBy g T p)
    (hq : CommittedBy g T' q) : ∃ T r, CommittedBy g T r ∧ p <+: r ∧ q <+: r := by
  rcases hp.comparable hi hq with h | h
  · exact ⟨T', q, hq, h, List.prefix_refl _⟩
  · exact ⟨T, p, hp, List.prefix_refl _, h⟩

/-- Every replica has applied part of some committed list, which holds all it said. -/
def Good (g : Facts n) (f : ReplicaGroup n) : Prop :=
  ∀ i, ∃ T q m, CommittedBy g T q ∧ m ≤ q.length ∧
    (f.group.machine i).applies = Raft.numbered (q.take m) ∧ Applied g q m (f.replica i)

section
variable (h : Good g f)
include h

theorem Good.extends (hi : RaftInv P g) (he : Extends g g') : Good g' f := by
  intro i
  obtain ⟨T, q, m, hq, hm, ha, hr⟩ := h i
  exact ⟨T, q, m, hq.extends hi he, hm, ha, hr.names,
    fun w hw => getElem?_of_isPrefix_some (he.ledger_prefix _) (hr.waits w hw), hr.said⟩

theorem Good.setWrites {ws : List WriteWaiter}
    (hw : ∀ w ∈ ws, w ∈ (f.replica i).writes ∨ w.Lies g) : Good g (f.setWrites i ws) := by
  intro j
  obtain ⟨T, q, m, hq, hm, ha, hr⟩ := h j
  refine ⟨T, q, m, hq, hm, ha, ?_⟩
  by_cases hj : j = i
  · subst hj
    simp only [ReplicaGroup.setWrites, update_self]
    exact ⟨hr.names, fun w hmem => (hw w hmem).elim (hr.waits w) id, hr.said⟩
  · simpa only [ReplicaGroup.setWrites, update_of_ne hj] using hr

theorem Good.after (h' : Rel P g w) {e : Event n} (hs : f.group.step e = some w) :
    Good g (f.after w) := by
  intro i
  obtain ⟨T, q, m, hq, hm, ha, hr⟩ := h i
  show ∃ T q m, _ ∧ _ ∧ (w.machine i).applies = _ ∧ Applied g q m (Replica.follow _ _ (w.machine i))
  cases hw : w.machine i with
  | down d => exact ⟨T, q, 0, hq, Nat.zero_le _, rfl, rfl, fun w hw => (by cases hw), hr.said⟩
  | up s =>
    have hp := (h'.sound hw).appliedBy
    have happ := (h'.sound hw).applies
    have hlen := (World.applies_step hs hw).length_le
    generalize s.log.take s.applied = p at hp happ
    obtain ⟨T', q', hq', h1, h2⟩ := exists_both h'.inv hq hp
    have hold : (Raft.numbered (q.take m)).length = m := by simpa [Raft.numbered] using hm
    rw [ha, happ, hold, Raft.numbered, List.length_mapIdx] at hlen
    rw [List.prefix_iff_eq_take.mp h2] at happ
    refine ⟨T', q', _, hq', h2.length_le, happ, ?_⟩
    rw [Replica.follow, ha, happ, hold]
    exact (hr.mono h1 hm).foldl h'.inv hq' hlen h2.length_le

end

/-- A run of the group leads from `f` to `f'`, where the facts have grown and the replicas are
good. -/
def GroupRun (g : Facts n) (f f' : ReplicaGroup n) : Prop :=
  World.Runs f.group f'.group ∧ ∃ g', Extends g g' ∧ Rel (fun _ => True) g' f'.group ∧ Good g' f'

/-- **One event** of the group. -/
theorem Good.step (h : Good g f) (hg : Rel (fun _ => True) g f.group) {a : GroupEvent n}
    (hs : f.step sha a = some f') : GroupRun g f f' := by
  cases a with
  | core e =>
    obtain ⟨w, hw, rfl⟩ := Option.map_eq_some_iff.mp hs
    have hp : World.Proposes (fun _ => True) e := by unfold World.Proposes; split <;> trivial
    obtain ⟨_, g', hst, hg'⟩ := hg.step trivial hp hw
    have he := (hg.inv.steps hst).2
    exact ⟨.single ⟨e, hp, hw⟩, g', he, hg', (h.extends hg.inv he).after hg' hw⟩
  | write i line now o =>
    obtain ⟨s, command, w, hm, hst, hr, hw, hf⟩ := ReplicaGroup.step_write hs
    have hp : World.Proposes (fun _ => True) (.input i (.propose command now) o) := trivial
    obtain ⟨_, g', hsteps, hg'⟩ := hg.step trivial hp hw
    have he := (hg.inv.steps hsteps).2
    have hlies : (s.waiter command).Lies g' := by
      rw [WriteWaiter.Lies, Raft.waiter, hg.proposed hm hst hr he hw hg']
      simp [Raft.lastIndex]
    have hgood : Good g' ((f.enter i (s.waiter command)).after w) :=
      Good.after ((h.extends hg.inv he).setWrites fun v hv =>
        (List.mem_cons.mp hv).elim (fun hv => .inr (hv ▸ hlies)) .inl) hg' hw
    rcases hf with rfl | rfl
    · exact ⟨.single ⟨_, hp, hw⟩, g', he, hg', hgood⟩
    · exact ⟨.single ⟨_, hp, hw⟩, g', he, hg',
        hgood.setWrites fun v hv => .inl (List.mem_of_mem_erase hv)⟩
  | giveUp i w =>
    cases hs
    exact ⟨.refl, g, Extends.refl g, hg, h.setWrites fun v hv => .inl (List.mem_of_mem_erase hv)⟩

theorem Good.exec (h : Good g f) (hg : Rel (fun _ => True) g f.group)
    (hs : f.exec sha es = some f') : GroupRun g f f' := by
  refine Runs.exec_induction (I := GroupRun g f) ?_ hs ⟨.refl, g, Extends.refl g, hg, h⟩
  rintro f₁ a f₂ - hst ⟨hr₁, g₁, he₁, hg₁, h₁⟩
  obtain ⟨hr₂, g₂, he₂, h₂⟩ := h₁.step hg₁ hst
  exact ⟨hr₁.trans hr₂, g₂, he₁.trans he₂, h₂⟩

theorem groupRun_of_exec (h : ReplicaGroup.exec sha .init es = some f) :
    GroupRun State.init .init f :=
  Good.exec (fun i => ⟨0, [], 0, CommittedBy.nil _ _, le_rfl, rfl, rfl, fun w hw => (by cases hw),
    fun a ha => (by cases ha)⟩) Rel.init h

/-- **One history**: at any moment of a run there is one list of entries such that every
replica's namespace is that of a part of it, and whatever any replica ever answered a write, in any
life, is the result of that write at its place in the list, or says that the write was replaced. -/
theorem answers_on_one_history (h : ReplicaGroup.exec sha .init es = some f) :
    ∃ hist : List Entry, ∀ i, (∃ m, (f.replica i).names = namesAfter (hist.take m)) ∧
      ∀ a ∈ (f.replica i).said, Given hist a := by
  obtain ⟨-, g, -, hg, hgood⟩ := groupRun_of_exec h
  have hall : ∀ l : List (Fin n), ∃ T q, CommittedBy g T q ∧
      ∀ i ∈ l, ∃ m ≤ q.length, Applied g q m (f.replica i) := by
    intro l
    induction l with
    | nil => exact ⟨0, [], CommittedBy.nil _ _, by simp⟩
    | cons i l ih =>
      obtain ⟨T, q, hq, hl⟩ := ih
      obtain ⟨T', q', m, hq', hm, -, ha⟩ := hgood i
      obtain ⟨T₁, r, hr, h1, h2⟩ := exists_both hg.inv hq hq'
      refine ⟨T₁, r, hr, List.forall_mem_cons.mpr ⟨⟨m, hm.trans h2.length_le, ha.mono h2 hm⟩,
        fun j hj => ?_⟩⟩
      obtain ⟨k, hk, hj⟩ := hl j hj
      exact ⟨k, hk.trans h1.length_le, hj.mono h1 hk⟩
  obtain ⟨T, q, -, hq⟩ := hall (List.finRange n)
  refine ⟨q, fun i => ?_⟩
  obtain ⟨m, -, ha⟩ := hq i (List.mem_finRange i)
  exact ⟨⟨m, ha.names⟩, ha.said⟩

/-- Replica 0 makes a call to replica 1, which takes it. -/
def acknowledged (call : AppendRequest) (now : Millis) : List (GroupEvent 3) :=
  [.core (.input r0 .takeOutgoing .ok), .core (.input r1 (.handleAppend call now) .ok),
    .core (.input r0 (.handleAppendReply r1 call ⟨1, true, call.prevIndex + call.entries.length⟩ now)
      .ok)]

/-- Three replicas: the one that was elected registers a name. -/
def trioWrites : List (GroupEvent 3) :=
  election.map .core ++ .write r0 lookalike 155 .ok :: acknowledged
    ⟨1, 0, 1, 1, [⟨1, lookalike⟩], 1, 3⟩ 156

def written : ReplicaGroup 3 := (ReplicaGroup.exec (.ofTable []) .init trioWrites).getD .init

theorem exec_written : ReplicaGroup.exec (.ofTable []) .init trioWrites = some written := by
  obtain ⟨f, hf⟩ := Option.isSome_iff_exists.mp
    (show (ReplicaGroup.exec (.ofTable []) .init trioWrites).isSome = true by decide +kernel)
  rw [written, hf, Option.getD_some]

theorem answers_on_one_history_trio : (⟨2, 1, lookalike⟩, "OK".toList) ∈ (written.replica 0).said ∧
    ∃ hist, Given hist (⟨2, 1, lookalike⟩, "OK".toList) ∧
      ∀ i, ∃ m, (written.replica i).names = namesAfter (hist.take m) := by
  have hmem : (⟨2, 1, lookalike⟩, "OK".toList) ∈ (written.replica 0).said := by decide +kernel
  obtain ⟨hist, h⟩ := answers_on_one_history exec_written
  exact ⟨hmem, hist, (h 0).2 _ hmem, fun i => (h i).1⟩

/-- **Real time**: a write begins.  The writes of its term that wait have smaller indexes, and if it
is ever answered, so have all that any replica has answered by then. -/
theorem answered_before (h : ReplicaGroup.exec sha .init es = some f)
    (hm : f.group.machine i = .up s) (h' : f.exec sha (.write i line now o :: es') = some f')
    (j : Fin n) :
    (∀ a ∈ (f.replica j).writes, a.term = s.term → a.index ≤ s.lastIndex) ∧
    ∀ command text, (s.waiter command, text) ∈ (f'.replica i).said → text ≠ REPLACED →
      ∀ a ∈ (f.replica j).said, a.2 ≠ REPLACED → a.1.index ≤ s.lastIndex := by
  obtain ⟨-, g, -, hg, hgood⟩ := groupRun_of_exec h
  obtain ⟨-, g', he, hg', hgood'⟩ := hgood.exec hg h'
  obtain ⟨f₁, hw, -⟩ := Option.bind_eq_some_iff.mp h'
  obtain ⟨s₁, -, -, hm₁, hst, hr, -⟩ := ReplicaGroup.step_write hw
  cases hm.symm.trans hm₁
  obtain ⟨T, q, m, hq, -, -, ha⟩ := hgood j
  have hled : g.ledger s.term = s.log := ((hg.live hm hst).leads hr).2
  refine ⟨fun a hmem hterm => ?_, fun command text hb hne a hmem hna => ?_⟩
  · have hlies := ha.waits a hmem
    rw [WriteWaiter.Lies, hterm, hled] at hlies
    have := (List.getElem?_eq_some_iff.mp hlies).1
    rw [Raft.lastIndex]
    omega
  · obtain ⟨T', q', m', hq', -, -, ha'⟩ := hgood' i
    obtain ⟨T₁, r, -, h1, h2⟩ := exists_both hg'.inv (hq.extends hg.inv he) hq'
    have hb := getElem?_of_isPrefix_some h2 ((ha'.said _ hb).resolve_left hne).1
    have hlen := (List.getElem?_eq_some_iff.mp ((ha.said a hmem).resolve_left hna).1).1
    by_contra hlt
    have hlt : s.lastIndex < q.length := by omega
    -- the write's entry would have been committed, and so in its ledger, before it was proposed
    have hin : q[s.lastIndex]? = some ⟨s.term, command⟩ := (getElem?_of_isPrefix h1 hlt).trans hb
    have := (List.getElem?_eq_some_iff.mp (committed_ledger hg.inv hq hin)).1
    rw [hled, Raft.lastIndex] at this
    omega

/-- The elected replica registers the name once more. -/
def writesAgain : List (GroupEvent 3) :=
  .write r0 lookalike 157 .ok :: acknowledged ⟨1, 0, 2, 1, [⟨1, lookalike⟩], 2, 4⟩ 158

theorem answered_before_trio : ∃ f s, written.exec (.ofTable []) writesAgain = some f ∧
    written.group.machine 0 = .up s ∧ (s.waiter lookalike, "OK".toList) ∈ (f.replica 0).said ∧
    ∀ j, ∀ a ∈ (written.replica j).said, a.2 ≠ REPLACED → a.1.index ≤ s.lastIndex := by
  obtain ⟨f, hf, h⟩ := Option.map_eq_some_iff.mp (show (written.exec (.ofTable []) writesAgain).map
    (fun f => (written.group.machine 0).runs fun s =>
      (s.waiter lookalike, "OK".toList) ∈ (f.replica 0).said) = some true by decide +kernel)
  obtain ⟨s, hm, hs⟩ := Machine.exists_of_runs h
  have hs := of_decide_eq_true hs
  exact ⟨f, s, hf, hm, hs, fun j => (answered_before exec_written hm hf j).2 _ _ hs (by decide)⟩

/-! ### Reads -/

/-- **Reads see what was answered**: when the core confirms a read, the namespace that answers it
has every write that any replica had answered before the read was called. -/
theorem read_sees_answered {f₁ f₂ : ReplicaGroup n} {id : ℕ}
    (h : ReplicaGroup.exec sha .init es = some f)
    (hread : f.step sha (.core (.input i (.read id now) o)) = some f₁)
    (h' : f₁.exec sha es' = some f₂) (hm : f₂.group.machine i = .up s)
    (hl : f₂.group.life i = f₁.group.life i) (hok : ⟨id, true⟩ ∈ s.takeReads.2) : ∃ hist m,
    (f₂.replica i).names = namesAfter (hist.take m) ∧
    ∀ j, ∀ a ∈ (f.replica j).said, a.2 ≠ REPLACED → a.1.index ≤ m ∧ Given hist a := by
  obtain ⟨-, g, -, hg, hgood⟩ := groupRun_of_exec h
  obtain ⟨-, g₁, he₁, hg₁, hgood₁⟩ := hgood.step hg hread
  obtain ⟨hr₂, g₂, he₂, hg₂, hgood₂⟩ := hgood₁.exec hg₁ h'
  obtain ⟨w, hw, rfl⟩ := Option.map_eq_some_iff.mp hread
  have htold := told_after_read (groupRun_of_exec h).1 hg hw hr₂ hm hl hok
  obtain ⟨T₂, q₂, m, hq₂, hm₂, happ, ha₂⟩ := hgood₂ i
  refine ⟨q₂, m, ha₂.names, fun j a hmem hne => ?_⟩
  obtain ⟨T, q, _, hq, -, -, ha⟩ := hgood j
  have hgiven := ha.said a hmem
  have hlen := (htold T q hq).length_le
  rw [hm, Machine.applies] at happ
  simp only [happ, Raft.numbered, List.length_mapIdx, List.length_take] at hlen
  obtain ⟨_, r, -, h1, h2⟩ := exists_both hg₂.inv (hq.extends hg.inv (he₁.trans he₂)) hq₂
  have hidx := (List.getElem?_eq_some_iff.mp (hgiven.resolve_left hne).1).1
  exact ⟨by omega, hgiven.mono (List.prefix_of_prefix_length_le h1 h2 (by omega))⟩

/-- A read of the elected replica, which replica 1 confirms. -/
theorem read_sees_answered_trio : ∃ f₁ f₂ s hist m,
    written.step (.ofTable []) (.core (.input 0 (.read 7 157) .ok)) = some f₁ ∧
    f₁.exec (.ofTable []) (acknowledged ⟨1, 0, 2, 1, [], 2, 4⟩ 158) = some f₂ ∧
    f₂.group.machine 0 = .up s ∧ ⟨7, true⟩ ∈ s.takeReads.2 ∧
    (f₂.replica 0).names = namesAfter (hist.take m) ∧
    ∀ j, ∀ a ∈ (written.replica j).said, a.2 ≠ REPLACED → a.1.index ≤ m ∧ Given hist a := by
  obtain ⟨f₁, h₁, h⟩ := (Option.any_eq_true ..).mp
    (show (written.step (.ofTable []) (.core (.input 0 (.read 7 157) .ok))).any (fun f₁ =>
      (f₁.exec (.ofTable []) (acknowledged ⟨1, 0, 2, 1, [], 2, 4⟩ 158)).any fun f₂ =>
        decide (f₂.group.life 0 = f₁.group.life 0) &&
          (f₂.group.machine 0).runs fun s => ⟨7, true⟩ ∈ s.takeReads.2) = true by decide +kernel)
  obtain ⟨f₂, h₂, h⟩ := (Option.any_eq_true ..).mp h
  obtain ⟨hl, h⟩ := Bool.and_eq_true_iff.mp h
  obtain ⟨s, hm, hs⟩ := Machine.exists_of_runs h
  obtain ⟨hist, m, hnames, hseen⟩ := read_sees_answered exec_written h₁ h₂ hm (of_decide_eq_true hl)
    (of_decide_eq_true hs)
  exact ⟨f₁, f₂, s, hist, m, h₁, h₂, hm, of_decide_eq_true hs, hnames, hseen⟩

end ChordFs
