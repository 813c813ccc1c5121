import ChordFs.LogFile
import ChordFs.RaftSafety

/-! # The log file under the group

The group of `RaftWorld.lean` with the log files its replicas write through `FileStorage`.  A
replica's process opens its file, starts its core on what it found, and every save of the core
appends a batch; a save may be interrupted and leave any bytes in the place of the batch of which
no line passes its check but the batch's own lines at their own place.  At every moment of every
run, opening the file finds the durable state the group's model keeps for the replica
(`FileWorld.kept_of_reachable`), and the completed saves are what it finds unless the last one was
interrupted (`log_file_recovers`). -/

namespace ChordFs

open Text Function

/-! ### The saves of a core -/

namespace Raft

variable {n : ℕ} {s : Raft n} {c : SaveCall}

/-- The save `finish` makes in this state. -/
def saveCall (s : Raft n) : Option SaveCall :=
  if s.stopped ∨ s.dirty = false then none else some ⟨s.term, s.votedFor, s.saveFrom, s.log⟩

theorem saveCall_eq_some (h : s.saveCall = some c) : s.stopped = false ∧ s.dirty = true ∧
    c = ⟨s.term, s.votedFor, s.saveFrom, s.log⟩ := by
  unfold saveCall at h
  split at h
  · cases h
  · rename_i hs
    simp only [not_or, Bool.not_eq_false, Bool.not_eq_true] at hs
    exact ⟨hs.1, hs.2, (Option.some.inj h).symm⟩

theorem finish_without_save (h : s.saveCall = none) (hs : s.stopped = false) (o : Saved) :
    (s.finish o).storage = s.storage ∧ (s.finish o).stopped = false := by
  have hd : s.dirty = false := by
    unfold saveCall at h
    split at h
    · rename_i hor
      simpa [hs] using hor
    · cases h
  have hset := s.settles_settle
  simp [finish, persist, hs, hd, hset.storage, hset.stopped]

theorem finish_saved (hy : Synced s) (h : s.saveCall = some c) :
    (s.finish .ok).storage = ⟨c.term, c.votedFor, c.log⟩ ∧ (s.finish .ok).stopped = false := by
  obtain ⟨hs, -, rfl⟩ := saveCall_eq_some h
  have hset := s.persisted.settles_settle
  rcases hy.finish_cases hs .ok with h1 | ⟨k, d, ho, -, -⟩
  · rw [h1]
    exact ⟨hset.storage, hset.stopped.trans hs⟩
  · cases ho

theorem finish_interrupted (h : s.saveCall = some c) (k : ℕ) :
    (s.finish (.fails k)).storage =
      ((s.storage.recordsOf c).take k).foldl Durable.replay s.storage ∧
    (s.finish (.fails k)).stopped = true := by
  obtain ⟨hs, hd, rfl⟩ := saveCall_eq_some h
  simp [finish, persist, hs, hd, saveFrom]

end Raft

section storable
variable {n : ℕ} {g₀ g : Facts n} {s₀ s : Raft n} {c : SaveCall}

/-- The entries of a core's log are not newer than its term, and their commands may be proposed. -/
theorem Prepared.entry_of_mem {P : Str → Prop} (hi : RaftInv P g₀)
    (h : Prepared P g₀ g s₀ s) {e : Entry} (he : e ∈ s.log) : e.term ≤ s.term ∧ P e.command := by
  have hig := (hi.steps h.steps).1
  have ht := h.tracks
  obtain ⟨k, hk⟩ := List.getElem?_of_mem he
  have hk' : (s.log.take (k + 1))[k]? = some e := by
    rw [List.getElem?_take_of_lt (Nat.lt_succ_self k)]
    exact hk
  refine ⟨?_, hig.command _ e ((ht.coherent k e hk).subset (List.mem_of_getElem? hk'))⟩
  rcases ht.written with hd | hw
  · rw [← ht.term]
    exact hig.logTerm _ e (by rw [ht.log_eq hd]; exact he)
  · exact hig.ledger_term _ e (hw.log.subset he)

theorem Prepared.voter {P : Str → Prop} (h : Prepared P g₀ g s₀ s) :
    s.votedFor = NOBODY ∨ ∃ v : Fin n, s.votedFor = v := by
  rw [← h.tracks.vote]
  cases (g.node s.cfg.id).vote with
  | none => exact .inl rfl
  | some v => exact .inr ⟨v, rfl⟩

/-- **Every save of a core of the group is one the file's replay accepts.** -/
theorem Prepared.storable (hn : n ≤ 1001)
    (hi : Consensus.Inv (majorities n) (fun c => validCommand c = true) g₀)
    (h : Prepared (fun c => validCommand c = true) g₀ g s₀ s) (hc : s.saveCall = some c)
    (hsmall : c.Small) : Storable s.storage c := by
  obtain ⟨-, -, rfl⟩ := Raft.saveCall_eq_some hc
  obtain ⟨hig, he⟩ := hi.steps h.steps
  have ht := h.tracks
  have hdisk := h.disk
  refine ⟨?_, fun hterm hvoted => ?_, ?_, s.saveFrom_pos, ht.toSynced.saveFrom_le,
    ht.toSynced.take_saveFrom, ht.coherent.pairwise hig.ledger_term,
    fun e hm => (h.entry_of_mem hi hm).1, fun e hm => (h.entry_of_mem hi hm).2, hsmall⟩
  · rw [← hdisk]
    exact (he.term s.cfg.id).trans ht.term.le
  · -- in the same term the node keeps the vote it has cast
    rw [← hdisk] at hterm hvoted ⊢
    have hsame : (g.node s.cfg.id).term = (g₀.node s.cfg.id).term := ht.term.trans hterm
    cases hv : (g₀.node s.cfg.id).vote with
    | none => simp [onDisk, hv, voteOf] at hvoted
    | some v =>
      rcases h.steps.vote_kept with hlt | ⟨-, hkept⟩
      · omega
      · rw [onDisk, hv, ← ht.vote, hkept v hv]
  · rcases h.voter with hv | ⟨v, hv⟩
    · exact .inl hv
    · exact .inr ⟨v, by omega, hv⟩

end storable

/-! ### Replicas with their files -/

/-- The group, the log files, and the storages of the processes that opened them. -/
structure FileWorld (n : ℕ) where
  group : World n
  file : Fin n → Str
  storage : Fin n → FileStorage

inductive FileEvent (n : ℕ) where
  | openLog (i : Fin n) (path : Str) (io : OpenCalls)
  | boot (i : Fin n) (cfg : RaftConfig n) (now : Millis) (o : Wrote)
  | input (i : Fin n) (x : Input n) (o : Wrote)
  | crash (i : Fin n)

namespace FileWorld

variable {n : ℕ}

def init : FileWorld n where
  group := .init
  file _ := []
  storage _ := {}

/-- The save the event makes. -/
def saveOf (f : FileWorld n) : FileEvent n → Option SaveCall
  | .boot i cfg now _ =>
    match f.group.machine i with
    | .down d => (Raft.beforeStart cfg d now).saveCall
    | .up _ => none
  | .input i x _ =>
    match f.group.machine i with
    | .up s => (s.beforeFinish x).bind Raft.saveCall
    | .down _ => none
  | .openLog _ _ _ | .crash _ => none

variable (sha : Sha1)

/-- How a save turns out for the storage, the file and the core: of an interrupted save the model
of the core keeps as many records as passing lines were left. -/
def saved (fs : FileStorage) (file : Str) (c : Option SaveCall) (o : Wrote) :
    FileStorage × Str × Saved :=
  match c with
  | none => (fs, file, .ok)
  | some c =>
    let r := fs.save sha file c o
    (r.1, r.2.1, if r.2.2 then .ok else
      match o with
      | .ok => .fails 0
      | .torn tail => .fails (LineLog.intact (parseLogRecord sha) tail).length)

def put (f : FileWorld n) (i : Fin n) (fs : FileStorage) (file : Str) (group : World n) :
    FileWorld n where
  group := group
  file := Function.update f.file i file
  storage := Function.update f.storage i fs

/-- One event; `none` if it cannot happen. -/
def step (f : FileWorld n) (e : FileEvent n) : Option (FileWorld n) :=
  match e with
  | .openLog i path io =>
    match f.group.machine i, FileStorage.openFile sha path (f.file i) io with
    | .down _, .ok r =>
      if (f.storage i).isOpen then none
      -- the core will be started on what was found
      else some (f.put i r.storage r.file (f.group.setMachine i (.down r.out)))
    | _, _ => none
  | .boot i cfg now o =>
    if (f.storage i).isOpen then
      let r := saved sha (f.storage i) (f.file i) (f.saveOf e) o
      (f.group.step (.boot i cfg now r.2.2)).map (f.put i r.1 r.2.1)
    else none
  | .input i x o =>
    let r := saved sha (f.storage i) (f.file i) (f.saveOf e) o
    (f.group.step (.input i x r.2.2)).map (f.put i r.1 r.2.1)
  | .crash i =>
    match f.group.machine i with
    | .up s => some (f.put i {} (f.file i) (f.group.setMachine i (.down s.storage)))
    | .down _ => some (f.put i {} (f.file i) f.group)

/-- What an interrupted save may leave. -/
def Plausible (fs : FileStorage) (c : SaveCall) : Wrote → Prop
  | .ok => True
  | .torn tail => fs.Leaves sha c tail

/-- Only valid commands are proposed, numbers stay small, and an interrupted save leaves no line
that passes its check by accident. -/
def allows (f : FileWorld n) (e : FileEvent n) : Prop :=
  match e with
  | .boot i _ _ o => ∀ c ∈ f.saveOf e, c.Small ∧ Plausible sha (f.storage i) c o
  | .input i x o => World.Proposes (fun c => validCommand c = true) (.input i x .ok) ∧
      ∀ c ∈ f.saveOf e, c.Small ∧ Plausible sha (f.storage i) c o
  | .openLog _ _ _ | .crash _ => True

def Step (f f' : FileWorld n) : Prop := ∃ e, f.allows sha e ∧ f.step sha e = some f'

def Reachable (f : FileWorld n) : Prop := Relation.ReflTransGen (Step sha) init f

variable {fs : FileStorage} {file : Str} {s : Raft n} {o : Wrote}

theorem step_getD {f : FileWorld n} {e : FileEvent n} (h : (f.step sha e).isSome = true) :
    f.step sha e = some ((f.step sha e).getD f) := by
  obtain ⟨f', hf⟩ := Option.isSome_iff_exists.mp h
  rw [hf, Option.getD_some]

/-! ### What every run keeps -/

/-- The replica is running, or its process has opened the file and is about to start it. -/
def Writing (f : FileWorld n) (i : Fin n) : Prop :=
  match f.group.machine i with
  | .up s => s.stopped = false
  | .down _ => (f.storage i).isOpen = true

/-- The group is one of `RaftWorld.lean`; every file holds what the group's model has on the
replica's disk, and the file of a replica that writes to it holds nothing else. -/
structure Kept (f : FileWorld n) : Prop where
  reach : World.Reachable (fun c => validCommand c = true) f.group
  recovers : ∀ i, ∃ good, Recovers sha (f.file i) good (f.group.machine i).disk
  stored : ∀ i, f.Writing i → Stored sha (f.file i) (f.group.machine i).disk ∧
    (f.storage i).Mirrors (f.group.machine i).disk

/-- Replica `i`, as it is in `f`, may call `save` with `c`. -/
def Saves (f : FileWorld n) (i : Fin n) (c : SaveCall) : Prop :=
  (∃ s x s₁, f.group.machine i = .up s ∧ f.group.admits i x ∧
    World.Proposes (fun c => validCommand c = true) (.input i x .ok) ∧
    s.beforeFinish x = some s₁ ∧ s₁.saveCall = some c) ∨
  ∃ d cfg now, f.group.machine i = .down d ∧ (f.storage i).isOpen = true ∧ cfg.id = i ∧
    (Raft.beforeStart cfg d now).saveCall = some c

variable {sha} {f f' : FileWorld n} {i : Fin n} {c : SaveCall}

theorem Kept.init : Kept sha (init : FileWorld n) where
  reach := .refl
  recovers _ := ⟨[], stored_nil.recovers⟩
  stored i h := by simp [Writing, FileWorld.init, World.init] at h

theorem Kept.storable (h : Kept sha f) (hn : n ≤ 1001) (hs : f.Saves i c) (hc : c.Small) :
    Storable (f.group.machine i).disk c := by
  obtain ⟨g, hg⟩ := rel_of_reachable validCommand_noop h.reach
  have hag := hg.machine i
  rcases hs with ⟨s, x, s₁, hm, ha, hx, hb, hcall⟩ | ⟨d, cfg, now, hm, -, rfl, hcall⟩
  · obtain ⟨g', hp⟩ := hg.prepared validCommand_noop hm ha hx hb
    rw [hm] at hag ⊢
    have hst := hp.storable hn hg.inv hcall hc
    rw [← hp.disk, hp.cfg, hag.1, hag.2.1] at hst
    exact hst
  · obtain ⟨g', hp⟩ := hg.prepared_start validCommand_noop hm now
    rw [hm] at hag ⊢
    have hst := hp.storable hn hg.inv hcall hc
    rw [← hp.disk, hp.cfg] at hst
    exact (show onDisk (g.node cfg.id) = d from hag) ▸ hst

theorem Kept.put (h : Kept sha f) {group : World n} {m : Machine n}
    (hreach : World.Reachable (fun c => validCommand c = true) group)
    (hm : group.machine = update f.group.machine i m) (hrec : ∃ good, Recovers sha file good m.disk)
    (hst : (f.put i fs file group).Writing i → Stored sha file m.disk ∧ fs.Mirrors m.disk) :
    Kept sha (f.put i fs file group) := by
  refine ⟨hreach, fun j => ?_, fun j hj => ?_⟩
  · by_cases hji : j = i
    · subst hji
      simpa [FileWorld.put, hm] using hrec
    · simpa [FileWorld.put, hm, update_of_ne hji] using h.recovers j
  · by_cases hji : j = i
    · subst hji
      simpa [FileWorld.put, hm] using hst hj
    · have hj' : f.Writing j := by
        simpa [Writing, FileWorld.put, hm, update_of_ne hji] using hj
      simpa [FileWorld.put, hm, update_of_ne hji] using h.stored j hj'

theorem finish_saved (hf : Stored sha file s.storage) (hm : fs.Mirrors s.storage) (hy : Raft.Synced s)
    (hrun : s.stopped = false) (hc : ∀ c ∈ s.saveCall, Storable s.storage c ∧ Plausible sha fs c o) :
    let r := saved sha fs file s.saveCall o
    let s' := s.finish r.2.2
    (∃ good, Recovers sha r.2.1 good s'.storage) ∧
      (s'.stopped = false → Stored sha r.2.1 s'.storage ∧ r.1.Mirrors s'.storage) := by
  cases hcall : s.saveCall with
  | none =>
    obtain ⟨hd, -⟩ := Raft.finish_without_save hcall hrun .ok
    simp only [saved, hd]
    exact ⟨⟨_, hf.recovers⟩, fun _ => ⟨hf, hm⟩⟩
  | some c =>
    obtain ⟨hstor, hpl⟩ := hc c hcall
    rcases hf.save_cases hm hstor o with ⟨hok, hst, hmir⟩ | ⟨tail, rfl, hsave⟩
    · obtain ⟨hd, -⟩ := Raft.finish_saved hy hcall
      simp only [saved, hok, if_true, hd]
      exact ⟨⟨_, hst.recovers⟩, fun _ => ⟨hst, hmir⟩⟩
    · have hfin := Raft.finish_interrupted hcall
        (LineLog.intact (parseLogRecord sha) tail).length
      simp only [saved, hsave, Bool.false_eq_true, if_false, hfin.1, hfin.2]
      exact ⟨⟨_, (hf.torn hm hstor hpl).2⟩, fun hs => by cases hs⟩

theorem Kept.finish (h : Kept sha f) (hn : n ≤ 1001) (hw : f.Writing i)
    (hdisk : s.storage = (f.group.machine i).disk) (hy : Raft.Synced s) (hrun : s.stopped = false)
    (hs : ∀ c, s.saveCall = some c → f.Saves i c)
    (hc : ∀ c ∈ s.saveCall, c.Small ∧ Plausible sha (f.storage i) c o) :
    let r := saved sha (f.storage i) (f.file i) s.saveCall o
    let s' := s.finish r.2.2
    (∃ good, Recovers sha r.2.1 good s'.storage) ∧
      (s'.stopped = false → Stored sha r.2.1 s'.storage ∧ r.1.Mirrors s'.storage) := by
  obtain ⟨hst, hm⟩ := h.stored i hw
  rw [← hdisk] at hst hm
  refine finish_saved hst hm hy hrun fun c hcall => ⟨?_, (hc c hcall).2⟩
  rw [hdisk]
  exact h.storable hn (hs c hcall) (hc c hcall).1

theorem Kept.boot (h : Kept sha f) (hn : n ≤ 1001) {cfg : RaftConfig n} {now : Millis}
    (ha : f.allows sha (.boot i cfg now o)) (hs : f.step sha (.boot i cfg now o) = some f') :
    Kept sha f' := by
  simp only [step] at hs
  split at hs
  · rename_i hopen
    obtain ⟨group, hstep, rfl⟩ := Option.map_eq_some_iff.mp hs
    have hreach : World.Reachable _ group := h.reach.tail ⟨.boot i cfg now _, trivial, hstep⟩
    rcases World.step_cases hstep with ⟨k, cfg', now', o', d, heq, hm, hid, rfl⟩ |
      ⟨k, x, o', s, heq, -⟩ | ⟨k, s, heq, -⟩ <;> cases heq
    have hcall : f.saveOf (.boot i cfg now o) = (Raft.beforeStart cfg d now).saveCall := by
      simp [saveOf, hm]
    rw [allows, hcall] at ha
    obtain ⟨g, hg⟩ := rel_of_reachable validCommand_noop h.reach
    have hag := hg.machine i
    subst hid
    obtain ⟨g', hp⟩ := hg.prepared_start validCommand_noop hm now
    have hdisk : (Raft.beforeStart cfg d now).storage = (f.group.machine cfg.id).disk := by
      rw [hm] at hag ⊢
      rw [← hp.disk, hp.cfg]
      exact hag
    have hw : f.Writing cfg.id := by simpa [Writing, hm] using hopen
    have hfin := h.finish hn hw hdisk hp.tracks.toSynced hp.tracks.running
      (fun c hc => .inr ⟨d, cfg, now, hm, hopen, rfl, hc⟩) ha
    rw [hcall] at hreach ⊢
    refine h.put hreach rfl hfin.1 fun hw' => hfin.2 ?_
    simpa [Writing, FileWorld.put, World.setMachine, Raft.start_eq] using hw'
  · cases hs

theorem Kept.input (h : Kept sha f) (hn : n ≤ 1001) {x : Input n} (ha : f.allows sha (.input i x o))
    (hs : f.step sha (.input i x o) = some f') : Kept sha f' := by
  simp only [step] at hs
  obtain ⟨group, hstep, rfl⟩ := Option.map_eq_some_iff.mp hs
  have hreach : World.Reachable _ group :=
    h.reach.tail ⟨.input i x _, (by cases x <;> exact ha.1), hstep⟩
  rcases World.step_cases hstep with ⟨k, cfg, now, o', d, heq, -⟩ |
    ⟨k, x', o', s, heq, hm, hadm, hgroup⟩ | ⟨k, s, heq, -⟩ <;> cases heq
  have hmachine : group.machine = update f.group.machine i
      (.up (s.input x (saved sha (f.storage i) (f.file i) (f.saveOf (.input i x o)) o).2.2).1) := by
    rw [hgroup, World.record_machine]
    rfl
  have hcall : f.saveOf (.input i x o) = (s.beforeFinish x).bind Raft.saveCall := by
    simp [saveOf, hm]
  rw [hcall] at hmachine ⊢
  rw [allows, hcall] at ha
  obtain ⟨good, hrec⟩ := h.recovers i
  cases hb : s.beforeFinish x with
  | none =>
    -- nothing is saved
    obtain ⟨hst, hstop⟩ := (Raft.unfinished_of_beforeFinish hb .ok).storage
    simp only [hb, Option.bind_none, saved] at hmachine ⊢
    have hdisk : ((s.input x .ok).1).storage = (f.group.machine i).disk := by
      rw [hst, hm]
      rfl
    refine h.put hreach hmachine ⟨good, ?_⟩ fun hw => ?_
    · rw [Machine.disk, hdisk]
      exact hrec
    · rw [Machine.disk, hdisk]
      refine h.stored i ?_
      have hrun : (s.input x .ok).1.stopped = false := by
        simpa [Writing, FileWorld.put, hmachine] using hw
      rw [Writing, hm]
      by_contra hcon
      rw [hstop (by simpa using hcon)] at hrun
      cases hrun
  | some s₁ =>
    obtain ⟨g, hg⟩ := rel_of_reachable validCommand_noop h.reach
    have hag := hg.machine i
    obtain ⟨g', hp⟩ := hg.prepared validCommand_noop hm hadm ha.1 hb
    have hfinish := fun o => (Raft.input_of_beforeFinish hb o).1
    have hdisk : s₁.storage = (f.group.machine i).disk := by
      rw [hm] at hag ⊢
      rw [← hp.disk, hp.cfg, hag.1]
      exact hag.2.1
    have hw : f.Writing i := by
      rw [Writing, hm]
      exact (Raft.input_of_beforeFinish hb .ok).2
    rw [hb, Option.bind_some] at ha
    have hfin := h.finish hn hw hdisk hp.tracks.toSynced hp.tracks.running
      (fun c hc => .inl ⟨s, x, s₁, hm, hadm, ha.1, hb, hc⟩) ha.2
    simp only [hb, Option.bind_some, hfinish] at hmachine ⊢
    refine h.put hreach hmachine hfin.1 fun hw' => hfin.2 ?_
    simpa [Writing, FileWorld.put, hmachine] using hw'

theorem Kept.openLog (h : Kept sha f) {path : Str} {io : OpenCalls}
    (hs : f.step sha (.openLog i path io) = some f') : Kept sha f' := by
  simp only [step] at hs
  split at hs
  · rename_i d r hm hr
    split at hs
    · cases hs
    · cases hs
      obtain ⟨good, hrec⟩ := h.recovers i
      obtain ⟨hout, rfl, hmir⟩ := (hrec.openFile path io).1 r hr
      have hdown : Machine.down r.out = f.group.machine i := by rw [hout, hm]; rfl
      have hgroup : f.group.setMachine i (.down r.out) = f.group := by
        rw [hdown, World.setMachine, update_eq_self]
      rw [hgroup]
      obtain ⟨rest, -, hgood, -, -⟩ := hrec
      exact h.put h.reach (update_eq_self _ _).symm ⟨_, hgood.recovers⟩
        fun _ => ⟨hgood, hmir⟩
  · cases hs

theorem Kept.crash (h : Kept sha f) (hs : f.step sha (.crash i) = some f') : Kept sha f' := by
  have hrec := h.recovers i
  simp only [step] at hs
  cases hm : f.group.machine i with
  | up s =>
    rw [hm] at hs hrec
    cases hs
    refine h.put (m := .down s.storage) (h.reach.tail ⟨.crash i, trivial, ?_⟩) rfl hrec fun hw => ?_
    · simp [World.step, hm]
    · simp [Writing, FileWorld.put, World.setMachine] at hw
  | down d =>
    rw [hm] at hs
    cases hs
    refine h.put (m := f.group.machine i) h.reach (update_eq_self _ _).symm hrec fun hw => ?_
    simp [Writing, FileWorld.put, hm] at hw

/-- **Every run keeps the files in step with the model of the group.** -/
theorem kept_of_reachable (hn : n ≤ 1001) (h : Reachable sha f) : Kept sha f := by
  induction h with
  | refl => exact Kept.init
  | tail _ hst ih =>
    obtain ⟨e, ha, hs⟩ := hst
    cases e with
    | openLog i path io => exact ih.openLog hs
    | boot i cfg now o => exact ih.boot hn ha hs
    | input i x o => exact ih.input hn ha hs
    | crash i => exact ih.crash hs

end FileWorld

/-- **Recovery.**  At every moment of every run, opening the log file of a replica succeeds and
finds what is durable: the term, the vote and the log of a running replica; after a save that was
interrupted, what was durable before it and the first records of the save; and whatever else is in
the file is cut off. -/
theorem log_file_recovers (sha : Sha1) {n : ℕ} (hn : n ≤ 1001) {f : FileWorld n}
    (hf : FileWorld.Reachable sha f) (i : Fin n) (path : Str) (io : OpenCalls) (hio : io.Fine) :
    let d := (f.group.machine i).disk
    (∀ s, f.group.machine i = .up s → s.stopped = false →
      ∃ r, FileStorage.openFile sha path (f.file i) io = .ok r ∧
        r.out = ⟨s.term, s.votedFor, s.log⟩ ∧ r.file = f.file i) ∧
    (∀ c, f.Saves i c → c.Small → ∀ tail, (f.storage i).Leaves sha c tail →
      ∃ k r, k ≤ (d.recordsOf c).length ∧
        FileStorage.openFile sha path (f.file i ++ tail) io = .ok r ∧
        r.out = ((d.recordsOf c).take k).foldl Durable.replay d ∧
        r.file = f.file i ++ terminated (((d.recordsOf c).take k).map (recordLine sha))) ∧
    ∃ r, FileStorage.openFile sha path (f.file i) io = .ok r ∧ r.out = d ∧
      r.file <+: f.file i := by
  intro d
  have h := FileWorld.kept_of_reachable hn hf
  have hopen : ∀ {file good : Str} {d' : Durable}, Recovers sha file good d' →
      ∃ r, FileStorage.openFile sha path file io = .ok r ∧ r.out = d' ∧ r.file = good := by
    intro file good d' hrec
    obtain ⟨hr, hex⟩ := hrec.openFile path io
    obtain ⟨r, hok⟩ := hex hio
    exact ⟨r, hok, (hr r hok).1, (hr r hok).2.1⟩
  refine ⟨fun s hm hrun => ?_, fun c hs hsmall tail hl => ?_, ?_⟩
  · obtain ⟨g, hg⟩ := rel_of_reachable validCommand_noop h.reach
    have hlive := hg.live hm hrun
    have hst := (h.stored i (by rw [FileWorld.Writing, hm]; exact hrun)).1
    rw [hm, Machine.disk, Raft.Clean.storage_eq ⟨hlive.toSynced, hlive.saved⟩] at hst
    exact hopen hst.recovers
  · have hw : f.Writing i := by
      rw [FileWorld.Writing]
      rcases hs with ⟨s, x, s₁, hm, -, -, hb, -⟩ | ⟨d, cfg, now, hm, ho, -⟩
      · rw [hm]; exact (Raft.input_of_beforeFinish hb .ok).2
      · rw [hm]; exact ho
    obtain ⟨hst, hmir⟩ := h.stored i hw
    obtain ⟨hk, hrec⟩ := hst.torn hmir (h.storable hn hs hsmall) hl
    obtain ⟨r, hok, hout, hfile⟩ := hopen hrec
    exact ⟨_, r, hk, hok, hout, hfile⟩
  · obtain ⟨good, hrec⟩ := h.recovers i
    obtain ⟨r, hok, hout, hfile⟩ := hopen hrec
    obtain ⟨rest, hrest, -⟩ := hrec
    exact ⟨r, hok, hout, by rw [hfile, hrest]; exact List.prefix_append _ _⟩

/-- The digests of the records written below. -/
def recordDigests : Sha1 := .ofTable
  [("TERM 1 0".toList, "b982b1291464a0c3ecac5da39c036320f1c8a17a".toList),
    ("ENTRY 1 1 NOOP".toList, "28d9a80b6306d365de472929748644133b5e71b9".toList),
    ("ENTRY 2 1 REGISTER a.txt a9993e364706816aba3e25717850c26c9cd0d89d".toList,
      "efcbf02a6b9d5be624e9c3b06da1e8b0e6cd297f".toList)]

/-- A group of one whose replica has opened an empty log. -/
def soloOpened : FileWorld 1 :=
  ((FileWorld.init : FileWorld 1).step recordDigests (.openLog 0 "raft.log".toList {})).getD .init

/-- It starts, and leads at once. -/
def solo : FileWorld 1 :=
  (soloOpened.step recordDigests (.boot 0 { id := 0, spread := fun _ => 0 } 0 .ok)).getD soloOpened

theorem reachable_solo : FileWorld.Reachable recordDigests solo := by
  have hopen : FileWorld.Step recordDigests .init soloOpened :=
    ⟨.openLog 0 "raft.log".toList {}, trivial, FileWorld.step_getD _ (by decide +kernel)⟩
  have hsmall : ∀ c ∈ soloOpened.saveOf (.boot 0 { id := 0, spread := fun _ => 0 } 0 .ok),
      c.Small := by
    decide +kernel
  have hboot : FileWorld.Step recordDigests soloOpened solo :=
    ⟨.boot 0 { id := 0, spread := fun _ => 0 } 0 .ok, fun c hc => ⟨hsmall c hc, trivial⟩,
      FileWorld.step_getD _ (by decide +kernel)⟩
  exact .tail (.single hopen) hboot

/-- Its next save, of a registration, is interrupted after twelve bytes. -/
theorem log_file_recovers_solo :
    let c : SaveCall := ⟨1, 0, 2, [⟨1, NOOP⟩, ⟨1, registerCommand "a.txt".toList
      "a9993e364706816aba3e25717850c26c9cd0d89d".toList []⟩]⟩
    (∃ r, FileStorage.openFile recordDigests "raft.log".toList (solo.file 0) {} = .ok r ∧
      r.out = ⟨1, 0, [⟨1, NOOP⟩]⟩ ∧ r.file = solo.file 0) ∧
    ∃ k r, k ≤ 1 ∧ FileStorage.openFile recordDigests "raft.log".toList
        (solo.file 0 ++ "ENTRY 2 1 RE".toList) {} = .ok r ∧
      r.out = (((⟨1, 0, [⟨1, NOOP⟩]⟩ : Durable).recordsOf c).take k).foldl Durable.replay
        ⟨1, 0, [⟨1, NOOP⟩]⟩ := by
  intro c
  obtain ⟨s, hm, hs⟩ := Machine.exists_of_runs (m := solo.group.machine 0)
    (q := fun s => s.stopped = false ∧ s.storage = ⟨1, 0, [⟨1, NOOP⟩]⟩ ∧
      (⟨s.term, s.votedFor, s.log⟩ : Durable) = ⟨1, 0, [⟨1, NOOP⟩]⟩ ∧
      (s.beforeFinish (.propose (registerCommand "a.txt".toList
        "a9993e364706816aba3e25717850c26c9cd0d89d".toList []) 1)).bind Raft.saveCall = some c)
    (by decide +kernel)
  obtain ⟨hrun, hdisk, hmem, hcall⟩ := of_decide_eq_true hs
  obtain ⟨s₁, hb, hc⟩ := Option.bind_eq_some_iff.mp hcall
  have h := log_file_recovers recordDigests (by decide) reachable_solo 0 "raft.log".toList {}
    ⟨rfl, rfl, rfl⟩
  obtain ⟨hfirst, hsecond, -⟩ := h
  refine ⟨hmem ▸ hfirst s hm hrun, ?_⟩
  obtain ⟨k, r, hk, hok, hout, -⟩ := hsecond c
    (.inl ⟨s, .propose _ _, s₁, hm, trivial, by decide +kernel, hb, hc⟩)
    ⟨by decide, by decide, by decide⟩
    "ENTRY 2 1 RE".toList (by decide +kernel)
  rw [hm, Machine.disk, hdisk] at hk hout
  exact ⟨k, r, hk, hok, hout⟩

end ChordFs
