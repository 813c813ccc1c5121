import ChordFs.Lib.Runs
import ChordFs.Store

/-! # Calls of the store, step by step

The operations of `Store.lean` as they run next to each other: one step of a call is one system call
or one critical section, and between two steps anything else may happen.  `store_drop` deletes its
file while it holds the lock, so its section is several steps; the lock is the field `holder`, and
a section of another call waits for it.

The process can be killed at every step, the power can fail at any moment, and a new process opens
the directory again; what callers have been told stays told.

`Drafts` is what holds of the writes in progress through all of this: each has a temporary file
of its own, with the bytes written so far, flushed before it is renamed. -/

namespace ChordFs

/-! ### Calls -/

inductive StoreRequest where
  | put (key body : Str)
  | remove (key : Str)
  | drop (grace : ℤ) (key : Str)
deriving DecidableEq

/-- Where a `store_put` stands: what it does next. -/
inductive PutPos where
  | check
  | draw
  | create (n : ℕ)
  | write (n done : ℕ)
  | flush (n : ℕ)
  | close (n : ℕ)
  | rename (n : ℕ)
  | flushDir
  | insert
  | discard (n : ℕ)
  | returned (r : PutResult)
deriving DecidableEq

inductive RemovePos where
  | stat
  | erase (size : ℕ)
  | unlink
  | flushDir (ok : Bool)
  | returned (ok : Bool)
deriving DecidableEq

/-- Where a `store_drop` stands; from `stat` to `unlink` it holds the lock. -/
inductive DropPos where
  | enter
  | stat
  | erase (size : ℕ)
  | unlink (size : ℕ)
  | returned (r : DropResult) (size : ℕ)
deriving DecidableEq

inductive StoreCall where
  | put (key body : Str) (pos : PutPos)
  | remove (key : Str) (pos : RemovePos)
  | drop (grace : ℤ) (key : Str) (pos : DropPos)
deriving DecidableEq

/-- What the environment decides about a step: whether its system call succeeds, how many bytes a
write takes, and what the clock shows. -/
structure Tick where
  ok : Bool
  taken : ℕ
  now : ℤ

/-- A call as it begins; what it refuses, it refuses at once. -/
def StoreRequest.begin (sha : Sha1) : StoreRequest → StoreCall
  | .put key body =>
    match putRefusal sha key body with
    | some r => .put key body (.returned r)
    | none => .put key body .check
  | .remove key => .remove key (if validKey key then .stat else .returned false)
  | .drop grace key => .drop grace key (if validKey key then .enter else .returned .badKey 0)

/-- `write`: the bytes are appended to the file. -/
def Disk.appendTmp (d : Disk) (name bytes : Str) : Disk :=
  match d.tmp.find? name with
  | some f => d.setTmp name ⟨f.data ++ bytes, false⟩
  | none => d

/-- `fsync` of a temporary file. -/
def Disk.flushTmp (d : Disk) (name : Str) : Disk :=
  match d.tmp.find? name with
  | some f => d.setTmp name ⟨f.data, true⟩
  | none => d

/-- The next step of a `store_put`. -/
def PutPos.step (t : Tick) (key body : Str) (s : ChunkStore) (d : Disk) :
    PutPos → Option (PutPos × ChunkStore × Disk)
  | .check =>
    if key ∈ s.keys then some (.returned .alreadyHeld, s.renew key t.now, d) else some (.draw, s, d)
  | .draw => some (.create s.nextTmp, s.draw, d)
  | .create n =>
    if ¬ t.ok ∨ (d.tmp.find? (Disk.tmpName key n)).isSome then some (.returned .ioError, s, d)
    else some (if body = [] then .flush n else .write n 0, s, d.setTmp (Disk.tmpName key n) ⟨[], false⟩)
  | .write n done =>
    if ¬ t.ok then some (.discard n, s, d)
    else
      -- a write takes at least one byte, and may take fewer than it was given
      let bytes := (body.drop done).take (max t.taken 1)
      some (if done + bytes.length = body.length then .flush n else .write n (done + bytes.length), s,
        d.appendTmp (Disk.tmpName key n) bytes)
  | .flush n =>
    if ¬ t.ok then some (.discard n, s, d) else some (.close n, s, d.flushTmp (Disk.tmpName key n))
  | .close n => some (if t.ok then .rename n else .discard n, s, d)
  | .rename n =>
    match d.tmp.find? (Disk.tmpName key n) with
    | some f =>
      if ¬ t.ok then some (.discard n, s, d)
      else some (.flushDir, s, d.commit (Disk.tmpName key n) key f)
    | none => some (.discard n, s, d)
  | .flushDir => if ¬ t.ok then some (.returned .ioError, s, d) else some (.insert, s, d.flushDir key)
  | .insert => some (.returned .stored, s.add key body.length t.now, d)
  | .discard n => some (.returned .ioError, s, if t.ok then d.unlinkTmp (Disk.tmpName key n) else d)
  | .returned _ => none

def RemovePos.step (t : Tick) (key : Str) (s : ChunkStore) (d : Disk) :
    RemovePos → Option (RemovePos × ChunkStore × Disk)
  | .stat => some (.erase (if t.ok then d.size key else 0), s, d)
  | .erase size => some (.unlink, s.forget key size, d)
  | .unlink => some (.flushDir t.ok, s, if t.ok then d.unlink key else d)
  | .flushDir ok => some (.returned ok, s, if t.ok then d.flushDir key else d)
  | .returned _ => none

def DropPos.step (t : Tick) (grace : ℤ) (key : Str) (s : ChunkStore) (d : Disk) :
    DropPos → Option (DropPos × ChunkStore × Disk)
  | .enter =>
    if key ∉ s.keys then some (.returned .notHeld 0, s, d)
    else if t.now - s.written key < grace then some (.returned .tooYoung 0, s, d)
    else some (.stat, s, d)
  | .stat => some (.erase (if t.ok then d.size key else 0), s, d)
  | .erase size => some (.unlink size, s.drop key size, d)
  | .unlink size => some (.returned .dropped size, s, if t.ok then d.unlink key else d)
  | .returned _ _ => none

namespace StoreCall

def step (t : Tick) (s : ChunkStore) (d : Disk) : StoreCall → Option (StoreCall × ChunkStore × Disk)
  | .put key body pos => (pos.step t key body s d).map fun o => (.put key body o.1, o.2)
  | .remove key pos => (pos.step t key s d).map fun o => (.remove key o.1, o.2)
  | .drop grace key pos => (pos.step t grace key s d).map fun o => (.drop grace key o.1, o.2)

/-- The next step takes the lock. -/
def locks : StoreCall → Bool
  | .put _ _ .check => true
  | .put _ _ .insert => true
  | .remove _ (.erase _) => true
  | .drop _ _ .enter => true
  | _ => false

/-- The call holds the lock. -/
def holds : StoreCall → Bool
  | .drop _ _ .stat => true
  | .drop _ _ (.erase _) => true
  | .drop _ _ (.unlink _) => true
  | _ => false

def isReturned : StoreCall → Bool
  | .put _ _ (.returned _) => true
  | .remove _ (.returned _) => true
  | .drop _ _ (.returned _ _) => true
  | _ => false

/-- What the caller of a `store_put` is told. -/
def answer : StoreCall → List (Str × PutResult)
  | .put key _ (.returned r) => [(key, r)]
  | _ => []

end StoreCall

/-! ### The machine -/

/-- A directory, the process that has it open, if any, and its calls. -/
structure StoreMachine where
  store : Option ChunkStore
  disk : Disk
  calls : List StoreCall
  /-- The call that holds the lock over several steps. -/
  holder : Option ℕ
  /-- What callers of `store_put` have been told. -/
  told : List (Str × PutResult)

inductive StoreEvent where
  | call (request : StoreRequest)
  | run (i : ℕ) (t : Tick)
  | kill
  /-- A `store_open` deletes a temporary file and is killed before it is done. -/
  | sweep (name : Str)
  /-- Power fails: some names fall back, files that were not flushed hold anything, and of the
  temporary files anything may be left. -/
  | cut (lost : List Str) (noise : Str → Str) (left : SortedMap Str (File Str))
  | reopen (now : ℤ)

namespace StoreMachine

variable (sha : Sha1)

def step? (m : StoreMachine) : StoreEvent → Option StoreMachine
  | .call request =>
    m.store.map fun _ => { m with
      calls := m.calls ++ [request.begin sha]
      told := (request.begin sha).answer ++ m.told }
  | .run i t =>
    match m.store, m.calls[i]? with
    | some s, some c =>
      if c.locks ∧ m.holder.isSome then none
      else
        (c.step t s m.disk).map fun o => {
          store := some o.2.1
          disk := o.2.2
          calls := m.calls.set i o.1
          holder := if o.1.holds then some i else if c.holds then none else m.holder
          told := o.1.answer ++ m.told }
    | _, _ => none
  | .kill => m.store.map fun _ => { m with store := none, calls := [], holder := none }
  | .sweep name => if m.store.isNone then some { m with disk := m.disk.unlinkTmp name } else none
  | .cut lost noise left =>
    some { m with store := none, disk := ⟨m.disk.chunks.cut lost noise, left⟩, calls := [], holder := none }
  | .reopen now =>
    if m.store.isNone then
      let out := storeOpen now m.disk
      some { m with store := some out.2.1, disk := out.2.2 }
    else none

def exec (m : StoreMachine) (events : List StoreEvent) : Option StoreMachine :=
  Runs.exec (step? sha) m events

end StoreMachine

/-- A call takes so many steps, all of which succeed. -/
def stepsOf (i n : ℕ) : List StoreEvent := List.replicate n (.run i ⟨true, 0, 0⟩)

/-! ### Everything a step can do -/

/-- The temporary file of a `store_put`, while it may have one. -/
def PutPos.draft : PutPos → Option ℕ
  | .create n => some n
  | .write n _ => some n
  | .flush n => some n
  | .close n => some n
  | .rename n => some n
  | .discard n => some n
  | _ => none

/-- The steps of a `store_put`. -/
inductive PutMove (t : Tick) (key body : Str) (s : ChunkStore) (d : Disk) :
    PutPos → PutPos → ChunkStore → Disk → Prop
  | held : key ∈ s.keys →
      PutMove t key body s d .check (.returned .alreadyHeld) (s.renew key t.now) d
  | absent : key ∉ s.keys → PutMove t key body s d .check .draw s d
  | draw : PutMove t key body s d .draw (.create s.nextTmp) s.draw d
  | create (n : ℕ) : PutMove t key body s d (.create n) (if body = [] then .flush n else .write n 0) s
      (d.setTmp (Disk.tmpName key n) ⟨[], false⟩)
  | write (n done : ℕ) (bytes : Str) : bytes = (body.drop done).take (max t.taken 1) →
      PutMove t key body s d (.write n done)
        (if done + bytes.length = body.length then .flush n else .write n (done + bytes.length)) s
        (d.appendTmp (Disk.tmpName key n) bytes)
  | flush (n : ℕ) : PutMove t key body s d (.flush n) (.close n) s (d.flushTmp (Disk.tmpName key n))
  | close (n : ℕ) : PutMove t key body s d (.close n) (.rename n) s d
  | rename (n : ℕ) (f : File Str) : d.tmp.find? (Disk.tmpName key n) = some f →
      PutMove t key body s d (.rename n) .flushDir s (d.commit (Disk.tmpName key n) key f)
  | flushDir : PutMove t key body s d .flushDir .insert s (d.flushDir key)
  | insert : PutMove t key body s d .insert (.returned .stored) (s.add key body.length t.now) d
  /-- A system call failed; there may be a temporary file to delete. -/
  | fail (pos pos' : PutPos) : t.ok = false ∨ pos.draft.isSome = true →
      (∀ r, pos ≠ .returned r) → pos' = .returned .ioError ∨ (∃ n, pos.draft = some n ∧ pos' = .discard n) →
      PutMove t key body s d pos pos' s d
  | discard (n : ℕ) :
      PutMove t key body s d (.discard n) (.returned .ioError) s (d.unlinkTmp (Disk.tmpName key n))

/-- What a step of a `store_remove` or a `store_drop` does to the index and the disk. -/
inductive ClearMove (key : Str) (s : ChunkStore) (d : Disk) : ChunkStore → Disk → Prop
  | still : ClearMove key s d s d
  | forget (size : ℕ) : ClearMove key s d (s.forget key size) d
  | drop (size : ℕ) : ClearMove key s d (s.drop key size) d
  | unlink : ClearMove key s d s (d.unlink key)
  | flushDir : ClearMove key s d s (d.flushDir key)

/-- The calls' steps, each at its own position. -/
inductive CallMove (t : Tick) (s : ChunkStore) (d : Disk) (s' : ChunkStore) (d' : Disk) :
    StoreCall → StoreCall → Prop
  | put (key body : Str) (pos pos' : PutPos) : pos.step t key body s d = some (pos', s', d') →
      CallMove t s d s' d' (.put key body pos) (.put key body pos')
  | remove (key : Str) (pos pos' : RemovePos) : pos.step t key s d = some (pos', s', d') →
      CallMove t s d s' d' (.remove key pos) (.remove key pos')
  | drop (grace : ℤ) (key : Str) (pos pos' : DropPos) :
      pos.step t grace key s d = some (pos', s', d') →
      CallMove t s d s' d' (.drop grace key pos) (.drop grace key pos')

section moves
variable {sha : Sha1} {t : Tick} {key body : Str} {s s' : ChunkStore} {d d' : Disk}

theorem PutPos.moves {pos pos' : PutPos} (h : pos.step t key body s d = some (pos', s', d')) :
    PutMove t key body s d pos pos' s' d' := by
  have hfail : ∀ n, pos.draft = some n → (∀ r, pos ≠ .returned r) →
      PutMove t key body s d pos (.discard n) s d := fun n hn hr =>
    .fail pos _ (.inr (by rw [hn]; rfl)) hr (.inr ⟨n, hn, rfl⟩)
  cases pos with
  | check =>
    simp only [PutPos.step] at h
    split at h
    · cases h
      exact .held ‹_›
    · cases h
      exact .absent ‹_›
  | draw =>
    cases h
    exact .draw
  | create n =>
    simp only [PutPos.step] at h
    split at h
    · cases h
      exact .fail _ _ (.inr rfl) nofun (.inl rfl)
    · cases h
      exact .create n
  | write n done =>
    simp only [PutPos.step] at h
    split at h
    · cases h
      exact hfail n rfl nofun
    · cases h
      exact .write n done _ rfl
  | flush n =>
    simp only [PutPos.step] at h
    split at h
    · cases h
      exact hfail n rfl nofun
    · cases h
      exact .flush n
  | close n =>
    simp only [PutPos.step] at h
    split at h
    · cases h
      exact .close n
    · cases h
      exact hfail n rfl nofun
  | rename n =>
    simp only [PutPos.step] at h
    split at h
    · split at h
      · cases h
        exact hfail n rfl nofun
      · cases h
        exact .rename n _ ‹_›
    · cases h
      exact hfail n rfl nofun
  | flushDir =>
    simp only [PutPos.step] at h
    split at h
    · rename_i hok
      cases h
      exact .fail _ _ (.inl (by simpa using hok)) nofun (.inl rfl)
    · cases h
      exact .flushDir
  | insert =>
    cases h
    exact .insert
  | discard n =>
    simp only [PutPos.step] at h
    split at h
    · cases h
      exact .discard n
    · cases h
      exact .fail _ _ (.inr rfl) nofun (.inl rfl)
  | returned r => cases h

theorem RemovePos.moves {pos pos' : RemovePos} (h : pos.step t key s d = some (pos', s', d')) :
    ClearMove key s d s' d' := by
  cases pos with
  | stat =>
    cases h
    exact .still
  | erase size =>
    cases h
    exact .forget size
  | unlink =>
    cases h
    split
    · exact .unlink
    · exact .still
  | flushDir ok =>
    cases h
    split
    · exact .flushDir
    · exact .still
  | returned ok => cases h

theorem DropPos.moves {grace : ℤ} {pos pos' : DropPos}
    (h : pos.step t grace key s d = some (pos', s', d')) : ClearMove key s d s' d' := by
  cases pos with
  | enter =>
    simp only [DropPos.step] at h
    split at h
    · cases h
      exact .still
    split at h
    · cases h
      exact .still
    · cases h
      exact .still
  | stat =>
    cases h
    exact .still
  | erase size =>
    cases h
    exact .drop size
  | unlink size =>
    cases h
    split
    · exact .unlink
    · exact .still
  | returned r size => cases h

theorem ClearMove.tmp (h : ClearMove key s d s' d') : d'.tmp = d.tmp ∧ s'.nextTmp = s.nextTmp := by
  cases h with
  | forget size =>
    refine ⟨rfl, ?_⟩
    unfold ChunkStore.forget
    split <;> rfl
  | _ => exact ⟨rfl, rfl⟩

theorem StoreMachine.run_cases {m m' : StoreMachine} {i : ℕ}
    (h : m.step? sha (.run i t) = some m') : ∃ s c c' s' d', m.store = some s ∧ m.calls[i]? = some c ∧
      (c.locks = true → m.holder = none) ∧ CallMove t s m.disk s' d' c c' ∧
      m' = ⟨some s', d', m.calls.set i c',
        if c'.holds then some i else if c.holds then none else m.holder, c'.answer ++ m.told⟩ := by
  simp only [StoreMachine.step?] at h
  split at h
  · rename_i s c hs hc
    split at h
    · cases h
    · rename_i hlock
      obtain ⟨⟨c', s', d'⟩, hstep, rfl⟩ := Option.map_eq_some_iff.mp h
      refine ⟨s, c, c', s', d', hs, hc, fun hl => by simpa [hl] using hlock, ?_, rfl⟩
      cases c <;> obtain ⟨⟨pos', o⟩, hpos, ⟨⟩⟩ := Option.map_eq_some_iff.mp hstep
      · exact .put _ _ _ _ hpos
      · exact .remove _ _ _ hpos
      · exact .drop _ _ _ _ hpos
  · cases h

end moves

/-! ### Writes in progress -/

/-- What the temporary file of a `store_put` holds. -/
def PutPos.Drafted (key body : Str) (tmp : SortedMap Str (File Str)) : PutPos → Prop
  | .write n done => done ≤ body.length ∧
      ∃ f, tmp.find? (Disk.tmpName key n) = some f ∧ f.data = body.take done
  | .flush n => ∃ f, tmp.find? (Disk.tmpName key n) = some f ∧ f.data = body
  | .close n => tmp.find? (Disk.tmpName key n) = some ⟨body, true⟩
  | .rename n => tmp.find? (Disk.tmpName key n) = some ⟨body, true⟩
  | _ => True

/-- Every write in progress has a temporary file of its own, with what it has written so far. -/
structure Drafts (sha : Sha1) (m : StoreMachine) : Prop where
  closed : m.store = none → m.calls = []
  puts : ∀ (i : ℕ) key body pos, m.calls[i]? = some (StoreCall.put key body pos) →
    (∃ r, pos = .returned r) ∨ putRefusal sha key body = none ∧ pos.Drafted key body m.disk.tmp
  fresh : ∀ (i : ℕ) key body pos n s, m.calls[i]? = some (StoreCall.put key body pos) → pos.draft = some n →
    m.store = some s → n < s.nextTmp
  apart : ∀ (i j : ℕ) key body pos key' body' pos' n, m.calls[i]? = some (StoreCall.put key body pos) →
    m.calls[j]? = some (StoreCall.put key' body' pos') → pos.draft = some n → pos'.draft = some n → i = j

section drafts
variable {sha : Sha1} {t : Tick} {key body key' : Str} {s s' : ChunkStore} {d d' : Disk}
  {m m' : StoreMachine} {pos pos' : PutPos}

variable {i : ℕ} {c' : StoreCall} {holder : Option ℕ} {told : List (Str × PutResult)}

theorem tmpName_injective {n n' : ℕ} (hk : validKey key = true) (hk' : validKey key' = true)
    (h : Disk.tmpName key n = Disk.tmpName key' n') : n = n' := by
  have hlen : key.length = key'.length := by
    simp only [validKey, decide_eq_true_eq] at hk hk'
    rw [hk.1, hk'.1]
  have htail := (List.append_inj h hlen).2
  exact num_injective (List.cons.inj htail).2

theorem PutPos.Drafted.of_find? {tmp tmp' : SortedMap Str (File Str)} (h : pos.Drafted key body tmp)
    (hsame : ∀ n, pos.draft = some n →
      tmp'.find? (Disk.tmpName key n) = tmp.find? (Disk.tmpName key n)) : pos.Drafted key body tmp' := by
  cases pos with
  | write n done =>
    rw [PutPos.Drafted, hsame n rfl]
    exact h
  | flush n =>
    rw [PutPos.Drafted, hsame n rfl]
    exact h
  | close n =>
    rw [PutPos.Drafted, hsame n rfl]
    exact h
  | rename n =>
    rw [PutPos.Drafted, hsame n rfl]
    exact h
  | _ => trivial

section
variable (h : PutMove t key body s d pos pos' s' d')
include h

theorem PutMove.tmp {name : Str} (hname : ∀ n, pos.draft = some n → name ≠ Disk.tmpName key n) :
    d'.tmp.find? name = d.tmp.find? name := by
  cases h with
  | create n => exact SortedMap.find?_set.trans (if_neg (hname n rfl))
  | write n done bytes hbytes =>
    unfold Disk.appendTmp
    split
    · exact SortedMap.find?_set.trans (if_neg (hname n rfl))
    · rfl
  | flush n =>
    unfold Disk.flushTmp
    split
    · exact SortedMap.find?_set.trans (if_neg (hname n rfl))
    · rfl
  | rename n f hf => exact SortedMap.find?_erase.trans (if_neg (hname n rfl))
  | discard n => exact SortedMap.find?_erase.trans (if_neg (hname n rfl))
  | _ => rfl

/-- **A step of a write keeps its file right.** -/
theorem PutMove.drafted (hd : pos.Drafted key body d.tmp) : pos'.Drafted key body d'.tmp := by
  cases h with
  | create n =>
    have hfind : (d.setTmp (Disk.tmpName key n) ⟨[], false⟩).tmp.find? (Disk.tmpName key n) =
      some ⟨[], false⟩ := SortedMap.find?_set.trans (if_pos rfl)
    split
    · rename_i hbody
      exact ⟨_, hfind, hbody.symm⟩
    · exact ⟨Nat.zero_le _, _, hfind, rfl⟩
  | write n done bytes hbytes =>
    obtain ⟨hdone, f, hf, hdata⟩ := hd
    have hfind : (d.appendTmp (Disk.tmpName key n) bytes).tmp.find? (Disk.tmpName key n) =
        some ⟨f.data ++ bytes, false⟩ := by
      rw [Disk.appendTmp, hf]
      exact SortedMap.find?_set.trans (if_pos rfl)
    have hlen : bytes.length ≤ body.length - done := by
      rw [hbytes, List.length_take, List.length_drop]
      omega
    have htake : f.data ++ bytes = body.take (done + bytes.length) := by
      rw [hdata, List.take_add]
      congr 1
      rw [hbytes, List.length_take, List.take_eq_take_iff]
      omega
    split
    · rename_i hall
      exact ⟨_, hfind, by rw [htake, hall, List.take_length]⟩
    · exact ⟨by omega, _, hfind, htake⟩
  | flush n =>
    obtain ⟨f, hf, hdata⟩ := hd
    rw [PutPos.Drafted, Disk.flushTmp, hf]
    exact SortedMap.find?_set.trans ((if_pos rfl).trans (by rw [hdata]))
  | close n => exact hd
  | fail _ _ _ _ hpos =>
    rcases hpos with rfl | ⟨n, -, rfl⟩
    · trivial
    · trivial
  | _ => trivial

theorem PutMove.draft {n : ℕ} (hn : pos'.draft = some n) :
    n < s'.nextTmp ∧ pos.draft = none ∧ n = s.nextTmp ∨ pos.draft = some n := by
  cases h with
  | draw =>
    cases hn
    exact .inl ⟨Nat.lt_succ_self _, rfl, rfl⟩
  | create k =>
    right
    split at hn <;> exact hn
  | write k done bytes hbytes =>
    right
    split at hn <;> exact hn
  | flush k => exact .inr hn
  | close k => exact .inr hn
  | fail _ _ _ _ hpos =>
    rcases hpos with rfl | ⟨k, hk, rfl⟩
    · cases hn
    · exact .inr (hk.trans hn)
  | held _ => cases hn
  | absent _ => cases hn
  | rename _ _ _ => cases hn
  | flushDir => cases hn
  | insert => cases hn
  | discard _ => cases hn

theorem PutMove.nextTmp_le : s.nextTmp ≤ s'.nextTmp := by
  cases h with
  | draw => exact Nat.le_succ _
  | _ => exact le_rfl

end

theorem getElem?_set_cases {calls : List StoreCall} {j : ℕ} {c : StoreCall}
    (h : (calls.set i c')[j]? = some c) : j = i ∧ c = c' ∨ j ≠ i ∧ calls[j]? = some c := by
  by_cases hj : j = i
  · subst hj
    rw [List.getElem?_set_self' ] at h
    obtain ⟨_, -, rfl⟩ := Option.map_eq_some_iff.mp h
    exact .inl ⟨rfl, rfl⟩
  · rw [List.getElem?_set_ne (Ne.symm hj)] at h
    exact .inr ⟨hj, h⟩

theorem drafts_nil (hcalls : m.calls = []) : Drafts sha m where
  closed _ := hcalls
  puts _ _ _ _ h := by rw [hcalls] at h; cases h
  fresh _ _ _ _ _ _ h := by rw [hcalls] at h; cases h
  apart _ _ _ _ _ _ _ _ _ h := by rw [hcalls] at h; cases h

theorem Drafts.other (h : Drafts sha m) (hs : m.store = some s)
    (hput : ∀ key body pos, c' ≠ .put key body pos) (htmp : d'.tmp = m.disk.tmp)
    (hnext : s'.nextTmp = s.nextTmp) : Drafts sha ⟨some s', d', m.calls.set i c', holder, told⟩ where
  closed h := by cases h
  puts j key body pos hj := by
    rcases getElem?_set_cases hj with ⟨-, he⟩ | ⟨-, hj⟩
    · exact absurd he.symm (hput _ _ _)
    · rw [htmp]
      exact h.puts j key body pos hj
  fresh j key body pos n s₁ hj hn hs₁ := by
    rcases getElem?_set_cases hj with ⟨-, he⟩ | ⟨-, hj⟩
    · exact absurd he.symm (hput _ _ _)
    · cases hs₁
      rw [hnext]
      exact h.fresh j key body pos n s hj hn hs
  apart j k key body pos key' body' pos' n hj hk := by
    rcases getElem?_set_cases hj with ⟨-, he⟩ | ⟨-, hj⟩
    · exact absurd he.symm (hput _ _ _)
    rcases getElem?_set_cases hk with ⟨-, he⟩ | ⟨-, hk⟩
    · exact absurd he.symm (hput _ _ _)
    · exact h.apart j k key body pos key' body' pos' n hj hk

theorem Drafts.put (h : Drafts sha m) (hs : m.store = some s) (hc : m.calls[i]? = some (.put key body pos))
    (hm : PutMove t key body s m.disk pos pos' s' d') :
    Drafts sha ⟨some s', d', m.calls.set i (.put key body pos'), holder, told⟩ := by
  have hrunning : putRefusal sha key body = none ∧ pos.Drafted key body m.disk.tmp := by
    rcases h.puts i key body pos hc with ⟨r, rfl⟩ | hp
    · cases hm with
      | fail _ _ _ hr => exact absurd rfl (hr r)
    · exact hp
  have hvalid := (putRefusal_none hrunning.1).1
  -- a number that another write uses is not that of this one
  have hother : ∀ j key₁ body₁ pos₁ n, j ≠ i → m.calls[j]? = some (.put key₁ body₁ pos₁) →
      pos₁.draft = some n → pos'.draft ≠ some n := by
    intro j key₁ body₁ pos₁ n hj hcj hn hn'
    rcases hm.draft hn' with ⟨-, -, rfl⟩ | hold
    · exact absurd (h.fresh j key₁ body₁ pos₁ _ s hcj hn hs) (Nat.lt_irrefl _)
    · exact hj (h.apart j i key₁ body₁ pos₁ key body pos n hcj hc hn hold)
  constructor
  · intro hnone
    cases hnone
  · intro j key₁ body₁ pos₁ hj
    rcases getElem?_set_cases hj with ⟨-, he⟩ | ⟨hji, hj⟩
    · cases he
      exact .inr ⟨hrunning.1, hm.drafted hrunning.2⟩
    · rcases h.puts j key₁ body₁ pos₁ hj with hr | ⟨hvalid₁, hdrafted⟩
      · exact .inl hr
      · refine .inr ⟨hvalid₁, hdrafted.of_find? fun n hn => hm.tmp fun n' hn' he => ?_⟩
        have := tmpName_injective (putRefusal_none hvalid₁).1 hvalid he
        subst this
        exact hji (h.apart j i key₁ body₁ pos₁ key body pos n hj hc hn hn')
  · intro j key₁ body₁ pos₁ n s₁ hj hn hs₁
    cases hs₁
    rcases getElem?_set_cases hj with ⟨-, he⟩ | ⟨-, hj⟩
    · cases he
      rcases hm.draft hn with ⟨hlt, -⟩ | hold
      · exact hlt
      · exact Nat.lt_of_lt_of_le (h.fresh i key body pos n s hc hold hs) hm.nextTmp_le
    · exact Nat.lt_of_lt_of_le (h.fresh j key₁ body₁ pos₁ n s hj hn hs) hm.nextTmp_le
  · intro j k key₁ body₁ pos₁ key₂ body₂ pos₂ n hj hk hn hn'
    rcases getElem?_set_cases hj with ⟨hji, he⟩ | ⟨hji, hj⟩
    · cases he
      rcases getElem?_set_cases hk with ⟨hki, he⟩ | ⟨hki, hk⟩
      · rw [hji, hki]
      · exact absurd hn (hother k key₂ body₂ pos₂ n hki hk hn')
    · rcases getElem?_set_cases hk with ⟨hki, he⟩ | ⟨hki, hk⟩
      · cases he
        exact absurd hn' (hother j key₁ body₁ pos₁ n hji hj hn)
      · exact h.apart j k key₁ body₁ pos₁ key₂ body₂ pos₂ n hj hk hn hn'

theorem begin_put {request : StoreRequest} (h : request.begin sha = .put key body pos) :
    (∃ r, pos = .returned r) ∨ putRefusal sha key body = none ∧ pos = .check := by
  cases request with
  | put key₁ body₁ =>
    rw [StoreRequest.begin] at h
    cases hr : putRefusal sha key₁ body₁ with
    | some r =>
      rw [hr] at h
      cases h
      exact .inl ⟨r, rfl⟩
    | none =>
      rw [hr] at h
      cases h
      exact .inr ⟨hr, rfl⟩
  | remove key => cases h
  | drop grace key => cases h

/-- **Whatever happens, the writes in progress keep their files.** -/
theorem Drafts.step (h : Drafts sha m) {e : StoreEvent} (hs : m.step? sha e = some m') :
    Drafts sha m' := by
  cases e with
  | call request =>
    obtain ⟨s, hstore, rfl⟩ := Option.map_eq_some_iff.mp hs
    have hnew : ∀ {j : ℕ} {c : StoreCall}, (m.calls ++ [request.begin sha])[j]? = some c →
        m.calls[j]? = some c ∨ c = request.begin sha := by
      intro j c hj
      rw [List.getElem?_append] at hj
      split at hj
      · exact .inl hj
      · exact .inr (List.mem_singleton.mp (List.mem_of_getElem? hj))
    have hdraft : ∀ {key body : Str} {pos : PutPos}, request.begin sha = .put key body pos →
        pos.draft = none := by
      intro key body pos hb
      rcases begin_put hb with ⟨r, rfl⟩ | ⟨-, rfl⟩ <;> rfl
    constructor
    · intro hnone
      rw [hstore] at hnone
      cases hnone
    · intro j key body pos hj
      rcases hnew hj with hj | hb
      · exact h.puts j key body pos hj
      · rcases begin_put hb.symm with hr | ⟨hvalid, rfl⟩
        · exact .inl hr
        · exact .inr ⟨hvalid, trivial⟩
    · intro j key body pos n s hj hn hs
      rcases hnew hj with hj | hb
      · exact h.fresh j key body pos n s hj hn hs
      · rw [hdraft hb.symm] at hn
        cases hn
    · intro j k key body pos key' body' pos' n hj hk hn hn'
      rcases hnew hj with hj | hb
      · rcases hnew hk with hk | hb
        · exact h.apart j k key body pos key' body' pos' n hj hk hn hn'
        · rw [hdraft hb.symm] at hn'
          cases hn'
      · rw [hdraft hb.symm] at hn
        cases hn
  | run i t =>
    obtain ⟨s, c, c', s', d', hstore, hc, -, hstep, rfl⟩ := StoreMachine.run_cases hs
    cases hstep with
    | put key body pos pos' hpos =>
      exact h.put hstore hc (PutPos.moves hpos)
    | remove key pos pos' hpos =>
      obtain ⟨htmp, hnext⟩ := (RemovePos.moves hpos).tmp
      exact h.other hstore nofun htmp hnext
    | drop grace key pos pos' hpos =>
      obtain ⟨htmp, hnext⟩ := (DropPos.moves hpos).tmp
      exact h.other hstore nofun htmp hnext
  | kill =>
    obtain ⟨s, hstore, rfl⟩ := Option.map_eq_some_iff.mp hs
    exact drafts_nil rfl
  | sweep name =>
    obtain ⟨hnone, ⟨⟩⟩ := Option.ite_none_right_eq_some.mp hs
    exact drafts_nil (h.closed (Option.isNone_iff_eq_none.mp hnone))
  | cut lost noise left =>
    cases hs
    exact drafts_nil rfl
  | reopen now =>
    obtain ⟨hnone, ⟨⟩⟩ := Option.ite_none_right_eq_some.mp hs
    exact drafts_nil (h.closed (Option.isNone_iff_eq_none.mp hnone))

end drafts

end ChordFs
