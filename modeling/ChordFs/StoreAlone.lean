import ChordFs.StoreMachine
import Mathlib.Algebra.Order.Ring.Int

/-! # An operation that runs alone

Taken step by step with nothing in between, and with every system call successful, a call of the
machine does what the operation of `Store.lean` does: the same answer, the same index and the same
disk.  Each step has a tick of its own, so each write takes as many bytes as it likes. -/

namespace ChordFs

/-- Whatever the environment decides about each step, if every system call succeeds and nothing else
happens, the first call of the machine comes to `Q`. -/
inductive ComesTo (sha : Sha1) (Q : StoreMachine → Prop) : StoreMachine → Prop
  | done {m : StoreMachine} : Q m → ComesTo sha Q m
  | step {m : StoreMachine} (next : Tick → StoreMachine) :
      (∀ t, t.ok = true → m.step? sha (.run 0 t) = some (next t)) →
      (∀ t, t.ok = true → ComesTo sha Q (next t)) → ComesTo sha Q m

/-- The machine with a single call. -/
def single (s : ChunkStore) (d : Disk) (c : StoreCall) (holder : Option ℕ)
    (told : List (Str × PutResult)) : StoreMachine := ⟨some s, d, [c], holder, told⟩

/-- The machine when the call has returned with `out`. -/
def returned {α : Type} (call : α → StoreCall) (told : α → List (Str × PutResult))
    (out : α × ChunkStore × Disk) :
    StoreMachine := single out.2.1 out.2.2 (call out.1) none (told out.1)

section alone
variable {sha : Sha1} {key body : Str} {s : ChunkStore} {d : Disk} {m : StoreMachine}
  {Q : StoreMachine → Prop} {holder : Option ℕ} {told : List (Str × PutResult)} {c : StoreCall}

theorem ComesTo.exec (h : ComesTo sha Q m) (ticks : ℕ → Tick) (hok : ∀ i, (ticks i).ok = true) :
    ∃ n m', m.exec sha ((List.range n).map fun i => .run 0 (ticks i)) = some m' ∧ Q m' := by
  induction h generalizing ticks with
  | done hq => exact ⟨0, _, rfl, hq⟩
  | step next hstep _ ih =>
    obtain ⟨n, m', hexec, hq⟩ := ih (ticks 0) (hok 0) (fun i => ticks (i + 1)) fun i => hok (i + 1)
    refine ⟨n + 1, m', ?_, hq⟩
    rw [List.range_succ_eq_map, List.map_cons, List.map_map]
    exact (congrArg (Option.bind · _) (hstep (ticks 0) (hok 0))).trans hexec

theorem Tick.forall_ok {P : Tick → Prop} (h : ∀ taken now, P ⟨true, taken, now⟩) (t : Tick)
    (ht : t.ok = true) : P t := by
  obtain ⟨ok, taken, now⟩ := t
  cases ht
  exact h taken now

/-- One step of the call, and the rest. -/
theorem ComesTo.call (next : Tick → StoreCall × ChunkStore × Disk)
    (hstep : ∀ t, t.ok = true → c.step t s d = some (next t))
    (hlock : c.locks = true → holder = none)
    (hrest : ∀ t, t.ok = true →
      ComesTo sha Q (single (next t).2.1 (next t).2.2 (next t).1 (if (next t).1.holds then some 0
        else if c.holds then none else holder) ((next t).1.answer ++ told))) :
    ComesTo sha Q (single s d c holder told) := by
  refine .step _ (fun t ht => ?_) hrest
  have hfree : ¬ (c.locks = true ∧ holder.isSome = true) := by
    rintro ⟨hl, hh⟩
    rw [hlock hl] at hh
    cases hh
  simp [StoreMachine.step?, single, hstep t ht, hfree]

theorem ComesTo.put {pos : PutPos} (next : Tick → PutPos × ChunkStore × Disk)
    (hstep : ∀ t, t.ok = true → pos.step t key body s d = some (next t))
    (hrest : ∀ t, t.ok = true →
      ComesTo sha Q (single (next t).2.1 (next t).2.2 (.put key body (next t).1) none
        ((StoreCall.put key body (next t).1).answer ++ told))) :
    ComesTo sha Q (single s d (.put key body pos) none told) :=
  .call (fun t => (.put key body (next t).1, (next t).2))
    (fun t ht => by rw [StoreCall.step, hstep t ht]; rfl) (fun _ => rfl) hrest

/-- A step that does the same whatever the tick, and the rest. -/
theorem ComesTo.fixed {c' : StoreCall} {s' : ChunkStore} {d' : Disk}
    (hstep : ∀ t, t.ok = true → c.step t s d = some (c', s', d'))
    (hlock : c.locks = true → holder = none)
    (hrest : ComesTo sha Q
      (single s' d' c' (if c'.holds then some 0 else if c.holds then none else holder)
        (c'.answer ++ told))) :
    ComesTo sha Q (single s d c holder told) :=
  .call (fun _ => (c', s', d')) hstep hlock fun _ _ => hrest

theorem ComesTo.putFixed {pos pos' : PutPos} {s' : ChunkStore} {d' : Disk}
    (hstep : ∀ t, t.ok = true → pos.step t key body s d = some (pos', s', d'))
    (hrest : ComesTo sha Q
      (single s' d' (.put key body pos') none ((StoreCall.put key body pos').answer ++ told))) :
    ComesTo sha Q (single s d (.put key body pos) none told) :=
  .put (fun _ => (pos', s', d')) hstep fun _ _ => hrest

/-- The temporary file with a part of the chunk. -/
def Disk.drafting (d : Disk) (key body : Str) (n done : ℕ) : Disk :=
  d.setTmp (Disk.tmpName key n) ⟨body.take done, false⟩

theorem Disk.find?_setTmp {name : Str} {f : File Str} : (d.setTmp name f).tmp.find? name = some f :=
  SortedMap.find?_set.trans (if_pos rfl)

theorem Disk.appendTmp_drafting {n done : ℕ} {bytes : Str}
    (hbytes : body.take done ++ bytes = body.take (done + bytes.length)) :
    (d.drafting key body n done).appendTmp (Disk.tmpName key n) bytes =
      d.drafting key body n (done + bytes.length) := by
  rw [Disk.appendTmp, Disk.drafting, Disk.find?_setTmp]
  simp [Disk.drafting, Disk.setTmp, SortedMap.set_set, hbytes]

/-- **The loop that writes**: whatever each write takes, the whole chunk is written in the end. -/
theorem ComesTo.writes {n done : ℕ} (hdone : done < body.length)
    (hrest : ComesTo sha Q
      (single s (d.drafting key body n body.length) (.put key body (.flush n)) none told)) :
    ComesTo sha Q (single s (d.drafting key body n done)
      (.put key body (.write n done)) none told) := by
  -- the bytes that are left become fewer
  induction hleft : body.length - done using Nat.strong_induction_on generalizing done with
  | _ left ih =>
    set bytes := fun t : Tick => (body.drop done).take (max t.taken 1) with hbytes
    have hlen : ∀ t, 0 < (bytes t).length ∧ (bytes t).length ≤ body.length - done := by
      intro t
      rw [hbytes, List.length_take, List.length_drop]
      omega
    have htake : ∀ t, body.take done ++ bytes t = body.take (done + (bytes t).length) := by
      intro t
      rw [List.take_add]
      congr 1
      rw [hbytes, List.length_take, List.take_eq_take_iff]
      omega
    refine .put (fun t => (if done + (bytes t).length = body.length then .flush n
      else .write n (done + (bytes t).length), s, d.drafting key body n (done + (bytes t).length)))
      (fun t ht => ?_) fun t _ => ?_
    · rw [PutPos.step, if_neg (not_not_intro ht)]
      dsimp only
      rw [Disk.appendTmp_drafting (htake t)]
    · have hmore := hlen t
      dsimp only
      split
      · rename_i hall
        rw [hall]
        exact hrest
      · exact ih _ (by omega) (by omega) rfl

/-- From a whole temporary file to the entry in the index. -/
theorem ComesTo.commits {n : ℕ}
    (hdone : ∀ now,
      Q (single (s.add key body.length now)
        (((d.setTmp (Disk.tmpName key n) ⟨body, true⟩).commit (Disk.tmpName key n) key
          ⟨body, true⟩).flushDir key) (.put key body (.returned .stored)) none
            ((key, .stored) :: told))) :
    ComesTo sha Q (single s (d.drafting key body n body.length)
      (.put key body (.flush n)) none told) := by
  have hflush : (d.drafting key body n body.length).flushTmp (Disk.tmpName key n) =
      d.setTmp (Disk.tmpName key n) ⟨body, true⟩ := by
    rw [Disk.flushTmp, Disk.drafting, Disk.find?_setTmp]
    simp [Disk.setTmp, SortedMap.set_set]
  have hclose : ∀ t : Tick, t.ok = true →
      (PutPos.flush n).step t key body s (d.drafting key body n body.length) =
      some (.close n, s, d.setTmp (Disk.tmpName key n) ⟨body, true⟩) := by
    intro t ht
    rw [PutPos.step, if_neg (not_not_intro ht), hflush]
  have hrename : ∀ t : Tick, t.ok = true →
      (PutPos.rename n).step t key body s (d.setTmp (Disk.tmpName key n) ⟨body, true⟩) =
        some (.flushDir, s, (d.setTmp (Disk.tmpName key n) ⟨body, true⟩).commit
          (Disk.tmpName key n) key ⟨body, true⟩) := by
    intro t ht
    rw [PutPos.step, Disk.find?_setTmp]
    exact if_neg (not_not_intro ht)
  refine .putFixed hclose (.putFixed (fun t ht => by rw [PutPos.step, if_pos ht])
    (.putFixed hrename ?_))
  refine .putFixed (fun t ht => if_neg (not_not_intro ht)) ?_
  exact .put (fun t => (.returned .stored, s.add key body.length t.now, _)) (fun _ _ => rfl)
    fun t _ => .done (hdone t.now)

/-- **A `store_put` that runs alone.** -/
theorem storePut_alone :
    ComesTo sha
      (fun m => ∃ now, m = returned (fun r => .put key body (.returned r))
        (fun r => (key, r) :: told)
        (storePut sha {} now key body s d))
      (single s d ((StoreRequest.put key body).begin sha) none
        (((StoreRequest.put key body).begin sha).answer ++ told)) := by
  simp only [returned, storePut, StoreRequest.begin]
  cases putRefusal sha key body with
  | some r => exact .done ⟨0, rfl⟩
  | none =>
    by_cases hin : key ∈ s.keys
    · simp only [hin]
      exact .put (fun t => (.returned .alreadyHeld, s.renew key t.now, d)) (fun _ _ => if_pos hin)
        fun t _ =>
        .done ⟨t.now, rfl⟩
    simp only [hin]
    refine .putFixed (fun _ _ => if_neg hin) (.putFixed (fun _ _ => rfl) ?_)
    by_cases htaken : (d.tmp.find? (Disk.tmpName key s.nextTmp)).isSome = true
    · simp only [writeChunk, htaken]
      exact .putFixed (fun _ _ => if_pos (.inr htaken)) (.done ⟨0, rfl⟩)
    have hcreate : ∀ t : Tick, t.ok = true → (PutPos.create s.nextTmp).step t key body s.draw d =
        some (if body = [] then .flush s.nextTmp else .write s.nextTmp 0, s.draw,
          d.drafting key body s.nextTmp 0) := by
      intro t ht
      simp [PutPos.step, ht, htaken, Disk.drafting]
    simp only [writeChunk, htaken]
    refine .putFixed hcreate ?_
    by_cases hbody : body = []
    · subst hbody
      exact .commits fun now => ⟨now, rfl⟩
    · rw [if_neg hbody]
      exact .writes (List.length_pos_iff.mpr hbody) (.commits fun now => ⟨now, rfl⟩)

/-- Four bytes, of which the first write takes one and the second the other three. -/
example :
    let key := chunkKey (.ofTable []) "abcd".toList
    let ticks := [0, 0, 0, 1, 3, 0, 0, 0, 0, 0].map fun taken => StoreEvent.run 0 ⟨true, taken, 5⟩
    ((single ⟨∅, fun _ => none, 0, 0, 0⟩ .blank (.put key "abcd".toList .check) none []).exec
      (.ofTable []) ticks).map
      (fun m => (m.told, (m.disk.file? key).map File.data)) =
        some ([(key, .stored)], some "abcd".toList) := by
  decide +kernel

/-- **A `store_remove` that runs alone.** -/
theorem storeRemove_alone :
    ComesTo sha (· = returned (fun r => .remove key (.returned r)) (fun _ => told)
      (storeRemove {} key s d))
      (single s d ((StoreRequest.remove key).begin sha) none told) := by
  simp only [returned, storeRemove, StoreRequest.begin]
  by_cases hvalid : validKey key = true
  · simp only [hvalid, if_true]
    have hstat : ∀ t : Tick, t.ok = true → (StoreCall.remove key .stat).step t s d =
        some (.remove key (.erase (d.size key)), s, d) := Tick.forall_ok fun _ _ => rfl
    have hunlink : ∀ (s : ChunkStore) (t : Tick), t.ok = true →
        (StoreCall.remove key .unlink).step t s d =
          some (.remove key (.flushDir true), s, d.unlink key) :=
          fun s => Tick.forall_ok fun _ _ => rfl
    have hflush : ∀ (s : ChunkStore) (d : Disk) (t : Tick), t.ok = true →
        (StoreCall.remove key (.flushDir true)).step t s d = some (.remove key (.returned true), s,
          d.flushDir key) :=
      fun s d => Tick.forall_ok fun _ _ => rfl
    refine .fixed hstat (absurd · Bool.false_ne_true) ?_
    refine .fixed (fun _ _ => rfl) (fun _ => rfl) ?_
    refine .fixed (hunlink _) (absurd · Bool.false_ne_true) ?_
    exact .fixed (hflush _ _) (absurd · Bool.false_ne_true) (.done rfl)
  · simp only [hvalid]
    exact .done rfl

/-- **A `store_drop` that runs alone.** -/
theorem storeDrop_alone {grace : ℤ} :
    ComesTo sha
      (fun m => ∃ now, m = returned (fun r => .drop grace key (.returned r.1 r.2)) (fun _ => told)
        (storeDrop {} grace now key s d))
      (single s d ((StoreRequest.drop grace key).begin sha) none told) := by
  simp only [returned, storeDrop, StoreRequest.begin]
  by_cases hvalid : validKey key = true
  · simp only [hvalid]
    by_cases hin : key ∉ s.keys
    · simp only [hin]
      exact .fixed (fun t _ => congrArg (Option.map _) (if_pos hin)) (fun _ => rfl) (.done ⟨0, rfl⟩)
    -- the clock is read in the first step
    refine .call (fun t =>
      (.drop grace key (if t.now - s.written key < grace then .returned .tooYoung 0 else .stat),
      s, d)) (fun t _ => ?_) (fun _ => rfl) fun t _ => ?_
    · rw [if_pos trivial]
      by_cases hyoung : t.now - s.written key < grace <;>
        simp [StoreCall.step, DropPos.step, hin, hyoung]
    · by_cases hyoung : t.now - s.written key < grace
      · refine .done ⟨t.now, ?_⟩
        simp only [hin, hyoung]
        rfl
      · simp only [hyoung, if_false]
        have hstat : ∀ t : Tick, t.ok = true → (StoreCall.drop grace key .stat).step t s d =
            some (.drop grace key (.erase (d.size key)), s, d) := Tick.forall_ok fun _ _ => rfl
        have hunlink : ∀ (s : ChunkStore) (size : ℕ) (t : Tick), t.ok = true →
            (StoreCall.drop grace key (.unlink size)).step t s d =
              some (.drop grace key (.returned .dropped size), s, d.unlink key) :=
          fun s size => Tick.forall_ok fun _ _ => rfl
        refine .fixed hstat (absurd · Bool.false_ne_true)
          (.fixed (fun _ _ => rfl) (absurd · Bool.false_ne_true) ?_)
        refine .fixed (hunlink _ _) (absurd · Bool.false_ne_true) (.done ⟨t.now, ?_⟩)
        simp only [hin, hyoung]
        rfl
  · simp only [hvalid]
    exact .done ⟨0, rfl⟩

end alone

end ChordFs
