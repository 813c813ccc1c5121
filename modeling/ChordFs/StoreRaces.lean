import ChordFs.StoreMachine
import Mathlib.Algebra.Order.Ring.Int
import Mathlib.Algebra.BigOperators.Group.Finset.Piecewise

/-! # Index and disk under concurrent calls

Once all calls have returned, the index holds exactly the keys whose files are on disk and counts
their bytes, provided no step of a call undoes what another has in hand (`StoreMachine.orderly`): a
file is deleted only while its key is out of the index and no write of it stands between its rename
and its entry in the index, and `store_remove` takes from the count the size the file has.  The
calls do not see to that themselves (`dropped_between_puts`).

While calls run, index and disk differ by the writes renamed and not yet counted, and by the files
taken out of the index and not yet deleted; `Balance` says so, and every orderly step keeps it. -/

namespace ChordFs

open Text

/-! ### What a call has in hand -/

/-- The file has its final name, and the key is not in the index on behalf of this call. -/
def PutPos.placed : PutPos → Bool
  | .flushDir => true
  | .insert => true
  | _ => false

/-- What a `store_drop` knows while it holds the lock. -/
def DropPos.Knows (key : Str) (s : ChunkStore) (d : Disk) : DropPos → Prop
  | .stat => key ∈ s.keys
  | .erase size => key ∈ s.keys ∧ d.size key = size
  | .unlink _ => key ∉ s.keys
  | _ => True

namespace StoreCall

/-- A `store_put` that has renamed its file into place and not entered the key in the index. -/
def uncounted (key : Str) : StoreCall → Bool
  | .put k _ pos => k = key && pos.placed
  | _ => false

/-- A call that has taken the key out of the index and not deleted the file. -/
def clearing (key : Str) : StoreCall → Bool
  | .remove k .unlink => k = key
  | .drop _ k (.unlink _) => k = key
  | _ => false

/-- The index need not say of the key what the disk does. -/
def pending (key : Str) (c : StoreCall) : Bool := c.uncounted key || c.clearing key

def Knows (s : ChunkStore) (d : Disk) : StoreCall → Prop
  | .put key body pos => pos.placed = true → (d.file? key).map File.data = some body
  | .remove _ _ => True
  | .drop _ key pos => pos.Knows key s d

/-- The next step does not undo what another call has in hand. -/
def orderly (s : ChunkStore) (d : Disk) (calls : List StoreCall) : StoreCall → Bool
  -- a file that is replaced has the same bytes
  | .put key body (.rename _) => (d.file? key).all fun f => f.data = body
  -- the size that was read is still that of the file
  | .remove key (.erase size) => key ∉ s.keys ∨ d.size key = size
  | .remove key .unlink => key ∉ s.keys && calls.all fun c => !c.uncounted key
  | .drop _ key (.unlink _) => calls.all fun c => !c.uncounted key
  | _ => true

end StoreCall

/-- The index holds exactly the keys whose files are on disk, and counts their bytes. -/
structure IndexAgrees (s : ChunkStore) (d : Disk) : Prop where
  keys : ∀ key, key ∈ s.keys ↔ (d.file? key).isSome = true
  bytes : s.bytes = ∑ key ∈ s.keys, d.size key

/-- Index and disk differ by what the calls have in hand. -/
structure Balance (s : ChunkStore) (d : Disk) (calls : List StoreCall) (holder : Option ℕ) : Prop where
  file : ∀ key ∈ s.keys, (d.file? key).isSome = true
  counted : ∀ key, (d.file? key).isSome = true → key ∈ s.keys ∨ ∃ c ∈ calls, c.pending key = true
  bytes : s.bytes = ∑ key ∈ s.keys, d.size key
  knows : ∀ c ∈ calls, c.Knows s d
  locked : ∀ (i : ℕ) c, calls[i]? = some c → c.holds = true → holder = some i

/-- The call that runs takes an orderly step. -/
def StoreMachine.orderly (m : StoreMachine) : StoreEvent → Bool
  | .run i _ =>
    match m.store, m.calls[i]? with
    | some s, some c => c.orderly s m.disk m.calls
    | _, _ => true
  | _ => true

/-- Calls begin and take steps, and no system call fails. -/
def StoreEvent.isWork : StoreEvent → Bool
  | .call _ => true
  | .run _ t => t.ok
  | _ => false

/-! ### One step of a call -/

section balance
variable {s s' : ChunkStore} {d d' : Disk} {calls : List StoreCall} {holder : Option ℕ} {i : ℕ}
  {c c' : StoreCall} {key body : Str} {t : Tick}

theorem Disk.size_congr (h : (d'.file? key).map File.data = (d.file? key).map File.data) :
    d'.size key = d.size key := by
  have hsize : ∀ d : Disk, d.size key = (((d.file? key).map File.data).map List.length).getD 0 := by
    intro d
    rw [Disk.size, Option.map_map]
    rfl
  rw [hsize, hsize, h]

theorem Disk.isSome_congr (h : (d'.file? key).map File.data = (d.file? key).map File.data) :
    (d'.file? key).isSome = (d.file? key).isSome := by
  simpa using congrArg Option.isSome h

theorem Disk.size_of_data (h : (d.file? key).map File.data = some body) : d.size key = body.length := by
  obtain ⟨f, hf, rfl⟩ := Option.map_eq_some_iff.mp h
  rw [Disk.size, hf]
  rfl

/-- Something one of the calls does, one of them still does after a step of another. -/
theorem exists_mem_set {P : StoreCall → Prop} (h : ∃ c ∈ calls, P c) (hc : calls[i]? = some c)
    (hP : P c → P c') : ∃ c ∈ calls.set i c', P c := by
  obtain ⟨c₁, hmem, h₁⟩ := h
  obtain ⟨j, hj⟩ := List.mem_iff_getElem?.mp hmem
  by_cases hji : j = i
  · subst hji
    rw [hc] at hj
    cases hj
    have hlt := (List.getElem?_eq_some_iff.mp hc).1
    exact ⟨c', List.mem_set hlt c', hP h₁⟩
  · exact ⟨c₁, List.mem_of_getElem? ((List.getElem?_set_ne (Ne.symm hji)).trans hj), h₁⟩

/-- What is left of the count when a key of known size is taken out. -/
theorem Balance.bytes_erase (h : Balance s d calls holder) (hkey : key ∈ s.keys) :
    s.bytes - min (d.size key) s.bytes = ∑ k ∈ s.keys.erase key, d.size k := by
  have hsum := Finset.add_sum_erase s.keys d.size hkey
  rw [h.bytes]
  omega

section step
variable (h : Balance s d calls holder) (hc : calls[i]? = some c) (hlock : c.locks = true → holder = none)
include h hc hlock

/-- The lock is handed on: what the call that steps does, the others do not. -/
theorem Balance.alone (hsection : c.locks = true ∨ c.holds = true) {j : ℕ}
    {c₁ : StoreCall} (hj : calls[j]? = some c₁) (hji : j ≠ i) : c₁.holds = false := by
  rw [← Bool.not_eq_true]
  intro hholds
  have hj' := h.locked j c₁ hj hholds
  rcases hsection with hl | hh
  · rw [hlock hl] at hj'
    cases hj'
  · rw [h.locked i c hc hh] at hj'
    exact hji (Option.some.inj hj').symm

/-- What a step leaves to the other calls. -/
structure Spares (s : ChunkStore) (d : Disk) (calls : List StoreCall) (c : StoreCall) (s' : ChunkStore)
    (d' : Disk) : Prop where
  /-- The index changes only under the lock. -/
  keys : s'.keys = s.keys ∨ c.locks = true ∨ c.holds = true
  data : ∀ key, (key ∈ s.keys ∨ ∃ c ∈ calls, c.uncounted key = true) →
    (d'.file? key).map File.data = (d.file? key).map File.data

/-- What another call knows stays true. -/
theorem Balance.knows_of_spares (hspares : Spares s d calls c s' d') {j : ℕ}
    {c₁ : StoreCall} (hj : calls[j]? = some c₁) (hji : j ≠ i) : c₁.Knows s' d' := by
  have hmem := List.mem_of_getElem? hj
  have hknows := h.knows c₁ hmem
  have hkeys : c₁.holds = true → s'.keys = s.keys := by
    intro hholds
    rcases hspares.keys with he | hsection
    · exact he
    · rw [h.alone hc hlock hsection hj hji] at hholds
      cases hholds
  cases c₁ with
  | put key body pos =>
    intro hplaced
    rw [hspares.data key (.inr ⟨_, hmem, by simp [StoreCall.uncounted, hplaced]⟩)]
    exact hknows hplaced
  | remove key pos => trivial
  | drop grace key pos =>
    cases pos with
    | enter => trivial
    | returned r n => trivial
    | stat =>
      rw [StoreCall.Knows, DropPos.Knows, hkeys rfl]
      exact hknows
    | erase size =>
      rw [StoreCall.Knows, DropPos.Knows, hkeys rfl,
        Disk.size_congr (hspares.data key (.inl hknows.1))]
      exact hknows
    | unlink size =>
      rw [StoreCall.Knows, DropPos.Knows, hkeys rfl]
      exact hknows

/-- **The balance after a step**, from what the step does itself. -/
theorem Balance.advance (hholds : c'.holds = true → c.locks = true ∨ c.holds = true)
    (hspares : Spares s d calls c s' d') (hfile : ∀ key ∈ s'.keys, (d'.file? key).isSome = true)
    (hcounted : ∀ key, (d'.file? key).isSome = true →
      key ∈ s'.keys ∨ ∃ c ∈ calls.set i c', c.pending key = true)
    (hbytes : s'.bytes = ∑ key ∈ s'.keys, d'.size key) (hknows : c'.Knows s' d') :
    Balance s' d' (calls.set i c') (if c'.holds then some i else if c.holds then none else holder) := by
  refine ⟨hfile, hcounted, hbytes, ?_, ?_⟩
  · intro c₁ hmem
    obtain ⟨j, hj⟩ := List.mem_iff_getElem?.mp hmem
    rcases getElem?_set_cases hj with ⟨-, rfl⟩ | ⟨hji, hj⟩
    · exact hknows
    · exact h.knows_of_spares hc hlock hspares hj hji
  · intro j c₁ hj hh
    rcases getElem?_set_cases hj with ⟨rfl, rfl⟩ | ⟨hji, hj⟩
    · rw [if_pos hh]
    · have hno : ¬ (c.locks = true ∨ c.holds = true) := by
        intro hsection
        rw [h.alone hc hlock hsection hj hji] at hh
        cases hh
      rw [if_neg (fun hh' => hno (hholds hh')), if_neg (fun hh' => hno (.inr hh'))]
      exact h.locked j c₁ hj hh

theorem Balance.still (hholds : c'.holds = true → c.locks = true ∨ c.holds = true)
    (hkeys : s'.keys = s.keys) (hbytes : s'.bytes = s.bytes) (hfiles : ∀ key, d'.file? key = d.file? key)
    (hpending : ∀ key, c.pending key = true → c'.pending key = true) (hknows : c'.Knows s' d') :
    Balance s' d' (calls.set i c') (if c'.holds then some i else if c.holds then none else holder) := by
  have hdata : ∀ key, (d'.file? key).map File.data = (d.file? key).map File.data := by
    intro key
    rw [hfiles]
  refine h.advance hc hlock hholds ⟨.inl hkeys, fun key _ => hdata key⟩ ?_ ?_ ?_ hknows
  · intro key hkey
    rw [hkeys] at hkey
    rw [hfiles]
    exact h.file key hkey
  · intro key hkey
    rw [hfiles] at hkey
    rw [hkeys]
    exact (h.counted key hkey).imp id fun hex => exists_mem_set hex hc (hpending key)
  · rw [hbytes, hkeys, h.bytes]
    exact Finset.sum_congr rfl fun key _ => (Disk.size_congr (hdata key)).symm

theorem Balance.erase (hsection : c.locks = true ∨ c.holds = true)
    (hkeys : s'.keys = s.keys.erase key) (hbytes : s'.bytes = ∑ k ∈ s.keys.erase key, d.size k)
    (hnone : ∀ k, c.pending k = false) (hclearing : c'.clearing key = true) (hknows : c'.Knows s' d) :
    Balance s' d (calls.set i c') (if c'.holds then some i else if c.holds then none else holder) := by
  refine h.advance hc hlock (fun _ => hsection) ⟨.inr hsection, fun _ _ => rfl⟩ ?_ ?_ ?_ hknows
  · intro k hk
    rw [hkeys] at hk
    exact h.file k (Finset.mem_of_mem_erase hk)
  · intro k hk
    by_cases he : k = key
    · subst he
      have hlt := (List.getElem?_eq_some_iff.mp hc).1
      exact .inr ⟨c', List.mem_set hlt _, by simp [StoreCall.pending, hclearing]⟩
    · rw [hkeys]
      refine (h.counted k hk).imp (fun hin => Finset.mem_erase.mpr ⟨he, hin⟩) fun hex =>
        exists_mem_set hex hc fun hp => ?_
      rw [hnone k] at hp
      cases hp
  · rw [hbytes, hkeys]

theorem Balance.unlink (hholds : c'.holds = false) (hout : key ∉ s.keys)
    (hno : ∀ c ∈ calls, c.uncounted key = false) (hown : ∀ k, c.pending k = true → k = key)
    (hknows : c'.Knows s (d.unlink key)) :
    Balance s (d.unlink key) (calls.set i c')
      (if c'.holds then some i else if c.holds then none else holder) := by
  have hother : ∀ k ∈ s.keys, (d.unlink key).file? k = d.file? k := by
    intro k hk
    rw [Disk.file?_unlink, if_neg]
    rintro rfl
    exact hout hk
  refine h.advance hc hlock (by simp [hholds]) ⟨.inl rfl, ?_⟩ ?_ ?_ ?_ hknows
  · rintro k (hk | ⟨c₁, hmem, hk⟩)
    · rw [hother k hk]
    · rw [Disk.file?_unlink, if_neg]
      rintro rfl
      rw [hno c₁ hmem] at hk
      cases hk
  · intro k hk
    rw [hother k hk]
    exact h.file k hk
  · intro k hk
    rw [Disk.file?_unlink] at hk
    by_cases he : k = key
    · rw [if_pos he] at hk
      cases hk
    · rw [if_neg he] at hk
      exact (h.counted k hk).imp id fun hex =>
        exists_mem_set hex hc fun hp => absurd (hown k hp) he
  · rw [h.bytes]
    exact Finset.sum_congr rfl fun k hk => (Disk.size_congr (by rw [hother k hk])).symm

end step

theorem Balance.rename (h : Balance s d calls holder) {n : ℕ} {name : Str} {f : File Str}
    (hc : calls[i]? = some (.put key body (.rename n))) (hf : f.data = body)
    (hsame : ∀ f, d.file? key = some f → f.data = body) :
    Balance s (d.commit name key f) (calls.set i (.put key body .flushDir)) holder := by
  have hnew : ((d.commit name key f).file? key).map File.data = some body := by
    rw [Disk.file?_commit, if_pos rfl, Option.map_some, hf]
  -- what is counted or about to be has a file, and so the same bytes
  have hold : ∀ k, (d.file? k).isSome = true →
      ((d.commit name key f).file? k).map File.data = (d.file? k).map File.data := by
    intro k hk
    obtain ⟨g, hg⟩ := Option.isSome_iff_exists.mp hk
    by_cases he : k = key
    · subst he
      rw [hnew, hg, Option.map_some, hsame g hg]
    · rw [Disk.file?_commit, if_neg he]
  refine h.advance hc nofun nofun ⟨.inl rfl, ?_⟩ ?_ ?_ ?_ fun _ => hnew
  · rintro k (hk | ⟨c, hmem, hk⟩)
    · exact hold k (h.file k hk)
    · apply hold
      cases c with
      | put k' body' pos =>
        simp only [StoreCall.uncounted, Bool.and_eq_true, decide_eq_true_eq] at hk
        have hdata := h.knows _ hmem hk.2
        rw [hk.1] at hdata
        simpa using congrArg Option.isSome hdata
      | remove k' pos => cases hk
      | drop grace k' pos => cases hk
  · intro k hk
    rw [Disk.isSome_congr (hold k (h.file k hk))]
    exact h.file k hk
  · intro k hk
    by_cases he : k = key
    · have hlt := (List.getElem?_eq_some_iff.mp hc).1
      exact .inr ⟨_, List.mem_set hlt _, by
        simp [StoreCall.pending, StoreCall.uncounted, PutPos.placed, he]⟩
    · rw [Disk.file?_commit, if_neg he] at hk
      refine (h.counted k hk).imp id fun hex => exists_mem_set hex hc fun hp => ?_
      simp [StoreCall.pending, StoreCall.uncounted, StoreCall.clearing, PutPos.placed] at hp
  · rw [h.bytes]
    exact Finset.sum_congr rfl fun k hk => (Disk.size_congr (hold k (h.file k hk))).symm

theorem Balance.insert (h : Balance s d calls holder) {now : ℤ} {r : PutResult}
    (hc : calls[i]? = some (.put key body .insert)) (hfree : holder = none) :
    Balance (s.add key body.length now) d (calls.set i (.put key body (.returned r))) holder := by
  have hdata : (d.file? key).map File.data = some body := h.knows _ (List.mem_of_getElem? hc) rfl
  have hkeys : (s.add key body.length now).keys = Insert.insert key s.keys := rfl
  refine h.advance hc (fun _ => hfree) nofun ⟨.inr (.inl rfl), fun _ _ => rfl⟩ ?_ ?_ ?_ nofun
  · intro k hk
    rcases Finset.mem_insert.mp hk with rfl | hk
    · simpa using congrArg Option.isSome hdata
    · exact h.file k hk
  · intro k hk
    by_cases he : k = key
    · exact .inl (hkeys ▸ Finset.mem_insert.mpr (.inl he))
    · refine (h.counted k hk).imp (Finset.mem_insert_of_mem ·) fun hex =>
        exists_mem_set hex hc fun hp => ?_
      simp [StoreCall.pending, StoreCall.uncounted, StoreCall.clearing, PutPos.placed, Ne.symm he] at hp
  · have hbytes : (s.add key body.length now).bytes =
      if key ∈ s.keys then s.bytes else s.bytes + body.length := rfl
    rw [hbytes, hkeys]
    split
    · rename_i hin
      rw [Finset.insert_eq_of_mem hin, h.bytes]
    · rename_i hout
      rw [Finset.sum_insert hout, h.bytes, Disk.size_of_data hdata, Nat.add_comm]

theorem PutMove.work {pos pos' : PutPos} (h : PutMove t key body s d pos pos' s' d') (hok : t.ok = true) :
    (s'.keys = s.keys ∧ s'.bytes = s.bytes ∧ (∀ k, d'.file? k = d.file? k) ∧ pos'.placed = pos.placed) ∨
    (∃ n f, pos = .rename n ∧ pos' = .flushDir ∧ d.tmp.find? (Disk.tmpName key n) = some f ∧ s' = s ∧
      d' = d.commit (Disk.tmpName key n) key f) ∨
    (pos = .insert ∧ pos' = .returned .stored ∧ s' = s.add key body.length t.now ∧ d' = d) := by
  cases h with
  | rename n f hf => exact .inr (.inl ⟨n, f, rfl, rfl, hf, rfl, rfl⟩)
  | insert => exact .inr (.inr ⟨rfl, rfl, rfl, rfl⟩)
  | create n =>
    refine .inl ⟨rfl, rfl, fun _ => rfl, ?_⟩
    split <;> rfl
  | write n done bytes hbytes =>
    refine .inl ⟨rfl, rfl, fun _ => ?_, ?_⟩
    · unfold Disk.appendTmp
      split <;> rfl
    · split <;> rfl
  | flush n =>
    refine .inl ⟨rfl, rfl, fun _ => ?_, rfl⟩
    unfold Disk.flushTmp
    split <;> rfl
  | fail pos pos' hfail _ hpos =>
    refine .inl ⟨rfl, rfl, fun _ => rfl, ?_⟩
    -- a call that has a temporary file has not placed it
    have hdraft : pos.draft.isSome = true := by simpa [hok] using hfail
    have hold : pos.placed = false := by
      cases pos with
      | flushDir => cases hdraft
      | insert => cases hdraft
      | _ => rfl
    rcases hpos with rfl | ⟨n, -, rfl⟩ <;> exact hold.symm
  | _ => exact .inl ⟨rfl, rfl, fun _ => rfl, rfl⟩

theorem Balance.put {sha : Sha1} (h : Balance s d calls holder) {pos pos' : PutPos}
    (hc : calls[i]? = some (.put key body pos))
    (hlock : (StoreCall.put key body pos).locks = true → holder = none)
    (hm : PutMove t key body s d pos pos' s' d') (hok : t.ok = true)
    (hdrafted : (∃ r, pos = .returned r) ∨ putRefusal sha key body = none ∧ pos.Drafted key body d.tmp)
    (hord : (StoreCall.put key body pos).orderly s d calls = true) :
    Balance s' d' (calls.set i (.put key body pos')) holder := by
  rcases hm.work hok with ⟨hkeys, hbytes, hfiles, hplaced⟩ | ⟨n, f, rfl, rfl, hf, rfl, rfl⟩ |
    ⟨rfl, rfl, rfl, rfl⟩
  · refine h.still hc hlock nofun hkeys hbytes hfiles ?_ ?_
    · intro k hk
      simpa [StoreCall.pending, StoreCall.uncounted, StoreCall.clearing, hplaced] using hk
    · intro hp
      rw [hfiles]
      exact h.knows _ (List.mem_of_getElem? hc) (hplaced ▸ hp)
  · obtain ⟨r, hr⟩ | ⟨-, hd⟩ := hdrafted
    · cases hr
    · have hdata : f.data = body := by
        rw [hd] at hf
        rw [← Option.some.inj hf]
      refine h.rename hc hdata fun g hg => ?_
      rw [StoreCall.orderly, hg] at hord
      exact of_decide_eq_true hord
  · exact h.insert hc (hlock rfl)

theorem ChunkStore.keys_forget {size : ℕ} : (s.forget key size).keys = s.keys.erase key := by
  unfold ChunkStore.forget
  split
  · rfl
  · rename_i hout
    exact (Finset.erase_eq_of_notMem hout).symm

theorem Balance.remove (h : Balance s d calls holder) {pos pos' : RemovePos}
    (hc : calls[i]? = some (.remove key pos))
    (hlock : (StoreCall.remove key pos).locks = true → holder = none)
    (hm : pos.step t key s d = some (pos', s', d')) (hok : t.ok = true)
    (hord : (StoreCall.remove key pos).orderly s d calls = true) :
    Balance s' d' (calls.set i (.remove key pos')) holder := by
  cases pos with
  | stat =>
    cases hm
    exact h.still hc hlock nofun rfl rfl (fun _ => rfl) nofun trivial
  | erase size =>
    cases hm
    refine h.erase hc hlock (.inl rfl) ChunkStore.keys_forget ?_ (fun _ => rfl)
      (by simp [StoreCall.clearing]) trivial
    unfold ChunkStore.forget
    split
    · rename_i hin
      have hsize : d.size key = size := by simpa [StoreCall.orderly, hin] using hord
      rw [← hsize]
      exact h.bytes_erase hin
    · rename_i hout
      rw [Finset.erase_eq_of_notMem hout]
      exact h.bytes
  | unlink =>
    cases hm
    rw [if_pos hok]
    have hfree : key ∉ s.keys ∧ ∀ c ∈ calls, c.uncounted key = false := by
      simpa [StoreCall.orderly] using hord
    refine h.unlink hc hlock rfl hfree.1 hfree.2 ?_ trivial
    intro k hk
    simpa [StoreCall.pending, StoreCall.uncounted, StoreCall.clearing, eq_comm] using hk
  | flushDir ok =>
    cases hm
    rw [if_pos hok]
    exact h.still hc hlock nofun rfl rfl (fun _ => rfl) nofun trivial
  | returned ok => cases hm

theorem Balance.drop (h : Balance s d calls holder) {grace : ℤ} {pos pos' : DropPos}
    (hc : calls[i]? = some (.drop grace key pos))
    (hlock : (StoreCall.drop grace key pos).locks = true → holder = none)
    (hm : pos.step t grace key s d = some (pos', s', d')) (hok : t.ok = true)
    (hord : (StoreCall.drop grace key pos).orderly s d calls = true) :
    Balance s' d' (calls.set i (.drop grace key pos'))
      (if (StoreCall.drop grace key pos').holds then some i
        else if (StoreCall.drop grace key pos).holds then none else holder) := by
  have hknows : pos.Knows key s d := h.knows _ (List.mem_of_getElem? hc)
  cases pos with
  | enter =>
    simp only [DropPos.step] at hm
    split at hm
    · cases hm
      exact h.still hc hlock (absurd · Bool.false_ne_true) rfl rfl (fun _ => rfl) (fun _ => (absurd · Bool.false_ne_true)) trivial
    rename_i hin
    split at hm
    · cases hm
      exact h.still hc hlock (absurd · Bool.false_ne_true) rfl rfl (fun _ => rfl) (fun _ => (absurd · Bool.false_ne_true)) trivial
    · cases hm
      exact h.still hc hlock (fun _ => .inl rfl) rfl rfl (fun _ => rfl) (fun _ => (absurd · Bool.false_ne_true)) (not_not.mp hin)
  | stat =>
    cases hm
    rw [if_pos hok]
    exact h.still hc hlock (fun _ => .inr rfl) rfl rfl (fun _ => rfl) (fun _ => (absurd · Bool.false_ne_true)) ⟨hknows, rfl⟩
  | erase size =>
    cases hm
    obtain ⟨hin, rfl⟩ := hknows
    exact h.erase hc hlock (.inr rfl) rfl (h.bytes_erase hin) (fun _ => rfl)
      (by simp [StoreCall.clearing]) (Finset.notMem_erase key s.keys)
  | unlink size =>
    cases hm
    rw [if_pos hok]
    refine h.unlink hc hlock rfl hknows (by simpa [StoreCall.orderly] using hord) ?_ trivial
    intro k hk
    simpa [StoreCall.pending, StoreCall.uncounted, StoreCall.clearing, eq_comm] using hk
  | returned r size => cases hm

end balance

/-! ### Whole runs -/

section runs
variable {sha : Sha1} {m m' : StoreMachine}

/-- A process runs, and its index and the disk differ by what its calls have in hand. -/
def Balanced (m : StoreMachine) : Prop := ∃ s, m.store = some s ∧ Balance s m.disk m.calls m.holder

theorem begin_nothing (sha : Sha1) (request : StoreRequest) (s : ChunkStore) (d : Disk) :
    (request.begin sha).Knows s d ∧ (request.begin sha).holds = false := by
  cases request with
  | put key body =>
    rw [StoreRequest.begin]
    split <;> exact ⟨(absurd · Bool.false_ne_true), rfl⟩
  | remove key => exact ⟨trivial, rfl⟩
  | drop grace key =>
    rw [StoreRequest.begin]
    split <;> exact ⟨trivial, rfl⟩

/-- **What an orderly step keeps.** -/
theorem Balanced.step (h : Balanced m) (hd : Drafts sha m) {e : StoreEvent} (hwork : e.isWork = true)
    (hord : m.orderly e = true) (hs : m.step? sha e = some m') : Balanced m' := by
  obtain ⟨s, hstore, hbalance⟩ := h
  cases e with
  | call request =>
    obtain ⟨-, -, rfl⟩ := Option.map_eq_some_iff.mp hs
    obtain ⟨hknows, hholds⟩ := begin_nothing sha request s m.disk
    refine ⟨s, hstore, hbalance.file, fun key hk => ?_, hbalance.bytes, ?_, ?_⟩
    · exact (hbalance.counted key hk).imp id fun ⟨c, hmem, hp⟩ =>
        ⟨c, List.mem_append_left _ hmem, hp⟩
    · intro c hmem
      rcases List.mem_append.mp hmem with hmem | hmem
      · exact hbalance.knows c hmem
      · rw [List.mem_singleton.mp hmem]
        exact hknows
    · intro i c hi hc
      rw [List.getElem?_append] at hi
      split at hi
      · exact hbalance.locked i c hi hc
      · rw [List.mem_singleton.mp (List.mem_of_getElem? hi), hholds] at hc
        cases hc
  | run i t =>
    obtain ⟨s₁, c, c', s', d', hstore', hc, hlock, hstep, rfl⟩ := StoreMachine.run_cases hs
    cases hstore.symm.trans hstore'
    have hord : c.orderly s m.disk m.calls = true := by
      simpa [StoreMachine.orderly, hstore, hc] using hord
    cases hstep with
    | put key body pos pos' hpos =>
      exact ⟨_, rfl, hbalance.put hc hlock (PutPos.moves hpos) hwork (hd.puts i key body pos hc) hord⟩
    | remove key pos pos' hpos =>
      exact ⟨_, rfl, hbalance.remove hc hlock hpos hwork hord⟩
    | drop grace key pos pos' hpos =>
      exact ⟨_, rfl, hbalance.drop hc hlock hpos hwork hord⟩
  | kill => cases hwork
  | sweep name => cases hwork
  | cut lost noise left => cases hwork
  | reopen now => cases hwork

theorem Balance.agrees {s : ChunkStore} {d : Disk} {calls : List StoreCall} {holder : Option ℕ}
    (h : Balance s d calls holder) (hdone : ∀ c ∈ calls, c.isReturned = true) : IndexAgrees s d where
  keys key := by
    refine ⟨h.file key, fun hk => (h.counted key hk).resolve_right ?_⟩
    rintro ⟨c, hmem, hp⟩
    have hr := hdone c hmem
    cases c with
    | put k body pos =>
      cases pos with
      | returned r => simp [StoreCall.pending, StoreCall.uncounted, StoreCall.clearing, PutPos.placed] at hp
      | _ => cases hr
    | remove k pos =>
      cases pos with
      | returned r => cases hp
      | _ => cases hr
    | drop grace k pos =>
      cases pos with
      | returned r n => cases hp
      | _ => cases hr
  bytes := h.bytes

/-- The process of a store that has just been opened, or has no call to work on. -/
def StoreMachine.idle (s : ChunkStore) (d : Disk) : StoreMachine := ⟨some s, d, [], none, []⟩

/-- **Index and disk agree once all calls have returned**, after every interleaving of calls whose
steps are orderly. -/
theorem agrees_of_orderly (sha : Sha1) (s₀ : ChunkStore) (d₀ : Disk) (hagree : IndexAgrees s₀ d₀)
    (events : List StoreEvent) (hwork : ∀ e ∈ events, e.isWork = true) (m : StoreMachine)
    (hrun : (StoreMachine.idle s₀ d₀).exec sha events = some m)
    (hord : Runs.Meets (StoreMachine.step? sha) (fun m e => m.orderly e = true)
      (StoreMachine.idle s₀ d₀) events)
    (hdone : ∀ c ∈ m.calls, c.isReturned = true) : ∃ s, m.store = some s ∧ IndexAgrees s m.disk := by
  have hinit : Balanced (StoreMachine.idle s₀ d₀) := by
    refine ⟨s₀, rfl, fun key => (hagree.keys key).mp, fun key hk => .inl ((hagree.keys key).mpr hk),
      hagree.bytes, nofun, nofun⟩
  have hkeep : Balanced m ∧ Drafts sha m := by
    refine hord.induction (I := fun m => Balanced m ∧ Drafts sha m) ?_ hrun ⟨hinit, drafts_nil rfl⟩
    intro m e m' he hs hC hI
    exact ⟨hI.1.step hI.2 (hwork e he) hC hs, hI.2.step hs⟩
  obtain ⟨s, hs, hbalance⟩ := hkeep.1
  exact ⟨s, hs, hbalance.agrees hdone⟩

/-- An empty store, just opened. -/
def StoreMachine.fresh : StoreMachine := .idle (storeOpen 0 .blank).2.1 .blank

theorem agrees_fresh : IndexAgrees (storeOpen 0 .blank).2.1 .blank := ⟨fun _ => ⟨nofun, nofun⟩, rfl⟩

/-- Two writes of a chunk, the second replacing the file of the first, and a deletion that comes too
early: index and disk agree on the chunk in the end. -/
theorem agrees_of_orderly_two_puts : let put := StoreEvent.call (.put emptyChunk [])
    let events := [put, put] ++ stepsOf 0 6 ++ stepsOf 1 3 ++ [.call (.drop 0 emptyChunk)] ++ stepsOf 2 1 ++
      stepsOf 0 2 ++ stepsOf 1 5
    ∃ m s, StoreMachine.fresh.exec (.ofTable []) events = some m ∧ m.store = some s ∧
      emptyChunk ∈ s.keys ∧ (m.disk.file? emptyChunk).isSome = true := by
  intro put events
  have hcalls : (StoreMachine.fresh.exec (.ofTable []) events).map (fun m => m.calls) = some
      [.put emptyChunk [] (.returned .stored), .put emptyChunk [] (.returned .stored),
        .drop 0 emptyChunk (.returned .notHeld 0)] := by decide +kernel
  have hkeys : ((StoreMachine.fresh.exec (.ofTable []) events).bind (·.store)).map (·.keys) =
      some {emptyChunk} := by decide +kernel
  obtain ⟨m, hm, hc⟩ := Option.map_eq_some_iff.mp hcalls
  obtain ⟨s, hs, hagree⟩ := agrees_of_orderly (.ofTable []) _ .blank agrees_fresh events (by decide) m hm
    (Runs.meets_of_checks (fun _ _ h => h) (by decide +kernel)) (by simp [hc, StoreCall.isReturned])
  have hin : emptyChunk ∈ s.keys := by
    rw [hm, Option.bind_some, hs, Option.map_some] at hkeys
    simp [Option.some.inj hkeys]
  exact ⟨m, s, hm, hs, hin, (hagree.keys emptyChunk).mp hin⟩

/-- **Two writes and a deletion.**  Both writes find the key out of the index; the first is counted,
and then the chunk is dropped while the second stands between its rename and its entry in the index.
In the end the index holds a key without a file. -/
theorem dropped_between_puts : let put := StoreEvent.call (.put emptyChunk [])
    let events := [put, put] ++ stepsOf 0 1 ++ stepsOf 1 1 ++ stepsOf 0 7 ++ stepsOf 1 5 ++
      [.call (.drop 0 emptyChunk)] ++ stepsOf 2 4 ++ stepsOf 1 2
    (∀ e ∈ events, e.isWork = true) ∧ IndexAgrees (storeOpen 0 .blank).2.1 .blank ∧
    ∃ m s, StoreMachine.fresh.exec (.ofTable []) events = some m ∧
      (∀ c ∈ m.calls, c.isReturned = true) ∧ m.store = some s ∧
      emptyChunk ∈ s.keys ∧ m.disk.file? emptyChunk = none := by
  intro put events
  have hcalls : (StoreMachine.fresh.exec (.ofTable []) events).map (fun m =>
      (m.calls, m.store.map (·.keys), m.disk.file? emptyChunk)) = some
        ([.put emptyChunk [] (.returned .stored), .put emptyChunk [] (.returned .stored),
          .drop 0 emptyChunk (.returned .dropped 0)], some {emptyChunk}, none) := by decide +kernel
  obtain ⟨m, hm, he⟩ := Option.map_eq_some_iff.mp hcalls
  obtain ⟨hc, hrest⟩ := Prod.mk.inj he
  obtain ⟨hkeys, hfile⟩ := Prod.mk.inj hrest
  obtain ⟨s, hs, hk⟩ := Option.map_eq_some_iff.mp hkeys
  exact ⟨by decide, agrees_fresh, m, s, hm, by simp [hc, StoreCall.isReturned], hs, by simp [hk], hfile⟩

end runs

end ChordFs
