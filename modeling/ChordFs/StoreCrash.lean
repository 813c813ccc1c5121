import ChordFs.StoreMachine

/-! # What callers were told survives

The process may be killed at any step and the power may fail at any moment.  Whatever happens, a
file under its final name holds the whole chunk (`Disk.Intact`): it got its name when its bytes were
on the device.

A key that a caller was told is held stays in the index of every later process, as long as nobody
removes the chunk and `store_put` vouches for a key it finds in the index only when the name of its
file is on the device (`StoreMachine.vouched`).  `store_put` does not look: a process killed between
the rename and the flush of the directory leaves a file that the next one lists, and vouches for,
before the name is on the device (`vouched_then_lost`). -/

namespace ChordFs

open Text

/-! ### Files -/

/-- What a file under a final name is: flushed, and the chunk of its name. -/
def IsChunk (sha : Sha1) (key : Str) (f : File Str) : Prop := f.flushed = true ∧ chunkKey sha f.data = key

/-- Every file under a final name is its chunk, and so is every one the device would fall back
to. -/
structure Disk.Intact (sha : Sha1) (d : Disk) : Prop where
  files : ∀ key f, d.file? key = some f → IsChunk sha key f
  device : ∀ key f, d.chunks.device key = some f → IsChunk sha key f

section disk
variable {sha : Sha1} {d : Disk} {key k : Str}

theorem Disk.device_flushDir : (d.flushDir key).chunks.device k =
    if Disk.fanDir k = Disk.fanDir key then d.file? k else d.chunks.device k := by
  simp [Disk.flushDir, Volume.flush, Disk.file?]

namespace Disk.Intact

section
variable (h : d.Intact sha)
include h

theorem commit {name : Str} {f : File Str} (hf : IsChunk sha key f) :
    (d.commit name key f).Intact sha := by
  refine ⟨fun k g hg => ?_, h.device⟩
  rw [Disk.file?_commit] at hg
  split at hg
  · rename_i he
    rw [he, ← Option.some.inj hg]
    exact hf
  · exact h.files k g hg

theorem flushDir : (d.flushDir key).Intact sha := by
  refine ⟨h.files, fun k g hg => ?_⟩
  rw [Disk.device_flushDir] at hg
  split at hg
  · exact h.files k g hg
  · exact h.device k g hg

theorem unlink : (d.unlink key).Intact sha := by
  refine ⟨fun k g hg => ?_, h.device⟩
  rw [Disk.file?_unlink] at hg
  split at hg
  · cases hg
  · exact h.files k g hg

/-- A power cut takes a name back to a whole chunk, or leaves the one it has. -/
theorem find?_cut (lost : List Str) (noise : Str → Str) :
    (d.chunks.cut lost noise).files.find? k = if k ∈ lost then d.chunks.device k else d.file? k := by
  rw [Volume.find?_cut]
  have hsurvive : ∀ o : Option (File Str), (∀ f, o = some f → IsChunk sha k f) →
      o.map (Volume.survive (noise k)) = o := by
    intro o ho
    cases o with
    | none => rfl
    | some f => rw [Option.map_some, Volume.survive, if_pos (ho f rfl).1]
  split
  · exact hsurvive _ (h.device k)
  · exact hsurvive _ (h.files k)

theorem cut (lost : List Str) (noise : Str → Str) (left : SortedMap Str (File Str)) :
    Disk.Intact sha ⟨d.chunks.cut lost noise, left⟩ := by
  have hfiles : ∀ k f, (d.chunks.cut lost noise).files.find? k = some f → IsChunk sha k f := by
    intro k f hf
    rw [h.find?_cut] at hf
    split at hf
    · exact h.device k f hf
    · exact h.files k f hf
  exact ⟨hfiles, hfiles⟩

end

end Disk.Intact

end disk

/-! ### What a call has secured -/

/-- What a `store_put` of the key relies on: its file is there, and then its name is on the
device. -/
def StoreCall.Secured (key : Str) (d : Disk) : StoreCall → Prop
  | .put k _ .flushDir => k = key → (d.file? key).isSome = true
  | .put k _ .insert => k = key → (d.chunks.device key).isSome = true
  | _ => True

/-- What a step leaves of a key. -/
structure Keeps (key : Str) (s : ChunkStore) (d : Disk) (s' : ChunkStore) (d' : Disk) : Prop where
  file : (d.file? key).isSome = true → (d'.file? key).isSome = true
  device : (d.chunks.device key).isSome = true → (d'.chunks.device key).isSome = true
  back : (d'.chunks.device key).isSome = true → (d'.file? key).isSome = true
  keys : key ∈ s.keys → key ∈ s'.keys

section steps
variable {sha : Sha1} {t : Tick} {key k body : Str} {s s' : ChunkStore} {d d' : Disk}

theorem StoreCall.Secured.of_keeps {c : StoreCall} (h : c.Secured key d) (hk : Keeps key s d s' d') :
    c.Secured key d' := by
  cases c with
  | put k body pos =>
    cases pos with
    | flushDir => exact fun he => hk.file (h he)
    | insert => exact fun he => hk.device (h he)
    | _ => trivial
  | remove k pos => trivial
  | drop grace k pos => trivial

section
variable (hback : (d.chunks.device key).isSome = true → (d.file? key).isSome = true)
include hback

theorem Keeps.of_chunks (hchunks : d'.chunks = d.chunks) (hkeys : key ∈ s.keys → key ∈ s'.keys) : Keeps key s d s' d' := by
  have hfile : d'.file? key = d.file? key := congrArg (·.files.find? key) hchunks
  refine ⟨?_, ?_, ?_, hkeys⟩
  · rw [hfile]
    exact id
  · rw [hchunks]
    exact id
  · rw [hchunks, hfile]
    exact hback

theorem Keeps.flushDir : Keeps key s d s (d.flushDir k) := by
  refine ⟨id, fun hd => ?_, fun hd => ?_, id⟩
  · rw [Disk.device_flushDir]
    split
    · exact hback hd
    · exact hd
  · rw [Disk.device_flushDir] at hd
    split at hd
    · exact hd
    · exact hback hd

theorem Keeps.unlink (hne : key ≠ k) : Keeps key s d s (d.unlink k) := by
  have hfile : (d.unlink k).file? key = d.file? key := Disk.file?_unlink.trans (if_neg hne)
  refine ⟨?_, id, ?_, id⟩
  · rw [hfile]
    exact id
  · rw [hfile]
    exact hback

end

theorem PutMove.keeps {pos pos' : PutPos} (h : PutMove t k body s d pos pos' s' d')
    (hback : (d.chunks.device key).isSome = true → (d.file? key).isSome = true) : Keeps key s d s' d' := by
  cases h with
  | rename n f hf =>
    have hfile : (d.file? key).isSome = true →
        ((d.commit (Disk.tmpName k n) k f).file? key).isSome = true := by
      intro hold
      rw [Disk.file?_commit]
      split
      · rfl
      · exact hold
    exact ⟨hfile, id, fun hd => hfile (hback hd), id⟩
  | flushDir => exact .flushDir hback
  | insert => exact .of_chunks hback rfl fun hin => Finset.mem_insert_of_mem hin
  | write n done bytes hbytes =>
    refine .of_chunks hback ?_ id
    unfold Disk.appendTmp
    split <;> rfl
  | flush n =>
    refine .of_chunks hback ?_ id
    unfold Disk.flushTmp
    split <;> rfl
  | _ => exact .of_chunks hback rfl id

theorem PutMove.intact {pos pos' : PutPos} (h : PutMove t k body s d pos pos' s' d') (hd : d.Intact sha)
    (hrefusal : putRefusal sha k body = none) (hdrafted : pos.Drafted k body d.tmp) : d'.Intact sha := by
  have hsame : d'.chunks = d.chunks → d'.Intact sha := by
    intro hchunks
    refine ⟨fun k f hf => hd.files k f ?_, fun k f hf => hd.device k f ?_⟩
    · rw [Disk.file?, ← hchunks]
      exact hf
    · rw [← hchunks]
      exact hf
  cases h with
  | rename n f hf =>
    rw [hdrafted] at hf
    cases hf
    exact hd.commit ⟨rfl, (putRefusal_none hrefusal).2⟩
  | flushDir => exact hd.flushDir
  | write n done bytes hbytes =>
    apply hsame
    unfold Disk.appendTmp
    split <;> rfl
  | flush n =>
    apply hsame
    unfold Disk.flushTmp
    split <;> rfl
  | _ => exact hsame rfl

/-- **What a write of the key secures**, and what it answers with. -/
theorem PutMove.secured {pos pos' : PutPos} (h : PutMove t key body s d pos pos' s' d')
    (hsecured : (StoreCall.put key body pos).Secured key d)
    (hvouched : pos = .check → key ∈ s.keys → (d.chunks.device key).isSome = true) :
    (StoreCall.put key body pos').Secured key d' ∧ ∀ r, pos' = .returned r → r.isHeld = true →
      (d'.chunks.device key).isSome = true ∧ key ∈ s'.keys := by
  cases h with
  | held hin => exact ⟨trivial, fun _ _ _ => ⟨hvouched rfl hin, hin⟩⟩
  | rename n f hf =>
    refine ⟨fun _ => ?_, nofun⟩
    rw [Disk.file?_commit, if_pos rfl]
    rfl
  | flushDir =>
    refine ⟨fun _ => ?_, nofun⟩
    rw [Disk.device_flushDir, if_pos rfl]
    exact hsecured rfl
  | insert => exact ⟨trivial, fun _ _ _ => ⟨hsecured rfl, Finset.mem_insert_self _ _⟩⟩
  | create n => split <;> exact ⟨trivial, nofun⟩
  | write n done bytes hbytes => split <;> exact ⟨trivial, nofun⟩
  | fail pos pos' _ _ hpos =>
    rcases hpos with rfl | ⟨n, -, rfl⟩
    · refine ⟨trivial, fun r hr hheld => ?_⟩
      cases hr
      cases hheld
    · exact ⟨trivial, nofun⟩
  | discard n =>
    refine ⟨trivial, fun r hr hheld => ?_⟩
    cases hr
    cases hheld
  | _ => exact ⟨trivial, nofun⟩

theorem ClearMove.keeps (h : ClearMove k s d s' d')
    (hback : (d.chunks.device key).isSome = true → (d.file? key).isSome = true) (hne : key ≠ k) :
    Keeps key s d s' d' := by
  cases h with
  | still => exact .of_chunks hback rfl id
  | forget size =>
    refine .of_chunks hback rfl fun hin => ?_
    unfold ChunkStore.forget
    split
    · exact Finset.mem_erase.mpr ⟨hne, hin⟩
    · exact hin
  | drop size => exact .of_chunks hback rfl fun hin => Finset.mem_erase.mpr ⟨hne, hin⟩
  | unlink => exact .unlink hback hne
  | flushDir => exact .flushDir hback

theorem ClearMove.intact (h : ClearMove k s d s' d') (hd : d.Intact sha) : d'.Intact sha := by
  cases h with
  | unlink => exact hd.unlink
  | flushDir => exact hd.flushDir
  | _ => exact hd

end steps

/-! ### Whole runs -/

namespace StoreMachine

/-- A directory that no process has open. -/
def closed (d : Disk) : StoreMachine := ⟨none, d, [], none, []⟩

/-- A `store_put` that finds the key in the index finds its name on the device. -/
def vouched (key : Str) (m : StoreMachine) : StoreEvent → Bool
  | .run i _ =>
    match m.store, m.calls[i]? with
    | some s, some (.put k _ .check) => k ≠ key ∨ key ∉ s.keys ∨ (m.disk.chunks.device key).isSome = true
    | _, _ => true
  | _ => true

end StoreMachine

/-- No removal of the key is asked for. -/
def StoreEvent.spares (key : Str) : StoreEvent → Bool
  | .call (.remove k) => k ≠ key
  | .call (.drop _ k) => k ≠ key
  | _ => true

/-- The call does not remove the key. -/
def StoreCall.spares (key : Str) : StoreCall → Bool
  | .put _ _ _ => true
  | .remove k _ => k ≠ key
  | .drop _ k _ => k ≠ key

/-- What is known of a key that callers may have been told is held. -/
structure Sealed (key : Str) (m : StoreMachine) : Prop where
  back : (m.disk.chunks.device key).isSome = true → (m.disk.file? key).isSome = true
  secured : ∀ c ∈ m.calls, c.Secured key m.disk
  spared : ∀ c ∈ m.calls, c.spares key = true
  told : ∀ r, (key, r) ∈ m.told → r.isHeld = true → validKey key = true ∧
    (m.disk.chunks.device key).isSome = true ∧ ∀ s, m.store = some s → key ∈ s.keys

section runs
variable {sha : Sha1} {m m' : StoreMachine} {key : Str} {e : StoreEvent}

theorem begin_sealed (sha : Sha1) (request : StoreRequest) (d : Disk)
    (hspares : (StoreEvent.call request).spares key = true) :
    (request.begin sha).Secured key d ∧ (request.begin sha).spares key = true ∧
      ∀ r, (key, r) ∈ (request.begin sha).answer → r.isHeld = false := by
  cases request with
  | put k body =>
    rw [StoreRequest.begin]
    split
    · rename_i r hr
      refine ⟨trivial, rfl, fun r' hr' => ?_⟩
      obtain ⟨-, rfl⟩ := Prod.mk.inj (List.mem_singleton.mp hr')
      rcases putRefusal_cases hr with rfl | rfl | rfl <;> rfl
    · exact ⟨trivial, rfl, fun _ hr => absurd hr List.not_mem_nil⟩
  | remove k => exact ⟨trivial, hspares, fun _ hr => absurd hr List.not_mem_nil⟩
  | drop grace k => exact ⟨trivial, hspares, fun _ hr => absurd hr List.not_mem_nil⟩

theorem Sealed.advance (h : Sealed key m) {i : ℕ} {c' : StoreCall} {s s' : ChunkStore} {d' : Disk}
    {holder : Option ℕ} (hstore : m.store = some s) (hkeeps : Keeps key s m.disk s' d')
    (hsecured : c'.Secured key d') (hspares : c'.spares key = true)
    (hanswer : ∀ r, (key, r) ∈ c'.answer → r.isHeld = true → validKey key = true ∧ (d'.chunks.device key).isSome = true ∧ key ∈ s'.keys) :
    Sealed key ⟨some s', d', m.calls.set i c', holder, c'.answer ++ m.told⟩ where
  back := hkeeps.back
  secured c hc := by
    rcases List.mem_or_eq_of_mem_set hc with hc | rfl
    · exact (h.secured c hc).of_keeps hkeeps
    · exact hsecured
  spared c hc := by
    rcases List.mem_or_eq_of_mem_set hc with hc | rfl
    · exact h.spared c hc
    · exact hspares
  told r hr hheld := by
    rcases List.mem_append.mp hr with hr | hr
    · obtain ⟨hvalid, hdevice, hin⟩ := hanswer r hr hheld
      refine ⟨hvalid, hdevice, fun s₁ hs₁ => ?_⟩
      cases hs₁
      exact hin
    · obtain ⟨hvalid, hdevice, hin⟩ := h.told r hr hheld
      refine ⟨hvalid, hkeeps.device hdevice, fun s₁ hs₁ => ?_⟩
      cases hs₁
      exact hkeeps.keys (hin s hstore)

theorem Sealed.closed (h : Sealed key m) {d' : Disk}
    (hdevice : (m.disk.chunks.device key).isSome = true → (d'.chunks.device key).isSome = true)
    (hback : (d'.chunks.device key).isSome = true → (d'.file? key).isSome = true) :
    Sealed key ⟨none, d', [], none, m.told⟩ where
  back := hback
  secured _ hc := by cases hc
  spared _ hc := by cases hc
  told r hr hheld := by
    obtain ⟨hvalid, hd, -⟩ := h.told r hr hheld
    exact ⟨hvalid, hdevice hd, nofun⟩

theorem mem_storeOpen {d : Disk} {now : ℤ} (hvalid : validKey key = true)
    (hfile : (d.file? key).isSome = true) : key ∈ (storeOpen now d).2.1.keys :=
  List.mem_toFinset.mpr (List.mem_filter.mpr ⟨SortedMap.mem_keys.mpr hfile, hvalid⟩)

/-- **What a step keeps of a key that is vouched for only on the device.** -/
theorem Sealed.step (h : Sealed key m) (hd : Drafts sha m) (hintact : m.disk.Intact sha)
    (hspares : e.spares key = true) (hvouched : m.vouched key e = true)
    (hs : m.step? sha e = some m') : Sealed key m' := by
  cases e with
  | call request =>
    obtain ⟨s, hstore, rfl⟩ := Option.map_eq_some_iff.mp hs
    obtain ⟨hsecured, hnew, hanswer⟩ := begin_sealed sha request m.disk hspares
    refine ⟨h.back, fun c hc => ?_, fun c hc => ?_, fun r hr hheld => ?_⟩
    · rcases List.mem_append.mp hc with hc | hc
      · exact h.secured c hc
      · rw [List.mem_singleton.mp hc]
        exact hsecured
    · rcases List.mem_append.mp hc with hc | hc
      · exact h.spared c hc
      · rw [List.mem_singleton.mp hc]
        exact hnew
    · rcases List.mem_append.mp hr with hr | hr
      · rw [hanswer r hr] at hheld
        cases hheld
      · exact h.told r hr hheld
  | run i t =>
    obtain ⟨s, c, c', s', d', hstore, hc, -, hstep, rfl⟩ := StoreMachine.run_cases hs
    have hmem := List.mem_of_getElem? hc
    cases hstep with
    | put k body pos pos' hpos =>
      have hmove := PutPos.moves hpos
      have hkeeps : Keeps key s m.disk s' d' := hmove.keeps h.back
      by_cases hk : k = key
      · subst hk
        obtain ⟨hsecured, hheld⟩ := hmove.secured (h.secured _ hmem) fun hcheck hin => by
          subst hcheck
          simpa [StoreMachine.vouched, hstore, hc, hin] using hvouched
        refine h.advance hstore hkeeps hsecured rfl fun r hr hr' => ?_
        -- what is answered was not refused at the start
        have hvalid : validKey k = true := by
          rcases hd.puts i k body pos hc with ⟨r, rfl⟩ | ⟨hrefusal, -⟩
          · cases hpos
          · exact (putRefusal_none hrefusal).1
        cases pos' with
        | returned r' =>
          obtain ⟨-, rfl⟩ := Prod.mk.inj (List.mem_singleton.mp hr)
          exact ⟨hvalid, hheld r rfl hr'⟩
        | _ => cases hr
      · refine h.advance hstore hkeeps ?_ rfl fun r hr hr' => ?_
        · cases pos' with
          | flushDir => exact fun he => absurd he hk
          | insert => exact fun he => absurd he hk
          | _ => trivial
        · cases pos' with
          | returned r' => exact absurd (Prod.mk.inj (List.mem_singleton.mp hr)).1.symm hk
          | _ => cases hr
    | remove k pos pos' hpos =>
      have hspared := h.spared _ hmem
      have hne : key ≠ k := Ne.symm (of_decide_eq_true hspared)
      exact h.advance hstore ((RemovePos.moves hpos).keeps h.back hne) trivial hspared nofun
    | drop grace k pos pos' hpos =>
      have hspared := h.spared _ hmem
      have hne : key ≠ k := Ne.symm (of_decide_eq_true hspared)
      exact h.advance hstore ((DropPos.moves hpos).keeps h.back hne) trivial hspared nofun
  | kill =>
    obtain ⟨-, -, rfl⟩ := Option.map_eq_some_iff.mp hs
    exact h.closed id h.back
  | sweep name =>
    obtain ⟨-, he⟩ := Option.ite_none_right_eq_some.mp hs
    cases he
    exact ⟨h.back, h.secured, h.spared, h.told⟩
  | cut lost noise left =>
    cases hs
    refine h.closed ?_ id
    intro hdevice
    rw [Volume.device_cut, hintact.find?_cut]
    split
    · exact hdevice
    · exact h.back hdevice
  | reopen now =>
    obtain ⟨hnone, he⟩ := Option.ite_none_right_eq_some.mp hs
    cases he
    refine ⟨h.back, h.secured, h.spared, fun r hr hheld => ?_⟩
    obtain ⟨hvalid, hdevice, -⟩ := h.told r hr hheld
    refine ⟨hvalid, hdevice, fun s₁ hs₁ => ?_⟩
    cases hs₁
    exact mem_storeOpen hvalid (h.back hdevice)

end runs

end ChordFs
