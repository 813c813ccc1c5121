import ChordFs.Owners
import ChordFs.Lib.Growth
import Mathlib.Data.List.TakeWhile

/-! # Chunks spread and are not lost

What the processes of a wired ring hold while rounds run among them, if every chunk was intact at
the beginning.  Copies go to replicas only, except for the writes that an owner coordinates; so an
owner that has got a chunk has sent it to the other replicas (`Cluster.Grown.owners`).  Each thing
that happens keeps this and loses no chunk: a copy is sent, stored or received, and a write is
coordinated (`Cluster.Grown.write`). -/

namespace ChordFs

open Circle Dialogue Paging Text

/-! ### Stores with intact chunks -/

/-- A chunk that hashes to its key is on the disk. -/
def Disk.Holds (sha : Sha1) (d : Disk) (key : Str) : Prop :=
  ∃ body, storeGet d key = .found body ∧ chunkKey sha body = key

/-- Every chunk on the disk is intact and in the index, and the name of the next write is free. -/
structure Intact (sha : Sha1) (s : ChunkStore) (d : Disk) : Prop where
  mem_keys : ∀ key, key ∈ s.keys ↔ d.Holds sha key
  fresh : ∀ key n, s.nextTmp ≤ n → d.tmp.find? (Disk.tmpName key n) = none

section store
variable {sha : Sha1} {s : ChunkStore} {d : Disk} {key body : Str} {now : ℤ}

theorem storeGet_found_iff : storeGet d key = .found body ↔
    validKey key = true ∧ body.length ≤ MAX_CHUNK ∧ (d.file? key).map File.data = some body := by
  unfold storeGet
  cases hvalid : validKey key with
  | false => simp
  | true =>
    cases hfile : d.file? key with
    | none => simp
    | some f =>
      by_cases hlen : f.data.length > MAX_CHUNK
      · simp only [hlen, not_true_eq_false, if_false, if_true, Option.map_some, Option.some.injEq,
          reduceCtorEq, true_and, false_iff, not_and]
        rintro hle rfl
        omega
      · simp only [hlen, not_true_eq_false, if_false, Option.map_some, Option.some.injEq,
          GetResult.found.injEq, true_and]
        constructor
        · rintro rfl
          exact ⟨Nat.not_lt.mp hlen, rfl⟩
        · exact fun h => h.2

/-- What is read and hashes to its key can be written again. -/
theorem putRefusal_of_found (h : storeGet d key = .found body) (hkey : chunkKey sha body = key) :
    putRefusal sha key body = none := by
  obtain ⟨hvalid, hlen, -⟩ := storeGet_found_iff.mp h
  rw [putRefusal, if_neg (by simp [hvalid]), if_neg (Nat.not_lt.mpr hlen), if_neg (by simp [hkey])]

theorem length_of_putRefusal (h : putRefusal sha key body = none) : body.length ≤ MAX_CHUNK := by
  unfold putRefusal at h
  split at h
  · cases h
  split at h
  · cases h
  · rename_i hlen
    exact Nat.not_lt.mp hlen

theorem writeChunk_ok {n : ℕ} (hfree : d.tmp.find? (Disk.tmpName key n) = none) :
    ∃ d', writeChunk {} key body n d = (true, d') ∧
      (∀ k, d'.file? k = if k = key then some ⟨body, true⟩ else d.file? k) ∧
      ∀ k, d.tmp.find? k = none → d'.tmp.find? k = none := by
  set name := Disk.tmpName key n
  refine ⟨((d.setTmp name ⟨body, true⟩).commit name key ⟨body, true⟩).flushDir key, ?_, fun k => ?_,
    fun k hk => ?_⟩
  · rw [writeChunk, if_neg (by simp [name, hfree]), if_neg (by simp)]
    rfl
  · exact @Disk.file?_commit (d.setTmp name ⟨body, true⟩) k key name ⟨body, true⟩
  · refine Eq.trans SortedMap.find?_erase ?_
    split
    · rfl
    · rename_i hne
      exact (SortedMap.find?_set.trans (if_neg hne)).trans hk

/-- **A chunk can be stored**, and then it is held besides the others. -/
theorem Intact.storePut (h : Intact sha s d) (hput : putRefusal sha key body = none) :
    let out := ChordFs.storePut sha {} now key body s d
    out.1.isHeld = true ∧ out.2.1.keys = insert key s.keys ∧ Intact sha out.2.1 out.2.2 := by
  obtain ⟨hvalid, hkey⟩ := putRefusal_none hput
  by_cases hin : key ∈ s.keys
  · have hheld : ChordFs.storePut sha {} now key body s d = (.alreadyHeld, s.renew key now, d) := by
      simp only [ChordFs.storePut, hput, if_pos hin]
    rw [hheld]
    exact ⟨rfl, (Finset.insert_eq_of_mem hin).symm, ⟨h.mem_keys, h.fresh⟩⟩
  · obtain ⟨d', hwrite, hfile, htmp⟩ :=
      @writeChunk_ok d key body s.nextTmp (h.fresh key s.nextTmp le_rfl)
    have hstored : ChordFs.storePut sha {} now key body s d =
        (.stored, s.draw.add key body.length now, d') := by
      simp only [ChordFs.storePut, hput, if_neg hin, hwrite]
    rw [hstored]
    refine ⟨rfl, rfl,
      ⟨fun k => ?_, fun k n hn => htmp _ (h.fresh k n (Nat.le_trans (Nat.le_succ _) hn))⟩⟩
    change k ∈ insert key s.keys ↔ _
    rw [Finset.mem_insert, h.mem_keys]
    by_cases hk : k = key
    · subst hk
      have hfound : storeGet d' k = .found body := by
        rw [storeGet_found_iff, hfile, if_pos rfl]
        exact ⟨hvalid, length_of_putRefusal hput, rfl⟩
      exact ⟨fun _ => ⟨body, hfound, hkey⟩, fun _ => .inl rfl⟩
    · have hsame : ∀ b, storeGet d' k = .found b ↔ storeGet d k = .found b := by
        intro b
        rw [storeGet_found_iff, storeGet_found_iff, hfile, if_neg hk]
      simp only [Disk.Holds, hsame, hk, false_or]

/-- **A store that is opened over intact files is intact.** -/
theorem intact_storeOpen
    (h : ∀ key f, validKey key = true → d.file? key = some f → f.data.length ≤ MAX_CHUNK ∧
      chunkKey sha f.data = key) :
    Intact sha (storeOpen now d).2.1 (storeOpen now d).2.2 := by
  refine ⟨fun key => ?_, fun _ _ _ => rfl⟩
  have hkeys : key ∈ (storeOpen now d).2.1.keys ↔ (d.file? key).isSome = true ∧
      validKey key = true := by
    change key ∈ (d.chunks.files.keys.filter validKey).toFinset ↔ _
    rw [List.mem_toFinset, List.mem_filter, SortedMap.mem_keys]
    rfl
  rw [hkeys]
  constructor
  · rintro ⟨hfile, hvalid⟩
    obtain ⟨f, hf⟩ := Option.isSome_iff_exists.mp hfile
    obtain ⟨hlen, hchunk⟩ := h key f hvalid hf
    exact ⟨f.data, storeGet_found_iff.mpr ⟨hvalid, hlen, congrArg (Option.map File.data) hf⟩,
      hchunk⟩
  · rintro ⟨body, hget, -⟩
    obtain ⟨hvalid, -, hfile⟩ := storeGet_found_iff.mp hget
    obtain ⟨f, hf, -⟩ := Option.map_eq_some_iff.mp hfile
    exact ⟨Option.isSome_iff_exists.mpr ⟨f, hf⟩, hvalid⟩

end store

/-! ### What holds at all times -/

namespace Cluster

def Holds (w : Cluster) (h : Host) (key : Str) : Prop := key ∈ (w.store h).keys

/-- The process holds the chunk, or a copy is on its way to it. -/
def Due (w : Cluster) (h : Host) (key : Str) : Prop :=
  w.Holds h key ∨ ∃ c ∈ w.copies, c.dest.host = h ∧ c.key = key

/-- Every replica of the chunk has it or will have it. -/
def Covered (R : Members) (r : ℕ) (w : Cluster) (key : Str) : Prop :=
  ∀ q ∈ replicasOf R r key, w.Due q.host key

/-- Nothing is lost. -/
structure Le (w w' : Cluster) : Prop where
  holds : ∀ {h key}, w.Holds h key → w'.Holds h key
  due : ∀ {h key}, w.Due h key → w'.Due h key

theorem Le.refl (w : Cluster) : Le w w := ⟨id, id⟩

theorem Le.trans {w w' w'' : Cluster} (h : Le w w') (h' : Le w' w'') : Le w w'' :=
  ⟨fun hh => h'.holds (h.holds hh), fun hd => h'.due (h.due hd)⟩

theorem Covered.mono {R : Members} {r : ℕ} {w w' : Cluster} {key : Str} (h : Covered R r w key)
    (hle : Le w w') :
    Covered R r w' key :=
  fun q hq => hle.due (h q hq)

/-- The cluster has come from `w₀` by copies that went where they belong: an owner has a chunk it
did not have only if the other replicas have it or will have it. -/
structure Grown (sha : Sha1) (R : Members) (r : ℕ) (w₀ w : Cluster) : Prop where
  wired : WiredRing R r w.ring
  intact : ∀ h, Intact sha (w.store h) (w.disk h)
  copies : ∀ c ∈ w.copies, putRefusal sha c.key c.body = none ∧ c.dest ∈ (replicasOf R r c.key).tail
  known : ∀ {h key}, w.Due h key → ∃ h', w₀.Holds h' key
  owners : ∀ {key}, w.Holds (ownerOf R key).host key →
    w₀.Holds (ownerOf R key).host key ∨ Covered R r w key

section grown
variable {sha : Sha1} {R : Members} {r : ℕ} {w₀ w w' : Cluster} {h : Host} {key body : Str}
  {now : ℤ} {c : Copy} {cs rest : List Copy}

variable {t : Tally} {lands : Copy → Bool} {copies : ℕ} {m : PutMachine}

theorem Grown.reorder (hw : Grown sha R r w₀ w) (hring : w'.ring = w.ring)
    (hstore : w'.store = w.store) (hdisk : w'.disk = w.disk)
    (hcopies : ∀ c, c ∈ w'.copies ↔ c ∈ w.copies) : Grown sha R r w₀ w' ∧ Le w w' := by
  have hholds : ∀ {h key}, w'.Holds h key ↔ w.Holds h key := by
    intro h key
    rw [Holds, hstore]
    rfl
  have hdue : ∀ {h key}, w'.Due h key ↔ w.Due h key := by
    intro h key
    simp only [Due, hholds, hcopies]
  refine ⟨⟨?_, ?_, ?_, ?_, ?_⟩, ⟨hholds.mpr, hdue.mpr⟩⟩
  · rw [hring]
    exact hw.wired
  · rw [hstore, hdisk]
    exact hw.intact
  · exact fun c hc => hw.copies c ((hcopies c).mp hc)
  · exact fun hd => hw.known (hdue.mp hd)
  · intro key ho
    exact (hw.owners (hholds.mp ho)).imp_right fun hcov q hq => hdue.mpr (hcov q hq)

theorem Grown.send (hw : Grown sha R r w₀ w)
    (hcs : ∀ c ∈ cs, putRefusal sha c.key c.body = none ∧ c.dest ∈ (replicasOf R r c.key).tail ∧
      ∃ h, w₀.Holds h c.key) :
    Grown sha R r w₀ (w.withCopies (w.copies ++ cs)) ∧ Le w (w.withCopies (w.copies ++ cs)) := by
  have hdue : ∀ {h key}, w.Due h key → (w.withCopies (w.copies ++ cs)).Due h key := by
    rintro h key (hh | ⟨c, hc, hto⟩)
    · exact .inl hh
    · exact .inr ⟨c, List.mem_append_left cs hc, hto⟩
  refine ⟨⟨hw.wired, hw.intact, fun c hc => ?_, ?_, fun ho => ?_⟩, ⟨id, hdue⟩⟩
  · rcases List.mem_append.mp hc with hc | hc
    · exact hw.copies c hc
    · exact ⟨(hcs c hc).1, (hcs c hc).2.1⟩
  · rintro h key (hh | ⟨c, hc, hto, rfl⟩)
    · exact hw.known (.inl hh)
    · rcases List.mem_append.mp hc with hc | hc
      · exact hw.known (.inr ⟨c, hc, hto, rfl⟩)
      · exact (hcs c hc).2.2
  · exact (hw.owners ho).imp_right fun hcov q hq => hdue (hcov q hq)

theorem Grown.arrived (hw : Grown sha R r w₀ (w.withCopies (c :: cs)))
    (hheld : w.Holds c.dest.host c.key) :
    Grown sha R r w₀ (w.withCopies cs) ∧ Le (w.withCopies (c :: cs)) (w.withCopies cs) := by
  have hdue : ∀ {h key}, (w.withCopies (c :: cs)).Due h key → (w.withCopies cs).Due h key := by
    rintro h key (hh | ⟨c', hc', hto, rfl⟩)
    · exact .inl hh
    · rcases List.mem_cons.mp hc' with rfl | hc'
      · rw [← hto]
        exact .inl hheld
      · exact .inr ⟨c', hc', hto, rfl⟩
  refine ⟨⟨hw.wired, hw.intact, fun c' hc' => hw.copies c' (List.mem_cons_of_mem c hc'), ?_,
    fun ho => ?_⟩, ⟨id, hdue⟩⟩
  · rintro h key (hh | ⟨c', hc', hto⟩)
    · exact hw.known (.inl hh)
    · exact hw.known (.inr ⟨c', List.mem_cons_of_mem c hc', hto⟩)
  · exact (hw.owners ho).imp_right fun hcov q hq => hdue (hcov q hq)

/-- The process stores a chunk. -/
def stores (sha : Sha1) (now : ℤ) (w : Cluster) (h : Host) (key body : Str) : Cluster :=
  w.setStore h (storePut sha {} now key body (w.store h) (w.disk h)).2

theorem holds_stores (hw : Intact sha (w.store h) (w.disk h))
    (hput : putRefusal sha key body = none) {h' : Host} {key' : Str} :
    (w.stores sha now h key body).Holds h' key' ↔ w.Holds h' key' ∨ h' = h ∧ key' = key := by
  obtain ⟨-, hkeys, -⟩ := @Intact.storePut _ _ _ _ _ now hw hput
  by_cases hh : h' = h
  · subst hh
    simp only [Holds, stores, setStore, Function.update_self, hkeys, Finset.mem_insert,
      true_and, or_comm]
  · simp only [Holds, stores, setStore, Function.update_of_ne hh, hh, false_and, or_false]

/-- **A process stores a chunk of the cluster.**  The owner may do so if the others have it or will
have it. -/
theorem Grown.stores (hw : Grown sha R r w₀ w) (hput : putRefusal sha key body = none)
    (hknown : ∃ h', w₀.Holds h' key)
    (howner : h = (ownerOf R key).host → ∀ q ∈ (replicasOf R r key).tail, w.Due q.host key) :
    Grown sha R r w₀ (w.stores sha now h key body) ∧ Le w (w.stores sha now h key body) ∧
      (w.stores sha now h key body).Holds h key := by
  have hholds : ∀ {h' key'}, (w.stores sha now h key body).Holds h' key' ↔
      w.Holds h' key' ∨ h' = h ∧ key' = key := holds_stores (hw.intact h) hput
  have hdue : ∀ {h' key'}, (w.stores sha now h key body).Due h' key' ↔
      w.Due h' key' ∨ h' = h ∧ key' = key := by
    intro h' key'
    rw [Due, hholds, or_right_comm]
    rfl
  have hle : Le w (w.stores sha now h key body) :=
    ⟨fun hh => hholds.mpr (.inl hh), fun hd => hdue.mpr (.inl hd)⟩
  refine ⟨⟨hw.wired, fun h' => ?_, hw.copies, fun hd => ?_, fun ho => ?_⟩, hle,
    hholds.mpr (.inr ⟨rfl, rfl⟩)⟩
  · by_cases hh : h' = h
    · subst hh
      simp only [Cluster.stores, setStore, Function.update_self]
      exact (@Intact.storePut _ _ _ _ _ now (hw.intact h') hput).2.2
    · simp only [Cluster.stores, setStore, Function.update_of_ne hh]
      exact hw.intact h'
  · rcases hdue.mp hd with hd | ⟨-, rfl⟩
    · exact hw.known hd
    · exact hknown
  · rcases hholds.mp ho with ho | ⟨hh, rfl⟩
    · exact (hw.owners ho).imp_right fun hcov => hcov.mono hle
    · -- the owner has just stored it
      right
      intro q hq
      rw [replicasOf_eq] at hq
      rcases List.mem_cons.mp hq with rfl | hq
      · exact hdue.mpr (.inr ⟨hh, rfl⟩)
      · exact hdue.mpr (.inl (howner hh.symm q hq))

theorem receive_eq (hput : putRefusal sha c.key c.body = none) :
    (w.receive sha now c).2 = w.stores sha now c.dest.host c.key c.body := by
  rw [receive, handleStore_storeLine (putRefusal_none hput).1]
  rfl

theorem Grown.receive (hw : Grown sha R r w₀ (w.withCopies (c :: cs))) :
    Grown sha R r w₀ ((w.receive sha now c).2.withCopies cs) ∧
      Le (w.withCopies (c :: cs)) ((w.receive sha now c).2.withCopies cs) := by
  obtain ⟨hput, hdest⟩ := hw.copies c List.mem_cons_self
  have hknown := hw.known (.inr ⟨c, List.mem_cons_self, rfl, rfl⟩)
  have hstores := @Grown.stores sha R r w₀ _ c.dest.host c.key c.body now hw hput hknown
    fun he => absurd he (host_ne_of_mem_tail hdest)
  have harrived := hstores.1.arrived hstores.2.2
  rw [receive_eq hput]
  exact ⟨harrived.1, hstores.2.1.trans harrived.2⟩

/-- **Copies land.** -/
theorem Grown.receiveAll (hw : Grown sha R r w₀ (w.withCopies (cs ++ rest))) :
    Grown sha R r w₀ ((Cluster.receiveAll sha now cs t w).2.withCopies rest) ∧
      Le (w.withCopies (cs ++ rest)) ((Cluster.receiveAll sha now cs t w).2.withCopies rest) := by
  induction cs generalizing w t with
  | nil => exact ⟨hw, Le.refl _⟩
  | cons c cs ih =>
    obtain ⟨hone, hle⟩ := @Grown.receive sha R r w₀ w now c (cs ++ rest) hw
    obtain ⟨hall, hle'⟩ := ih hone
    exact ⟨hall, hle.trans hle'⟩

theorem mem_filter_append {l : List Copy} :
    c ∈ l.filter lands ++ l.filter (fun c => ¬ lands c) ↔ c ∈ l := by
  rw [List.mem_append, List.mem_filter, List.mem_filter, ← and_or_left]
  simp

/-- **What lands before a question changes nothing for the worse.** -/
theorem Grown.land (hw : Grown sha R r w₀ w) :
    Grown sha R r w₀ (w.land sha now lands) ∧ Le w (w.land sha now lands) := by
  obtain ⟨hsplit, hle⟩ := @Grown.reorder sha R r w₀ w
    (w.withCopies (w.copies.filter lands ++ w.copies.filter fun c => ¬ lands c)) hw rfl rfl rfl
    fun c => mem_filter_append
  obtain ⟨hall, hle'⟩ := hsplit.receiveAll
  exact ⟨hall, hle.trans hle'⟩

theorem copies_receiveAll : (Cluster.receiveAll sha now cs t w).2.copies = w.copies := by
  induction cs generalizing w t with
  | nil => rfl
  | cons c cs ih => exact ih

theorem Grown.receiveSent (hw : Grown sha R r w₀ (w.withCopies (w.copies ++ cs))) :
    Grown sha R r w₀ (Cluster.receiveAll sha now cs t w).2 ∧
      Le (w.withCopies (w.copies ++ cs)) (Cluster.receiveAll sha now cs t w).2 := by
  obtain ⟨hswap, hleSwap⟩ :=
    @Grown.reorder sha R r w₀ _ (w.withCopies (cs ++ w.copies)) hw rfl rfl rfl fun c => by
    change c ∈ cs ++ w.copies ↔ c ∈ w.copies ++ cs
    rw [List.mem_append, List.mem_append, or_comm]
  obtain ⟨hall, hle⟩ := @Grown.receiveAll sha R r w₀ w now cs w.copies t hswap
  have hsame : (Cluster.receiveAll sha now cs t w).2.withCopies w.copies =
      (Cluster.receiveAll sha now cs t w).2 := by
    rw [← @copies_receiveAll sha w now cs t]
    rfl
  rw [hsame] at hall hle
  exact ⟨hall, hleSwap.trans hle⟩

theorem Grown.answered (hm : m.coord.isAnswered = false)
    (hw : Grown sha R r w₀ (w.withCopies (w.copies ++ m.copies.map fun c => ⟨c.1, key, body⟩))) :
    Grown sha R r w₀ (w.write sha now lands key body copies m).2 ∧
      Le (w.withCopies (w.copies ++ m.copies.map fun c => ⟨c.1, key, body⟩))
        (w.write sha now lands key body copies m).2 := by
  generalize hsent : (m.copies.map fun c => (⟨c.1, key, body⟩ : Copy)) = sent at hw ⊢
  obtain ⟨hsplit, hleSplit⟩ := @Grown.reorder sha R r w₀ _
    (w.withCopies (sent.filter lands ++ (w.copies ++ sent.filter fun c => ¬ lands c))) hw rfl rfl
      rfl fun c => by
      change c ∈ sent.filter lands ++ (w.copies ++ sent.filter fun c => ¬ lands c) ↔
        c ∈ w.copies ++ sent
      rw [List.mem_append, List.mem_append, List.mem_append, or_left_comm, ← List.mem_append,
        mem_filter_append]
  obtain ⟨hearly, hleEarly⟩ := @Grown.receiveAll sha R r w₀ _ now _ _ m.tally hsplit
  unfold Cluster.write
  split
  · rename_i hanswered
    rw [hanswered] at hm
    cases hm
  · rw [hsent]
    dsimp only
    split
    · exact ⟨hearly, hleSplit.trans hleEarly⟩
    · rw [← @copies_receiveAll sha w now (sent.filter lands) m.tally] at hearly
      obtain ⟨hlate, hleLate⟩ := hearly.receiveSent
      rw [copies_receiveAll] at hleLate
      exact ⟨hlate, (hleSplit.trans hleEarly).trans hleLate⟩

/-- **The owner coordinates a write**: it has the chunk then, and the others have it or will have
it. -/
theorem Grown.write (hw : Grown sha R r w₀ w) (hput : putRefusal sha key body = none)
    (hknown : ∃ h', w₀.Holds h' key) (hm : m.coord.isAnswered = false)
    (hcopies : m.copies.map Prod.fst = (replicasOf R r key).tail) :
    let w' := ((w.stores sha now h key body).write sha now lands key body copies m).2
    Grown sha R r w₀ w' ∧ Le w w' ∧ w'.Holds h key := by
  have hsent : (m.copies.map fun c => (⟨c.1, key, body⟩ : Copy)) =
      (replicasOf R r key).tail.map fun p => ⟨p, key, body⟩ := by
    rw [← hcopies, List.map_map]
    rfl
  have hright : ∀ c ∈ m.copies.map fun c => (⟨c.1, key, body⟩ : Copy), putRefusal sha c.key c.body =
      none ∧ c.dest ∈ (replicasOf R r c.key).tail ∧ ∃ h, w₀.Holds h c.key := by
    rw [hsent]
    intro c hc
    obtain ⟨p, hp, rfl⟩ := List.mem_map.mp hc
    exact ⟨hput, hp, hknown⟩
  -- the copies are sent, and the owner stores the chunk
  obtain ⟨hadd, hleAdd⟩ := hw.send hright
  obtain ⟨hstore, hleStore, hheld⟩ := @Grown.stores sha R r w₀ _ h key body now hadd hput hknown
    fun _ q hq => by
    refine .inr ⟨⟨q, key, body⟩, List.mem_append_right _ ?_, rfl, rfl⟩
    rw [hsent]
    exact List.mem_map_of_mem hq
  obtain ⟨hanswered, hleAnswered⟩ :=
    @Grown.answered sha R r w₀ (w.stores sha now h key body) key body now lands copies
    m hm hstore
  exact ⟨hanswered, (hleAdd.trans hleStore).trans hleAnswered, hleAnswered.holds hheld⟩

end grown

/-- The world of the rounds. -/
def growth (sha : Sha1) (R : Members) (r : ℕ) (w₀ : Cluster) : Growth Cluster where
  inv := Grown sha R r w₀
  le := Le
  refl := Le.refl
  trans := Le.trans

end Cluster

end ChordFs
