import ChordFs.ManifestTree
import ChordFs.Transfer

/-! # Downloads are all or nothing

Whatever fails on the way, a download that is not ok has left the destination as it was and no part
file; one that is ok has put the whole file there.  The first half is a walk through the exits of
`download_file`.  For the second the workers must not disturb each other: chunk `i` belongs to job
`i`, the chunks of a resolved file tile it, and a job writes nothing outside its chunk
(`good_downloadChunk`).  So when the pool is through, every chunk is in its place
(`runPool_done`). -/

namespace ChordFs

open Text Dialogue Workers Tiling

/-! ### Jobs over what is shared -/

section jobs
variable {τ : Type} {P : Parts τ TransferAsk TransferAsk.Reply} {i : ℕ} {s : Shared τ}

/-- The parts of what the workers work on.  The message of the first failure belongs to nobody. -/
def sharedParts (P : Parts τ TransferAsk TransferAsk.Reply) :
    Parts (Shared τ) TransferAsk TransferAsk.Reply where
  same i s s' := P.same i s.work s'.work
  refl i s := P.refl i s.work
  trans i s s' s'' := P.trans i s.work s'.work s''.work
  allowed := P.allowed
  post i s := P.post i s.work
  stable i s s' := P.stable i s.work s'.work

theorem good_failureSet (why : Str) : (sharedParts P).Good i (failureSet why) s := by
  intro stop s' _
  refine ⟨fun j _ => P.refl j _, fun h => ?_⟩
  cases h

theorem does_workOn {f : τ → τ} {post : Unit → Shared τ → Prop}
    (h : ∀ s' : Shared τ, P.same i s.work s'.work → (∀ j, j ≠ i → P.same j s'.work (f s'.work)) ∧
      post () { s' with work := f s'.work }) :
    (sharedParts P).Does i post (workOn f) s :=
  fun _ s' hs => h s' hs

theorem does_attempts {q : TransferAsk} {ok : q.Reply → Bool} (more : ℕ) :
    (sharedParts P).Does i (fun a s' => P.allowed q a ∧ P.same i s.work s'.work)
      (attempts (request q) ok more) s := by
  induction more generalizing s with
  | zero => exact fun a ha => ⟨ha, P.refl i _⟩
  | succ more ih =>
    refine Parts.Does.bind fun a ha => ?_
    change (sharedParts P).Does i _ (if ok a = true then pure a else _) s
    split
    · exact ⟨ha, P.refl i _⟩
    · intro stop s' hs
      refine ⟨fun j _ => P.refl j _, ?_⟩
      change (sharedParts P).Does i _ (if stop = true then pure a else _) s'
      split
      · exact ⟨ha, hs⟩
      · exact ih.mono fun a s'' hpost => ⟨hpost.1, P.trans i _ _ _ hs hpost.2⟩

/-- **What a pool has done that returns true.** -/
theorem runPool_done {W : Work (Shared τ) TransferAsk TransferAsk.Reply} {workers : ℤ} {threads : ℕ}
    {beats : TransferBeats} {data : Shared τ}
    (hgood : ∀ i < W.count, ∀ s, (∀ j, W.count ≤ j → P.same j data.work s.work) →
      (sharedParts P).Good i (W.job i) s)
    (hallow : ∀ t q a, Beat.answer t q a ∈ beats → P.allowed q a)
    (h : runPool W workers threads beats data = some (true, s)) :
    (∀ i < W.count, P.post i s.work) ∧ ∀ j, W.count ≤ j → P.same j data.work s.work := by
  rw [runPool] at h
  split at h
  · cases h
  rename_i C hrun
  split at h
  · rename_i hgone
    simp only [Option.some.injEq, Prod.mk.injEq, Bool.not_eq_true'] at h
    obtain ⟨hstop, rfl⟩ := h
    refine exec_all_done (P := sharedParts P) (Nat.lt_of_lt_of_le Nat.one_pos (le_max_left _ _))
      hgood ?_ hrun hgone hstop
    intro b hb
    cases b with
    | step t => trivial
    | answer t q a => exact hallow t q a hb
    | throw t => trivial
  · cases h

/-- **The pool runs each job once.**  However the workers move and however many of them there are,
each number below the count is begun at most once and no other is; the pool returns true exactly if
each was begun and came to a good end; and once the workers are to stop, each begins at most one
more job. -/
theorem runPool_runs_each_once {W : Work (Shared τ) TransferAsk TransferAsk.Reply} {workers : ℤ}
    {threads : ℕ} {beats : TransferBeats} {data : Shared τ}
    {C : Crew (Shared τ) TransferAsk TransferAsk.Reply}
    (hrun : Runs.exec W.step? (Crew.start data (poolWorkers W.count workers threads))
      beats = some C) :
    let start := Crew.start data (poolWorkers W.count workers threads)
    let jobs := (W.begun start beats).map Prod.snd
    jobs.Nodup ∧ (∀ i ∈ jobs, i < W.count) ∧
    (∀ ok s, runPool W workers threads beats data = some (ok, s) →
      (ok = true ↔ ∀ i < W.count, i ∈ jobs ∧ i ∈ C.finished)) ∧
    ∀ before after C', beats = before ++ after → Runs.exec W.step? start before = some C' →
      C'.stop = true → ((W.begun C' after).map Prod.fst).Nodup := by
  intro start jobs
  have hjobs : jobs = List.range (min C.next W.count) := by
    rw [← range_begun hrun]
    simp [jobs, start, Crew.start]
  refine ⟨hjobs ▸ List.nodup_range, fun i hi => ?_, fun ok s h => ?_, ?_⟩
  · rw [hjobs, List.mem_range] at hi
    omega
  · rw [runPool, hrun] at h
    dsimp only at h
    split at h
    · rename_i hgone
      obtain ⟨rfl, -⟩ := Prod.mk.inj (Option.some.inj h)
      obtain ⟨hiff, htaken⟩ :=
        finished_of_exec (Nat.lt_of_lt_of_le Nat.one_pos (le_max_left _ _)) hrun hgone
      rw [Bool.not_eq_true', hiff]
      refine forall₂_congr fun i hi => ⟨fun hfin => ⟨?_, hfin⟩, fun h => h.2⟩
      have := htaken i hfin
      rw [hjobs, List.mem_range]
      omega
    · cases h
  · rintro before after C' rfl hbefore hstop
    rw [Runs.exec_append, hbefore, Option.bind_some] at hrun
    exact (begun_of_stop hstop hrun).1

/-- Two workers on three jobs, of which the first fails: one of them has looked before it was to
stop, and begins another. -/
def failingPool : TransferBeats :=
  [.step 0, .step 0, .step 1, .step 0, .step 0, .step 1, .step 1, .step 0, .step 1]

theorem runPool_runs_each_once_failing :
    let W : Work (Shared Unit) TransferAsk TransferAsk.Reply := ⟨3, fun i => .done (i ≠ 0)⟩
    (W.begun (Crew.start ⟨[], ()⟩ 2) failingPool = [(0, 0), (1, 1)]) ∧
      runPool W 2 2 failingPool ⟨[], ()⟩ = some (false, ⟨[], ()⟩) ∧
      ((W.begun (Crew.start ⟨[], ()⟩ 2) failingPool).map Prod.snd).Nodup := by
  intro W
  have hrun : ∃ C, Runs.exec W.step? (Crew.start ⟨[], ()⟩ (poolWorkers W.count 2 2)) failingPool =
      some C := ⟨_, rfl⟩
  obtain ⟨C, hrun⟩ := hrun
  exact ⟨rfl, rfl, (runPool_runs_each_once hrun).1⟩

end jobs

/-! ### Bytes in their places -/

section bytes
variable {bytes data : Str} {o x : ℕ}

theorem length_writeAt (h : o + data.length ≤ bytes.length) :
    (writeAt bytes o data).length = bytes.length := by
  simp only [writeAt, List.length_append, List.length_take, List.length_replicate, List.length_drop]
  omega

theorem getElem?_writeAt (h : o + data.length ≤ bytes.length) :
    (writeAt bytes o data)[x]? = if o ≤ x ∧ x < o + data.length then data[x - o]?
      else bytes[x]? := by
  have hpad : o - bytes.length = 0 := by omega
  have hlen : (bytes.take o).length = o := by
    rw [List.length_take]
    omega
  rw [writeAt, hpad, List.replicate_zero, List.append_nil, List.append_assoc]
  rcases Nat.lt_or_ge x o with hlt | hge
  · rw [if_neg (by omega), List.getElem?_append_left (by omega), List.getElem?_take_of_lt hlt]
  · rw [List.getElem?_append_right (by omega), hlen]
    by_cases hin : x < o + data.length
    · rw [if_pos ⟨hge, hin⟩, List.getElem?_append_left (by omega)]
    · rw [if_neg (fun h => hin h.2), List.getElem?_append_right (by omega), List.getElem?_drop]
      congr 1
      omega

end bytes

/-- The ring has answered a request for the key with these bytes. -/
def Fetched (beats : TransferBeats) (key body : Str) : Prop :=
  ∃ (t : ℕ) (message : Str), Beat.answer t (.get key) (⟨true, body, message⟩ : GetOutcome) ∈ beats

/-- Chunk `i` of the part file belongs to job `i`. -/
def fileParts (chunks : List ChunkRef) (beats : TransferBeats) :
    Parts Str TransferAsk TransferAsk.Reply where
  same i b b' := b'.length = b.length ∧
    ∀ c, chunks[i]? = some c → ∀ x, c.offset ≤ x → x < c.offset + c.bytes → b'[x]? = b[x]?
  refl i b := ⟨rfl, fun _ _ _ _ _ => rfl⟩
  trans i b b' b'' h h' :=
    ⟨h'.1.trans h.1, fun c hc x hlo hhi => (h'.2 c hc x hlo hhi).trans (h.2 c hc x hlo hhi)⟩
  allowed q a := ∃ t, Beat.answer t q a ∈ beats
  post i b := ∀ c, chunks[i]? = some c →
    ∃ body, Fetched beats c.key body ∧ body.length = c.bytes ∧
      ∀ x < c.bytes, b[c.offset + x]? = body[x]?
  stable i b b' hpost h c hc := by
    obtain ⟨body, hfetched, hlen, hbytes⟩ := hpost c hc
    refine ⟨body, hfetched, hlen, fun x hx => ?_⟩
    rw [h.2 c hc (c.offset + x) (by omega) (by omega)]
    exact hbytes x hx

section file
variable {chunks : List ChunkRef} {beats : TransferBeats} {i : ℕ} {c : ChunkRef}
variable {s : Shared Str}

section
variable (hc : chunks[i]? = some c)
  (hothers : ∀ j d, j ≠ i → chunks[j]? = some d → c.offset + c.bytes ≤ d.offset ∨
    d.offset + d.bytes ≤ c.offset)
include hc hothers

/-- **A chunk is written, and nothing else.**  What is left of it, `rest`, goes to `o` and what lies
before that in the chunk stays. -/
theorem does_pwriteAll {rest : Str} {o : ℕ} (rounds : ℕ) (hlo : c.offset ≤ o)
    (hhi : o + rest.length ≤ c.offset + c.bytes) (hin : c.offset + c.bytes ≤ s.work.length) :
    (sharedParts (fileParts chunks beats)).Does i
      (fun r s' => r = none → s'.work.length = s.work.length ∧
        (∀ x, c.offset ≤ x → x < o → s'.work[x]? = s.work[x]?) ∧
        ∀ x < rest.length, s'.work[o + x]? = rest[x]?)
      (pwriteAll rounds rest o) s := by
  induction rounds generalizing rest o s with
  | zero =>
    cases rest with
    | nil => exact fun _ => ⟨rfl, fun _ _ _ => rfl, fun x hx => absurd hx (Nat.not_lt_zero x)⟩
    | cons ch rest =>
      intro h
      cases h
  | succ rounds ih =>
    cases rest with
    | nil => exact fun _ => ⟨rfl, fun _ _ _ => rfl, fun x hx => absurd hx (Nat.not_lt_zero x)⟩
    | cons ch rest =>
      generalize hdata : ch :: rest = data at hhi
      have hunfold : pwriteAll (rounds + 1) data o = (do
          let n ← (request (.pwrite o data.length) : Job Str (Written data.length))
          if n.moved = 0 then pure (some n.error)
          else
            workOn fun bytes => writeAt bytes o (data.take n.moved)
            pwriteAll rounds (data.drop n.moved) (o + n.moved)) := by
        subst hdata
        rfl
      rw [hunfold]
      refine Parts.Does.bind fun n hn => ?_
      clear hn
      change (sharedParts (fileParts chunks beats)).Does i _
        (if Written.moved n = 0 then _ else _) s
      have hle : Written.moved n ≤ data.length := Written.moved_le n
      generalize Written.moved n = moved at hle ⊢
      split
      · intro h
        cases h
      have hmoved : (data.take moved).length = moved := by
        rw [List.length_take]
        omega
      refine Parts.Does.bind (does_workOn fun s' hs => ?_)
      have hin' : o + (data.take moved).length ≤ s'.work.length := by
        rw [hs.1, hmoved]
        omega
      refine ⟨fun j hj => ⟨length_writeAt hin', fun d hd x hlo' hhi' => ?_⟩, ?_⟩
      · rw [getElem?_writeAt hin', if_neg]
        rw [hmoved]
        have := hothers j d hj hd
        omega
      · refine (ih (s := { s' with work := writeAt s'.work o (data.take moved) }) (by omega)
          (by rw [List.length_drop]; omega) (by
            dsimp only
            rw [length_writeAt hin', hs.1]
            exact hin)).mono fun r s'' hpost hr => ?_
        obtain ⟨hlen, hbefore, hafter⟩ := hpost hr
        dsimp only at hlen hbefore
        refine ⟨?_, fun x hxlo hxo => ?_, fun x hx => ?_⟩
        · rw [hlen, length_writeAt hin', hs.1]
        · rw [hbefore x hxlo (by omega), getElem?_writeAt hin', if_neg (by omega)]
          exact hs.2 c hc x hxlo (by omega)
        · -- written now, or by the rounds that follow
          rcases Nat.lt_or_ge x moved with hlt | hge
          · rw [hbefore (o + x) (by omega) (by omega), getElem?_writeAt hin', hmoved,
              if_pos (by omega), Nat.add_sub_cancel_left, List.getElem?_take_of_lt hlt]
          · have hrest := hafter (x - moved) (by rw [List.length_drop]; omega)
            rw [List.getElem?_drop, Nat.add_assoc, Nat.add_sub_cancel' hge] at hrest
            exact hrest

/-- **The job of a chunk minds its own part.** -/
theorem good_downloadChunk (hin : c.offset + c.bytes ≤ s.work.length) :
    (sharedParts (fileParts chunks beats)).Good i (downloadChunk i c) s := by
  refine Parts.Does.bind ((does_attempts (CHUNK_ATTEMPTS - 1)).mono ?_)
  rintro (g : GetOutcome) s₁ ⟨⟨t, ht⟩, hs₁⟩
  change (sharedParts (fileParts chunks beats)).Does i _ (if ¬ g.ok = true then _ else _) s₁
  split
  · exact good_failureSet _
  rename_i hok
  rw [not_not] at hok
  split
  · exact good_failureSet _
  rename_i hlen
  rw [not_not] at hlen
  refine Parts.Does.bind ((does_pwriteAll hc hothers g.body.length le_rfl (by omega)
    (by rw [hs₁.1]; exact hin)).mono fun r s₂ hpost => ?_)
  cases r with
  | some e => exact good_failureSet _
  | none =>
    obtain ⟨-, -, hbytes⟩ := hpost rfl
    intro _ c' hc'
    rw [hc, Option.some.injEq] at hc'
    subst hc'
    refine ⟨g.body, ⟨t, g.message, ?_⟩, hlen, fun x hx => hbytes x (by omega)⟩
    have hg : (⟨true, g.body, g.message⟩ : GetOutcome) = g := by rw [← hok]
    rw [hg]
    exact ht

end

/-- The chunks of a file that was resolved do not touch each other. -/
theorem Frontier.apart {r : Resolved} (h : Frontier r []) {j : ℕ} {d : ChunkRef}
    (hc : r.chunks[i]? = some c) (hd : r.chunks[j]? = some d) (hne : j ≠ i) :
    c.offset + c.bytes ≤ d.offset ∨ d.offset + d.bytes ≤ c.offset := by
  have htiles := h.tiles
  rw [List.map_nil, List.append_nil] at htiles
  have hpair := List.pairwise_iff_getElem.mp (List.pairwise_map.mp htiles.disjoint)
  obtain ⟨hi, rfl⟩ := List.getElem?_eq_some_iff.mp hc
  obtain ⟨hj, rfl⟩ := List.getElem?_eq_some_iff.mp hd
  rcases Nat.lt_or_gt_of_ne hne with hlt | hgt
  · exact (hpair j i hj hi hlt).symm
  · exact hpair i j hi hj hgt

theorem Frontier.inside {r : Resolved} (h : Frontier r []) (hc : c ∈ r.chunks) :
    c.offset + c.bytes ≤ r.size := by
  have htiles := h.tiles
  rw [List.map_nil, List.append_nil] at htiles
  exact (htiles.inside (List.mem_map_of_mem hc)).2

/-- **A pool that is through has written the file.** -/
theorem downloadJobs_done {r : Resolved} (hr : Frontier r []) {workers : ℤ} {threads : ℕ}
    {bytes : Str} (hsize : bytes.length = r.size)
    (h : runPool (downloadJobs r.chunks) workers threads beats ⟨[], bytes⟩ = some (true, s)) :
    s.work.length = r.size ∧ ∀ c ∈ r.chunks, ∃ body, Fetched beats c.key body ∧
    body.length = c.bytes ∧
      ∀ x < c.bytes, s.work[c.offset + x]? = body[x]? := by
  have hgood : ∀ i < (downloadJobs r.chunks).count, ∀ s' : Shared Str,
      (∀ j, (downloadJobs r.chunks).count ≤ j → (fileParts r.chunks beats).same j bytes s'.work) →
      (sharedParts (fileParts r.chunks beats)).Good i ((downloadJobs r.chunks).job i) s' := by
    intro i hi s' hs'
    have hlen : s'.work.length = r.size := (hs' _ le_rfl).1.trans hsize
    have hc : r.chunks[i]? = some r.chunks[i] := List.getElem?_eq_getElem hi
    have hjob : (downloadJobs r.chunks).job i = downloadChunk i r.chunks[i] := by
      simp only [downloadJobs, hc]
    rw [hjob]
    refine good_downloadChunk hc (fun j d hj hd => hr.apart hc hd hj) ?_
    rw [hlen]
    exact hr.inside (List.getElem_mem hi)
  obtain ⟨hpost, hrest⟩ :=
    runPool_done (P := fileParts r.chunks beats) hgood (fun t q a hb => ⟨t, hb⟩) h
  refine ⟨(hrest _ le_rfl).1.trans hsize, fun c hc => ?_⟩
  obtain ⟨i, hi⟩ := List.mem_iff_getElem?.mp hc
  exact hpost i (List.getElem?_eq_some_iff.mp hi).1 c hi

end file

/-! ### The exits -/

section exits
variable {files files' : Files} {part path dest : Str} {out out' : DownloadOutcome}
  {w : DownloadWorld}

/-- Nothing has changed but, at most, that something under `part` is gone. -/
def Untouched (files : Files) (part : Str) (files' : Files) : Prop :=
  (∀ p, p ≠ part → files' p = files p) ∧ (files part = none → files' part = none)

theorem untouched_refl : Untouched files part files := ⟨fun _ _ => rfl, id⟩

theorem untouched_unlink : Untouched files part (files.unlink part) := by
  rw [Files.unlink]
  split
  · exact untouched_refl
  · exact ⟨fun p hp => if_neg hp, fun _ => if_pos rfl⟩

theorem untouched_unlink_set (bytes : Str) :
    Untouched files part ((files.set part (some (.file bytes))).unlink part) := by
  have hset : files.set part (some (.file bytes)) part = some (.file bytes) := if_pos rfl
  rw [Files.unlink, hset, if_neg (by simp)]
  refine ⟨fun p hp => ?_, fun _ => if_pos rfl⟩
  rw [Files.set, if_neg hp, Files.set, if_neg hp]

theorem set_set (node node' : Option FileNode) :
    (files.set part node).set part node' = files.set part node' := by
  funext p
  simp only [Files.set]
  split <;> rfl

theorem create_eq_ok {error : Option Str} (h : files.create part error = .ok files') :
    files part = none ∧ files' = files.set part (some (.file [])) := by
  unfold Files.create at h
  split at h
  · cases h
  rename_i hfree
  split at h
  · cases h
  · exact ⟨not_not.mp hfree, (Except.ok.inj h).symm⟩

theorem length_sizeNew {size : ℕ} {error : Option Str} {bytes : Str}
    (h : sizeNew size error = .ok bytes) : bytes.length = size := by
  unfold sizeNew at h
  split at h
  · cases h
  split at h
  · cases h
  · rw [← Except.ok.inj h, List.length_replicate]

/-- Where a download can end from the part file on: it was given up, or the part file was put in
place. -/
theorem publish_cases {bytes : Str} (hout : out.ok = false) (hne : dest ≠ part)
    (h : publish w out (files.set part (some (.file bytes))) part dest = (out', files')) :
    (out'.ok = false ∧ Untouched files part files') ∨
      (out'.ok = true ∧ (∀ p, p ≠ part → p ≠ dest → files' p = files p) ∧
        files' dest = some (.file bytes) ∧
        files' part = none) := by
  rw [publish] at h
  split at h
  · cases h
    exact .inl ⟨hout, untouched_unlink_set bytes⟩
  split at h
  · cases h
    exact .inl ⟨hout, untouched_unlink_set bytes⟩
  split at h
  · cases h
    exact .inl ⟨hout, untouched_unlink_set bytes⟩
  · cases h
    refine .inr ⟨rfl, fun p hp hd => ?_, ?_, if_pos rfl⟩
    · rw [Files.rename, Files.set, if_neg hp, Files.set, if_neg hd, Files.set, if_neg hp]
    · rw [Files.rename, Files.set, if_neg hne, Files.set, if_pos rfl, Files.set, if_pos rfl]

theorem downloadChunks_cases {opt : TransferOptions} {r : Resolved} (hr : Frontier r [])
    (hout : out.ok = false) (hne : dest ≠ part)
    (h : downloadChunks opt r w out files part dest = some (out', files')) :
    (out'.ok = false ∧ Untouched files part files') ∨
      (out'.ok = true ∧ (files part = none ∧ ∀ p, p ≠ part → p ≠ dest → files' p = files p) ∧
        files' part = none ∧ ∃ bytes, files' dest = some (.file bytes) ∧ bytes.length = r.size ∧
        ∀ c ∈ r.chunks, ∃ body, Fetched w.beats c.key body ∧ body.length = c.bytes ∧
          ∀ x < c.bytes, bytes[c.offset + x]? = body[x]?) := by
  rw [downloadChunks] at h
  split at h
  · cases h
    exact .inl ⟨hout, untouched_unlink⟩
  rename_i files₁ hcreate
  obtain ⟨hfree, rfl⟩ := create_eq_ok hcreate
  split at h
  · cases h
    exact .inl ⟨hout, untouched_unlink_set []⟩
  rename_i start hsized
  split at h
  · cases h
  · cases h
    rw [set_set]
    exact .inl ⟨hout, untouched_unlink_set _⟩
  · rename_i s hpool
    rw [set_set] at h
    obtain ⟨hlen, hchunks⟩ := downloadJobs_done hr (length_sizeNew hsized) hpool
    refine (publish_cases hout hne (Option.some.inj h)).imp id ?_
    rintro ⟨hok, hothers, hdest, hpart⟩
    exact ⟨hok, ⟨hfree, hothers⟩, hpart, s.work, hdest, hlen, hchunks⟩

end exits

theorem partPath_ne (dest : Path) (w : DownloadWorld) : dest.text ≠ partPath dest w := by
  intro h
  have hlen := congrArg List.length h
  have hname : ".part-".toList.length = 6 := rfl
  rw [partPath, List.length_append, List.length_append, List.length_append, List.length_cons,
    hname] at hlen
  omega

theorem downloadFile_cases {opt : TransferOptions} {rootKey : Str} {dest : Path} {w : DownloadWorld}
    {files files' : Files} {out : DownloadOutcome}
    (hrun : downloadFile opt rootKey dest w files = some (out, files')) :
    (out.ok = false ∧ Untouched files (partPath dest w) files') ∨
      (out.ok = true ∧ (w.resolved rootKey).ok = true ∧
        (files (partPath dest w) = none ∧ ∀ p, p ≠ partPath dest w → p ≠ dest.text →
          files' p = files p) ∧
        files' (partPath dest w) = none ∧ ∃ bytes, files' dest.text = some (.file bytes) ∧
        bytes.length = (w.resolved rootKey).size ∧
        ∀ c ∈ (w.resolved rootKey).chunks, ∃ body, Fetched w.beats c.key body ∧
        body.length = c.bytes ∧
          ∀ x < c.bytes, bytes[c.offset + x]? = body[x]?) := by
  rw [downloadFile] at hrun
  split at hrun
  · cases hrun
    exact .inl ⟨rfl, untouched_refl⟩
  split at hrun
  · cases hrun
    exact .inl ⟨rfl, untouched_refl⟩
  dsimp only at hrun
  split at hrun
  · cases hrun
    exact .inl ⟨rfl, untouched_refl⟩
  rename_i hok
  rw [not_not] at hok
  split at hrun
  · cases hrun
    exact .inl ⟨rfl, untouched_refl⟩
  · refine (downloadChunks_cases (frontier_resolveManifest hok) rfl (partPath_ne dest w) hrun).imp
      id ?_
    exact fun h => ⟨h.1, hok, h.2⟩

/-- **Downloads are all or nothing.**  Whatever `get` returns, however the workers are scheduled and
whichever system call fails: if the download is not ok, the destination is as it was and no part
file is left; if it is ok, the destination holds just the size the manifests say, with a body that
`get` returned for its key in the place of each chunk. -/
theorem download_all_or_nothing (opt : TransferOptions) (rootKey : Str) (dest : Path)
    (w : DownloadWorld) (files files' : Files) (out : DownloadOutcome)
    (hrun : downloadFile opt rootKey dest w files = some (out, files')) :
    (out.ok = false → files' dest.text = files dest.text ∧
      (∀ p, p ≠ partPath dest w → files' p = files p) ∧
      (files (partPath dest w) = none → files' (partPath dest w) = none)) ∧
    (out.ok = true → files' (partPath dest w) = none ∧
      ∃ bytes, files' dest.text = some (.file bytes) ∧ bytes.length = (w.resolved rootKey).size ∧
        ∀ c ∈ (w.resolved rootKey).chunks, ∃ body, Fetched w.beats c.key body ∧
        body.length = c.bytes ∧
          (bytes.drop c.offset).take c.bytes = body) := by
  rcases downloadFile_cases hrun with ⟨hok, huntouched⟩ |
    ⟨hok, -, -, hpart, bytes, hdest, hlen, hchunks⟩
  · refine ⟨fun _ => ⟨huntouched.1 _ (partPath_ne dest w), huntouched⟩, fun h => ?_⟩
    rw [hok] at h
    cases h
  · refine ⟨fun h => ?_, fun _ => ⟨hpart, bytes, hdest, hlen, fun c hc => ?_⟩⟩
    · rw [hok] at h
      cases h
    · obtain ⟨body, hfetched, hbody, hbytes⟩ := hchunks c hc
      refine ⟨body, hfetched, hbody, List.ext_getElem? fun x => ?_⟩
      rw [List.getElem?_take, List.getElem?_drop]
      split
      · rename_i hx
        exact hbytes x hx
      · rw [List.getElem?_eq_none (by omega)]

/-- Three bytes in chunks of two. -/
def abcManifest : Str :=
  formatManifest ⟨3, 2, .data, [⟨List.replicate 40 '1', 2⟩, ⟨List.replicate 40 '2', 1⟩]⟩

/-- The manifest is found at the second try.  Of two workers the first also has to try twice, and
writes its chunk in two pieces; the second works meanwhile. -/
def abcDownload : DownloadWorld where
  pid := 7
  counter := 0
  get n key :=
    if n = 0 then ⟨false, [], "busy".toList⟩
    else if key = List.replicate 40 'a' then ⟨true, abcManifest, []⟩
    else ⟨false, [], "no such chunk".toList⟩
  creating := none
  sizing := none
  threads := 2
  beats := [.step 0, .step 1, .step 0, .step 1,
    .answer 0 (.get (List.replicate 40 '1')) (⟨false, [], "busy".toList⟩ : GetOutcome),
    .answer 1 (.get (List.replicate 40 '2')) (⟨true, "c".toList, []⟩ : GetOutcome), .step 0,
    .answer 0 (.get (List.replicate 40 '1')) (⟨true, "ab".toList, []⟩ : GetOutcome),
    .answer 0 (.pwrite 0 2) (⟨1, by decide, []⟩ : Written 2),
    .answer 1 (.pwrite 2 1) (⟨1, by decide, []⟩ : Written 1), .step 1, .step 0,
    .answer 0 (.pwrite 1 1) (⟨1, by decide, []⟩ : Written 1), .step 1, .step 0, .step 0,
      .step 0, .step 0,
    .step 1, .step 1]
  flushing := none
  closing := none
  moving := none

theorem download_all_or_nothing_abc : let dest : Path := ⟨"f".toList, by decide⟩
    let root := List.replicate 40 'a'
    ∃ out files', downloadFile { workers := 2 } root dest abcDownload (fun _ => none) =
      some (out, files') ∧ out.ok = true ∧ files' dest.text = some (.file "abc".toList) ∧
      (out.ok = true → files' (partPath dest abcDownload) = none ∧
        ∃ bytes, files' dest.text = some (.file bytes) ∧
          bytes.length = (abcDownload.resolved root).size ∧
          ∀ c ∈ (abcDownload.resolved root).chunks, ∃ body, Fetched abcDownload.beats c.key body ∧
            body.length = c.bytes ∧ (bytes.drop c.offset).take c.bytes = body) := by
  intro dest root
  have hends : (downloadFile { workers := 2 } root dest abcDownload (fun _ => none)).map
      (fun r => (r.1.ok, r.2 dest.text)) = some (true, some (.file "abc".toList)) := by
        decide +kernel
  obtain ⟨⟨out, files'⟩, hrun, hresult⟩ := Option.map_eq_some_iff.mp hends
  obtain ⟨hok, hdest⟩ := Prod.mk.inj hresult
  exact ⟨out, files', hrun, hok, hdest, (download_all_or_nothing _ _ _ _ _ _ _ hrun).2⟩

/-! ### What is not the download's -/

/-- The download gets as far as opening its part file. -/
def opensPart (opt : TransferOptions) (rootKey : Str) (dest : Path) (w : DownloadWorld)
    (files : Files) : Bool :=
  1 ≤ opt.workers ∧ opt.workers ≤ MAX_WORKERS ∧ files dest.text ≠ some .directory ∧
    (w.resolved rootKey).ok = true ∧ ¬ (opt.forSignals ∧ (partPath dest w).length ≥ PART_PATH)

section frame
variable {opt : TransferOptions} {rootKey : Str} {dest : Path} {w : DownloadWorld}
  {files files' : Files} {out : DownloadOutcome}

theorem downloadFile_of_not_opensPart (hopens : opensPart opt rootKey dest w files = false)
    (hrun : downloadFile opt rootKey dest w files = some (out, files')) : files' = files := by
  rw [downloadFile] at hrun
  split at hrun
  · cases hrun
    rfl
  rename_i hworkers
  split at hrun
  · cases hrun
    rfl
  rename_i hdir
  dsimp only at hrun
  split at hrun
  · cases hrun
    rfl
  rename_i hok
  split at hrun
  · cases hrun
    rfl
  rename_i hlong
  rw [not_or, not_lt, not_lt] at hworkers
  rw [opensPart, decide_eq_false_iff_not] at hopens
  exact absurd ⟨hworkers.1, hworkers.2, hdir, not_not.mp hok, hlong⟩ hopens

/-- **What is under the part file's name is unlinked**, whoever made it. -/
theorem downloadFile_of_taken (hopens : opensPart opt rootKey dest w files = true)
    (htaken : files (partPath dest w) ≠ none)
    (hrun : downloadFile opt rootKey dest w files = some (out, files')) :
    files' = files.unlink (partPath dest w) := by
  rw [opensPart, decide_eq_true_eq] at hopens
  obtain ⟨hfew, hmany, hdir, hok, hlong⟩ := hopens
  rw [downloadFile, if_neg (by omega), if_neg hdir] at hrun
  dsimp only at hrun
  have hcreate : files.create (partPath dest w) w.creating = .error "File exists".toList :=
    if_pos htaken
  rw [if_neg (not_not_intro hok), if_neg hlong, downloadChunks, hcreate] at hrun
  cases hrun
  rfl

end frame

/-- **A download touches nothing but its own**, unless a file lies under the name of its part file:
that file is removed, though it was not opened. -/
theorem download_touches_own (opt : TransferOptions) (rootKey : Str) (dest : Path)
    (w : DownloadWorld) (files files' : Files) (out : DownloadOutcome)
    (hrun : downloadFile opt rootKey dest w files = some (out, files')) :
    (∀ p, files p ≠ none → (p = dest.text ∧ out.ok = true) ∨ files' p = files p) ↔
      ¬ (opensPart opt rootKey dest w files = true ∧
        ∃ bytes, files (partPath dest w) = some (.file bytes)) := by
  constructor
  · rintro hkeeps ⟨hopens, bytes, hfile⟩
    have htaken : files (partPath dest w) ≠ none := by simp [hfile]
    have hgone : files' (partPath dest w) = none := by
      rw [downloadFile_of_taken hopens htaken hrun, Files.unlink, if_neg (by simp [hfile])]
      exact if_pos rfl
    rcases hkeeps _ htaken with ⟨hdest, -⟩ | hsame
    · exact partPath_ne dest w hdest.symm
    · rw [hgone, hfile] at hsame
      cases hsame
  · intro hfree p hp
    rcases downloadFile_cases hrun with ⟨-, huntouched⟩ | ⟨hok, -, ⟨hnew, hothers⟩, -⟩
    · right
      by_cases hpart : p = partPath dest w
      · subst hpart
        cases hopens : opensPart opt rootKey dest w files with
        | false => rw [downloadFile_of_not_opensPart hopens hrun]
        | true =>
          -- what else can be there is a directory, which stays
          have hdir : files (partPath dest w) = some .directory := by
            cases hnode : files (partPath dest w) with
            | none => exact absurd hnode hp
            | some node =>
              cases node with
              | directory => rfl
              | file bytes => exact absurd ⟨hopens, bytes, hnode⟩ hfree
          rw [downloadFile_of_taken hopens hp hrun, Files.unlink, if_pos hdir]
      · exact huntouched.1 p hpart
    · by_cases hd : p = dest.text
      · exact .inl ⟨hd, hok⟩
      · refine .inr (hothers p ?_ hd)
        rintro rfl
        exact hp hnew

/-- Somebody's file, under the name a part file of `f` may have. -/
def takenName : Files := fun p =>
  if p = "f.part-7-0".toList then some (.file "mine".toList) else none

/-- A download to another destination leaves it alone. -/
theorem download_touches_own_abc : let dest : Path := ⟨"g".toList, by decide⟩
    let root := List.replicate 40 'a'
    ∃ out files',
      downloadFile { workers := 2 } root dest abcDownload takenName = some (out, files') ∧
      ∀ p, takenName p ≠ none → (p = dest.text ∧ out.ok = true) ∨ files' p = takenName p := by
  intro dest root
  have hends : (downloadFile { workers := 2 } root dest abcDownload takenName).isSome = true := by
    decide +kernel
  obtain ⟨⟨out, files'⟩, hrun⟩ := Option.isSome_iff_exists.mp hends
  have hfree : takenName (partPath dest abcDownload) = none := by decide +kernel
  refine ⟨out, files', hrun, (download_touches_own _ _ _ _ _ _ _ hrun).mpr ?_⟩
  rintro ⟨-, bytes, hfile⟩
  rw [hfree] at hfile
  cases hfile

/-- **Somebody's file is removed.** -/
theorem download_removes_taken_name :
    takenName "f.part-7-0".toList = some (.file "mine".toList) ∧
    ∃ out files', downloadFile { workers := 2 } (List.replicate 40 'a')
      ⟨"f".toList, by decide⟩ abcDownload takenName =
      some (out, files') ∧ out.ok = false ∧ files' "f.part-7-0".toList = none := by
  have hends : (downloadFile { workers := 2 } (List.replicate 40 'a')
      ⟨"f".toList, by decide⟩ abcDownload takenName).map
        (fun r => (r.1.ok, r.2 "f.part-7-0".toList)) = some (false, none) := by decide +kernel
  obtain ⟨⟨out, files'⟩, hrun, hresult⟩ := Option.map_eq_some_iff.mp hends
  obtain ⟨hok, hgone⟩ := Prod.mk.inj hresult
  exact ⟨rfl, out, files', hrun, hok, hgone⟩

end ChordFs
