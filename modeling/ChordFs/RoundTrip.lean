import ChordFs.ManifestBuild
import ChordFs.TransferSafety

/-! # What is uploaded is what is downloaded

The upload leaves a key for each chunk, the hash of just that part of the file, and stores manifests
over these keys.  The download resolves the root to the same keys in the same places: two readings
of a tree that both succeed agree if what they fetch does (`resolveLevels_agree`), and one that
fetches what was built finds what it was built from.  So each chunk comes back to where it was
(`round_trip`). -/

namespace ChordFs

open Text Dialogue Workers

/-! ### Two readings agree -/

section agree
variable {σ Q σ' Q' : Type} {A : Q → Type} {A' : Q' → Type} {ε ε' : Type}
variable {get : Str → Prog σ Q A GetOutcome} {get' : Str → Prog σ' Q' A' GetOutcome}
variable {env : (q : Q) → ε → A q × ε} {env' : (q : Q') → ε' → A' q × ε'}
variable {s : σ} {s' : σ'} {x : ε} {x' : ε'} {p : Pending} {r r₁ r₂ : Resolved}
  {ps next more₁ more₂ : List Pending}

theorem run_getAttempts (key : Str) (more : ℕ) :
    ∃ s₁ x₁, ((getAttempts get key more).run env s x).1 = ((get key).run env s₁ x₁).1 := by
  induction more generalizing s x with
  | zero => exact ⟨s, x, rfl⟩
  | succ more ih =>
    rw [getAttempts, Prog.run_bind]
    split
    · exact ⟨s, x, rfl⟩
    · exact ih

theorem fetched_of_readManifest (h : ((readManifest get p r).run env s x).1 = .ok (r₁, more₁)) :
    ∃ s₁ x₁ m, ((get p.key).run env s₁ x₁).1.ok = true ∧
      parseManifest ((get p.key).run env s₁ x₁).1.body = .ok m ∧ r.take p m = .ok (r₁, more₁) := by
  obtain ⟨s₁, x₁, hlast⟩ : ∃ s₁ x₁,
    ((getAttempts get p.key (CHUNK_ATTEMPTS - 1)).run env s x).1 = _ :=
    run_getAttempts p.key (CHUNK_ATTEMPTS - 1)
  rw [readManifest] at h
  split at h
  · cases h
  rw [Prog.run_bind, hlast] at h
  split at h
  · cases h
  rename_i hok
  rw [not_not] at hok
  split at h
  · cases h
  · rename_i m hm
    exact ⟨s₁, x₁, m, hok, hm, h⟩

variable
  (hagree : ∀ k s x s' x', ((get k).run env s x).1.ok = true → ((get' k).run env' s' x').1.ok =
    true → ((get k).run env s x).1.body = ((get' k).run env' s' x').1.body)
include hagree

theorem readManifest_agree (h : ((readManifest get p r).run env s x).1 = .ok (r₁, more₁))
    (h' : ((readManifest get' p r).run env' s' x').1 = .ok (r₂, more₂)) :
    r₁ = r₂ ∧ more₁ = more₂ := by
  obtain ⟨t, y, m, hok, hm, htake⟩ := fetched_of_readManifest h
  obtain ⟨t', y', m', hok', hm', htake'⟩ := fetched_of_readManifest h'
  rw [hagree p.key t y t' y' hok hok', hm'] at hm
  cases hm
  rw [htake] at htake'
  exact Prod.mk.inj (Except.ok.inj htake')

theorem readLevel_agree (h : ((readLevel get ps next r).run env s x).1 = .ok (r₁, more₁))
    (h' : ((readLevel get' ps next r).run env' s' x').1 = .ok (r₂, more₂)) :
    r₁ = r₂ ∧ more₁ = more₂ := by
  induction ps generalizing next r s x s' x' with
  | nil =>
    cases h
    cases h'
    exact ⟨rfl, rfl⟩
  | cons p ps ih =>
    rw [readLevel, Prog.run_bind] at h h'
    cases hread : ((readManifest get p r).run env s x).1 with
    | error e =>
      simp only [hread] at h
      cases h
    | ok found =>
      cases hread' : ((readManifest get' p r).run env' s' x').1 with
      | error e =>
        simp only [hread'] at h'
        cases h'
      | ok found' =>
        simp only [hread] at h
        simp only [hread'] at h'
        obtain ⟨hr, hmore⟩ := readManifest_agree hagree hread hread'
        rw [← hr, ← hmore] at h'
        exact ih h h'

/-- **Two readings that succeed agree.** -/
theorem resolveLevels_agree {rounds : ℕ} (hr : r.ok = false)
    (h : ((resolveLevels get rounds ps r).run env s x).1.ok = true)
    (h' : ((resolveLevels get' rounds ps r).run env' s' x').1.ok = true) :
    ((resolveLevels get rounds ps r).run env s x).1 =
      ((resolveLevels get' rounds ps r).run env' s' x').1 := by
  induction rounds generalizing ps r s x s' x' with
  | zero => cases ps <;> rfl
  | succ rounds ih =>
    cases ps with
    | nil => rfl
    | cons p ps =>
      rw [resolveLevels, Prog.run_bind] at h h' ⊢
      rw [resolveLevels, Prog.run_bind]
      cases hread : ((readLevel get (p :: ps) [] r).run env s x).1 with
      | error e =>
        simp only [hread] at h
        have hbad : e.ok = true := h
        rw [(undecided_readLevel hr).1 hread] at hbad
        cases hbad
      | ok found =>
        cases hread' : ((readLevel get' (p :: ps) [] r).run env' s' x').1 with
        | error e =>
          simp only [hread'] at h'
          have hbad : e.ok = true := h'
          rw [(undecided_readLevel hr).1 hread'] at hbad
          cases hbad
        | ok found' =>
          simp only [hread] at h ⊢
          simp only [hread'] at h' ⊢
          obtain ⟨heq, hmore⟩ := readLevel_agree hagree hread hread'
          rw [← heq, ← hmore] at h' ⊢
          exact ih ((undecided_readLevel hr).2 hread) h h'

theorem resolveManifest_agree {root : Str}
    (h : ((resolveManifest get root).run env s x).1.ok = true)
    (h' : ((resolveManifest get' root).run env' s' x').1.ok = true) :
    ((resolveManifest get root).run env s x).1 =
      ((resolveManifest get' root).run env' s' x').1 := by
  rw [resolveManifest] at h h' ⊢
  rw [resolveManifest]
  split at h
  · cases h
  rename_i hkey
  rw [if_neg hkey] at h' ⊢
  rw [if_neg hkey]
  exact resolveLevels_agree hagree rfl h h'

end agree

/-! ### The chunks of a file -/

section chunks
variable {size chunk i : ℕ} {keys : List Str}

theorem chunkCount_le (hchunk : 1 ≤ chunk) : size ≤ chunkCount size chunk * chunk := by
  have h := Nat.lt_div_mul_add (a := size + chunk - 1) hchunk
  rw [chunkCount]
  omega

theorem lt_chunkCount (hchunk : 1 ≤ chunk) : i < chunkCount size chunk ↔ i * chunk < size := by
  rw [chunkCount, ← Nat.succ_le_iff, Nat.le_div_iff_mul_le hchunk, Nat.succ_mul]
  omega

theorem totalBytes_take_uploadEntries (h : i ≤ keys.length) :
    totalBytes ((uploadEntries keys size chunk).take i) = min (i * chunk) size := by
  induction i with
  | zero => simp [totalBytes]
  | succ i ih =>
    have hlen : i < (uploadEntries keys size chunk).length := by
      rw [uploadEntries, List.length_mapIdx]
      omega
    have hlast : totalBytes [(uploadEntries keys size chunk)[i]] = chunkLen size chunk i := by
      simp [totalBytes, uploadEntries]
    rw [List.take_succ_eq_append_getElem hlen, totalBytes_append, ih (by omega), hlast,
      chunkLen, Nat.succ_mul]
    omega

theorem totalBytes_uploadEntries (hchunk : 1 ≤ chunk) (hlen : keys.length = chunkCount size chunk) :
    totalBytes (uploadEntries keys size chunk) = size := by
  have htake : totalBytes ((uploadEntries keys size chunk).take keys.length) = _ :=
    totalBytes_take_uploadEntries (le_refl keys.length)
  have hentries : (uploadEntries keys size chunk).length = keys.length := List.length_mapIdx
  rw [← hentries, List.take_length, hentries, hlen] at htake
  rw [htake]
  exact min_eq_right (chunkCount_le hchunk)

theorem levelOk_uploadEntries (hchunk : 1 ≤ chunk ∧ chunk ≤ MAX_CHUNK) (hsize : size < 2 ^ 64)
    (hlen : keys.length = chunkCount size chunk) (hkeys : ∀ k ∈ keys, validKey k = true) :
    LevelOk .data chunk (uploadEntries keys size chunk) where
  chunk_pos := hchunk.1
  chunk_le := hchunk.2
  keys e he := by
    obtain ⟨i, hi, rfl⟩ := List.mem_mapIdx.mp he
    exact hkeys _ (List.getElem_mem hi)
  shaped i e hi := by
    have hlength : (uploadEntries keys size chunk).length = chunkCount size chunk :=
      List.length_mapIdx.trans hlen
    have hlt : i < chunkCount size chunk := hlength ▸ (List.getElem?_eq_some_iff.mp hi).1
    have hpos := (lt_chunkCount hchunk.1).mp hlt
    have hbytes : e.bytes = chunkLen size chunk i := by
      rw [uploadEntries, List.getElem?_mapIdx] at hi
      obtain ⟨key, -, rfl⟩ := Option.map_eq_some_iff.mp hi
      rfl
    rw [hlength, hbytes, chunkLen]
    by_cases hlast : i + 1 = chunkCount size chunk
    · simp only [hlast, decide_true, shapeFits, if_true, decide_eq_true_eq]
      omega
    · have hnext := (lt_chunkCount hchunk.1).mp (Nat.lt_of_le_of_ne hlt hlast)
      rw [Nat.succ_mul] at hnext
      simp only [hlast, decide_false, shapeFits, Bool.false_eq_true, if_false, decide_eq_true_eq]
      omega
  some_index h := by cases h
  size_lt := by
    rw [totalBytes_uploadEntries hchunk.1 hlen]
    exact hsize

end chunks

/-! ### The upload -/

/-- The ring has answered that it keeps the body, and under which key. -/
def PutUnder (beats : TransferBeats) (body key : Str) : Prop :=
  ∃ (t : ℕ) (message : Str), Beat.answer t (.put body) (⟨true, message, key⟩ : PutOutcome) ∈ beats

/-- What is read is what the file holds. -/
def ReadsFrom (beats : TransferBeats) (bytes : Str) : Prop :=
  ∀ t o len got, Beat.answer t (.pread o len) (.ok got : Except Str Str) ∈ beats →
    got = (bytes.drop o).take got.length

/-- Chunk `i` of a file. -/
def fileChunk (bytes : Str) (chunk i : ℕ) : Str :=
  (bytes.drop (i * chunk)).take (chunkLen bytes.length chunk i)

/-- Slot `i` belongs to job `i`. -/
def keyParts (bytes : Str) (chunk : ℕ) (beats : TransferBeats) :
    Parts (List Str) TransferAsk TransferAsk.Reply where
  same i ks ks' := ks'.length = ks.length ∧ ks'[i]? = ks[i]?
  refl i ks := ⟨rfl, rfl⟩
  trans i ks ks' ks'' h h' := ⟨h'.1.trans h.1, h'.2.trans h.2⟩
  allowed q a := ∃ t, Beat.answer t q a ∈ beats
  post i ks := ∃ key, ks[i]? = some key ∧ PutUnder beats (fileChunk bytes chunk i) key
  stable i ks ks' hpost h := by
    obtain ⟨key, hkey, hput⟩ := hpost
    exact ⟨key, h.2.trans hkey, hput⟩

section upload
variable {bytes : Str} {chunk i : ℕ} {beats : TransferBeats} {s : Shared (List Str)}

theorem does_preadAll (hreads : ReadsFrom beats bytes) {o len : ℕ} (rounds : ℕ) {got : Str}
    (hgot : got = (bytes.drop o).take got.length) :
    (sharedParts (keyParts bytes chunk beats)).Does i
      (fun r s' => s' = s ∧ ∀ body, r = .ok body → body = (bytes.drop o).take body.length)
      (preadAll o len rounds got) s := by
  have hdone : ∀ {got : Str}, got = (bytes.drop o).take got.length → ∀ body,
      (Except.ok got : Except Str Str) = .ok body → body = (bytes.drop o).take body.length := by
    rintro got hgot body ⟨⟩
    exact hgot
  induction rounds generalizing got with
  | zero => exact ⟨rfl, hdone hgot⟩
  | succ rounds ih =>
    rw [preadAll]
    split
    · exact ⟨rfl, hdone hgot⟩
    refine Parts.Does.bind fun (a : Except Str Str) ha => ?_
    obtain ⟨t, ht⟩ := ha
    cases a with
    | error e =>
      refine ⟨rfl, fun body h => ?_⟩
      cases h
    | ok piece =>
      have hpiece := hreads t _ _ piece ht
      cases piece with
      | nil => exact ⟨rfl, hdone hgot⟩
      | cons c cs =>
        refine ih ?_
        rw [← List.drop_drop] at hpiece
        rw [List.length_append, List.take_add, ← hgot, ← hpiece]

/-- **The job of a chunk fills its slot.** -/
theorem good_uploadChunk (hreads : ReadsFrom beats bytes) {path : Str} (hi : i < s.work.length) :
    (sharedParts (keyParts bytes chunk beats)).Good i
      (uploadChunk path bytes.length chunk i) s := by
  refine Parts.Does.bind ((does_preadAll hreads _ (by simp)).mono ?_)
  rintro r s₁ ⟨rfl, hbody⟩
  cases r with
  | error e => exact good_failureSet _
  | ok body =>
    change (sharedParts (keyParts bytes chunk beats)).Does i _ (if body.length ≠ _ then _ else _) s₁
    split
    · exact good_failureSet _
    rename_i hlen
    rw [not_not] at hlen
    have hchunk : body = fileChunk bytes chunk i := by
      rw [fileChunk, ← hlen]
      exact hbody body rfl
    refine Parts.Does.bind ((does_attempts (CHUNK_ATTEMPTS - 1)).mono ?_)
    rintro (p : PutOutcome) s₂ ⟨⟨t, ht⟩, hs₂⟩
    change (sharedParts (keyParts bytes chunk beats)).Does i _ (if ¬ p.ok = true then _ else _) s₂
    split
    · exact good_failureSet _
    rename_i hok
    rw [not_not] at hok
    refine Parts.Does.bind (does_workOn fun s₃ hs₃ => ⟨fun j hj => ⟨List.length_set, ?_⟩, ?_⟩)
    · exact List.getElem?_set_ne hj.symm
    · intro _
      refine ⟨p.key, List.getElem?_set_self ?_, t, p.message, ?_⟩
      · rw [hs₃.1, hs₂.1]
        exact hi
      · have hp : (⟨true, p.message, p.key⟩ : PutOutcome) = p := by rw [← hok]
        rw [hp, ← hchunk]
        exact ht

/-- **A pool that is through has stored every chunk.** -/
theorem uploadChunks_done (hreads : ReadsFrom beats bytes) {path : Str} {workers : ℤ}
    {threads n : ℕ}
    (h : runPool ⟨n, uploadChunk path bytes.length chunk⟩ workers threads beats
      ⟨[], List.replicate n []⟩ = some (true, s)) :
    s.work.length = n ∧ ∀ i < n, ∃ key, s.work[i]? = some key ∧
    PutUnder beats (fileChunk bytes chunk i) key := by
  obtain ⟨hpost, hrest⟩ := runPool_done (P := keyParts bytes chunk beats) (fun i hi s' hs' =>
    good_uploadChunk hreads (by rw [(hs' n le_rfl).1, List.length_replicate]; exact hi))
      (fun t q a hb => ⟨t, hb⟩) h
  exact ⟨(hrest n le_rfl).1.trans List.length_replicate, hpost⟩

end upload

/-- Nothing but answers matters for the manifests. -/
def blobParts (blobs : List Str) (beats : TransferBeats) :
    Parts Unit TransferAsk TransferAsk.Reply where
  same _ _ _ := True
  refl _ _ := trivial
  trans _ _ _ _ _ _ := trivial
  allowed q a := ∃ t, Beat.answer t q a ∈ beats
  post i _ := ∃ key, PutUnder beats (blobs.getD i []) key
  stable _ _ _ h _ := h

theorem uploadManifests_done {blobs : List Str} {beats : TransferBeats} {workers : ℤ} {threads : ℕ}
    {failure : Str} {s : Shared Unit}
    (h : runPool ⟨blobs.length, uploadManifest blobs⟩ workers threads beats
      ⟨failure, ()⟩ = some (true, s)) :
    ∀ b ∈ blobs, ∃ key, PutUnder beats b key := by
  have hgood : ∀ i < blobs.length, ∀ s' : Shared Unit, (∀ j, blobs.length ≤ j → True) →
      (sharedParts (blobParts blobs beats)).Good i (uploadManifest blobs i) s' := by
    intro i _ s' _
    refine Parts.Does.bind ((does_attempts (CHUNK_ATTEMPTS - 1)).mono ?_)
    rintro (p : PutOutcome) s₁ ⟨⟨t, ht⟩, -⟩
    change (sharedParts (blobParts blobs beats)).Does i _ (if p.ok = true then _ else _) s₁
    split
    · rename_i hok
      intro _
      refine ⟨p.key, t, p.message, ?_⟩
      have hp : (⟨true, p.message, p.key⟩ : PutOutcome) = p := by rw [← hok]
      rw [hp]
      exact ht
    · exact good_failureSet _
  have hpost := (runPool_done (P := blobParts blobs beats) hgood (fun t q a hb => ⟨t, hb⟩) h).1
  intro b hb
  obtain ⟨i, hi, rfl⟩ := List.getElem_of_mem hb
  have hkey : ∃ key, PutUnder beats (blobs.getD i []) key := hpost i hi
  rwa [List.getD_eq_getElem?_getD, List.getElem?_eq_getElem hi, Option.getD_some] at hkey

theorem uploadFile_ok {sha : Sha1} {opt : TransferOptions} {path : Str} {w : UploadWorld}
    {up : UploadOutcome} (h : uploadFile sha opt path w = some up) (hok : up.ok = true) :
    (1 ≤ opt.chunk ∧ opt.chunk ≤ MAX_CHUNK) ∧ (2 ≤ opt.fanout ∧ opt.fanout ≤ MANIFEST_FANOUT) ∧
      ∃ (st : Stat) (s : Shared (List Str)) (s' : Shared Unit), w.before = some st ∧
        runPool ⟨chunkCount st.size opt.chunk, uploadChunk path st.size opt.chunk⟩ opt.workers
          w.chunkThreads w.chunkBeats
          ⟨[], List.replicate (chunkCount st.size opt.chunk) []⟩ = some (true, s) ∧
        let tree := buildManifests sha (uploadEntries s.work st.size opt.chunk) st.size
          opt.chunk opt.fanout
        tree.depth ≤ MAX_MANIFEST_DEPTH ∧ up.rootKey = tree.rootKey ∧
        runPool ⟨tree.blobs.length, uploadManifest tree.blobs⟩ opt.workers w.manifestThreads
          w.manifestBeats
          ⟨s.failure, ()⟩ = some (true, s') := by
  unfold uploadFile at h
  split at h
  · cases h
    cases hok
  split at h
  · cases h
    cases hok
  rename_i hchunk
  split at h
  · cases h
    cases hok
  rename_i hfanout
  refine ⟨by omega, by omega, ?_⟩
  split at h
  · cases h
    cases hok
  · cases h
    cases hok
  rename_i st hopening hbefore
  split at h
  · cases h
    cases hok
  dsimp only at h
  split at h
  · cases h
  · cases h
    cases hok
  rename_i s hpool
  split at h
  · cases h
    cases hok
  unfold uploadManifests at h
  dsimp only at h
  split at h
  · cases h
    cases hok
  rename_i hdepth
  split at h
  · cases h
  · cases h
    cases hok
  · rename_i s' hpool'
    cases h
    exact ⟨st, s, s', hbefore, hpool, Nat.le_of_not_lt hdepth, rfl, hpool'⟩

/-! ### There and back -/

/-- What an upload has stored, and under which key. -/
def PutBy (w : UploadWorld) (body key : Str) : Prop :=
  PutUnder w.chunkBeats body key ∨ PutUnder w.manifestBeats body key

/-- The ring is a map from hashes to contents: what was stored is under its hash, and if it is
fetched at all it is what was stored.  No two bodies that were stored have the same hash. -/
structure KeepsContents (sha : Sha1) (up : UploadWorld) (down : DownloadWorld) : Prop where
  hash : ∀ body key, PutBy up body key → key = chunkKey sha body
  get : ∀ body key, PutBy up body key → ∀ n, (down.get n key).ok = true →
    (down.get n key).body = body
  fetch : ∀ body key, PutBy up body key → ∀ body', Fetched down.beats key body' → body' = body
  apart : ∀ body key body' key', PutBy up body key → PutBy up body' key' →
    chunkKey sha body = chunkKey sha body' → body = body'

/-- The file does not change while it is uploaded. -/
structure Holds (w : UploadWorld) (bytes : Str) : Prop where
  size : ∀ st, w.before = some st → st.size = bytes.length
  reads : ReadsFrom w.chunkBeats bytes

theorem resolved_eq {sha : Sha1} {up : UploadWorld} {down : DownloadWorld} {blobs : List Str}
    {root : Str} (hmap : KeepsContents sha up down) (hput : ∀ b ∈ blobs, ∃ key, PutBy up b key)
    (hok : (down.resolved root).ok = true)
    (hbuilt : (resolveWith (getBlob sha blobs) root).ok = true) :
    down.resolved root = resolveWith (getBlob sha blobs) root := by
  refine resolveManifest_agree ?_ hok hbuilt
  intro k s n s' x' hget hblob
  change (getBlob sha blobs k).ok = true at hblob
  change (down.get n k).ok = true at hget
  change (down.get n k).body = (getBlob sha blobs k).body
  rw [getBlob] at hblob ⊢
  split at hblob
  · rename_i b hb
    have hkey : chunkKey sha b = k := by simpa using List.find?_some hb
    obtain ⟨key, hkey'⟩ := hput b (List.mem_of_find?_eq_some hb)
    have hhash := hmap.hash b key hkey'
    rw [hkey] at hhash
    subst hhash
    exact hmap.get b key hkey' n hget
  · cases hblob

theorem eq_of_places {bytes stored : Str} {chunk : ℕ} {keys : List Str} {back : Str → Str → Prop}
    (hchunk : 1 ≤ chunk) (hlen : keys.length = chunkCount bytes.length chunk)
    (hstored : stored.length = bytes.length)
    (hback : ∀ i < chunkCount bytes.length chunk, ∃ key, keys[i]? = some key ∧
      ∀ body, back key body → body = fileChunk bytes chunk i)
    (hplaces : ∀ c ∈ (uploadEntries keys bytes.length chunk).mapIdx (fun i e => (⟨e.key,
        totalBytes ((uploadEntries keys bytes.length chunk).take i), e.bytes⟩ : ChunkRef)),
      ∃ body, back c.key body ∧ ∀ x < c.bytes, stored[c.offset + x]? = body[x]?) :
    stored = bytes := by
  refine List.ext_getElem? fun x => ?_
  rcases Nat.lt_or_ge x bytes.length with hx | hx
  · have hdiv := Nat.div_add_mod' x chunk
    have hmod := Nat.mod_lt x hchunk
    generalize x / chunk = i at hdiv
    generalize x % chunk = y at hdiv hmod
    have hi : i < chunkCount bytes.length chunk := (lt_chunkCount hchunk).mpr (by omega)
    have hy : y < chunkLen bytes.length chunk i := by
      rw [chunkLen]
      omega
    obtain ⟨key, hkey, hbody⟩ := hback i hi
    have hentry : (uploadEntries keys bytes.length chunk)[i]? =
        some ⟨key, chunkLen bytes.length chunk i⟩ := by
      rw [uploadEntries, List.getElem?_mapIdx, hkey]
      rfl
    have hbegin : totalBytes ((uploadEntries keys bytes.length chunk).take i) = i * chunk := by
      rw [totalBytes_take_uploadEntries (by omega)]
      omega
    obtain ⟨body, hfetched, hplace⟩ := hplaces ⟨key, i * chunk, chunkLen bytes.length chunk i⟩ (by
      refine List.mem_of_getElem? (i := i) ?_
      rw [List.getElem?_mapIdx, hentry, hbegin]
      rfl)
    have hbyte := hplace y hy
    rw [hbody body hfetched, fileChunk, List.getElem?_take_of_lt hy, List.getElem?_drop,
      hdiv] at hbyte
    exact hbyte
  · rw [List.getElem?_eq_none (by omega), List.getElem?_eq_none hx]

/-- **What is uploaded is what is downloaded.**  For every file, all options, every schedule of the
workers and every pattern of failed attempts: if the upload is ok, the file not changing meanwhile,
and then the download of its root key is ok, the destination holds the bytes of the file. -/
theorem round_trip (sha : Sha1) (bytes path : Str) (opt opt' : TransferOptions) (w : UploadWorld)
    (up : UploadOutcome) (dest : Path) (w' : DownloadWorld) (files files' : Files)
    (down : DownloadOutcome) (hup : uploadFile sha opt path w = some up) (hok : up.ok = true)
    (hfile : Holds w bytes) (hmap : KeepsContents sha w w')
    (hdown : downloadFile opt' up.rootKey dest w' files = some (down, files'))
    (hok' : down.ok = true) : files' dest.text = some (.file bytes) := by
  obtain ⟨hchunk, hfanout, st, s, s', hbefore, hchunks, hdepth, hroot, hmanifests⟩ :=
    uploadFile_ok hup hok
  have hsize := hfile.size st hbefore
  have hsize_lt := st.size_lt
  rw [hsize] at hchunks hdepth hroot hmanifests hsize_lt
  obtain ⟨hlen, hkeys⟩ := uploadChunks_done hfile.reads hchunks
  have hblobs := uploadManifests_done hmanifests
  -- the keys are hashes, so the entries make a level
  have hvalid : ∀ k ∈ s.work, validKey k = true := by
    intro k hk
    obtain ⟨i, hi, rfl⟩ := List.getElem_of_mem hk
    obtain ⟨key, hkey, hput⟩ := hkeys i (hlen ▸ hi)
    rw [List.getElem?_eq_getElem hi, Option.some.injEq] at hkey
    rw [hkey, hmap.hash _ _ (.inl hput)]
    exact validKey_digest sha _
  have hlevel := levelOk_uploadEntries hchunk (by omega) hlen hvalid
  have htotal := totalBytes_uploadEntries hchunk.1 hlen
  -- the tree over them, once stored, resolves to the chunks
  have hput : ∀ b ∈ _, ∃ key, PutBy w b key := fun b hb => (hblobs b hb).imp fun _ => .inr
  have hkeep := fun b hb => keepsBlob_getBlob (fun b₁ hb₁ b₂ hb₂ =>
    hmap.apart b₁ _ b₂ _ (hput b₁ hb₁).choose_spec (hput b₂ hb₂).choose_spec) (b := b) hb
  obtain ⟨hbuilt, hrefs, hrsize, -, -⟩ :=
    resolveWith_buildManifests hlevel hfanout htotal hdepth hkeep
  rcases downloadFile_cases hdown with ⟨hfalse, -⟩ |
    ⟨-, hresolved, -, -, stored, hdest, hstored, hplaces⟩
  · rw [hok'] at hfalse
    cases hfalse
  rw [hroot] at hresolved hstored hplaces
  rw [resolved_eq hmap hput hresolved hbuilt] at hstored hplaces
  rw [hrsize] at hstored
  rw [hrefs] at hplaces
  rw [hdest, eq_of_places hchunk.1 hlen hstored (fun i hi => ?_) fun c hc => ?_]
  · exact Fetched w'.beats
  · obtain ⟨key, hkey, hputKey⟩ := hkeys i hi
    exact ⟨key, hkey, hmap.fetch _ key (.inl hputKey)⟩
  · obtain ⟨body, hfetched, -, hplace⟩ := hplaces c hc
    exact ⟨body, hfetched, hplace⟩

/-- Hashes for the file of `abcDownload`. -/
def abcSha : Sha1 := .ofTable
  [("ab".toList, List.replicate 40 '1'), ("c".toList, List.replicate 40 '2'),
    (abcManifest, List.replicate 40 'a')]

/-- The upload of that file.  The first worker reads its chunk in two pieces and has to store it
twice. -/
def abcUpload : UploadWorld where
  opening := none
  before := some ⟨3, by decide, true, (0, 0)⟩
  after := some ⟨3, by decide, true, (0, 0)⟩
  chunkThreads := 2
  chunkBeats := [.step 0, .step 1, .step 0, .step 1,
    .answer 0 (.pread 0 2) (.ok "a".toList : Except Str Str),
    .answer 1 (.pread 2 1) (.ok "c".toList : Except Str Str),
    .answer 0 (.pread 1 1) (.ok "b".toList : Except Str Str),
    .answer 0 (.put "ab".toList) (⟨false, "busy".toList, []⟩ : PutOutcome),
    .answer 1 (.put "c".toList) (⟨true, [], List.replicate 40 '2'⟩ : PutOutcome), .step 0, .step 1,
    .answer 0 (.put "ab".toList) (⟨true, [], List.replicate 40 '1'⟩ : PutOutcome), .step 0, .step 0,
      .step 1, .step 0,
    .step 0, .step 1, .step 1]
  manifestThreads := 1
  manifestBeats := [.step 0, .step 0,
    .answer 0 (.put abcManifest) (⟨true, [], List.replicate 40 'a'⟩ : PutOutcome), .step 0,
      .step 0, .step 0]

/-- What was stored. -/
def abcStored : List (Str × Str) :=
  [("ab".toList, List.replicate 40 '1'), ("c".toList, List.replicate 40 '2'),
    (abcManifest, List.replicate 40 'a')]

theorem putBy_abcUpload {body key : Str} (h : PutBy abcUpload body key) :
    (body, key) ∈ abcStored := by
  rcases h with ⟨t, m, h⟩ | ⟨t, m, h⟩
  · simp only [abcUpload, List.mem_cons, List.not_mem_nil, or_false, false_or, reduceCtorEq] at h
    rcases h with h | h | h | h | h | h <;> cases h <;> simp [abcStored]
  · simp only [abcUpload, List.mem_cons, List.not_mem_nil, or_false, false_or, reduceCtorEq] at h
    cases h
    simp [abcStored]

theorem fetched_abcDownload {key body : Str} (h : Fetched abcDownload.beats key body) :
    (body, key) ∈ abcStored := by
  obtain ⟨t, m, h⟩ := h
  simp only [abcDownload, List.mem_cons, List.not_mem_nil, or_false, false_or, reduceCtorEq] at h
  rcases h with h | h | h | h | h | h <;> cases h <;> simp [abcStored]

theorem keepsContents_abc : KeepsContents abcSha abcUpload abcDownload where
  hash body key h := by
    have hall : ∀ e ∈ abcStored, e.2 = chunkKey abcSha e.1 := by decide +kernel
    exact hall _ (putBy_abcUpload h)
  get body key h n hok := by
    have hall : ∀ e ∈ abcStored, e.2 = List.replicate 40 'a' → abcManifest = e.1 := by
      decide +kernel
    simp only [abcDownload] at hok ⊢
    by_cases hn : n = 0
    · rw [if_pos hn] at hok
      cases hok
    rw [if_neg hn] at hok ⊢
    by_cases hkey : key = List.replicate 40 'a'
    · rw [if_pos hkey]
      exact hall _ (putBy_abcUpload h) hkey
    · rw [if_neg hkey] at hok
      cases hok
  fetch body key h body' h' := by
    have hall : ∀ e ∈ abcStored, ∀ e' ∈ abcStored, e.2 = e'.2 → e'.1 = e.1 := by decide +kernel
    exact hall _ (putBy_abcUpload h) _ (fetched_abcDownload h') rfl
  apart body key body' key' h h' := by
    have hall : ∀ e ∈ abcStored, ∀ e' ∈ abcStored, chunkKey abcSha e.1 = chunkKey abcSha e'.1 →
        e.1 = e'.1 := by
      decide +kernel
    exact hall _ (putBy_abcUpload h) _ (putBy_abcUpload h')

theorem holds_abcUpload : Holds abcUpload "abc".toList where
  size st h := by
    cases h
    rfl
  reads t o len got h := by
    simp only [abcUpload, List.mem_cons, List.not_mem_nil, or_false, false_or, reduceCtorEq] at h
    rcases h with h | h | h | h | h | h <;> cases h <;> rfl

theorem round_trip_abc :
    ∃ up down files',
    uploadFile abcSha { workers := 2, chunk := 2, fanout := 2 } "g".toList abcUpload = some up ∧
      downloadFile { workers := 2 } up.rootKey ⟨"f".toList, by decide⟩ abcDownload (fun _ => none) =
        some (down, files') ∧ files' "f".toList = some (.file "abc".toList) := by
  have hup : uploadFile abcSha { workers := 2, chunk := 2, fanout := 2 } "g".toList abcUpload =
      some ⟨true, [], List.replicate 40 'a', 3, 2, 1, 1⟩ := by decide +kernel
  have hends : (downloadFile { workers := 2 } (List.replicate 40 'a')
    ⟨"f".toList, by decide⟩ abcDownload
      (fun _ => none)).map (fun r => r.1.ok) = some true := by decide +kernel
  obtain ⟨⟨down, files'⟩, hdown, hok⟩ := Option.map_eq_some_iff.mp hends
  exact ⟨_, down, files', hup, hdown,
    round_trip abcSha "abc".toList _ _ _ _ _ _ _ _ _ _ hup rfl holds_abcUpload
    keepsContents_abc hdown hok⟩

end ChordFs
