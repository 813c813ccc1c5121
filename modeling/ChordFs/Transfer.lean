import ChordFs.Lib.Workers
import ChordFs.Manifest

/-! # Whole files

`upload_file` and `download_file` (`transfer.cpp`): a file is cut into chunks that some workers
store, and the manifests over them are stored after it; a download reads the manifests, lets its
workers write the chunks into a part file beside the destination, and renames that when all of them
are there.

What the system and the ring answer is the environment's choice, and so is the order in which the
workers move.  A system call that a signal interrupts is made again, so `EINTR` is no answer here.
Timings, the log and the progress callback have no part in what is stored or written. -/

namespace ChordFs

open Text Dialogue Workers

/-- The most workers of one transfer. -/
def MAX_WORKERS : ℕ := 64

structure TransferOptions where
  workers : ℤ := 8
  chunk : ℕ := 512 * 1024
  fanout : ℕ := MANIFEST_FANOUT
  /-- Download: a signal handler may remove the part file. -/
  forSignals : Bool := false

/-- The outcome of storing one chunk. -/
structure PutOutcome where
  ok : Bool
  message : Str
  key : Str
deriving DecidableEq

/-! ### What a worker does -/

/-- What a worker asks of the ring and of the system. -/
inductive TransferAsk where
  | get (key : Str)
  | put (body : Str)
  | pread (offset len : ℕ)
  | pwrite (offset len : ℕ)
deriving DecidableEq

/-- How many of `len` bytes a write has moved.  None at all is a failure, and then the system's text
for it counts. -/
structure Written (len : ℕ) where
  moved : ℕ
  moved_le : moved ≤ len
  error : Str

def TransferAsk.Reply : TransferAsk → Type
  | get _ => GetOutcome
  | put _ => PutOutcome
  /- The bytes that were read, none at the end of the file. -/
  | pread _ _ => Except Str Str
  | pwrite _ len => Written len

/-- What the workers share: the message of the first failure (`FirstFailure`), and what they work
on. -/
structure Shared (τ : Type) where
  failure : Str
  work : τ

/-- A program of one of the workers; the flag is `stop`. -/
abbrev Job (τ α : Type) : Type := Prog (Bool × Shared τ) TransferAsk TransferAsk.Reply α

section jobs
variable {τ α : Type}

/-- Ask the ring or the system. -/
def request (q : TransferAsk) : Job τ q.Reply := .ask q

/-- `stop.load()`. -/
def stopLoad : Job τ Bool := .sect fun s => (s.1, s)

/-- Change what the workers work on. -/
def workOn (f : τ → τ) : Job τ Unit := .sect fun s => ((), s.1, { s.2 with work := f s.2.work })

/-- `FirstFailure::set`, which returns false. -/
def failureSet (why : Str) : Job τ Bool :=
  .sect fun s => (false, s.1, { s.2 with failure := if s.2.failure = [] then why else s.2.failure })

/-- Try, and as long as it fails and `stop` is not set, this many times more. -/
def attempts (once : Job τ α) (ok : α → Bool) : ℕ → Job τ α
  | 0 => once
  | more + 1 => do
      let a ← once
      if ok a then pure a
      else if ← stopLoad then pure a
      else attempts once ok more

/-- `get_attempts` with the workers' `stop`. -/
def getAttemptsUntil (key : Str) : Job τ GetOutcome :=
  attempts (request (.get key)) GetOutcome.ok (CHUNK_ATTEMPTS - 1)

/-- `put_attempts`. -/
def putAttempts (body : Str) : Job τ PutOutcome :=
  attempts (request (.put body)) PutOutcome.ok (CHUNK_ATTEMPTS - 1)

/-- `pread_all` after the bytes `got`: everything up to `len` bytes or the end of the file.  Every
round reads at least one byte, so `len` rounds are enough. -/
def preadAll (offset len : ℕ) : ℕ → Str → Job τ (Except Str Str)
  | 0, got => pure (.ok got)
  | rounds + 1, got =>
    if len ≤ got.length then pure (.ok got)
    else do
      match ← (request (.pread (offset + got.length) (len - got.length)) :
        Job τ (Except Str Str)) with
      | .error e => pure (.error e)
      | .ok [] => pure (.ok got)
      | .ok (c :: cs) => preadAll offset len rounds (got ++ c :: cs)

/-- A file after a write at `offset`; what lies between its end and the write is filled with
zeros. -/
def writeAt (bytes : Str) (offset : ℕ) (data : Str) : Str :=
  (bytes ++ List.replicate (offset - bytes.length) '\x00').take offset ++ data ++
    bytes.drop (offset + data.length)

/-- `pwrite_all` into the part file, or why it failed.  Every round writes at least one byte, so as
many rounds as there are bytes are enough. -/
def pwriteAll : ℕ → Str → ℕ → Job Str (Option Str)
  | _, [], _ => pure none
  | 0, _ :: _, _ => pure (some [])
  | rounds + 1, c :: cs, offset => do
      let n ← (request (.pwrite offset (c :: cs).length) : Job Str (Written (c :: cs).length))
      if n.moved = 0 then pure (some n.error)
      else
        workOn fun bytes => writeAt bytes offset ((c :: cs).take n.moved)
        pwriteAll rounds ((c :: cs).drop n.moved) (offset + n.moved)

end jobs

/-! ### The pool -/

/-- The moves of the workers, in their order. -/
abbrev TransferBeats := List (Beat TransferAsk TransferAsk.Reply)

/-- How many workers there are, if the system starts `threads` of them and no more: not more than
there are jobs, and if it starts none the caller does the work. -/
def poolWorkers (n : ℕ) (workers : ℤ) (threads : ℕ) : ℕ :=
  max 1 (min threads (min n (max 1 workers).toNat))

/-- `run_pool`, with the order in which the workers move: whether it returns true, and what is left.
There is no result if that order does not bring all workers to their end. -/
def runPool {τ : Type} (W : Work (Shared τ) TransferAsk TransferAsk.Reply) (workers : ℤ)
    (threads : ℕ) (beats : TransferBeats) (data : Shared τ) : Option (Bool × Shared τ) :=
  match Runs.exec W.step? (Crew.start data (poolWorkers W.count workers threads)) beats with
  | none => none
  | some C => if C.allGone then some (!C.stop, C.data) else none

/-- The message of a pool that failed. -/
def poolMessage (failure : Str) : Str := if failure = [] then "a worker failed".toList else failure

def badWorkers : Str := "workers must be 1 to ".toList ++ num MAX_WORKERS

/-! ### Upload -/

/-- What `fstat` says of a file. -/
structure Stat where
  size : ℕ
  /-- A size is an `off_t`. -/
  size_lt : size < 2 ^ 63
  regular : Bool
  /-- Seconds and nanoseconds. -/
  mtime : ℤ × ℤ

/-- What happens during an upload: what the system says of the file, and how the two pools run. -/
structure UploadWorld where
  /-- Why the file cannot be opened. -/
  opening : Option Str
  before : Option Stat
  after : Option Stat
  chunkThreads : ℕ
  chunkBeats : TransferBeats
  manifestThreads : ℕ
  manifestBeats : TransferBeats

structure UploadOutcome where
  ok : Bool := false
  message : Str := []
  rootKey : Str := []
  size : ℕ := 0
  chunks : ℕ := 0
  manifests : ℕ := 0
  depth : ℕ := 0
deriving DecidableEq

/-- How many chunks a file has. -/
def chunkCount (size chunk : ℕ) : ℕ := (size + chunk - 1) / chunk

/-- How long chunk `i` is. -/
def chunkLen (size chunk i : ℕ) : ℕ := min chunk (size - i * chunk)

/-- The job for chunk `i` of an upload: its key goes into slot `i`. -/
def uploadChunk (path : Str) (size chunk i : ℕ) : Job (List Str) Bool := do
  let len := chunkLen size chunk i
  match ← preadAll (i * chunk) len len [] with
  | .error e => failureSet ("reading chunk ".toList ++ num i ++ ": ".toList ++ e)
  | .ok body =>
    if body.length ≠ len then failureSet (path ++ " shrank while it was being read".toList)
    else do
      let p ← putAttempts body
      if ¬ p.ok then failureSet ("chunk ".toList ++ num i ++ ": ".toList ++ p.message)
      else do
        workOn fun keys => keys.set i p.key
        pure true

/-- The job for manifest `i`. -/
def uploadManifest (blobs : List Str) (i : ℕ) : Job Unit Bool := do
  let p ← putAttempts (blobs.getD i [])
  if p.ok then pure true
  else failureSet ("manifest ".toList ++ num (i + 1) ++ " of ".toList ++ num blobs.length ++
    ": ".toList ++ p.message)

/-- The file was neither resized nor written to. -/
def Stat.unchanged (before : Stat) : Option Stat → Bool
  | none => false
  | some after => after.size = before.size ∧ after.mtime = before.mtime

/-- The entries of the chunks, in file order. -/
def uploadEntries (keys : List Str) (size chunk : ℕ) : List ManifestEntry :=
  keys.mapIdx fun i key => ⟨key, chunkLen size chunk i⟩

/-- The manifests over the chunks: built from their keys, then stored like any chunk. -/
def uploadManifests (sha : Sha1) (opt : TransferOptions) (w : UploadWorld) (out : UploadOutcome)
    (failure : Str) (keys : List Str) : Option UploadOutcome :=
  let tree := buildManifests sha (uploadEntries keys out.size opt.chunk) out.size
    opt.chunk opt.fanout
  let tooDeep := "at a fan-out of ".toList ++ num opt.fanout ++ " this file needs ".toList ++
    num tree.depth ++
    " levels of manifests; a reader accepts ".toList ++ num MAX_MANIFEST_DEPTH
  if tree.depth > MAX_MANIFEST_DEPTH then some { out with message := tooDeep }
  else
    match runPool ⟨tree.blobs.length, uploadManifest tree.blobs⟩ opt.workers w.manifestThreads
      w.manifestBeats
        ⟨failure, ()⟩ with
    | none => none
    | some (false, s) => some { out with message := poolMessage s.failure }
    | some (true, _) => some { out with
        ok := true
        rootKey := tree.rootKey
        manifests := tree.blobs.length
        depth := tree.depth }

/-- `upload_file`. -/
def uploadFile (sha : Sha1) (opt : TransferOptions) (path : Str) (w : UploadWorld) :
    Option UploadOutcome :=
  if opt.workers < 1 ∨ opt.workers > MAX_WORKERS then some { message := badWorkers }
  else if opt.chunk < 1 ∨ opt.chunk > MAX_CHUNK then
    some { message := "the chunk size must be 1 to ".toList ++ num MAX_CHUNK }
  else if opt.fanout < 2 ∨ opt.fanout > MANIFEST_FANOUT then
    some { message := "the fan-out must be 2 to ".toList ++ num MANIFEST_FANOUT }
  else
    match w.opening, w.before with
    | some e, _ => some { message := "cannot open ".toList ++ path ++ ": ".toList ++ e }
    | none, none => some { message := path ++ " is not a regular file".toList }
    | none, some st =>
      if ¬ st.regular then some { message := path ++ " is not a regular file".toList }
      else
        -- sizes are below `2 ^ 63` and chunks small, so none of these numbers wraps
        let n := chunkCount st.size opt.chunk
        let out : UploadOutcome := { size := st.size, chunks := n }
        match runPool ⟨n, uploadChunk path st.size opt.chunk⟩ opt.workers
          w.chunkThreads w.chunkBeats
            ⟨[], List.replicate n []⟩ with
        | none => none
        | some (false, s) => some { out with message := poolMessage s.failure }
        | some (true, s) =>
          if ¬ st.unchanged w.after then
            some { out with message := path ++ " changed while it was being read".toList }
          else uploadManifests sha opt w out s.failure s.work

/-! ### Download -/

/-- A path of the file system: a C string, which holds no NUL. -/
structure Path where
  text : Str
  no_nul : '\x00' ∉ text

/-- What is under a path. -/
inductive FileNode where
  | file (bytes : Str)
  | directory
deriving DecidableEq

/-- A file system. -/
abbrev Files : Type := Str → Option FileNode

def Files.set (files : Files) (path : Str) (node : Option FileNode) : Files :=
  fun p => if p = path then node else files p

/-- `unlink`: directories stay. -/
def Files.unlink (files : Files) (path : Str) : Files :=
  if files path = some .directory then files else files.set path none

/-- `rename`. -/
def Files.rename (files : Files) (path dest : Str) : Files :=
  (files.set dest (files path)).set path none

/-- `open` with `O_CREAT | O_EXCL`: there must be nothing under the path. -/
def Files.create (files : Files) (path : Str) (error : Option Str) : Except Str Files :=
  if files path ≠ none then .error "File exists".toList
  else
    match error with
    | some e => .error e
    | none => .ok (files.set path (some (.file [])))

/-- `ftruncate` of a new file: the size is an `off_t`. -/
def sizeNew (size : ℕ) (error : Option Str) : Except Str Str :=
  if size ≥ 2 ^ 63 then .error "Invalid argument".toList
  else
    match error with
    | some e => .error e
    | none => .ok (List.replicate size '\x00')

/-- What happens during a download: the name the part file gets, what `get` returns when the
manifests are read, call after call, why a system call fails, and how the pool runs. -/
structure DownloadWorld where
  pid : ℕ
  counter : ℕ
  get : ℕ → Str → GetOutcome
  creating : Option Str
  sizing : Option Str
  threads : ℕ
  beats : TransferBeats
  flushing : Option Str
  closing : Option Str
  moving : Option Str

structure DownloadOutcome where
  ok : Bool := false
  message : Str := []
  size : ℕ := 0
  chunks : ℕ := 0
  manifests : ℕ := 0
  depth : ℕ := 0
deriving DecidableEq

/-- The room for the path a signal handler removes, its final NUL included. -/
def PART_PATH : ℕ := 4096

/-- The part file, beside the destination. -/
def partPath (dest : Path) (w : DownloadWorld) : Str :=
  dest.text ++ ".part-".toList ++ num w.pid ++ '-' :: num w.counter

/-- The manifests, read and checked. -/
def DownloadWorld.resolved (w : DownloadWorld) (rootKey : Str) : Resolved :=
  ((resolveManifest (fun k => (Prog.ask k : Prog Unit Str (fun _ => GetOutcome) GetOutcome))
    rootKey).run (fun k n => (w.get n k, n + 1)) () 0).1

/-- The job for chunk `i` of a download: it is fetched and written in its place. -/
def downloadChunk (i : ℕ) (c : ChunkRef) : Job Str Bool := do
  let g ← getAttemptsUntil c.key
  if ¬ g.ok then
    failureSet ("chunk ".toList ++ num i ++ " (".toList ++ c.key ++ "): ".toList ++ g.message)
  else if g.body.length ≠ c.bytes then
    failureSet ("chunk ".toList ++ num i ++ " is ".toList ++ num g.body.length ++
      " bytes; the manifest says ".toList ++ num c.bytes)
  else do
    match ← pwriteAll g.body.length g.body c.offset with
    | some e => failureSet ("writing chunk ".toList ++ num i ++ ": ".toList ++ e)
    | none => pure true

/-- The jobs of a download. -/
def downloadJobs (chunks : List ChunkRef) : Work (Shared Str) TransferAsk TransferAsk.Reply where
  count := chunks.length
  job i :=
    match chunks[i]? with
    | some c => downloadChunk i c
    | none => pure false

/-- Give up: the part file is removed. -/
def abandon (out : DownloadOutcome) (files : Files) (part why : Str) : DownloadOutcome × Files :=
  ({ out with message := why }, files.unlink part)

/-- From the part file to the destination. -/
def publish (w : DownloadWorld) (out : DownloadOutcome) (files : Files) (part dest : Str) :
    DownloadOutcome × Files :=
  match w.flushing with
  | some e => abandon out files part ("cannot flush ".toList ++ part ++ ": ".toList ++ e)
  | none =>
  match w.closing with
  | some e => abandon out files part ("cannot close ".toList ++ part ++ ": ".toList ++ e)
  | none =>
  match w.moving with
  | some e => abandon out files part
    ("cannot rename ".toList ++ part ++ " to ".toList ++ dest ++ ": ".toList ++ e)
  -- a directory that cannot be flushed is only logged
  | none => ({ out with ok := true }, files.rename part dest)

/-- The part file: created, sized, filled and put in place. -/
def downloadChunks (opt : TransferOptions) (r : Resolved) (w : DownloadWorld)
    (out : DownloadOutcome) (files : Files) (part dest : Str) : Option (DownloadOutcome × Files) :=
  match files.create part w.creating with
  | .error e => some (abandon out files part ("cannot create ".toList ++ part ++ ": ".toList ++ e))
  | .ok files =>
  match sizeNew r.size w.sizing with
  | .error e => some (abandon out files part ("cannot size ".toList ++ part ++ ": ".toList ++ e))
  | .ok bytes =>
  match runPool (downloadJobs r.chunks) opt.workers w.threads w.beats ⟨[], bytes⟩ with
  | none => none
  | some (false, s) => some (abandon out (files.set part (some (.file s.work))) part
    (poolMessage s.failure))
  | some (true, s) => some (publish w out (files.set part (some (.file s.work))) part dest)

/-- `download_file`: the outcome, and the file system it leaves. -/
def downloadFile (opt : TransferOptions) (rootKey : Str) (dest : Path) (w : DownloadWorld)
    (files : Files) :
    Option (DownloadOutcome × Files) :=
  if opt.workers < 1 ∨ opt.workers > MAX_WORKERS then some ({ message := badWorkers }, files)
  else if files dest.text = some .directory then
    some ({ message := dest.text ++ " is a directory".toList }, files)
  else
    -- every manifest is fetched and checked before anything touches the disk
    let r := w.resolved rootKey
    if ¬ r.ok then some ({ message := r.message }, files)
    else
      let out : DownloadOutcome :=
        { size := r.size, chunks := r.chunks.length, manifests := r.manifests, depth := r.depth }
      let part := partPath dest w
      if opt.forSignals ∧ part.length ≥ PART_PATH then
        some ({ out with message := "the destination path is too long".toList }, files)
      else downloadChunks opt r w out files part dest.text

end ChordFs
