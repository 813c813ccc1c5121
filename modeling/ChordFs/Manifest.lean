import ChordFs.Words
import ChordFs.Lib.Dialogue
import ChordFs.Lib.Paging

/-! # Manifests

How a file is found again from one key (`transfer.h`, `transfer.cpp`).  A data manifest lists the
chunks of a file in order; if they are too many for one manifest, index manifests list the
manifests, level over level, and the key of the topmost is the file's root key.

`formatManifest` and `parseManifest` are the text form, `buildManifests` the levels over a list of
chunks, and `resolveManifest` reads a tree back through whatever fetches a chunk, one level at a
time.  `TreeManifest` and `TreeKey` say what belongs to the tree under a root, for any notion of
what was read under a key. -/

namespace ChordFs

open Text Dialogue Paging

/-- The largest chunk a node keeps. -/
def MAX_CHUNK : ℕ := 512 * 1024

/-- The most entries of one manifest. -/
def MANIFEST_FANOUT : ℕ := 8192

/-- The most levels of manifests a reader accepts. -/
def MAX_MANIFEST_DEPTH : ℕ := 4

/-- Tries per chunk before a transfer fails. -/
def CHUNK_ATTEMPTS : ℕ := 3

def U64_MAX : ℕ := 2 ^ 64 - 1

inductive ManifestKind where
  | data
  | index
deriving DecidableEq, Repr

structure ManifestEntry where
  /-- A data chunk's key, or a child manifest's. -/
  key : Str
  /-- How many bytes of the file it covers. -/
  bytes : ℕ
deriving DecidableEq, Repr

structure Manifest where
  size : ℕ
  chunk : ℕ
  kind : ManifestKind
  entries : List ManifestEntry
deriving DecidableEq, Repr

/-! ### The text form -/

def kindName : ManifestKind → Str
  | .data => "data".toList
  | .index => "index".toList

def manifestLine (e : ManifestEntry) : Str := e.key ++ ' ' :: num e.bytes

def formatManifest (m : Manifest) : Str :=
  terminated (["chordfs-manifest 1".toList, "size ".toList ++ num m.size,
    "chunk ".toList ++ num m.chunk, "kind ".toList ++ kindName m.kind,
    "entries ".toList ++ num m.entries.length] ++ m.entries.map manifestLine)

namespace Transfer

/-- One more digit, unless the number would wrap. -/
def pushDigit (v : ℕ) (c : Char) : Option ℕ :=
  if ¬ c.isDigit then none
  else
    let d := c.toNat - '0'.toNat
    if v > (U64_MAX - d) / 10 then none else some (v * 10 + d)

/-- `parse_u64` of `transfer.cpp`: a canonical decimal number up to `2 ^ 64 - 1`. -/
def parseU64 (s : Str) : Option ℕ :=
  if s = [] ∨ s.length > 20 then none
  else if s.length > 1 ∧ s.head? = some '0' then none
  else s.foldlM pushDigit 0

/-- `header_number`: exactly the name, a space and a number. -/
def headerNumber (line name : Str) : Option ℕ :=
  if line.take (name.length + 1) ≠ name ++ [' '] then none
  else parseU64 (line.drop (name.length + 1))

end Transfer

def notAManifest : Str := "not a manifest: the first line is not 'chordfs-manifest 1'".toList

def parseKind (line : Str) : Option ManifestKind :=
  if line = "kind data".toList then some .data
  else if line = "kind index".toList then some .index
  else none

def parseManifestEntry (l : Str) : Option ManifestEntry :=
  if l.length < 42 ∨ l.getD 40 '\x00' ≠ ' ' ∨ ¬ validKey (l.take 40) then none
  else (Transfer.parseU64 (l.drop 41)).map fun bytes => ⟨l.take 40, bytes⟩

/-- The entries from line `i` on, after entries of `sum` bytes, and the bytes of all of them. -/
def parseManifestEntries : ℕ → ℕ → List Str → Except Str (List ManifestEntry × ℕ)
  | _, sum, [] => .ok ([], sum)
  | i, sum, l :: ls =>
    match parseManifestEntry l with
    | none => .error ("bad entry on line ".toList ++ num (i + 1))
    | some e =>
      if e.bytes > U64_MAX - sum then .error "the entries' byte counts overflow".toList
      else (parseManifestEntries (i + 1) (sum + e.bytes) ls).map fun (es, total) => (e :: es, total)

/-- The shape rule for one entry.  Chunks are full except the last; a child manifest covers whole
chunks except the last. -/
def shapeFits (kind : ManifestKind) (chunk : ℕ) (last : Bool) (b : ℕ) : Bool :=
  match kind with
  | .data => if last then 1 ≤ b ∧ b ≤ chunk else b = chunk
  | .index => 1 ≤ b ∧ (last ∨ b % chunk = 0)

/-- The number of the first entry that breaks the shape rule, counting from `i`. -/
def misfit (kind : ManifestKind) (chunk : ℕ) : ℕ → List ManifestEntry → Option ℕ
  | _, [] => none
  | i, e :: es =>
    if shapeFits kind chunk es.isEmpty e.bytes then misfit kind chunk (i + 1) es else some i

/-- The checks behind the header. -/
def checkManifest (m : Manifest) (sum : ℕ) : Except Str Manifest :=
  if sum ≠ m.size then
    .error ("the entries add up to ".toList ++ num sum ++ " bytes, not ".toList ++ num m.size)
  else
    match misfit m.kind m.chunk 0 m.entries with
    | some i => .error ("entry ".toList ++ num (i + 1) ++ " has the wrong byte count for a ".toList ++
        kindName m.kind ++ " manifest".toList)
    | none =>
      if m.kind = .index ∧ m.entries = [] then
        .error "an index manifest lists no manifests".toList
      else .ok m

/-- A manifest from its lines. -/
def parseLines : List Str → Except Str Manifest
  | first :: sizeLine :: chunkLine :: kindLine :: entriesLine :: rest =>
    if first ≠ "chordfs-manifest 1".toList then .error notAManifest
    else
      match Transfer.headerNumber sizeLine "size".toList with
      | none => .error "bad size line".toList
      | some size =>
      match (Transfer.headerNumber chunkLine "chunk".toList).filter fun c => c ≠ 0 ∧ c ≤ MAX_CHUNK with
      | none => .error ("bad chunk line (the chunk size must be 1 to ".toList ++ num MAX_CHUNK ++
          ")".toList)
      | some chunk =>
      match parseKind kindLine with
      | none => .error "bad kind line".toList
      | some kind =>
      if Transfer.headerNumber entriesLine "entries".toList ≠ some rest.length then
        .error "the entries line does not match the number of entries".toList
      else
        match parseManifestEntries 5 0 rest with
        | .error why => .error why
        | .ok (entries, sum) => checkManifest ⟨size, chunk, kind, entries⟩ sum
  | _ => .error "the manifest header is incomplete".toList

/-- `parse_manifest`, or why the text is refused. -/
def parseManifest (text : Str) : Except Str Manifest :=
  if text.take 19 ≠ "chordfs-manifest 1\n".toList then .error notAManifest
  else if text.getLast? ≠ some '\n' then .error "the manifest does not end with a newline".toList
  -- lines are counted before the text is split
  else if text.count '\n' < 5 then .error "the manifest header is incomplete".toList
  else if text.count '\n' - 5 > MANIFEST_FANOUT then
    .error ("the manifest has more than ".toList ++ num MANIFEST_FANOUT ++ " entries".toList)
  else parseLines (completeLines text)

/-! ### Building -/

/-- Every manifest of a file, children before their parents, and the key of the last. -/
structure ManifestTree where
  blobs : List Str
  rootKey : Str
  depth : ℕ

/-- `chunk_key`. -/
def chunkKey (sha : Sha1) (bytes : Str) : Str := sha.digest bytes

/-- One manifest over a run of entries. -/
def manifestOver (chunk : ℕ) (kind : ManifestKind) (es : List ManifestEntry) : Manifest :=
  ⟨es.foldl (fun sum e => (sum + e.bytes) % 2 ^ 64) 0, chunk, kind, es⟩

/-- The loop of `build_manifests`.  A level shrinks from round to round, so as many rounds as it has
entries are enough. -/
def buildLevels (sha : Sha1) (size chunk fanout : ℕ) :
    ℕ → ManifestKind → List ManifestEntry → ManifestTree → ManifestTree
  | rounds, kind, level, tree =>
    if level.length ≤ fanout then
      let blob := formatManifest ⟨size, chunk, kind, level⟩
      ⟨tree.blobs ++ [blob], chunkKey sha blob, tree.depth + 1⟩
    else
      match rounds with
      | 0 => tree
      | rounds + 1 =>
        let ms := (batches fanout level).map (manifestOver chunk kind)
        let next := ms.map fun m => ⟨chunkKey sha (formatManifest m), m.size⟩
        buildLevels sha size chunk fanout rounds .index next
          { tree with blobs := tree.blobs ++ ms.map formatManifest, depth := tree.depth + 1 }

def buildManifests (sha : Sha1) (chunks : List ManifestEntry) (size chunk fanout : ℕ) : ManifestTree :=
  -- a fan-out of 1 would never shrink a level
  let fanout := max 2 (min fanout MANIFEST_FANOUT)
  buildLevels sha size chunk fanout chunks.length .data chunks ⟨[], [], 0⟩

/-! ### Reading a tree back -/

/-- The outcome of fetching one chunk. -/
structure GetOutcome where
  ok : Bool
  body : Str
  message : Str
deriving DecidableEq, Repr

/-- One chunk of a file: where it goes and how long it is. -/
structure ChunkRef where
  key : Str
  offset : ℕ
  bytes : ℕ
deriving DecidableEq, Repr

structure Resolved where
  ok : Bool := false
  message : Str := []
  size : ℕ := 0
  chunk : ℕ := 0
  chunks : List ChunkRef := []
  depth : ℕ := 0
  manifests : ℕ := 0
  /-- Every manifest read, the root first. -/
  manifestKeys : List Str := []
deriving DecidableEq, Repr

/-- `return r` with a message. -/
def Resolved.fail (r : Resolved) (message : Str) : Resolved := { r with message := message }

/-- A manifest still to be read: where its bytes start, how many its parent says it covers. -/
structure Pending where
  key : Str
  offset : ℕ
  bytes : ℕ
  depth : ℕ

section resolve
variable {σ Q : Type} {A : Q → Type} (get : Str → Prog σ Q A GetOutcome)

/-- `get_attempts` with this many more tries after the first. -/
def getAttempts (key : Str) : ℕ → Prog σ Q A GetOutcome
  | 0 => get key
  | more + 1 => do
      let g ← get key
      if g.ok then pure g else getAttempts key more

/-- The entries of a manifest with the place where each one starts. -/
def placed : ℕ → List ManifestEntry → List (ManifestEntry × ℕ)
  | _, [] => []
  | offset, e :: es => (e, offset) :: placed ((offset + e.bytes) % 2 ^ 64) es

/-- What a manifest adds: chunks, or manifests for the next level. -/
def Resolved.enter (r : Resolved) (p : Pending) (m : Manifest) : Resolved × List Pending :=
  let r := { r with depth := max r.depth p.depth }
  match m.kind with
  | .data => ({ r with
      chunks := r.chunks ++ (placed p.offset m.entries).map fun (e, o) => ⟨e.key, o, e.bytes⟩ }, [])
  | .index => (r, (placed p.offset m.entries).map fun (e, o) => ⟨e.key, o, e.bytes, p.depth + 1⟩)

/-- One more manifest was read. -/
def Resolved.counted (r : Resolved) (p : Pending) : Resolved :=
  { r with manifests := r.manifests + 1, manifestKeys := r.manifestKeys ++ [p.key] }

/-- A manifest that was parsed, checked against its parent and the root. -/
def Resolved.take (r : Resolved) (p : Pending) (m : Manifest) :
    Except Resolved (Resolved × List Pending) :=
  let r := r.counted p
  if p.depth = 1 then .ok ({ r with size := m.size, chunk := m.chunk : Resolved }.enter p m)
  else if m.size ≠ p.bytes then
    .error (r.fail ("manifest ".toList ++ p.key ++ " covers ".toList ++ num m.size ++
      " bytes; its parent says ".toList ++ num p.bytes))
  else if m.chunk ≠ r.chunk then
    .error (r.fail ("manifest ".toList ++ p.key ++
      " uses a different chunk size from the root's".toList))
  else .ok (r.enter p m)

section take
variable {r r' : Resolved} {p : Pending} {m : Manifest}

theorem Resolved.take_root (hroot : p.depth = 1) :
    r.take p m = .ok ({ r.counted p with size := m.size, chunk := m.chunk : Resolved }.enter p m) := if_pos hroot

theorem Resolved.take_child (hdeep : p.depth ≠ 1) (hsize : m.size = p.bytes) (hchunk : m.chunk = r.chunk) :
    r.take p m = .ok ((r.counted p).enter p m) :=
  (if_neg hdeep).trans ((if_neg (not_not_intro hsize)).trans (if_neg (not_not_intro hchunk)))

/-- The root is taken, a manifest that agrees with its parent and the root is taken, and any other
is refused. -/
theorem Resolved.take_cases (r : Resolved) (p : Pending) (m : Manifest) :
    p.depth = 1 ∧ r.take p m = .ok ({ r.counted p with size := m.size, chunk := m.chunk : Resolved }.enter p m) ∨
    p.depth ≠ 1 ∧ m.size = p.bytes ∧ m.chunk = r.chunk ∧ r.take p m = .ok ((r.counted p).enter p m) ∨
    ∃ why, r.take p m = .error ((r.counted p).fail why) := by
  by_cases hroot : p.depth = 1
  · exact .inl ⟨hroot, take_root hroot⟩
  right
  by_cases hsize : m.size = p.bytes
  · by_cases hchunk : m.chunk = r.chunk
    · exact .inl ⟨hroot, hsize, hchunk, take_child hroot hsize hchunk⟩
    · exact .inr ⟨_, (if_neg hroot).trans ((if_neg (not_not_intro hsize)).trans (if_pos hchunk))⟩
  · exact .inr ⟨_, (if_neg hroot).trans (if_pos hsize)⟩

theorem ok_of_take_error (h : r.take p m = .error r') : r'.ok = r.ok := by
  obtain ⟨-, heq⟩ | ⟨-, -, -, heq⟩ | ⟨_, heq⟩ := r.take_cases p m <;> cases heq.symm.trans h
  rfl

end take

/-- One manifest of a level. -/
def readManifest (p : Pending) (r : Resolved) : Prog σ Q A (Except Resolved (Resolved × List Pending)) :=
  if p.depth > MAX_MANIFEST_DEPTH then
    pure (.error (r.fail ("manifest ".toList ++ p.key ++ " is deeper than ".toList ++
      num MAX_MANIFEST_DEPTH ++ " levels".toList)))
  else do
    let g ← getAttempts get p.key (CHUNK_ATTEMPTS - 1)
    if ¬ g.ok then
      pure (.error (r.fail ("manifest ".toList ++ p.key ++ ": ".toList ++ g.message)))
    else
      match parseManifest g.body with
      | .error why => pure (.error (r.fail ("manifest ".toList ++ p.key ++ ": ".toList ++ why)))
      | .ok m => pure (r.take p m)

/-- One level; `next` is the level below as far as it is known. -/
def readLevel : List Pending → List Pending → Resolved →
    Prog σ Q A (Except Resolved (Resolved × List Pending))
  | [], next, r => pure (.ok (r, next))
  | p :: ps, next, r => do
      match ← readManifest get p r with
      | .error r => pure (.error r)
      | .ok (r, more) => readLevel ps (next ++ more) r

/-- Level after level.  The manifests of the level after the last allowed one are refused, so the
number of rounds is never used up. -/
def resolveLevels : ℕ → List Pending → Resolved → Prog σ Q A Resolved
  | _, [], r => pure { r with ok := true }
  | 0, _ :: _, r => pure r
  | rounds + 1, p :: ps, r => do
      match ← readLevel get (p :: ps) [] r with
      | .error r => pure r
      | .ok (r, next) => resolveLevels rounds next r

def resolveManifest (rootKey : Str) : Prog σ Q A Resolved :=
  if ¬ validKey rootKey then
    pure { message := "the root key is not 40 lowercase hexadecimal characters".toList }
  else resolveLevels get (MAX_MANIFEST_DEPTH + 1) [⟨rootKey, 0, 0, 1⟩] {}

end resolve

/-! ### Trees

`reads k m` stands for: under the key `k` the manifest `m` was read. -/

/-- The manifests of the tree under a root. -/
inductive TreeManifest (reads : Str → Manifest → Prop) (root : Str) : Str → Prop
  | root : TreeManifest reads root root
  | child {k : Str} {m : Manifest} {e : ManifestEntry} : TreeManifest reads root k → reads k m →
      m.kind = .index → e ∈ m.entries → TreeManifest reads root e.key

/-- The keys of the tree under a root: its manifests and the chunks its data manifests list. -/
def TreeKey (reads : Str → Manifest → Prop) (root k : Str) : Prop :=
  TreeManifest reads root k ∨
    ∃ p m e, TreeManifest reads root p ∧ reads p m ∧ m.kind = .data ∧ e ∈ m.entries ∧ e.key = k

section trees
variable {reads reads' : Str → Manifest → Prop} {root k : Str}

/-- What contains the root and the entries of what it contains has the whole tree. -/
theorem TreeKey.mem_of_closed {live : Str → Prop} (h : TreeKey reads root k) (hroot : live root)
    (hclosed : ∀ p m, reads p m → ∀ e ∈ m.entries, live e.key) : live k := by
  have hman : ∀ k, TreeManifest reads root k → live k := by
    intro k hk
    cases hk with
    | root => exact hroot
    | child _ hr _ he => exact hclosed _ _ hr _ he
  rcases h with h | ⟨p, m, e, -, hr, -, he, rfl⟩
  · exact hman k h
  · exact hclosed p m hr e he

end trees

end ChordFs
