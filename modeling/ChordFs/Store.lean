import ChordFs.Lib.Volume
import ChordFs.Manifest
import Mathlib.Algebra.Order.Ring.Int
import Mathlib.Algebra.BigOperators.Group.Finset.Basic
import Mathlib.Data.Char
import Mathlib.Data.List.Lex

/-! # The chunk store

One file per chunk, named by its key (`store.h`, `store.cpp`).  An index in memory holds the keys on
disk, the time each was last written and how many bytes they take; `store_open` builds it from the
directory, and every operation keeps the two in step.

Here are the operations as they run when nothing else does.  Each critical section is a function of
its own (`ChunkStore.renew`, `add`, `forget`, `drop`), and so is what each system call does to the
disk, so that an operation can be taken apart again where others run between its steps. -/

namespace ChordFs

open Text

/-! ### The index and the disk -/

/-- The store of a process.  Times are those of the steady clock. -/
structure ChunkStore where
  keys : Finset Str
  /-- When a chunk was last written, if it was since the store was opened. -/
  touched : Str → Option ℤ
  opened : ℤ
  nextTmp : ℕ
  bytes : ℕ

/-- What the directory of a store holds: the chunks under their keys, and the writes in progress. -/
structure Disk where
  chunks : Volume Str Str
  tmp : SortedMap Str (File Str)

inductive PutResult where
  | stored
  | alreadyHeld
  | badKey
  | tooLarge
  | hashMismatch
  | ioError
deriving DecidableEq, Repr

inductive DropResult where
  | dropped
  | tooYoung
  | notHeld
  | badKey
deriving DecidableEq, Repr

/-- The chunk is in the store when the call returns. -/
def PutResult.isHeld (r : PutResult) : Bool := r = .stored ∨ r = .alreadyHeld

/-- Which system calls of an operation succeed. -/
structure Io where
  opens : Bool := true
  /-- The write, the flush of the file and its close. -/
  writes : Bool := true
  renames : Bool := true
  /-- The flush of the directory. -/
  flushes : Bool := true
  stats : Bool := true
  unlinks : Bool := true
deriving DecidableEq

namespace Disk

/-- The fan-out directory of a key. -/
def fanDir (key : Str) : Str := key.take 2

/-- The name of a write in progress. -/
def tmpName (key : Str) (n : ℕ) : Str := key ++ '.' :: num n

def file? (d : Disk) (key : Str) : Option (File Str) := d.chunks.files.find? key

/-- The size `stat` gives, and zero if it fails. -/
def size (d : Disk) (key : Str) : ℕ := ((d.file? key).map fun f => f.data.length).getD 0

def setTmp (d : Disk) (name : Str) (f : File Str) : Disk := { d with tmp := d.tmp.set name f }

def unlinkTmp (d : Disk) (name : Str) : Disk := { d with tmp := d.tmp.erase name }

/-- A write is committed: its file is renamed to the key. -/
def commit (d : Disk) (name key : Str) (f : File Str) : Disk :=
  ⟨d.chunks.place key f, d.tmp.erase name⟩

def flushDir (d : Disk) (key : Str) : Disk :=
  { d with chunks := d.chunks.flush fun k => fanDir k = fanDir key }

def unlink (d : Disk) (key : Str) : Disk := { d with chunks := d.chunks.unlink key }

/-- An empty directory. -/
def blank : Disk := ⟨⟨.empty, fun _ => none⟩, .empty⟩

end Disk

/-- The key of the chunk without bytes. -/
def emptyChunk : Str := "da39a3ee5e6b4b0d3255bfef95601890afd80709".toList

namespace ChunkStore

/-- The chunk counts as written now. -/
def renew (s : ChunkStore) (key : Str) (now : ℤ) : ChunkStore :=
  { s with touched := Function.update s.touched key (some now) }

/-- The last section of `store_put`: a chunk is counted once, if two writers raced. -/
def add (s : ChunkStore) (key : Str) (size : ℕ) (now : ℤ) : ChunkStore :=
  { s with
    keys := insert key s.keys
    bytes := if key ∈ s.keys then s.bytes else s.bytes + size : ChunkStore }.renew key now

/-- The section of `store_remove`. -/
def forget (s : ChunkStore) (key : Str) (size : ℕ) : ChunkStore :=
  if key ∈ s.keys then { s with keys := s.keys.erase key, bytes := s.bytes - min size s.bytes }
  else s

/-- When a chunk counts as last written. -/
def written (s : ChunkStore) (key : Str) : ℤ := (s.touched key).getD s.opened

/-- What `store_drop` does to the index. -/
def drop (s : ChunkStore) (key : Str) (size : ℕ) : ChunkStore :=
  { s with
    keys := s.keys.erase key
    touched := Function.update s.touched key none
    bytes := s.bytes - min size s.bytes }

/-- A temporary name is drawn. -/
def draw (s : ChunkStore) : ChunkStore := { s with nextTmp := s.nextTmp + 1 }

end ChunkStore

/-! ### The operations -/

/-- What was found at start-up. -/
structure OpenReport where
  loaded : ℕ
  removed : ℕ
deriving DecidableEq

/-- The keys a listing of the fan-out directories finds. -/
def Disk.keys (d : Disk) : Finset Str := (d.chunks.files.keys.filter validKey).toFinset

/-- `store_open`: the unfinished writes are deleted and the index is built. -/
def storeOpen (now : ℤ) (d : Disk) : OpenReport × ChunkStore × Disk :=
  let found := d.chunks.files.keys.filter validKey
  (⟨found.length, d.tmp.keys.length⟩,
    { keys := d.keys
      touched := fun _ => none
      opened := now
      nextTmp := 0
      bytes := (found.map d.size).sum },
    { d with tmp := .empty })

/-- What `store_put` refuses before it touches a path. -/
def putRefusal (sha : Sha1) (key body : Str) : Option PutResult :=
  if ¬ validKey key then some .badKey
  else if body.length > MAX_CHUNK then some .tooLarge
  else if chunkKey sha body ≠ key then some .hashMismatch
  else none

/-- A chunk is written, flushed and renamed into place. -/
def writeChunk (io : Io) (key body : Str) (n : ℕ) (d : Disk) : Bool × Disk :=
  let name := Disk.tmpName key n
  -- a name that is taken makes the open fail
  if ¬ io.opens ∨ (d.tmp.find? name).isSome then (false, d)
  -- what could not be written or renamed is deleted
  else if ¬ io.writes ∨ ¬ io.renames then (false, d.unlinkTmp name)
  else
    let d := (d.setTmp name ⟨body, true⟩).commit name key ⟨body, true⟩
    if ¬ io.flushes then (false, d) else (true, d.flushDir key)

/-- `store_put`. -/
def storePut (sha : Sha1) (io : Io) (now : ℤ) (key body : Str) (s : ChunkStore) (d : Disk) :
    PutResult × ChunkStore × Disk :=
  match putRefusal sha key body with
  | some r => (r, s, d)
  | none =>
    if key ∈ s.keys then (.alreadyHeld, s.renew key now, d)
    else
      match writeChunk io key body s.nextTmp d with
      | (true, d) => (.stored, s.draw.add key body.length now, d)
      | (false, d) => (.ioError, s.draw, d)

/-- `store_remove`. -/
def storeRemove (io : Io) (key : Str) (s : ChunkStore) (d : Disk) : Bool × ChunkStore × Disk :=
  if ¬ validKey key then (false, s, d)
  else
    let s := s.forget key (if io.stats then d.size key else 0)
    -- a file that is not there is fine
    let d := if io.unlinks then d.unlink key else d
    (io.unlinks, s, if io.flushes then d.flushDir key else d)

/-- `store_drop`: the result, and the bytes freed. -/
def storeDrop (io : Io) (grace now : ℤ) (key : Str) (s : ChunkStore) (d : Disk) :
    (DropResult × ℕ) × ChunkStore × Disk :=
  if ¬ validKey key then ((.badKey, 0), s, d)
  else if key ∉ s.keys then ((.notHeld, 0), s, d)
  else if now - s.written key < grace then ((.tooYoung, 0), s, d)
  else
    let size := if io.stats then d.size key else 0
    -- the unlink is not flushed
    ((.dropped, size), s.drop key size, if io.unlinks then d.unlink key else d)

/-- `store_forget_old`. -/
def storeForgetOld (grace now : ℤ) (s : ChunkStore) : ChunkStore :=
  { s with touched := fun key => (s.touched key).filter fun t => ¬ now - t ≥ grace }

/-! ### What is found -/

variable {d : Disk} {body k key : Str} {sha : Sha1}

theorem Disk.file?_commit {name : Str} {f : File Str} :
    (d.commit name key f).file? k = if k = key then some f else d.file? k := by
  refine Eq.trans Volume.find?_place ?_
  by_cases hk : k = key <;> simp [hk, Disk.file?]

theorem Disk.file?_unlink : (d.unlink key).file? k = if k = key then none else d.file? k := by
  refine Eq.trans Volume.find?_unlink ?_
  by_cases hk : k = key <;> simp [hk, Disk.file?]

/-! ### What an operation can do -/

theorem putRefusal_cases {r : PutResult} (h : putRefusal sha key body = some r) :
    r = .badKey ∨ r = .tooLarge ∨ r = .hashMismatch := by
  unfold putRefusal at h
  split at h
  · exact .inl (Option.some.inj h).symm
  split at h
  · exact .inr (.inl (Option.some.inj h).symm)
  split at h
  · exact .inr (.inr (Option.some.inj h).symm)
  · cases h

theorem putRefusal_none (h : putRefusal sha key body = none) :
    validKey key = true ∧ chunkKey sha body = key := by
  unfold putRefusal at h
  split at h
  · cases h
  rename_i hvalid
  split at h
  · cases h
  split at h
  · cases h
  · rename_i hkey
    exact ⟨not_not.mp hvalid, not_not.mp hkey⟩

/-- **Everything `store_put` can do.** -/
theorem storePut_cases (sha : Sha1) (io : Io) (now : ℤ) (key body : Str) (s : ChunkStore) (d : Disk) :
    (∃ r, r.isHeld = false ∧ ∀ s d, storePut sha io now key body s d = (r, s, d)) ∨
    putRefusal sha key body = none ∧
      (key ∈ s.keys ∧ storePut sha io now key body s d = (.alreadyHeld, s.renew key now, d) ∨
      key ∉ s.keys ∧ ∃ d', (writeChunk io key body s.nextTmp d = (true, d') ∧
          storePut sha io now key body s d = (.stored, s.draw.add key body.length now, d') ∨
        writeChunk io key body s.nextTmp d = (false, d') ∧
          storePut sha io now key body s d = (.ioError, s.draw, d'))) := by
  unfold storePut
  cases hr : putRefusal sha key body with
  | some r =>
    refine .inl ⟨r, ?_, fun _ _ => rfl⟩
    rcases putRefusal_cases hr with rfl | rfl | rfl <;> rfl
  | none =>
    refine .inr ⟨rfl, ?_⟩
    by_cases hk : key ∈ s.keys
    · exact .inl ⟨hk, if_pos hk⟩
    · refine .inr ⟨hk, ?_⟩
      dsimp only
      rw [if_neg hk]
      rcases hw : writeChunk io key body s.nextTmp d with ⟨_ | _, d'⟩
      · exact ⟨d', .inr ⟨rfl, rfl⟩⟩
      · exact ⟨d', .inl ⟨rfl, rfl⟩⟩

/-! ### What a failed write leaves -/

/-- The index and the chunks on the disk are what they were. -/
structure Unaltered (s : ChunkStore) (d : Disk) (s' : ChunkStore) (d' : Disk) : Prop where
  keys : s'.keys = s.keys
  bytes : s'.bytes = s.bytes
  touched : s'.touched = s.touched
  chunks : ∀ k, (d'.file? k).map File.data = (d.file? k).map File.data

/-- A write gets as far as renaming its file. -/
def Io.commits (io : Io) (key : Str) (n : ℕ) (d : Disk) : Bool :=
  io.opens = true ∧ d.tmp.find? (Disk.tmpName key n) = none ∧ io.writes = true ∧ io.renames = true

/-- **A write that fails** did not get as far as renaming its file, or could not flush the directory
after. -/
theorem writeChunk_eq_false {io : Io} {n : ℕ} {d' : Disk} (h : writeChunk io key body n d = (false, d')) :
    (io.commits key n d = false ∧ ∀ k, d'.file? k = d.file? k) ∨
      (io.commits key n d = true ∧ io.flushes = false ∧
        ∀ k, d'.file? k = if k = key then some ⟨body, true⟩ else d.file? k) := by
  unfold writeChunk at h
  dsimp only at h
  split at h
  · rename_i hopen
    obtain rfl := (Prod.mk.inj h).2
    refine .inl ⟨?_, fun _ => rfl⟩
    rcases hopen with hopen | htaken
    · simp [Io.commits, hopen]
    · obtain ⟨f, hf⟩ := Option.isSome_iff_exists.mp htaken
      simp [Io.commits, hf]
  rename_i hopen
  split at h
  · rename_i hwrite
    obtain rfl := (Prod.mk.inj h).2
    refine .inl ⟨?_, fun _ => rfl⟩
    rcases hwrite with hwrite | hrename
    · simp [Io.commits, hwrite]
    · simp [Io.commits, hrename]
  rename_i hwrite
  split at h
  · rename_i hflush
    obtain rfl := (Prod.mk.inj h).2
    refine .inr ⟨?_, by simpa using hflush, fun k => Disk.file?_commit⟩
    rw [not_or, not_not] at hopen hwrite
    exact decide_eq_true ⟨hopen.1, by simpa using hopen.2, hwrite.1, not_not.mp hwrite.2⟩
  · cases h

/-- After the rename a write still fails if the directory cannot be flushed. -/
theorem storePut_of_commits {io : Io} (now : ℤ) {s : ChunkStore} (hrefused : putRefusal sha key body = none)
    (hkey : key ∉ s.keys) (hcommits : io.commits key s.nextTmp d = true) (hflush : io.flushes = false) :
    ∃ d', writeChunk io key body s.nextTmp d = (false, d') ∧ storePut sha io now key body s d = (.ioError, s.draw, d') := by
  obtain ⟨hopens, hfree, hwrites, hrenames⟩ := of_decide_eq_true hcommits
  have hfails : (writeChunk io key body s.nextTmp d).1 = false := by
    simp [writeChunk, hopens, hfree, hwrites, hrenames, hflush]
  rcases hwrite : writeChunk io key body s.nextTmp d with ⟨done, d'⟩
  rw [hwrite] at hfails
  subst hfails
  refine ⟨d', rfl, ?_⟩
  rw [storePut, hrefused]
  dsimp only
  rw [if_neg hkey, hwrite]

/-- **A write that fails alters nothing**, unless the directory cannot be flushed after the rename:
then the chunk is on the disk, and not in the index. -/
theorem failed_put_alters_nothing (sha : Sha1) (io : Io) (now : ℤ) (key body : Str) (s : ChunkStore) (d : Disk) :
    let out := storePut sha io now key body s d
    (out.1.isHeld = false → Unaltered s d out.2.1 out.2.2) ↔
      ¬ (putRefusal sha key body = none ∧ key ∉ s.keys ∧ io.commits key s.nextTmp d = true ∧ io.flushes = false ∧
        (d.file? key).map File.data ≠ some body) := by
  dsimp only
  constructor
  · rintro hkeeps ⟨hrefused, hkey, hcommits, hflush, hdata⟩
    obtain ⟨d', hwrite, hout⟩ := storePut_of_commits now hrefused hkey hcommits hflush
    rw [hout] at hkeeps
    rcases writeChunk_eq_false hwrite with ⟨hfalse, -⟩ | ⟨-, -, hfile⟩
    · rw [hcommits] at hfalse
      cases hfalse
    · have hsame := (hkeeps rfl).chunks key
      rw [hfile, if_pos rfl] at hsame
      exact hdata hsame.symm
  · intro hflush hout
    obtain ⟨r, hr, hall⟩ | ⟨hrefused, ⟨-, heq⟩ | ⟨hkey, d', ⟨-, heq⟩ | ⟨hwrite, heq⟩⟩⟩ :=
      storePut_cases sha io now key body s d
    · rw [hall]
      exact ⟨rfl, rfl, rfl, fun _ => rfl⟩
    · rw [heq] at hout
      cases hout
    · rw [heq] at hout
      cases hout
    · rw [heq]
      refine ⟨rfl, rfl, rfl, fun k => ?_⟩
      rcases writeChunk_eq_false hwrite with ⟨-, hfile⟩ | ⟨hcommits, hfails, hfile⟩
      · rw [hfile]
      · rw [hfile]
        by_cases hk : k = key
        · subst hk
          rw [if_pos rfl]
          by_contra hdata
          exact hflush ⟨hrefused, hkey, hcommits, hfails, fun h => hdata h.symm⟩
        · rw [if_neg hk]

/-- **The empty chunk is put into place, and the write has failed.** -/
theorem failed_put_leaves_chunk : let s := (storeOpen 0 .blank).2.1
    let out := storePut (.ofTable []) { flushes := false } 0 emptyChunk [] s .blank
    out.1 = .ioError ∧ (Disk.blank.file? emptyChunk).map File.data = none ∧
      (out.2.2.file? emptyChunk).map File.data = some [] ∧ emptyChunk ∉ out.2.1.keys := by
  decide +kernel

end ChordFs
