import ChordFs.Collect
import ChordFs.Coordinate
import Mathlib.Data.Finset.Sort

/-! # The chunk requests of a node

What a process does with the requests for its chunks (`handle_chunk_request` of `chunk.cpp`) and the
listings of its store that they are answered from.  PUT hands the write to a coordinator; everything
else is answered at once.

A request that a process was sent is taken apart into the words it was put together from
(`handleChunkRequest_words`), so what it does with each is read off its arm. -/

namespace ChordFs

open Text

/-! ### Listings -/

def storeHas (s : ChunkStore) (key : Str) : Bool := key ∈ s.keys

/-- `store_keys`: in order. -/
def storeKeys (s : ChunkStore) : List Str := s.keys.sort (· ≤ ·)

/-- The identifier of the key lies in `(start, stop]`. -/
def keyInArc (start stop : Id) (key : Str) : Bool :=
  match idFromKey key with
  | none => false
  | some id => inRangeOc id start stop

/-- `store_keys_in_arc`. -/
def storeKeysInArc (s : ChunkStore) (start stop : Id) : List Str :=
  (storeKeys s).filter (keyInArc start stop)

/-- `store_keys_after`: at most `limit` keys, from the first one if `after` is empty. -/
def storeKeysAfter (s : ChunkStore) (after : Str) (limit : ℕ) : List Str :=
  ((storeKeys s).filter fun key => after = [] ∨ after < key).take limit

/-- `keys_digest`: how many keys, and the hash of their listing. -/
def keysDigest (sha : Sha1) (keys : List Str) : Str :=
  words [num keys.length, chunkKey sha (keys.flatMap fun key => key ++ ['\n'])]

section listings
variable {s : ChunkStore} {start stop : Id} {key : Str}

theorem mem_storeKeys : key ∈ storeKeys s ↔ key ∈ s.keys := Finset.mem_sort _

theorem mem_storeKeysInArc : key ∈ storeKeysInArc s start stop ↔
    key ∈ s.keys ∧ keyInArc start stop key = true := by
  rw [storeKeysInArc, List.mem_filter, mem_storeKeys]

theorem storeKeysInArc_eq (s : ChunkStore) (start stop : Id) :
    storeKeysInArc s start stop =
      (s.keys.filter fun key => keyInArc start stop key = true).sort (· ≤ ·) := by
  have hsorted : (storeKeysInArc s start stop).Pairwise (· ≤ ·) :=
    (Finset.pairwise_sort s.keys (· ≤ ·)).sublist List.filter_sublist
  have hnodup : (storeKeysInArc s start stop).Nodup :=
    (Finset.sort_nodup s.keys _).sublist List.filter_sublist
  refine List.Perm.eq_of_pairwise' hsorted (Finset.pairwise_sort _ _) ?_
  rw [List.perm_ext_iff_of_nodup hnodup (Finset.sort_nodup _ _)]
  intro key
  rw [mem_storeKeysInArc, Finset.mem_sort, Finset.mem_filter]

end listings

/-! ### The requests -/

/-- A process, as a request finds it. -/
structure ChunkNode where
  /-- Whether it keeps chunks at all. -/
  keeps : Bool
  store : ChunkStore
  disk : Disk
  members : List NodeState
  members_ne : members ≠ []
  /-- In milliseconds. -/
  gcGrace : ℤ
  /-- Empty if deletion is not enabled. -/
  gcKey : Str

/-- What a request comes to: an answer, or a write of which `w` copies are to be confirmed, as its
coordinator begins it. -/
inductive ChunkHandled where
  | answer (f : ChunkFrame)
  | write (key body : Str) (w : ℕ) (m : PutMachine)

def ChunkHandled.line (line : Str) : ChunkHandled := .answer ⟨line, []⟩

/-- `parse_w`: one digit, 1 to 3. -/
def parseW : Str → Option ℕ
  | [c] => if '1' ≤ c ∧ c ≤ '3' then some (c.toNat - '0'.toNat) else none
  | _ => none

def badKeyLine : Str := "ERR key must be 40 lowercase hexadecimal characters".toList

def malformedLine : Str := "ERR malformed chunk request".toList

/-- `same_secret`: every byte is compared. -/
def sameSecret (a b : Str) : Bool := a.length = b.length ∧ (a.zip b).all fun p => p.1 = p.2

namespace ChunkNode

/-- The node after a change to its store. -/
def withStore (n : ChunkNode) (s : ChunkStore × Disk) : ChunkNode :=
  { n with store := s.1, disk := s.2 }

/-- PUT. -/
def put (sha : Sha1) (io : Io) (now : ℤ) (n : ChunkNode) (body : Str) :
    List Str → ChunkHandled × ChunkNode
  | [key, w, _] =>
    if ¬ validKey key then (.line badKeyLine, n)
    else
      match parseW w with
      | none => (.line "ERR w must be 1, 2 or 3".toList, n)
      | some copies =>
        (.write key body copies
          (coordinate sha key body n.members n.members_ne io now n.store n.disk),
          n.withStore (storePut sha io now key body n.store n.disk).2)
  | _ => (.line malformedLine, n)

/-- GET. -/
def get (busy : Bool) (n : ChunkNode) : List Str → ChunkHandled
  | [key] => .answer (handleGet busy n.disk key)
  | _ => .line malformedLine

/-- HAVE: a digit for each key. -/
def haveKeys (n : ChunkNode) (keys : List Str) : ChunkHandled :=
  if keys = [] ∨ keys.length > MAX_HAVE_KEYS then .line malformedLine
  else if ¬ keys.all validKey then .line badKeyLine
  else .line (words ["HAVE".toList, keys.map fun key => if storeHas n.store key then '1' else '0'])

/-- DIGEST: what the process holds in one arc. -/
def digest (sha : Sha1) (n : ChunkNode) : List Str → ChunkHandled
  | [start, stop] =>
    match idFromHex start, idFromHex stop with
    | some start, some stop =>
      .line (words ["DIGEST".toList, keysDigest sha (storeKeysInArc n.store start stop)])
    | _, _ => .line "ERR malformed DIGEST".toList
  | _ => .line malformedLine

/-- KEYS: a page of what the process holds, and its grace in seconds.  A listing from the start
forgets old write times. -/
def keys (now : ℤ) (n : ChunkNode) : List Str → ChunkHandled × ChunkNode
  | [cursor] =>
    if cursor ≠ "-".toList ∧ ¬ validKey cursor then (.line badKeyLine, n)
    else
      let n := if cursor = "-".toList then { n with store := storeForgetOld n.gcGrace now n.store }
        else n
      let page := storeKeysAfter n.store (if cursor = "-".toList then [] else cursor) MAX_HAVE_KEYS
      (.line (words ("KEYS".toList :: num page.length :: numInt (n.gcGrace.tdiv 1000) :: page)), n)
  | _ => (.line malformedLine, n)

/-- Each key is dropped if it is old enough: a digit for each, and the bytes freed.  The clock is
read for each. -/
def dropKeys (io : Io) (grace : ℤ) :
    (ℕ → ℤ) → List Str → ChunkStore × Disk → (Str × ℕ) × ChunkStore × Disk
  | _, [], s => (([], 0), s)
  | clock, key :: keys, s =>
    let out := storeDrop io grace (clock 0) key s.1 s.2
    let rest := dropKeys io grace (fun i => clock (i + 1)) keys out.2
    if out.1.1 = .dropped then (('1' :: rest.1.1, (out.1.2 + rest.1.2) % 2 ^ 64), rest.2)
    else (('0' :: rest.1.1, rest.1.2), rest.2)

/-- DROP, for a caller that holds the key. -/
def drop (io : Io) (clock : ℕ → ℤ) (n : ChunkNode) : List Str → ChunkHandled × ChunkNode
  | [] => (.line malformedLine, n)
  | secret :: keys =>
    if keys = [] ∨ keys.length > MAX_HAVE_KEYS then (.line malformedLine, n)
    else if n.gcKey = [] then (.line "ERR deletion is not enabled on this node".toList, n)
    else if ¬ sameSecret secret n.gcKey then (.line "ERR wrong collection key".toList, n)
    else if ¬ keys.all validKey then (.line badKeyLine, n)
    else
      let out := dropKeys io n.gcGrace clock keys (n.store, n.disk)
      (.line (words ["DROPPED".toList, out.1.1, num out.1.2]), n.withStore out.2)

/-- The verb and its arguments; `clock` has what the steady clock shows each time it is read. -/
def handle (sha : Sha1) (io : Io) (clock : ℕ → ℤ) (busy : Bool) (n : ChunkNode)
    (line body verb : Str) (args : List Str) :
    ChunkHandled × ChunkNode :=
  if verb = "PUT".toList then n.put sha io (clock 0) body args
  else if verb = "STORE".toList then
    let out := handleStore sha io (clock 0) line body n.store n.disk
    (.line out.1, n.withStore out.2)
  else if verb = "GET".toList then (n.get busy args, n)
  else if verb = "HAVE".toList then (n.haveKeys args, n)
  else if verb = "DIGEST".toList then (n.digest sha args, n)
  else if verb = "KEYS".toList then n.keys (clock 0) args
  else if verb = "DROP".toList then n.drop io clock args
  else (.line malformedLine, n)

end ChunkNode

/-- `handle_chunk_request`. -/
def handleChunkRequest (sha : Sha1) (io : Io) (clock : ℕ → ℤ) (busy : Bool) (n : ChunkNode)
    (line body : Str) :
    ChunkHandled × ChunkNode :=
  match splitSingleSpaces line with
  | [] => (.line "ERR empty request".toList, n)
  | verb :: args =>
    if verb = [] then (.line "ERR empty request".toList, n)
    else if ¬ n.keeps then (.line "ERR this node keeps no chunks".toList, n)
    else n.handle sha io clock busy line body verb args

section requests
variable {sha : Sha1} {io : Io} {clock : ℕ → ℤ} {busy : Bool} {n : ChunkNode} {body : Str}

/-- **A request is taken apart into the words it was put together from.** -/
theorem handleChunkRequest_words {verb : Str} {args : List Str} (hkeeps : n.keeps = true)
    (hverb : verb ≠ []) (hspace : ∀ word ∈ verb :: args, ' ' ∉ word) :
    handleChunkRequest sha io clock busy n (words (verb :: args)) body =
      n.handle sha io clock busy (words (verb :: args)) body verb args := by
  rw [handleChunkRequest, splitSingleSpaces_words hspace (List.cons_ne_nil _ _)]
  dsimp only
  rw [if_neg hverb, if_neg (by simp [hkeeps])]

end requests

end ChordFs
