import ChordFs.Manifest
import ChordFs.Names
import ChordFs.Stabilize
import Mathlib.Algebra.Order.Ring.Int
import Mathlib.Data.Finset.Card
import Mathlib.Data.List.Sort
import Mathlib.Data.Rat.Floor

/-! # The collector

Mark and sweep over the whole system (`collect.h`, `collect.cpp`).  A collection lists every name at
the tracker, reads the manifest tree of every root it saw, finds every process of the ring, and asks
each for its keys page by page; what no tree has is sent back to be dropped.  It keeps no state of
its own, so it is a dialogue: a sequence of questions, each of which depends on the answers before.

The loops that follow a cursor go on for as long as the answers say so.  They are given a number of
rounds, and a dialogue that has used it up is cut off there (`none`): whatever a collection does, it
does in a dialogue with enough rounds. -/

namespace ChordFs

open Dialogue Paging

/-- What the collector does with readings of its clock, a `double` in seconds.  No law is
assumed. -/
class Seconds (S : Type) extends Add S, Sub S, LT S, IntCast S where
  decLt : DecidableLT S
  /-- `static_cast<long>`. -/
  toLong : S → ℤ

instance Seconds.decidableLT {S : Type} [Seconds S] : DecidableLT S := Seconds.decLt

/-- Exact seconds. -/
instance : Seconds ℚ where
  decLt := inferInstance
  toLong q := if 0 ≤ q then q.floor else q.ceil

/-- The most keys of one HAVE or DROP request and of one page of KEYS. -/
def MAX_HAVE_KEYS : ℕ := 20

namespace Collect

/-! ### Replies -/

/-- `parse_count`: a canonical decimal number of at most 18 digits. -/
def parseCount (w : Str) : Option ℕ := parseU64 w

/-- Names and keys, in turn. -/
def parsePairs : List Str → Option (List (Str × Str))
  | [] => some []
  | name :: key :: rest =>
    if ¬ validName name ∨ ¬ validKey key then none
    else (parsePairs rest).map ((name, key) :: ·)
  | _ => none

def parseEntriesReply (reply : Str) : Option (List (Str × Str)) :=
  match splitSingleSpaces reply with
  | verb :: count :: rest =>
    if verb ≠ "ENTRIES".toList then none
    else
      match parseCount count with
      | none => none
      | some n => if rest.length ≠ 2 * n then none else parsePairs rest
  | _ => none

/-- Valid keys in order without repeats, after the key `last` if there is one. -/
def parseKeyList : Option Str → List Str → Option (List Str)
  | _, [] => some []
  | last, k :: ks =>
    if ¬ validKey k ∨ last.any (k ≤ ·) then none
    else (parseKeyList (some k) ks).map (k :: ·)

/-- The keys of a page and the grace it reports, in seconds. -/
def parseKeysReply (reply : Str) : Option (List Str × ℕ) :=
  match splitSingleSpaces reply with
  | verb :: count :: grace :: rest =>
    if verb ≠ "KEYS".toList then none
    else
      match parseCount count, parseCount grace with
      | some n, some g =>
        if rest.length ≠ n then none else (parseKeyList none rest).map fun keys => (keys, g)
      | _, _ => none
  | _ => none

/-- Which of the `asked` keys were dropped, and the bytes freed. -/
def parseDroppedReply (reply : Str) (asked : ℕ) : Option (Str × ℕ) :=
  match splitSingleSpaces reply with
  | [verb, bits, count] =>
    if verb ≠ "DROPPED".toList ∨ bits.length ≠ asked then none
    else
      match parseCount count with
      | none => none
      | some bytes => if bits.all fun c => c = '0' ∨ c = '1' then some (bits, bytes) else none
  | _ => none

/-! ### Questions -/

/-- What a collection asks: `CollectIO`. -/
inductive Ask where
  | now
  | entries (after : Str)
  | get (key : Str)
  | nodes
  | ask (node : Peer) (line : Str)
deriving DecidableEq

/-- What became of a request to a node, and what its reply holds after the exchange. -/
structure Reply where
  delivery : Delivery
  reply : Str
deriving DecidableEq

/-- The processes found, and why the list may be incomplete. -/
structure Found where
  processes : List Peer
  err : Option Str
deriving DecidableEq

/-- The answers.  A page of entries is names with their keys. -/
abbrev Answer (S : Type) : Ask → Type
  | .now => S
  | .entries _ => Except Str (List (Str × Str))
  | .get _ => GetOutcome
  | .nodes => Found
  | .ask _ _ => Reply

instance {S : Type} [DecidableEq S] : ∀ q, DecidableEq (Answer S q)
  | .now => inferInstanceAs (DecidableEq S)
  | .entries _ => inferInstanceAs (DecidableEq (Except Str (List (Str × Str))))
  | .get _ => inferInstanceAs (DecidableEq GetOutcome)
  | .nodes => inferInstanceAs (DecidableEq Found)
  | .ask _ _ => inferInstanceAs (DecidableEq Reply)

end Collect

open Collect

/-- `CollectSettings`: the nodes' key, and the times D, U and W in seconds. -/
structure CollectSettings (S : Type) [Seconds S] where
  gcKey : Str
  dryRun : Bool := false
  deadline : S := ((1800 : ℤ) : S)
  uploadLimit : S := ((3600 : ℤ) : S)
  trackerWait : S := ((10 : ℤ) : S)

/-- What the grace of a node must cover. -/
def CollectSettings.needed {S : Type} [Seconds S] (s : CollectSettings S) : S :=
  s.uploadLimit + s.trackerWait + s.deadline

/-- What one node's sweep did. -/
structure NodeSweep where
  address : Str
  /-- The grace the node reported, in seconds. -/
  grace : ℤ := -1
  held : ℕ := 0
  garbage : ℕ := 0
  dropped : ℕ := 0
  bytes : ℕ := 0
  /-- Why the node was not swept, if it was not. -/
  skipped : Str := []
deriving DecidableEq, Repr

structure CollectReport (S : Type) where
  ok : Bool := false
  message : Str := []
  names : ℕ := 0
  roots : ℕ := 0
  live : ℕ := 0
  nodes : List NodeSweep := []
  garbage : ℕ := 0
  dropped : ℕ := 0
  bytes : ℕ := 0
  deadlineHit : Bool := false
  markTime : S
  sweepTime : S

/-- The keys a tree that was read has. -/
def Resolved.keys (r : Resolved) : Finset Str :=
  (r.manifestKeys ++ r.chunks.map ChunkRef.key).toFinset

def deadlineMessage : Str := "the deadline passed: the rest was left for the next collection".toList

/-- A node's sweep in the report. -/
def CollectReport.add {S : Type} (rep : CollectReport S) (ns : NodeSweep) (hit : Bool) :
    CollectReport S :=
  { rep with
    garbage := rep.garbage + ns.garbage
    dropped := rep.dropped + ns.dropped
    bytes := (rep.bytes + ns.bytes) % 2 ^ 64
    nodes := rep.nodes ++ [ns]
    deadlineHit := hit }

/-- What stands in the report once the sweep is over. -/
def CollectReport.finish {S : Type} [Seconds S] (rep : CollectReport S) (elapsed : S) :
    CollectReport S :=
  { rep with
    message := if rep.deadlineHit then
        rep.message ++ (if rep.message = [] then [] else "; ".toList) ++ deadlineMessage
      else rep.message
    sweepTime := elapsed - rep.markTime
    ok := true }

namespace Collect

variable {S : Type}

/-- A dialogue of the collector. -/
abbrev Talk (S : Type) (α : Type) := Prog Unit Ask (Answer S) α

def now : Talk S S := Prog.ask (A := Answer S) .now

def entries (after : Str) : Talk S (Except Str (List (Str × Str))) :=
  Prog.ask (A := Answer S) (.entries after)

def get (key : Str) : Talk S GetOutcome := Prog.ask (A := Answer S) (.get key)

def nodes : Talk S Found := Prog.ask (A := Answer S) .nodes

def ask (p : Peer) (line : Str) : Talk S Reply := Prog.ask (A := Answer S) (.ask p line)

/-! ### Mark -/

/-- Every entry of the namespace, page after page. -/
def listNames : ℕ → Str → List (Str × Str) → Talk S (Option (Except Str (List (Str × Str))))
  | 0, _, _ => pure none
  | rounds + 1, after, all => do
      match ← entries after with
      | .error err => pure (some (.error err))
      | .ok page =>
        match page.getLast? with
        | none => pure (some (.ok all))
        | some (name, _) => listNames rounds name (all ++ page)

/-- The distinct roots, in order. -/
def rootsOf (all : List (Str × Str)) : List Str := (all.map Prod.snd).dedup.insertionSort (· ≤ ·)

/-- The names bound to a root, as a message shows them. -/
def namedBy (all : List (Str × Str)) (root : Str) : Str :=
  ", ".toList.intercalate ((all.filter fun e => e.2 = root).map Prod.fst)

/-- The keys of all trees, or what could not be read. -/
def markRoots (all : List (Str × Str)) : List Str → Finset Str → Talk S (Except Str (Finset Str))
  | [], live => pure (.ok live)
  | root :: roots, live => do
      let r ← resolveManifest get root
      if ¬ r.ok then
        pure (.error ("the manifest tree of ".toList ++ namedBy all root ++ " could not be read (".toList ++
          r.message ++ "); nothing was dropped".toList))
      else markRoots all roots (live ∪ r.keys)

/-! ### Sweep -/

def keysLine (cursor : Str) : Str := "KEYS ".toList ++ cursor

def dropLine (gcKey : Str) (keys : List Str) : Str :=
  "DROP ".toList ++ gcKey ++ keys.flatMap fun k => ' ' :: k

/-- Every key of a node, page after page: what is known of the node, those not live, and whether the
listing came to its end. -/
def listKeys (p : Peer) (live : Finset Str) :
    ℕ → Str → NodeSweep → List Str → Talk S (Option (NodeSweep × List Str × Bool))
  | 0, _, _, _ => pure none
  | rounds + 1, cursor, ns, garbage => do
      let a ← ask p (keysLine cursor)
      match (if a.delivery = .ok then parseKeysReply a.reply else none) with
      | none =>
        let why := "could not list its chunks (".toList ++ a.reply.take 80 ++ ")".toList
        pure (some ({ ns with skipped := why }, garbage, false))
      | some (keys, grace) =>
        let ns := { ns with grace := grace }
        match keys.getLast? with
        | none => pure (some (ns, garbage, true))
        | some last =>
          listKeys p live rounds last { ns with held := ns.held + keys.length }
            (garbage ++ keys.filter (· ∉ live))

variable [Seconds S]

/-- The batches of a node's garbage, and whether the deadline passed. -/
def dropBatches (s : CollectSettings S) (t0 : S) (p : Peer) :
    List (List Str) → NodeSweep → Talk S (NodeSweep × Bool)
  | [], ns => pure (ns, false)
  | keys :: rest, ns => do
      let t ← now
      if s.deadline < t - t0 then pure (ns, true)
      else
        let a ← ask p (dropLine s.gcKey keys)
        match (if a.delivery = .ok then parseDroppedReply a.reply keys.length else none) with
        | none =>
          let why := "DROP refused (".toList ++ a.reply.take 80 ++ ")".toList
          pure ({ ns with skipped := why }, false)
        | some (bits, bytes) =>
          dropBatches s t0 p rest { ns with
            dropped := ns.dropped + bits.count '1'
            bytes := (ns.bytes + bytes) % 2 ^ 64 }

def shortGrace (s : CollectSettings S) (grace : ℤ) : Str :=
  "its grace (".toList ++ numInt grace ++
    " s) is shorter than the upload limit, the tracker wait and this collection's deadline together (".toList ++
    numInt (Seconds.toLong s.needed) ++ " s)".toList

/-- What is known of a node after its listing: a grace that is too short keeps it from being
swept. -/
def listedSweep (s : CollectSettings S) (ns : NodeSweep) (garbage : List Str) (listed : Bool) : NodeSweep :=
  let ns := if listed ∧ (ns.grace : S) < s.needed then { ns with skipped := shortGrace s ns.grace } else ns
  { ns with garbage := garbage.length }

/-- One node, and whether the deadline passed. -/
def sweepNode (rounds : ℕ) (s : CollectSettings S) (t0 : S) (live : Finset Str) (p : Peer) :
    Talk S (Option (NodeSweep × Bool)) := do
  match ← listKeys p live rounds "-".toList { address := address p } [] with
  | none => pure none
  | some (ns, garbage, listed) =>
    let ns := listedSweep s ns garbage listed
    if ns.skipped = [] ∧ ¬ s.dryRun then
      let swept ← dropBatches s t0 p (batches MAX_HAVE_KEYS garbage) ns
      pure (some swept)
    else pure (some (ns, false))

/-- Node after node, until the deadline. -/
def sweep (rounds : ℕ) (s : CollectSettings S) (t0 : S) (live : Finset Str) :
    List Peer → CollectReport S → Talk S (Option (CollectReport S))
  | [], rep => pure (some rep)
  | p :: ps, rep => do
      match ← sweepNode rounds s t0 live p with
      | none => pure none
      | some (ns, hit) =>
        if hit then pure (some (rep.add ns hit)) else sweep rounds s t0 live ps (rep.add ns hit)

end Collect

variable {S : Type} [Seconds S]

/-- `collect`, with so many rounds for each listing. -/
def collect (rounds : ℕ) (s : CollectSettings S) : Talk S (Option (CollectReport S)) := do
  let zero : S := ((0 : ℤ) : S)
  let rep : CollectReport S := { markTime := zero, sweepTime := zero }
  let t0 ← now
  match ← listNames rounds [] [] with
  | none => pure none
  | some (.error err) => pure (some { rep with message := "could not list the names: ".toList ++ err })
  | some (.ok all) =>
    let rep := { rep with names := all.length, roots := (rootsOf all).length }
    match ← markRoots all (rootsOf all) ∅ with
    | .error message => pure (some { rep with message := message })
    | .ok live =>
      let t1 ← now
      let rep := { rep with live := live.card, markTime := t1 - t0 }
      let found ← nodes
      let rep := match found.err with
        | none => rep
        | some err => { rep with message := "the node list may be incomplete (".toList ++ err ++
            "); nodes missed keep their garbage".toList }
      match ← sweep rounds s t0 live found.processes rep with
      | none => pure none
      | some rep =>
        let t2 ← now
        pure (some (rep.finish (t2 - t0)))

end ChordFs
