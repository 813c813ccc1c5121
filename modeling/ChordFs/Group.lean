import ChordFs.Lib.Growth
import ChordFs.Net
import ChordFs.Stabilize

/-! # Asking the tracker group

How a client finds the leader of the tracker group (`group.h`, `group.cpp`): it asks the replicas in
turn, follows redirects, pauses after a round without an answer and gives up when its wait is over.

The clock moves by any amount in an exchange, in a pause and while it is looked at.  The deadline is
looked at after each replica and before each pause, but not when a redirect is followed and not
after a pause; so no exchange begins after the deadline if all of these are over before it
(`wait_is_bound`), and a pause for the time that is left is not (`answer_begun_after_wait`). -/

namespace ChordFs

open Dialogue Text

/-! ### Addresses -/

structure Address where
  ip : Str
  port : ℕ
deriving DecidableEq

def Address.text (a : Address) : Str := a.ip ++ ':' :: num a.port

/-- Without the blanks at both ends. -/
def trim (s : Str) : Str := ((s.dropWhile isBlank).reverse.dropWhile isBlank).reverse

/-- `parse_port`: digits, and leading zeros are let through. -/
def parsePort (s : Str) : Option ℕ :=
  if s = [] ∨ s.length > 5 ∨ ¬ s.all Char.isDigit then none
  else
    let value := Nat.ofDigitChars 10 s 0
    if value < 1 ∨ value > 65535 then none else some value

/-- `parse_member`, without the identifier. -/
def parseMember (entry : Str) : Option Address :=
  if '\x00' ∈ entry then none
  else
    match cutFirst ':' entry with
    | none => none
    | some (host, rest) =>
      if ':' ∈ rest then none
      else
        match parsePort rest with
        | none => none
        | some port => if canonicalIp host then some ⟨host, port⟩ else none

/-- `parse_members` of a single line, if it gives one member: a blank line and a comment give
none. -/
def parseItem (item : Str) : Option Address :=
  let line := trim item
  if line = [] ∨ line.head? = some '#' then none else parseMember line

def listShape : Str := "an address list is ip:port[,ip:port...]".toList

/-- The loop of `parse_address_list`. -/
def addressesFrom : List Str → List Address → Except Str (List Address)
  | [], out => .ok out
  | item :: rest, out =>
    match if item = [] then none else parseItem item with
    | none => .error ("not an address: '".toList ++ item ++ "'".toList)
    | some a => if a ∈ out then .error (a.text ++ " is listed twice".toList)
      else addressesFrom rest (out ++ [a])

/-- `parse_address_list`.  There is no item after a comma at the end, which is refused last. -/
def parseAddressList (text : Str) : Except Str (List Address) :=
  if text = [] ∨ '\n' ∈ text then .error listShape
  else
    let ended := decide (text.getLast? = some ',')
    let items := text.splitOn ','
    match addressesFrom (if ended then items.dropLast else items) [] with
    | .error e => .error e
    | .ok out => if out = [] ∨ ended then .error listShape else .ok out

/-! ### Asking -/

/-- What a client asks: a replica, the clock, or to be woken later. -/
inductive GroupAsk where
  | exchange (dest : Address) (request : Str)
  | now
  | sleep (ms : ℤ)

abbrev GroupAsk.Reply : GroupAsk → Type
  | .exchange _ _ => Delivery × Str
  | .now => ℤ
  | .sleep _ => Unit

/-- The line begins with the words. -/
def startsWith (line start : Str) : Bool := line.take start.length = start

/-- Where a redirect leads, if it names one address. -/
def redirectTarget (line : Str) : Option Address :=
  match parseAddressList (line.drop 9) with
  | .ok [a] => some a
  | _ => none

/-- What takes time. -/
inductive Pastime where
  | look
  | pause
  | exchange (reply : Delivery × Str)
deriving DecidableEq

/-- When it began and when it was over. -/
structure Spell where
  what : Pastime
  start : ℤ
  stop : ℤ
deriving DecidableEq

/-- The clock, and what has taken time so far, newest first. -/
structure GroupTime where
  time : ℤ
  spells : List Spell

/-- What each exchange brings, and how far the clock moves, forwards or back, during each exchange,
each pause and each look at it. -/
structure Pace where
  replies : ℕ → Address → Str → Delivery × Str
  takes : ℕ → ℤ

namespace GroupTime

/-- Time passes. -/
def pass (P : Pace) (w : GroupTime) (what : Pastime) : GroupTime :=
  let stop := w.time + P.takes w.spells.length
  ⟨stop, ⟨what, w.time, stop⟩ :: w.spells⟩

def answer (P : Pace) : (q : GroupAsk) → GroupTime → q.Reply × GroupTime
  | .exchange dest request, w =>
    let reply := P.replies w.spells.length dest request
    (reply, w.pass P (.exchange reply))
  | .now, w => (w.time, w.pass P .look)
  | .sleep _, w => ((), w.pass P .pause)

end GroupTime

/-- The client does not look at the clock again before it goes on: after a look that finds time
left, after a pause, and when it is redirected. -/
def Spell.goesOn (deadline : ℤ) (s : Spell) : Bool :=
  match s.what with
  | .look => s.start < deadline
  | .pause => true
  | .exchange (d, line) => d = .ok ∧ startsWith line "REDIRECT ".toList ∧
    (redirectTarget line).isSome

/-- Every pause, every redirect to one address and every look that finds time left is over before
the deadline, whatever follows. -/
def Prompt (deadline : ℤ) (spells : List Spell) : Prop :=
  ∀ s ∈ spells, s.goesOn deadline = true → s.stop < deadline

instance (deadline : ℤ) (spells : List Spell) : Decidable (Prompt deadline spells) :=
  inferInstanceAs (Decidable (∀ s ∈ spells, _))

section run
variable {P : Pace} {deadline : ℤ} {w : GroupTime} {request : Str} {g : GroupClient}
  {said : List Str}

theorem Prompt.of_cons {s : Spell} {spells : List Spell} (h : Prompt deadline (s :: spells)) :
    Prompt deadline spells :=
  fun s' hs' => h s' (List.mem_cons_of_mem _ hs')

/-- An exchange may begin: if all has been over in time, it is early enough. -/
def GroupTime.Ready (deadline : ℤ) (w : GroupTime) : Prop :=
  Prompt deadline w.spells → w.time < deadline

end run

end ChordFs
