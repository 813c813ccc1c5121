import ChordFs.Lib.Dialogue
import ChordFs.Peers

/-! # Serving a connection

One thread of a server reads a connection line by line, and a body behind each line that announces
one (`net.cpp`, and the loops `serve` of `node.cpp` and `tracker.cpp`).  It asks the system for
bytes, as many as come at once, and the rest of its process for the replies.  Counters and the log
have no part in what is read or answered; a call that a signal interrupts is made again. -/

namespace ChordFs

open Text Dialogue

/-- What the thread of a connection asks the system and the rest of its process. -/
inductive SocketAsk where
  /-- Up to the deadline. -/
  | readable
  | recv (n : ℕ)
  | send (data : Str)
  | holdBody
  | chunk (line body : Str)
  | request (member : Id) (line : Str)
  | tracker (line body : Str)
deriving DecidableEq

def SocketAsk.Reply : SocketAsk → Type
  | readable => Bool
  /- Nothing at all is an error; no bytes mean that the peer has closed. -/
  | recv _ => Option Str
  /- How many bytes were taken, none if the send failed. -/
  | send _ => ℕ
  | holdBody => Bool
  | chunk _ _ => Str × Str
  | request _ _ => Str
  | tracker _ _ => Str

/-- A program of the thread of a connection. -/
abbrev Session (α : Type) : Type := Prog Unit SocketAsk SocketAsk.Reply α

/-- `wait_readable`. -/
def waitReadable : Session Bool := .ask SocketAsk.readable

/-- One call of `recv`. -/
def recvSome (n : ℕ) : Session (Option Str) := .ask (SocketAsk.recv n)

/-- One call of `send`. -/
def sendSome (data : Str) : Session ℕ := .ask (SocketAsk.send data)

/-- `hold_body`: whether there is room for one more. -/
def holdBody : Session Bool := .ask SocketAsk.holdBody

/-- `handle_chunk_request`: the reply and its body. -/
def askChunk (line body : Str) : Session (Str × Str) := .ask (SocketAsk.chunk line body)

/-- `handle_request` of a member. -/
def askMember (member : Id) (line : Str) : Session Str := .ask (SocketAsk.request member line)

/-- `Replica::handle`. -/
def askTracker (line body : Str) : Session Str := .ask (SocketAsk.tracker line body)

/-! ### Lines and bodies -/

/-- `send_all`.  Every round sends at least one byte, so as many rounds as there are bytes are
enough. -/
def sendAll : ℕ → Str → Session Bool
  | _, [] => pure true
  | 0, _ :: _ => pure false
  | rounds + 1, c :: cs => do
      let n ← sendSome (c :: cs)
      if n = 0 then pure false else sendAll rounds ((c :: cs).drop n)

def isBreak (c : Char) : Bool := c = '\n' ∨ c = '\r'

/-- What `send_line` sends for a line: no line break in it, and one newline at its end. -/
def lineOut (line : Str) : Str :=
  ((line.reverse.dropWhile isBreak).reverse.map fun c => if isBreak c then ' ' else c) ++ ['\n']

/-- `send_line`. -/
def sendLine (line : Str) : Session Bool := sendAll (lineOut line).length (lineOut line)

/-- A line without the carriage return at its end. -/
def chomp (line : Str) : Str := if line.getLast? = some '\r' then line.dropLast else line

/-- The loop of `recv_line`: one byte at a time, with room for so many more before the newline. -/
def recvLineLoop : ℕ → Str → Session (Option Str)
  | room, out => do
      if ← waitReadable then
        match ← recvSome 1 with
        | none => pure none
        | some [] => pure none
        | some (c :: _) =>
          if c = '\n' then pure (some (chomp out))
          else
            match room with
            | 0 => pure none
            | room + 1 => recvLineLoop room (out ++ [c])
      else pure none

/-- `recv_line_by`. -/
def recvLine : Session (Option Str) := recvLineLoop MAX_LINE []

/-- Receive `left` bytes more after `got`, at most `limit` at once.  Every round that goes on has
received at least one byte, so `left` rounds are enough. -/
def recvPieces (limit : ℕ) : ℕ → ℕ → Str → Session (Option Str)
  | _, 0, got => pure (some got)
  | 0, _ + 1, _ => pure none
  | rounds + 1, left + 1, got => do
      if ← waitReadable then
        match ← recvSome (min limit (left + 1)) with
        | none => pure none
        | some [] => pure none
        | some (c :: cs) => recvPieces limit rounds (left + 1 - (c :: cs).length) (got ++ c :: cs)
      else pure none

/-- `recv_exact_by`: every call asks for all that is missing. -/
def recvExact (n : ℕ) : Session (Option Str) := recvPieces n n n []

/-- `recv_discard_by`: the bytes go through a small buffer and are dropped. -/
def recvDiscard (n : ℕ) : Session Bool := do return (← recvPieces 4096 n n []).isSome

/-! ### The loops -/

/-- What became of a frame: it was handled and answered, or its body was dropped and it was
refused. -/
inductive Reception where
  | answered (line body reply replyBody : Str)
  | refused (line : Str) (length : ℕ)
deriving DecidableEq

/-- `is_chunk_request`. -/
def isChunkRequest (line : Str) : Bool :=
  ["PUT".toList, "STORE".toList, "GET".toList, "HAVE".toList, "DIGEST".toList, "KEYS".toList,
    "DROP".toList].contains (firstWord line)

/-- `serve_chunk`.  With no result the connection must be closed. -/
def serveChunk (line : Str) : Session (Option Reception) :=
  let answer (body : Str) : Session (Option Reception) := do
    let (reply, replyBody) ← askChunk line body
    if ← sendLine reply then
      if ← sendAll replyBody.length replyBody then return some (.answered line body reply replyBody)
      else return none
    else return none
  match bodyLength line with
  | .malformed => do
      let _ ← sendLine "ERR malformed body length".toList
      return none
  | .tooLarge => do
      let _ ← sendLine ("ERR chunk larger than ".toList ++ num MAX_BODY ++ " bytes".toList)
      return none
  | .none => answer []
  | .present length => do
      -- there must be room for the body before any of it is read
      if ← holdBody then
        match ← recvExact length with
        | none => return none
        | some body => answer body
      else if ← recvDiscard length then
        if ← sendLine "ERR busy".toList then return some (.refused line length) else return none
      else return none

/-- Whom a line is for. -/
inductive Target where
  | none
  | member (id : Id) (request : Str)
  | malformed
deriving DecidableEq

/-- `split_target`. -/
def splitTarget (line : Str) : Target :=
  if line.take 3 ≠ "TO ".toList then .none
  else if line.length < 21 ∨ line.getD 19 '\x00' ≠ ' ' then .malformed
  else
    match idFromHex ((line.drop 3).take 16) with
    | none => .malformed
    | some id => .member id (line.drop 20)

/-- The members of a node process, the first one for requests without a target. -/
structure NodeMembers where
  front : Id
  others : List Id

/-- A request that is for one of the members, or the answer that it is for none. -/
def ringReply (members : NodeMembers) (line : Str) : Session Str :=
  match splitTarget line with
  | .malformed => pure "ERR malformed TO prefix".toList
  | .none => askMember members.front line
  | .member id request =>
    if id ∈ members.front :: members.others then askMember id request
    else pure ("ERR no ring member ".toList ++ idToHex id ++ " here".toList)

/-- One request of a node, its id taken off. -/
def serveNodeLine (members : NodeMembers) (line : Str) : Session (Option Reception) :=
  if isChunkRequest line ∨ bodyLength line ≠ .none then serveChunk line
  else do
    let reply ← ringReply members line
    if ← sendLine reply then return some (.answered line [] reply []) else return none

/-- One request of a tracker. -/
def serveTrackerLine (line : Str) : Session (Option Reception) :=
  let answer (body : Str) : Session (Option Reception) := do
    let reply ← askTracker line body
    if ← sendLine reply then return some (.answered line body reply []) else return none
  match bodyLength line with
  | .malformed => do
      let _ ← sendLine "ERR malformed body length".toList
      return none
  | .tooLarge => do
      let _ ← sendLine "ERR body too large".toList
      return none
  | .none => answer []
  | .present length => do
      match ← recvExact length with
      | none => return none
      | some body => answer body

/-- The loop that both servers run, up to `rounds` times: a line is read, a request id comes off,
and the rest is served.  The result, what was read and answered, is for the statements about it. -/
def serveLoop (serveLine : Str → Session (Option Reception)) : ℕ → Session (List Reception)
  | 0 => pure []
  | rounds + 1 => do
      let serveNext (line : Str) : Session (List Reception) := do
        match ← serveLine line with
        | none => pure []
        | some r => do return r :: (← serveLoop serveLine rounds)
      match ← recvLine with
      | none => pure []
      | some raw =>
        match splitRequestId raw with
        | .malformed => do
            let _ ← sendLine "ERR malformed request id".toList
            pure []
        | .none => serveNext raw
        | .present _ line => serveNext line

inductive Server where
  | node (members : NodeMembers)
  | tracker

/-- `serve` of `node.cpp` and of `tracker.cpp`. -/
def Server.serve : Server → ℕ → Session (List Reception)
  | node members => serveLoop (serveNodeLine members)
  | tracker => serveLoop serveTrackerLine

end ChordFs
