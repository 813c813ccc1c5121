import ChordFs.Serve

/-! # The stream never loses its place

A client sends frames back to back on one connection: a line, perhaps with a request id in front,
and the body it announces.  Whatever pieces they arrive in, the server reads just these lines and
bodies.  Each reader takes from the stream what belongs to it and no more (`ends_recvLine`,
`ends_recvPieces`), and both sides find the same body behind a line (`bodyLength_withRequestId`); so
one round of the loop consumes one frame and sends one reply (`InStep`), and a run of it all of
them. -/

namespace ChordFs

open Text Dialogue

/-! ### A connection -/

/-- One end of a connection: what is still to come, what was sent, and how many calls were made. -/
structure Wire where
  input : Str
  output : Str
  calls : ℕ

/-- What a connection depends on, call by call: how many bytes the system moves, whether there is
room for a body, and the replies of the handlers. -/
structure Surroundings where
  cuts : ℕ → ℕ
  room : ℕ → Bool
  chunk : ℕ → Str → Str → Str × Str
  request : ℕ → Id → Str → Str
  tracker : ℕ → Str → Str → Str

/-- Bytes arrive within the deadlines and sends are taken, in pieces of any size. -/
def Surroundings.env (E : Surroundings) : (q : SocketAsk) → Wire → q.Reply × Wire
  | .readable, w => (true, w)
  | .recv n, w =>
    let m := max 1 (min n (E.cuts w.calls))
    (some (w.input.take m), { w with input := w.input.drop m, calls := w.calls + 1 })
  | .send data, w =>
    let m := max 1 (min data.length (E.cuts w.calls))
    (m, { w with output := w.output ++ data.take m, calls := w.calls + 1 })
  | .holdBody, w => (E.room w.calls, { w with calls := w.calls + 1 })
  | .chunk line body, w => (E.chunk w.calls line body, { w with calls := w.calls + 1 })
  | .request member line, w => (E.request w.calls member line, { w with calls := w.calls + 1 })
  | .tracker line body, w => (E.tracker w.calls line body, { w with calls := w.calls + 1 })

/-- With this input and output the program comes to its end, and there `post` holds of its result
and of the input and output then, however the bytes were cut up. -/
def Ends {α : Type} (E : Surroundings) (p : Session α) (input output : Str)
    (post : α → Str → Str → Prop) : Prop :=
  ∀ calls, ∃ a input' output' calls', p.run E.env () ⟨input, output, calls⟩ =
    (a, (), ⟨input', output', calls'⟩) ∧ post a input' output'

section ends
variable {E : Surroundings} {α β : Type} {i o : Str}

variable {post : Option Str → Str → Str → Prop} {body data line rest s : Str} {rounds : ℕ}

theorem ends_pure {post : α → Str → Str → Prop} {a : α} (h : post a i o) :
    Ends E (pure a) i o post :=
  fun calls => ⟨a, i, o, calls, rfl, h⟩

/-- **Sequencing.** -/
theorem Ends.bind {post : β → Str → Str → Prop} {p : Session α} {k : α → Session β}
    (h : Ends E p i o fun a i' o' => Ends E (k a) i' o' post) : Ends E (p >>= k) i o post := by
  intro calls
  obtain ⟨a, i₁, o₁, calls₁, hrun, hk⟩ := h calls
  obtain ⟨b, i₂, o₂, calls₂, hrun', hpost⟩ := hk calls₁
  refine ⟨b, i₂, o₂, calls₂, ?_, hpost⟩
  rw [Prog.run_bind, hrun]
  exact hrun'

theorem ends_waitReadable {post : Bool → Str → Str → Prop} (h : post true i o) :
    Ends E waitReadable i o post :=
  fun calls => ⟨true, i, o, calls, rfl, h⟩

theorem ends_recvSome {n : ℕ} (hn : 0 < n)
    (h : ∀ m, 0 < m → m ≤ n → post (some (i.take m)) (i.drop m) o) :
    Ends E (recvSome n) i o post :=
  fun calls => ⟨_, _, _, _, rfl, h _ (by omega) (by omega)⟩

theorem ends_sendSome {post : ℕ → Str → Str → Prop} (hdata : 0 < data.length)
    (h : ∀ m, 0 < m → m ≤ data.length → post m i (o ++ data.take m)) :
    Ends E (sendSome data) i o post :=
  fun calls => ⟨max 1 (min data.length (E.cuts calls)), _, _, _, rfl, h _ (by omega) (by omega)⟩

theorem ends_holdBody {post : Bool → Str → Str → Prop} (h : ∀ b, post b i o) :
    Ends E holdBody i o post :=
  fun calls => ⟨_, _, _, _, rfl, h (E.room calls)⟩

theorem ends_askChunk {post : Str × Str → Str → Str → Prop} (h : ∀ r, post r i o) :
    Ends E (askChunk line body) i o post :=
  fun calls => ⟨_, _, _, _, rfl, h (E.chunk calls line body)⟩

theorem ends_askMember {member : Id} {post : Str → Str → Str → Prop} (h : ∀ r, post r i o) :
    Ends E (askMember member line) i o post :=
  fun calls => ⟨_, _, _, _, rfl, h (E.request calls member line)⟩

theorem ends_askTracker {post : Str → Str → Str → Prop} (h : ∀ r, post r i o) :
    Ends E (askTracker line body) i o post :=
  fun calls => ⟨_, _, _, _, rfl, h (E.tracker calls line body)⟩

/-! ### Each reader takes its own bytes -/

theorem ends_sendAll {post : Bool → Str → Str → Prop} (hrounds : data.length ≤ rounds)
    (h : post true i (o ++ data)) : Ends E (sendAll rounds data) i o post := by
  induction rounds generalizing data o with
  | zero =>
    cases data with
    | nil =>
      rw [List.append_nil] at h
      exact ends_pure h
    | cons c cs => cases hrounds
  | succ rounds ih =>
    cases data with
    | nil =>
      rw [List.append_nil] at h
      exact ends_pure h
    | cons c cs =>
      refine Ends.bind (ends_sendSome (Nat.succ_pos _) fun m hm _ => ?_)
      rw [if_neg (Nat.ne_of_gt hm)]
      refine ih ?_ ?_
      · rw [List.length_drop]
        omega
      · rw [List.append_assoc, List.take_append_drop]
        exact h

theorem ends_sendLine {post : Bool → Str → Str → Prop} (h : post true i (o ++ lineOut line)) :
    Ends E (sendLine line) i o post :=
  ends_sendAll le_rfl h

/-- **`recv_line` takes a line and its newline.** -/
theorem ends_recvLineLoop {out : Str} {room : ℕ} (hs : '\n' ∉ s) (hroom : s.length ≤ room)
    (h : post (some (chomp (out ++ s))) rest o) :
    Ends E (recvLineLoop room out) (s ++ '\n' :: rest) o post := by
  induction s generalizing out room with
  | nil =>
    rw [List.append_nil] at h
    unfold recvLineLoop
    refine Ends.bind (ends_waitReadable ?_)
    refine Ends.bind (ends_recvSome Nat.one_pos fun m hm hle => ?_)
    obtain rfl : m = 1 := by omega
    exact ends_pure h
  | cons c s ih =>
    rw [List.mem_cons, not_or] at hs
    obtain ⟨room, rfl⟩ : ∃ room', room = room' + 1 :=
      ⟨room - 1, by rw [List.length_cons] at hroom; omega⟩
    unfold recvLineLoop
    refine Ends.bind (ends_waitReadable ?_)
    refine Ends.bind (ends_recvSome Nat.one_pos fun m hm hle => ?_)
    obtain rfl : m = 1 := by omega
    change Ends E (if c = '\n' then _ else recvLineLoop room (out ++ [c]))
      (s ++ '\n' :: rest) o post
    rw [if_neg (Ne.symm hs.1)]
    refine ih hs.2 (Nat.le_of_succ_le_succ hroom) ?_
    rwa [List.append_assoc]

theorem ends_recvLine (hs : '\n' ∉ s) (hlen : s.length ≤ MAX_LINE)
    (h : post (some (chomp s)) rest o) :
    Ends E recvLine (s ++ '\n' :: rest) o post :=
  ends_recvLineLoop hs hlen h

theorem ends_recvLine_closed (h : post none [] o) : Ends E recvLine [] o post := by
  rw [recvLine]
  unfold recvLineLoop
  refine Ends.bind (ends_waitReadable (Ends.bind (ends_recvSome Nat.one_pos fun m _ _ => ?_)))
  rw [List.take_nil, List.drop_nil]
  exact ends_pure h

/-- **`recv_exact` and `recv_discard` take a body.** -/
theorem ends_recvPieces {limit : ℕ} (hlimit : 0 < limit) {got : Str}
    (hrounds : body.length ≤ rounds) (h : post (some (got ++ body)) rest o) :
    Ends E (recvPieces limit rounds body.length got) (body ++ rest) o post := by
  induction rounds generalizing body got with
  | zero =>
    obtain rfl := List.length_eq_zero_iff.mp (Nat.le_zero.mp hrounds)
    rw [List.append_nil] at h
    exact ends_pure h
  | succ rounds ih =>
    cases body with
    | nil =>
      rw [List.append_nil] at h
      exact ends_pure h
    | cons c cs =>
      rw [List.length_cons] at hrounds
      refine Ends.bind (ends_waitReadable (Ends.bind (ends_recvSome (by omega) fun m hm hle => ?_)))
      obtain ⟨m, rfl⟩ : ∃ m', m = m' + 1 := ⟨m - 1, by omega⟩
      have hm : m ≤ cs.length := by omega
      change Ends E (recvPieces limit rounds (cs.length + 1 - (c :: (cs ++ rest).take m).length)
        (got ++ c :: (cs ++ rest).take m)) ((cs ++ rest).drop m) o post
      rw [List.take_append_of_le_length hm, List.drop_append_of_le_length hm]
      have hleft : cs.length + 1 - (c :: cs.take m).length = (cs.drop m).length := by
        rw [List.length_cons, List.length_take, List.length_drop]
        omega
      rw [hleft]
      refine ih ?_ ?_
      · rw [List.length_drop]
        omega
      · rwa [List.append_assoc, List.cons_append, List.take_append_drop]

theorem ends_recvExact (h : post (some body) rest o) :
    Ends E (recvExact body.length) (body ++ rest) o post := by
  cases body with
  | nil => exact ends_pure h
  | cons c cs => exact ends_recvPieces (Nat.succ_pos _) le_rfl h

theorem ends_recvDiscard {post : Bool → Str → Str → Prop} (h : post true rest o) :
    Ends E (recvDiscard body.length) (body ++ rest) o post :=
  Ends.bind (ends_recvPieces (Nat.succ_pos _) le_rfl (ends_pure h))

end ends

/-! ### What a client sends -/

/-- `valid_request_id`. -/
def validRequestId (id : Str) : Bool := id.length = 16 ∧ id.all isHex

/-- `with_request_id`, for the current request id if there is one. -/
def withRequestId (id line : Str) : Str :=
  if id = [] then line else "RID ".toList ++ id ++ ' ' :: line

/-- A line that a client may send, and the request id in front of it, if there is one. -/
structure SentLine where
  id : Str
  line : Str
  id_ok : id = [] ∨ validRequestId id = true
  line_ne : line ≠ []
  no_breaks : ∀ c ∈ line, isBreak c = false
  not_rid : line.take 4 ≠ "RID ".toList
  fits : (withRequestId id line).length ≤ MAX_LINE

/-- A line and the body it announces. -/
structure SentFrame extends SentLine where
  body : Str
  announced : bodyLength (withRequestId id line) = .none ∧ body = [] ∨
    bodyLength (withRequestId id line) = .present body.length

/-- A line whose announced length is malformed or too large. -/
structure BadLine extends SentLine where
  bad : bodyLength (withRequestId id line) = .malformed ∨
    bodyLength (withRequestId id line) = .tooLarge

/-- What `send_line` puts on the wire. -/
def SentLine.bytes (l : SentLine) : Str := lineOut (withRequestId l.id l.line)

/-- What `send_line` and `send_all` put on the wire. -/
def SentFrame.bytes (f : SentFrame) : Str := f.toSentLine.bytes ++ f.body

section sent
variable {id line : Str}

theorem no_breaks_of_any (h : line.any isBreak = false) : ∀ c ∈ line, isBreak c = false := by
  intro c hc
  rw [← Bool.not_eq_true]
  exact List.any_eq_false.mp h c hc

theorem lineOut_of_no_breaks (h : ∀ c ∈ line, isBreak c = false) :
    lineOut line = line ++ ['\n'] := by
  have hdrop : line.reverse.dropWhile isBreak = line.reverse := by
    cases hrev : line.reverse with
    | nil => rfl
    | cons c cs =>
      have hc : c ∈ line := List.mem_reverse.mp (hrev ▸ List.mem_cons_self)
      rw [List.dropWhile_cons, h c hc, if_neg Bool.false_ne_true]
  have hmap : (line.map fun c => if isBreak c then ' ' else c) = line := by
    refine (List.map_congr_left fun c hc => ?_).trans (List.map_id line)
    rw [h c hc, if_neg Bool.false_ne_true]
    rfl
  rw [lineOut, hdrop, List.reverse_reverse, hmap]

theorem splitRequestId_withRequestId (hid : validRequestId id = true) (hline : line ≠ []) :
    splitRequestId (withRequestId id line) = .present id line := by
  simp only [validRequestId, decide_eq_true_eq] at hid
  obtain ⟨hlen, hhex⟩ := hid
  have hne : id ≠ [] := by
    rintro rfl
    cases hlen
  have hpos := List.length_pos_of_ne_nil hline
  have hwhole : withRequestId id line = "RID ".toList ++ (id ++ ' ' :: line) := by
    rw [withRequestId, if_neg hne, List.append_assoc]
  have hhead : "RID ".toList.length = 4 := rfl
  have hfirst : ("RID ".toList ++ (id ++ ' ' :: line)).take 4 = "RID ".toList := rfl
  have hdrop : ("RID ".toList ++ (id ++ ' ' :: line)).drop 4 = id ++ ' ' :: line := rfl
  have hid16 : (id ++ ' ' :: line).take 16 = id := by rw [← hlen, List.take_left]
  have hspace : ("RID ".toList ++ (id ++ ' ' :: line)).getD 20 '\x00' = ' ' := by
    rw [List.getD_eq_getElem?_getD, List.getElem?_append_right (by rw [hhead]; omega), hhead,
      List.getElem?_append_right (by omega), hlen]
    rfl
  have hrest : ("RID ".toList ++ (id ++ ' ' :: line)).drop 21 = line := by
    have hcut : ("RID ".toList ++ (id ++ ' ' :: line)).drop (4 + (16 + 1)) = line := by
      rw [← List.drop_drop, hdrop, ← List.drop_drop, ← hlen, List.drop_left]
      rfl
    exact hcut
  rw [hwhole, splitRequestId, if_neg (not_not.mpr hfirst), if_neg, hdrop, hid16,
    if_neg (not_not.mpr hhex)]
  · rw [hrest]
  · rintro (hshort | hbad)
    · rw [List.length_append, List.length_append, List.length_cons, hhead] at hshort
      omega
    · exact hbad hspace

/-- **Both sides find the same body**, with the request id and without it. -/
theorem bodyLength_withRequestId (hid : id = [] ∨ validRequestId id = true) (hline : line ≠ [])
    (hrid : line.take 4 ≠ "RID ".toList) :
    bodyLength (withRequestId id line) = bodyLength line := by
  rcases hid with rfl | hid
  · rw [withRequestId, if_pos rfl]
  · have hnone : splitRequestId line = .none := by rw [splitRequestId, if_pos hrid]
    rw [bodyLength, bodyLength, splitRequestId_withRequestId hid hline, hnone]

end sent

namespace SentLine

variable (l : SentLine)

theorem no_breaks_whole : ∀ c ∈ withRequestId l.id l.line, isBreak c = false := by
  have hhex : ∀ c, isHex c = true → isBreak c = false := by
    intro c hc
    rw [Bool.eq_false_iff]
    intro hbreak
    simp only [isBreak, decide_eq_true_eq] at hbreak
    rcases hbreak with rfl | rfl <;> exact absurd hc (by decide)
  intro c hc
  rcases l.id_ok with hid | hid
  · rw [withRequestId, if_pos hid] at hc
    exact l.no_breaks c hc
  · simp only [validRequestId, decide_eq_true_eq, List.all_eq_true] at hid
    rw [withRequestId, if_neg (by rintro h; rw [h] at hid; cases hid.1)] at hc
    rcases List.mem_append.mp hc with hc | hc
    · rcases List.mem_append.mp hc with hc | hc
      · exact no_breaks_of_any (show "RID ".toList.any isBreak = false by decide) c hc
      · exact hhex c (hid.2 c hc)
    · rcases List.mem_cons.mp hc with rfl | hc
      · decide
      · exact l.no_breaks c hc

theorem bytes_eq : l.bytes = withRequestId l.id l.line ++ ['\n'] :=
    lineOut_of_no_breaks l.no_breaks_whole

theorem ends_recvLine {E : Surroundings} {rest o : Str} {post : Option Str → Str → Str → Prop}
    (h : post (some (withRequestId l.id l.line)) rest o) :
    Ends E recvLine (l.bytes ++ rest) o post := by
  have hbreaks := l.no_breaks_whole
  have hchomp : chomp (withRequestId l.id l.line) = withRequestId l.id l.line := by
    rw [chomp, if_neg]
    intro hlast
    exact absurd (hbreaks _ (List.mem_of_getLast? hlast)) (by decide)
  rw [l.bytes_eq, List.append_assoc]
  refine ChordFs.ends_recvLine (fun hn => absurd (hbreaks _ hn) (by decide)) l.fits ?_
  rw [hchomp]
  exact h

theorem bodyLength_eq : bodyLength (withRequestId l.id l.line) = bodyLength l.line :=
  bodyLength_withRequestId l.id_ok l.line_ne l.not_rid

end SentLine

/-! ### One frame, one round -/

/-- What is sent back. -/
def Reception.bytes : Reception → Str
  | answered _ _ reply replyBody => lineOut reply ++ replyBody
  | refused _ _ => lineOut "ERR busy".toList

/-- The line and the body of the frame were read. -/
def Reception.Of (f : SentFrame) : Reception → Prop
  | answered line body _ _ => line = f.line ∧ body = f.body
  | refused line length => line = f.line ∧ length = f.body.length

/-- A server that keeps in step: it serves a frame by reading its body and sending one reply, and
gives up at a bad line without reading on. -/
structure InStep (E : Surroundings) (serveLine : Str → Session (Option Reception)) : Prop where
  frame : ∀ (f : SentFrame) (rest o : Str), Ends E (serveLine f.line) (f.body ++ rest) o
    fun r i' o' =>
    ∃ rc : Reception, r = some rc ∧ rc.Of f ∧ i' = rest ∧ o' = o ++ rc.bytes
  bad : ∀ (l : BadLine) (rest o : Str), Ends E (serveLine l.line) rest o fun r i' o' =>
    r = none ∧ i' = rest ∧ ∃ error, o' = o ++ lineOut error

section serve
variable {E : Surroundings}

variable {f : SentFrame} {body o rest : Str} {rounds : ℕ}

theorem SentFrame.announced_cases (f : SentFrame) :
    (bodyLength f.line = .none ∧ f.body = []) ∨ bodyLength f.line = .present f.body.length := by
  have h := f.announced
  rwa [f.bodyLength_eq] at h

theorem BadLine.bad_cases (l : BadLine) :
    bodyLength l.line = .malformed ∨ bodyLength l.line = .tooLarge := by
  have h := l.bad
  rwa [l.bodyLength_eq] at h

theorem ends_answerTracker (hbody : body = f.body) : Ends E (do
      let reply ← askTracker f.line body
      if ← sendLine reply then return some (.answered f.line body reply []) else return none) rest o
    fun r i' o' => ∃ rc : Reception, r = some rc ∧ rc.Of f ∧ i' = rest ∧ o' = o ++ rc.bytes := by
  refine Ends.bind (ends_askTracker fun reply => Ends.bind (ends_sendLine (ends_pure ?_)))
  refine ⟨_, rfl, ⟨rfl, hbody⟩, rfl, ?_⟩
  rw [Reception.bytes, List.append_nil]

theorem inStep_tracker : InStep E serveTrackerLine where
  frame f rest o := by
    rw [serveTrackerLine]
    rcases f.announced_cases with ⟨hlength, hbody⟩ | hlength
    · rw [hlength]
      rw [hbody, List.nil_append]
      exact ends_answerTracker hbody.symm
    · rw [hlength]
      exact Ends.bind (ends_recvExact (ends_answerTracker rfl))
  bad l rest o := by
    rw [serveTrackerLine]
    rcases l.bad_cases with hlength | hlength
    · rw [hlength]
      exact Ends.bind (ends_sendLine (ends_pure ⟨rfl, rfl, _, rfl⟩))
    · rw [hlength]
      exact Ends.bind (ends_sendLine (ends_pure ⟨rfl, rfl, _, rfl⟩))

theorem ends_answerChunk (hbody : body = f.body) : Ends E (do
      let (reply, replyBody) ← askChunk f.line body
      if ← sendLine reply then
        if ← sendAll replyBody.length replyBody then
          return some (.answered f.line body reply replyBody)
        else return none
      else return none) rest o
    fun r i' o' => ∃ rc : Reception, r = some rc ∧ rc.Of f ∧ i' = rest ∧ o' = o ++ rc.bytes := by
  refine Ends.bind
    (ends_askChunk fun reply => Ends.bind
    (ends_sendLine (Ends.bind (ends_sendAll le_rfl (ends_pure ?_)))))
  refine ⟨_, rfl, ⟨rfl, hbody⟩, rfl, ?_⟩
  rw [Reception.bytes, List.append_assoc]

theorem ends_serveChunk (f : SentFrame) (rest o : Str) :
    Ends E (serveChunk f.line) (f.body ++ rest) o
    fun r i' o' => ∃ rc : Reception, r = some rc ∧ rc.Of f ∧ i' = rest ∧ o' = o ++ rc.bytes := by
  rw [serveChunk]
  rcases f.announced_cases with ⟨hlength, hbody⟩ | hlength
  · rw [hlength]
    rw [hbody, List.nil_append]
    exact ends_answerChunk hbody.symm
  · rw [hlength]
    refine Ends.bind (ends_holdBody fun b => ?_)
    cases b with
    | true => exact Ends.bind (ends_recvExact (ends_answerChunk rfl))
    | false =>
      refine Ends.bind (ends_recvDiscard (Ends.bind (ends_sendLine (ends_pure ?_))))
      exact ⟨_, rfl, ⟨rfl, rfl⟩, rfl, rfl⟩

theorem ends_ringReply {members : NodeMembers} {line i : Str} {post : Str → Str → Str → Prop}
    (h : ∀ r, post r i o) : Ends E (ringReply members line) i o post := by
  unfold ringReply
  split
  · exact ends_pure (h _)
  · exact ends_askMember h
  · split
    · exact ends_askMember h
    · exact ends_pure (h _)

theorem inStep_node (members : NodeMembers) : InStep E (serveNodeLine members) where
  frame f rest o := by
    rw [serveNodeLine]
    split
    · exact ends_serveChunk f rest o
    · -- a line without a body
      rename_i hplain
      rw [not_or, not_not] at hplain
      have hbody : f.body = [] := by
        rcases f.announced_cases with ⟨-, hbody⟩ | hlength
        · exact hbody
        · rw [hplain.2] at hlength
          cases hlength
      rw [hbody, List.nil_append]
      refine Ends.bind (ends_ringReply fun reply => Ends.bind (ends_sendLine (ends_pure ?_)))
      refine ⟨_, rfl, ⟨rfl, hbody.symm⟩, rfl, ?_⟩
      rw [Reception.bytes, List.append_nil]
  bad l rest o := by
    have hannounces : bodyLength l.line ≠ .none := by
      rcases l.bad_cases with hlength | hlength <;> rw [hlength] <;> decide
    rw [serveNodeLine, if_pos (.inr hannounces), serveChunk]
    rcases l.bad_cases with hlength | hlength
    · rw [hlength]
      exact Ends.bind (ends_sendLine (ends_pure ⟨rfl, rfl, _, rfl⟩))
    · rw [hlength]
      exact Ends.bind (ends_sendLine (ends_pure ⟨rfl, rfl, _, rfl⟩))

/-! ### Whole connections -/

variable {serveLine : Str → Session (Option Reception)}

theorem ends_serveLoop_succ {l : SentLine} {post : List Reception → Str → Str → Prop}
    (h : Ends E (serveLine l.line) rest o fun r i' o' =>
      Ends E (match r with
        | none => pure []
        | some r => do return r :: (← serveLoop serveLine rounds)) i' o' post) :
    Ends E (serveLoop serveLine (rounds + 1)) (l.bytes ++ rest) o post := by
  rw [serveLoop]
  refine Ends.bind (l.ends_recvLine ?_)
  dsimp only
  rcases l.id_ok with hid | hid
  · have hnone : splitRequestId (withRequestId l.id l.line) = .none := by
      rw [withRequestId, if_pos hid, splitRequestId, if_pos l.not_rid]
    rw [hnone, withRequestId, if_pos hid]
    exact Ends.bind h
  · rw [splitRequestId_withRequestId hid l.line_ne]
    exact Ends.bind h

/-- **Frame after frame**, until something else comes: then the loop ends with `last`, of the input
that is left and of what it has sent besides the replies. -/
theorem InStep.frames (hstep : InStep E serveLine) {last : Str → Str → Prop} {tail : Str}
    (htail : ∀ o, Ends E (serveLoop serveLine rounds) tail o fun log i' o' =>
      log = [] ∧ ∃ extra, o' = o ++ extra ∧ last i' extra) (frames : List SentFrame) (o : Str) :
    Ends E (serveLoop serveLine (frames.length + rounds)) (frames.flatMap SentFrame.bytes ++ tail) o
      fun log i' o' =>
      List.Forall₂ Reception.Of frames log ∧
      ∃ extra, o' = o ++ log.flatMap Reception.bytes ++ extra ∧ last i' extra := by
  induction frames generalizing o with
  | nil =>
    rw [List.length_nil, Nat.zero_add, List.flatMap_nil, List.nil_append]
    intro calls
    obtain ⟨log, i', o', calls', hrun, rfl, extra, ho', hlast⟩ := htail o calls
    refine ⟨[], i', o', calls', hrun, List.Forall₂.nil, extra, ?_, hlast⟩
    rw [List.flatMap_nil, List.append_nil]
    exact ho'
  | cons f frames ih =>
    rw [List.length_cons, Nat.add_right_comm, List.flatMap_cons, SentFrame.bytes, List.append_assoc,
      List.append_assoc]
    refine ends_serveLoop_succ ?_
    intro calls
    obtain ⟨r, i₁, o₁, calls₁, hrun, rc, rfl, hrc, rfl, rfl⟩ :=
      hstep.frame f (frames.flatMap SentFrame.bytes ++ tail) o calls
    refine ⟨_, _, _, calls₁, hrun, Ends.bind fun calls₂ => ?_⟩
    obtain ⟨log, i', o', calls', hrun', hlog, extra, ho', hlast⟩ := ih (o ++ rc.bytes) calls₂
    refine ⟨_, _, _, calls', hrun', ends_pure ⟨List.Forall₂.cons hrc hlog, extra, ?_, hlast⟩⟩
    rw [ho', List.flatMap_cons, List.append_assoc o]

theorem ends_serveLoop_closed (rounds : ℕ) (o : Str) :
    Ends E (serveLoop serveLine (rounds + 1)) [] o fun log i' o' => log = [] ∧
    ∃ extra, o' = o ++ extra ∧ i' = [] ∧ extra = [] := by
  rw [serveLoop]
  exact Ends.bind (ends_recvLine_closed (ends_pure ⟨rfl, [], (List.append_nil o).symm, rfl, rfl⟩))

theorem InStep.stops (hstep : InStep E serveLine) (l : BadLine) (rest o : Str) :
    Ends E (serveLoop serveLine (rounds + 1)) (l.toSentLine.bytes ++ rest) o fun log i' o' =>
      log = [] ∧ ∃ extra, o' = o ++ extra ∧ i' = rest ∧ ∃ error, extra = lineOut error := by
  refine ends_serveLoop_succ fun calls => ?_
  obtain ⟨r, i₁, o₁, calls₁, hrun, rfl, rfl, error, ho⟩ := hstep.bad l rest o calls
  exact ⟨_, _, _, calls₁, hrun, ends_pure ⟨rfl, _, ho, rfl, error, rfl⟩⟩

end serve

/-- **The stream never loses its place.**  Any frames, sent back to back on one connection and
delivered in any pieces, are read as they are by the node's and by the tracker's loop, each answered
by one reply, also when a body is refused; and after a line whose length is malformed or too large
nothing more is read. -/
theorem stream_in_step (E : Surroundings) (server : Server) (frames : List SentFrame) (w : Wire)
    (rounds : ℕ) (hrounds : frames.length < rounds) :
    (w.input = frames.flatMap SentFrame.bytes →
      ∃ log w', (server.serve rounds).run E.env () w = (log, (), w') ∧
      List.Forall₂ Reception.Of frames log ∧
        w'.input = [] ∧ w'.output = w.output ++ log.flatMap Reception.bytes) ∧
    (∀ (l : BadLine) rest,
      w.input = frames.flatMap SentFrame.bytes ++ (l.toSentLine.bytes ++ rest) →
      ∃ log w' error, (server.serve rounds).run E.env () w = (log, (), w') ∧
        List.Forall₂ Reception.Of frames log ∧ w'.input = rest ∧
        w'.output = w.output ++ log.flatMap Reception.bytes ++ lineOut error) := by
  obtain ⟨more, rfl⟩ := Nat.exists_eq_add_of_lt hrounds
  obtain ⟨serveLine, hserve, hstep⟩ : ∃ serveLine, server.serve = serveLoop serveLine ∧
      InStep E serveLine := by
    cases server with
    | node members => exact ⟨_, rfl, inStep_node members⟩
    | tracker => exact ⟨_, rfl, inStep_tracker⟩
  obtain ⟨input, output, calls⟩ := w
  rw [hserve, Nat.add_assoc]
  constructor
  · rintro rfl
    have hrun := hstep.frames (ends_serveLoop_closed more) frames output calls
    rw [List.append_nil] at hrun
    obtain ⟨log, i', o', calls', hrun, hlog, extra, ho', rfl, rfl⟩ := hrun
    refine ⟨log, _, hrun, hlog, rfl, ?_⟩
    rw [ho', List.append_nil]
  · rintro l rest rfl
    obtain ⟨log, i', o', calls', hrun, hlog, extra, ho', rfl, error, rfl⟩ :=
      hstep.frames (fun o => hstep.stops l rest o) frames output calls
    exact ⟨log, _, error, hrun, hlog, rfl, ho'⟩

/-- A chunk with a newline in it, sent with a request id. -/
def putFrame : SentFrame where
  id := List.replicate 16 'a'
  line := "PUT k 1 3".toList
  id_ok := .inr (by decide)
  line_ne := by decide
  no_breaks := no_breaks_of_any (by decide)
  not_rid := by decide
  fits := by decide
  body := "a\nb".toList
  announced := .inr (by decide +kernel)

/-- A request without a body. -/
def pingFrame : SentFrame where
  id := []
  line := "PING".toList
  id_ok := .inl rfl
  line_ne := by decide
  no_breaks := no_breaks_of_any (by decide)
  not_rid := by decide
  fits := by decide
  body := []
  announced := .inl (by decide +kernel)

/-- Pieces of up to two bytes, and no room for the first body. -/
def busyNode : Surroundings where
  cuts n := n % 3
  room _ := false
  chunk _ _ _ := ("OK".toList, [])
  request _ _ _ := "PONG".toList
  tracker _ _ _ := []

theorem stream_in_step_busy : let w : Wire := ⟨[putFrame, pingFrame].flatMap SentFrame.bytes, [], 0⟩
    let run := ((Server.node ⟨0, []⟩).serve 3).run busyNode.env () w
    run.2.2.output = "ERR busy\nPONG\n".toList ∧
      ∃ log w', run = (log, (), w') ∧ List.Forall₂ Reception.Of [putFrame, pingFrame] log ∧
        w'.input = [] ∧ w'.output = w.output ++ log.flatMap Reception.bytes :=
  ⟨by decide +kernel, (stream_in_step busyNode (.node ⟨0, []⟩) [putFrame, pingFrame]
    ⟨[putFrame, pingFrame].flatMap SentFrame.bytes, [], 0⟩ 3 (by decide)).1 rfl⟩

end ChordFs
