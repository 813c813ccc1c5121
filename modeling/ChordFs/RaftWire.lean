import ChordFs.Names
import ChordFs.RaftSafety

/-! # The wire format of the Raft calls

Calls and replies as lines, with the entries of an append call in a body (`raft_wire.h`,
`raft_wire.cpp`).  Each parser accepts exactly what its encoder writes: what is accepted encodes to
the same bytes again, and what a replica of the group sends is accepted as it was sent. -/

namespace ChordFs

open Text TermLog

/-! ### Encoders -/

/-- Eight hexadecimal digits that stand for the member list. -/
def groupFingerprint (sha : Sha1) (members : List Str) : Str :=
  sha.short ([','].intercalate members)

def flag (b : Bool) : Str := if b then "1".toList else "0".toList

def encodeVote (group : Str) (req : VoteRequest) : Str :=
  words ["VOTE".toList, group, num req.term, numInt req.candidate, num req.lastIndex,
    num req.lastTerm]

def encodeVoteReply (reply : VoteReply) : Str :=
  words ["VOTED".toList, num reply.term, flag reply.granted]

/-- One entry as a line of the body. -/
def entryLine (e : Entry) : Str := num e.term ++ ' ' :: e.command

/-- The line and the body of an append call. -/
def encodeAppend (group : Str) (req : AppendRequest) : Str × Str :=
  let body := terminated (req.entries.map entryLine)
  (words ["APPEND".toList, group, num req.term, numInt req.leader, num req.prevIndex,
    num req.prevTerm, num req.commit, num req.seq, num req.entries.length, num body.length], body)

def encodeAppendReply (reply : AppendReply) : Str :=
  words ["APPENDED".toList, num reply.term, flag reply.success, num reply.index]

/-! ### Parsers -/

def parseFlag (s : Str) : Option Bool :=
  if s ≠ "0".toList ∧ s ≠ "1".toList then none else some (s = "1".toList)

def parseVote : List Str → Option (Str × VoteRequest)
  | [verb, group, term, candidate, lastIndex, lastTerm] =>
    if verb ≠ "VOTE".toList then none
    else do
      let term ← parseU64 term
      let candidate ← parseId candidate
      let lastIndex ← parseU64 lastIndex
      let lastTerm ← parseU64 lastTerm
      some (group, ⟨term, candidate, lastIndex, lastTerm⟩)
  | _ => none

/-- One line of the body: terms in a log never fall, and none is newer than the leader's own. -/
def parseEntry (validCommand : Str → Bool) (floor term : ℕ) (line : Str) : Option Entry := do
  let (number, command) ← cutFirst ' ' line
  let t ← parseU64 number
  if ¬ validCommand command then none
  else if t < floor ∨ t > term then none
  else some ⟨t, command⟩

/-- The lines of the body one after the other, behind the entries read so far. -/
def parseEntries (validCommand : Str → Bool) (prevTerm term count : ℕ) :
    List Entry → List Str → Option (List Entry)
  | entries, [] => some entries
  | entries, line :: lines => do
      let floor := (entries.getLast?.map Entry.term).getD prevTerm
      let e ← parseEntry validCommand floor term line
      if entries.length + 1 > count then none
      else parseEntries validCommand prevTerm term count (entries ++ [e]) lines

/-- `valid_command` decides which commands the call may carry. -/
def parseAppend (validCommand : Str → Bool) (body : Str) : List Str → Option (Str × AppendRequest)
  | [verb, group, term, leader, prevIndex, prevTerm, commit, seq, count, length] =>
    if verb ≠ "APPEND".toList then none
    else do
      let term ← parseU64 term
      let leader ← parseId leader
      let prevIndex ← parseU64 prevIndex
      let prevTerm ← parseU64 prevTerm
      let commit ← parseU64 commit
      let seq ← parseU64 seq
      let count ← parseU64 count
      let length ← parseU64 length
      if length ≠ body.length then none
      else
        -- exactly `count` lines, each ended by a newline
        let lines ← lines body
        let entries ← parseEntries validCommand prevTerm term count [] lines
        if entries.length = count then
          some (group, ⟨term, leader, prevIndex, prevTerm, entries, commit, seq⟩)
        else none
  | _ => none

def parseVoteReply (line : Str) : Option VoteReply :=
  match splitSingleSpaces line with
  | [verb, term, granted] =>
    if verb ≠ "VOTED".toList then none
    else do
      let term ← parseU64 term
      let granted ← parseFlag granted
      some ⟨term, granted⟩
  | _ => none

def parseAppendReply (line : Str) : Option AppendReply :=
  match splitSingleSpaces line with
  | [verb, term, success, index] =>
    if verb ≠ "APPENDED".toList then none
    else do
      let term ← parseU64 term
      let success ← parseFlag success
      let index ← parseU64 index
      some ⟨term, success, index⟩
  | _ => none

/-! ### What a parser accepts -/

variable {group line : Str} {req : VoteRequest} {reply : VoteReply}

theorem eq_of_parseFlag {s : Str} {b : Bool} (h : parseFlag s = some b) : s = flag b := by
  unfold parseFlag at h
  split at h
  · cases h
  · rename_i hs
    simp only [not_and_or, not_not] at hs
    cases h
    rcases hs with rfl | rfl <;> rfl

/-- **A line `parse_vote` accepts is the one `encode_vote` writes.** -/
theorem encodeVote_of_parseVote (h : parseVote (splitSingleSpaces line) = some (group, req)) :
    encodeVote group req = line := by
  have hw := words_splitSingleSpaces line
  generalize splitSingleSpaces line = w at h hw
  unfold parseVote at h
  split at h
  · split at h
    · cases h
    rename_i hverb
    simp only [Option.bind_eq_bind, Option.bind_eq_some_iff, Option.some.injEq, Prod.mk.injEq] at h
    obtain ⟨term, h1, candidate, h2, lastIndex, h3, lastTerm, h4, rfl, rfl⟩ := h
    rw [← hw, encodeVote, ← not_not.mp hverb, (eq_num_of_parseU64 h1).1, eq_of_parseId h2,
      (eq_num_of_parseU64 h3).1, (eq_num_of_parseU64 h4).1]
  · cases h

theorem encodeVoteReply_of_parseVoteReply (h : parseVoteReply line = some reply) :
    encodeVoteReply reply = line := by
  have hw := words_splitSingleSpaces line
  unfold parseVoteReply at h
  generalize splitSingleSpaces line = w at h hw
  split at h
  · split at h
    · cases h
    rename_i hverb
    simp only [Option.bind_eq_bind, Option.bind_eq_some_iff, Option.some.injEq] at h
    obtain ⟨term, h1, granted, h2, rfl⟩ := h
    rw [← hw, encodeVoteReply, ← not_not.mp hverb, (eq_num_of_parseU64 h1).1, eq_of_parseFlag h2]
  · cases h

theorem encodeAppendReply_of_parseAppendReply {reply : AppendReply} (h : parseAppendReply line = some reply) :
    encodeAppendReply reply = line := by
  have hw := words_splitSingleSpaces line
  unfold parseAppendReply at h
  generalize splitSingleSpaces line = w at h hw
  split at h
  · split at h
    · cases h
    rename_i hverb
    simp only [Option.bind_eq_bind, Option.bind_eq_some_iff, Option.some.injEq] at h
    obtain ⟨term, h1, success, h2, index, h3, rfl⟩ := h
    rw [← hw, encodeAppendReply, ← not_not.mp hverb, (eq_num_of_parseU64 h1).1,
      eq_of_parseFlag h2, (eq_num_of_parseU64 h3).1]
  · cases h

section entries
variable {vc : Str → Bool} {prevTerm term count : ℕ}

theorem eq_of_parseEntry {floor : ℕ} {line : Str} {e : Entry}
    (h : parseEntry vc floor term line = some e) : line = entryLine e := by
  simp only [parseEntry, Option.bind_eq_bind, Option.bind_eq_some_iff] at h
  obtain ⟨⟨number, command⟩, hcut, t, ht, h⟩ := h
  split at h
  · cases h
  split at h
  · cases h
  · cases h
    dsimp only at ht ⊢
    rw [(eq_of_cutFirst hcut).1, (eq_num_of_parseU64 ht).1, entryLine]

theorem eq_of_parseEntries {lines : List Str} : ∀ {acc es : List Entry},
    parseEntries vc prevTerm term count acc lines = some es →
    ∃ new, es = acc ++ new ∧ lines = new.map entryLine := by
  induction lines with
  | nil =>
    intro acc es h
    cases h
    exact ⟨[], by simp⟩
  | cons line lines ih =>
    intro acc es h
    simp only [parseEntries, Option.bind_eq_bind, Option.bind_eq_some_iff] at h
    obtain ⟨e, he, h⟩ := h
    split at h
    · cases h
    · obtain ⟨new, rfl, rfl⟩ := ih h
      exact ⟨e :: new, by simp, by simp [eq_of_parseEntry he]⟩

end entries

/-- **A line and a body `parse_append` accepts are the ones `encode_append` writes.** -/
theorem encodeAppend_of_parseAppend {vc : Str → Bool} {body : Str} {req : AppendRequest}
    (h : parseAppend vc body (splitSingleSpaces line) = some (group, req)) :
    encodeAppend group req = (line, body) := by
  have hw := words_splitSingleSpaces line
  generalize splitSingleSpaces line = w at h hw
  unfold parseAppend at h
  split at h
  · split at h
    · cases h
    rename_i hverb
    simp only [Option.bind_eq_bind, Option.bind_eq_some_iff] at h
    obtain ⟨term, h1, leader, h2, prevIndex, h3, prevTerm, h4, commit, h5, seq, h6, count, h7,
      length, h8, h⟩ := h
    split at h
    · cases h
    rename_i hlen
    simp only [Option.bind_eq_some_iff] at h
    obtain ⟨ls, hls, es, hes, h⟩ := h
    split at h
    · rename_i hcount
      cases h
      obtain ⟨new, rfl, rfl⟩ := eq_of_parseEntries hes
      have hb := eq_of_lines hls
      rw [encodeAppend, ← hb, hcount, ← not_not.mp hlen, ← hw, ← not_not.mp hverb,
        (eq_num_of_parseU64 h1).1, eq_of_parseId h2, (eq_num_of_parseU64 h3).1,
        (eq_num_of_parseU64 h4).1, (eq_num_of_parseU64 h5).1, (eq_num_of_parseU64 h6).1,
        (eq_num_of_parseU64 h7).1, (eq_num_of_parseU64 h8).1]
    · cases h
  · cases h

/-! ### What an encoder writes -/

/-- The numbers of a vote request are below `10 ^ 18`. -/
structure VoteRequest.Small (req : VoteRequest) : Prop where
  term : req.term < 10 ^ 18
  lastIndex : req.lastIndex < 10 ^ 18
  lastTerm : req.lastTerm < 10 ^ 18

/-- The numbers of an append call are below `10 ^ 18`. -/
structure AppendRequest.Small (req : AppendRequest) : Prop where
  term : req.term < 10 ^ 18
  prevIndex : req.prevIndex < 10 ^ 18
  prevTerm : req.prevTerm < 10 ^ 18
  commit : req.commit < 10 ^ 18
  seq : req.seq < 10 ^ 18

theorem parseFlag_flag (b : Bool) : parseFlag (flag b) = some b := by
  cases b <;> decide

theorem space_not_mem_flag (b : Bool) : ' ' ∉ flag b := by
  cases b <;> decide

theorem parseVote_encodeVote (hg : ' ' ∉ group) (h : req.Small) {i : ℕ} (hi : i ≤ 1000)
    (hc : req.candidate = i) :
    parseVote (splitSingleSpaces (encodeVote group req)) = some (group, req) := by
  rw [encodeVote, splitSingleSpaces_words
    (by simp [hg, space_not_mem_num, space_not_mem_numInt hc]) (by simp)]
  simp [parseVote, parseU64_num h.term, parseU64_num h.lastIndex, parseU64_num h.lastTerm,
    parseId_numInt hc hi]

theorem parseVoteReply_encodeVoteReply (h : reply.term < 10 ^ 18) :
    parseVoteReply (encodeVoteReply reply) = some reply := by
  rw [parseVoteReply, encodeVoteReply, splitSingleSpaces_words
    (by simp [space_not_mem_num, space_not_mem_flag]) (by simp)]
  simp [parseU64_num h, parseFlag_flag]

theorem parseAppendReply_encodeAppendReply {reply : AppendReply} (h : reply.term < 10 ^ 18)
    (h' : reply.index < 10 ^ 18) : parseAppendReply (encodeAppendReply reply) = some reply := by
  rw [parseAppendReply, encodeAppendReply, splitSingleSpaces_words
    (by simp [space_not_mem_num, space_not_mem_flag]) (by simp)]
  simp [parseU64_num h, parseU64_num h', parseFlag_flag]

/-- The entries of a call are ones a correct leader of term `term` sends behind `prevTerm`. -/
structure Carries (vc : Str → Bool) (prevTerm term : ℕ) (es : List Entry) : Prop where
  floor : ∀ e ∈ es, prevTerm ≤ e.term
  rising : es.Pairwise fun e e' => e.term ≤ e'.term
  ceiling : ∀ e ∈ es, e.term ≤ term
  command : ∀ e ∈ es, vc e.command = true

section carries
variable {vc : Str → Bool} {prevTerm term count : ℕ}

theorem parseEntry_entryLine {floor : ℕ} {e : Entry} (hf : floor ≤ e.term) (ht : e.term ≤ term)
    (hs : term < 10 ^ 18) (hv : vc e.command = true) :
    parseEntry vc floor term (entryLine e) = some e := by
  have hnum : parseU64 (num e.term) = some e.term := parseU64_num (by omega)
  simp [parseEntry, entryLine, cutFirst_append (space_not_mem_num e.term), hnum, hv, hf, ht]

/-- Reading the lines of a body back; the entries read so far set the floor of the next. -/
theorem parseEntries_entryLine {es : List Entry} (hs : term < 10 ^ 18) : ∀ acc : List Entry,
    Carries vc ((acc.getLast?.map Entry.term).getD prevTerm) term es →
    acc.length + es.length ≤ count →
    parseEntries vc prevTerm term count acc (es.map entryLine) = some (acc ++ es) := by
  induction es with
  | nil => intro acc _ _; simp [parseEntries]
  | cons e es ih =>
    intro acc h hc
    obtain ⟨hrest, hrising⟩ := List.pairwise_cons.mp h.rising
    have he := parseEntry_entryLine (h.floor e (by simp)) (h.ceiling e (by simp)) hs
      (h.command e (by simp))
    rw [List.length_cons] at hc
    have hes := ih (acc ++ [e])
      ⟨by simpa using hrest, hrising, fun e' he' => h.ceiling e' (by simp [he']),
        fun e' he' => h.command e' (by simp [he'])⟩ (by rw [List.length_append]; simp; omega)
    have hlt : ¬ acc.length + 1 > count := by omega
    simp only [List.map_cons, parseEntries, he, Option.bind_eq_bind, Option.bind_some,
      if_neg hlt, hes, List.append_assoc, List.singleton_append]

/-- The bytes a batch is counted for. -/
def batchBytes (es : List Entry) : ℕ := (es.map fun e => e.command.length + 22).sum

/-- A batch stays within its limit, unless it is a single entry. -/
def FitsIn (limit : ℕ) (es : List Entry) : Prop := batchBytes es ≤ limit ∨ es.length ≤ 1

theorem fitsIn_takeBatch {limit : ℕ} {es : List Entry} : ∀ {acc : List Entry} {bytes : ℕ},
    batchBytes acc = bytes → FitsIn limit acc →
    FitsIn limit (Raft.takeBatch limit acc bytes es) := by
  induction es with
  | nil => intro acc bytes _ hacc; exact hacc
  | cons e es ih =>
    intro acc bytes h hacc
    rw [Raft.takeBatch]
    split
    · exact hacc
    · rename_i hcon
      have hnext : batchBytes (acc ++ [e]) = bytes + (e.command.length + 22) := by
        rw [← h]
        simp [batchBytes]
      refine ih hnext ?_
      by_cases hnil : acc = []
      · exact .inr (by simp [hnil])
      · simp only [ne_eq, hnil, not_false_eq_true, true_and] at hcon
        exact .inl (by omega)

theorem length_body_le {es : List Entry} (h : ∀ e ∈ es, e.term < 10 ^ 18) :
    (terminated (es.map entryLine)).length ≤ batchBytes es := by
  induction es with
  | nil => simp [batchBytes]
  | cons e es ih =>
    rw [List.forall_mem_cons] at h
    have := ih h.2
    have := length_num h.1
    simp only [List.map_cons, terminated_cons, entryLine, List.length_append, List.length_cons,
      batchBytes, List.sum_cons] at *
    omega

theorem length_le_batchBytes (es : List Entry) : es.length ≤ batchBytes es := by
  induction es with
  | nil => simp
  | cons e es ih =>
    simp only [batchBytes, List.length_cons, List.map_cons, List.sum_cons] at *
    omega

theorem newline_not_mem_entryLine {e : Entry} (h : '\n' ∉ e.command) : '\n' ∉ entryLine e := by
  have := not_mem_num (c := '\n') (by decide) e.term
  simp [entryLine, this, h]

theorem parseAppend_encodeAppend {group : Str} (hg : ' ' ∉ group) {req : AppendRequest}
    (hv : ∀ c, vc c = true → '\n' ∉ c) (h : req.Small)
    (hc : Carries vc req.prevTerm req.term req.entries) (hb : batchBytes req.entries < 10 ^ 18)
    {i : ℕ} (hi : i ≤ 1000) (hl : req.leader = i) :
    parseAppend vc (encodeAppend group req).2 (splitSingleSpaces (encodeAppend group req).1) =
      some (group, req) := by
  have hterm : ∀ e ∈ req.entries, e.term < 10 ^ 18 := fun e he =>
    lt_of_le_of_lt (hc.ceiling e he) h.term
  have hlen := lt_of_le_of_lt (length_body_le hterm) hb
  have hcount := lt_of_le_of_lt (length_le_batchBytes req.entries) hb
  have hlines : lines (terminated (req.entries.map entryLine)) = some (req.entries.map entryLine) := by
    apply lines_terminated
    intro l hl
    obtain ⟨e, he, rfl⟩ := List.mem_map.mp hl
    exact newline_not_mem_entryLine (hv _ (hc.command e he))
  have hes : parseEntries vc req.prevTerm req.term req.entries.length [] (req.entries.map entryLine) =
      some req.entries := parseEntries_entryLine h.term [] (by simpa using hc) (by simp)
  simp only [encodeAppend]
  rw [splitSingleSpaces_words (by simp [hg, space_not_mem_num, space_not_mem_numInt hl]) (by simp)]
  simp [parseAppend, parseU64_num h.term, parseU64_num h.prevIndex, parseU64_num h.prevTerm,
    parseU64_num h.commit, parseU64_num h.seq, parseU64_num hcount, parseU64_num hlen,
    parseId_numInt hl hi, hlines, hes]

end carries

/-! ### The calls of a replica -/

namespace Raft

variable {n : ℕ} {s s' : Raft n}

/-- The entries of every waiting append call are one batch. -/
def Batched (s : Raft n) : Prop :=
  ∀ p req, .append p req ∈ s.out → FitsIn s.cfg.maxAppendBytes req.entries

theorem Batched.of_subset (h : Batched s) (hc : s'.cfg = s.cfg) (ho : s'.out ⊆ s.out) :
    Batched s' := by
  intro p req hm
  rw [hc]
  exact h p req (ho hm)

theorem Batched.of_eq (h : Batched s) (hc : s'.cfg = s.cfg) (ho : s'.out = s.out) : Batched s' :=
  h.of_subset hc (by rw [ho]; exact List.Subset.refl _)

theorem Batched.act {x : Input n} (ha : Act x s s') (h : Batched s) : Batched s' := by
  cases ha with
  | sends hs =>
    intro p req hm
    obtain ⟨calls, hout, hcalls⟩ := hs.out
    rw [hs.cfg]
    rw [hout] at hm
    rcases List.mem_append.mp hm with hm | hm
    · exact h p req hm
    · obtain ⟨-, q, k, -, -, heq⟩ := hcalls _ hm
      simp only [numberedCall, Outgoing.append.injEq] at heq
      rw [heq.2]
      exact fitsIn_takeBatch rfl (.inr (by simp))
  | stepsDown hs => exact h.of_eq hs.cfg hs.out
  | asks =>
    intro p req' hm
    rcases List.mem_append.mp hm with hm | hm
    · exact h p req' hm
    · simp at hm
  | appends => exact h.of_eq (s.onAppend_fixes _).cfg (s.onAppend_fixes _).out
  | notes =>
    unfold noteProgress
    split <;> exact h.of_eq rfl rfl
  | stands | counts | takesLead | grants | pushes | enters => exact h.of_eq rfl rfl

theorem Batched.effect {x : Input n} (he : Effect x s s') (h : Batched s) : Batched s' := by
  cases he with
  | act ha => exact h.act ha
  | stops => exact h.of_eq (s.onAppend_fixes _).cfg (s.onAppend_fixes _).out
  | persists s o =>
    unfold persist
    split
    · cases o with
      | ok => exact h.of_eq rfl rfl
      | fails k => exact h.of_subset rfl (List.nil_subset _)
    · exact h
  | settles s => exact h.of_eq s.settles_settle.cfg s.settles_settle.out
  | drops s | givesCalls s => exact h.of_subset rfl (List.nil_subset _)
  | givesReads => exact h.of_eq rfl rfl

end Raft

section calls
variable {n : ℕ} {g : Facts n} {w : World n} {s : Raft n} {i : Fin n}

/-- The entries of a call that states recorded facts. -/
theorem AppendFact.carries {vc : Str → Bool}
    (hi : Consensus.Inv (majorities n) (fun c => vc c = true) g) {req : AppendRequest}
    (h : AppendFact g i req) : Carries vc req.prevTerm req.term req.entries := by
  have hterm := hi.ledger_term
  have hsorted := (hi.ledger_coherent req.term).pairwise hterm
  obtain ⟨r, hr⟩ := h.entries
  have hsub : ∀ e ∈ req.entries, e ∈ g.ledger req.term := by
    intro e he
    rw [← hr]
    simp [he]
  rw [← hr, List.append_assoc, List.pairwise_append, List.pairwise_append] at hsorted
  obtain ⟨-, ⟨hrising, -, -⟩, hfloor⟩ := hsorted
  refine ⟨fun e he => ?_, hrising, fun e he => hterm _ e (hsub e he),
    fun e he => hi.command _ e (hsub e he)⟩
  rw [h.prevTerm]
  rcases Nat.eq_zero_or_pos req.prevIndex with h0 | hpos
  · rw [h0]; simp
  · obtain ⟨e', he', ht'⟩ := exists_getElem?_of_le (l := g.ledger req.term) (by omega) h.prev_le
    rw [ht']
    refine hfloor e' (List.mem_of_getElem? (i := req.prevIndex - 1) ?_) e (by simp [he])
    rw [List.getElem?_take_of_lt (by omega)]
    exact he'

theorem Rel.said_of_out {P : Str → Prop} (h : Rel P g w) (hm : w.machine i = .up s) {o : Outgoing n}
    (ho : o ∈ s.out) : Said g i o := by
  have hag := h.machine i
  rw [hm] at hag
  obtain ⟨rfl, -, hlive, hhalt⟩ := hag
  cases hs : s.stopped with
  | false => exact (hlive hs).out o ho
  | true =>
    rw [(hhalt hs).2.1] at ho
    cases ho

end calls

/-! ### Calls and replies on the wire -/

theorem length_numInt {v : ℤ} {k : ℕ} (hv : v = k) (hk : k ≤ 1000) : (numInt v).length ≤ 18 := by
  subst hv
  exact length_num (by omega)

theorem length_flag (b : Bool) : (flag b).length ≤ 18 := by
  cases b <;> decide

theorem length_words_le_line {ws : List Str} (h : ∀ w ∈ ws, w.length ≤ 18) (hws : ws.length ≤ 10) :
    (words ws).length ≤ MAX_LINE := by
  have := length_words_le h
  simp only [MAX_LINE]
  omega

section travels
variable {group : Str} {k : ℕ}

theorem encodeVote_travels (hg : ' ' ∉ group) (hlen : group.length ≤ 18) {req : VoteRequest}
    (h : req.Small) (hk : k ≤ 1000) (hc : req.candidate = k) :
    (encodeVote group req).length ≤ MAX_LINE ∧ bodyLength (encodeVote group req) = .none ∧
      parseVote (splitSingleSpaces (encodeVote group req)) = some (group, req) := by
  refine ⟨length_words_le_line ?_ (by simp), ?_, parseVote_encodeVote hg h hk hc⟩
  · simp [hlen, length_num h.term, length_num h.lastIndex, length_num h.lastTerm,
      length_numInt hc hk]
  · rw [encodeVote, words_cons_cons]
    exact bodyLength_none (by decide) (by decide) (by decide) _

theorem encodeVoteReply_travels {reply : VoteReply} (h : reply.term < 10 ^ 18) :
    (encodeVoteReply reply).length ≤ MAX_LINE ∧ bodyLength (encodeVoteReply reply) = .none ∧
      parseVoteReply (encodeVoteReply reply) = some reply := by
  refine ⟨length_words_le_line ?_ (by simp), ?_, parseVoteReply_encodeVoteReply h⟩
  · simp [length_num h, length_flag]
  · rw [encodeVoteReply, words_cons_cons]
    exact bodyLength_none (by decide) (by decide) (by decide) _

theorem encodeAppend_travels (hg : ' ' ∉ group) (hlen : group.length ≤ 18) {req : AppendRequest}
    (h : req.Small) (hcar : Carries validCommand req.prevTerm req.term req.entries)
    (hb : batchBytes req.entries ≤ MAX_BODY) (hk : k ≤ 1000) (hc : req.leader = k) :
    (encodeAppend group req).1.length ≤ MAX_LINE ∧
      (encodeAppend group req).2.length ≤ MAX_BODY ∧
      bodyLength (encodeAppend group req).1 = .present (encodeAppend group req).2.length ∧
      parseAppend validCommand (encodeAppend group req).2
        (splitSingleSpaces (encodeAppend group req).1) = some (group, req) := by
  have hterm : ∀ e ∈ req.entries, e.term < 10 ^ 18 := fun e he =>
    lt_of_le_of_lt (hcar.ceiling e he) h.term
  have hbody := (length_body_le hterm).trans hb
  have hcount := (length_le_batchBytes req.entries).trans hb
  have hsmall : ∀ {m : ℕ}, m ≤ MAX_BODY → m < 10 ^ 18 := fun hm =>
    lt_of_le_of_lt hm (by decide)
  refine ⟨length_words_le_line ?_ (by simp), hbody, ?_,
    parseAppend_encodeAppend hg (fun c => newline_not_mem_of_validCommand) h hcar (hsmall hb) hk hc⟩
  · simp [hlen, length_num h.term, length_num h.prevIndex, length_num h.prevTerm,
      length_num h.commit, length_num h.seq, length_num (hsmall hcount),
      length_num (hsmall hbody), length_numInt hc hk]
  · rw [encodeAppend, words_cons_cons]
    apply bodyLength_num (a := words ["APPEND".toList, group, num req.term, numInt req.leader,
      num req.prevIndex, num req.prevTerm, num req.commit, num req.seq, num req.entries.length])
      (by decide) (by decide) (by decide) hbody
    simp [words]

theorem encodeAppendReply_travels {reply : AppendReply} (h : reply.term < 10 ^ 18)
    (h' : reply.index < 10 ^ 18) :
    (encodeAppendReply reply).length ≤ MAX_LINE ∧ bodyLength (encodeAppendReply reply) = .none ∧
      parseAppendReply (encodeAppendReply reply) = some reply := by
  refine ⟨length_words_le_line ?_ (by simp), ?_, parseAppendReply_encodeAppendReply h h'⟩
  · simp [length_num h, length_num h', length_flag]
  · rw [encodeAppendReply, words_cons_cons]
    exact bodyLength_none (by decide) (by decide) (by decide) _

end travels

/-- A call of a replica with the default batch size is small enough for one body. -/
theorem batchBytes_of_out {n : ℕ} {g : Facts n} {w : World n} {s : Raft n} {i p : Fin n}
    {req : AppendRequest} (hw : World.Reachable (fun c => validCommand c = true) w)
    (hg : Consensus.Inv (majorities n) (fun c => validCommand c = true) g)
    (hf : AppendFact g i req) (hm : w.machine i = .up s) (hmax : s.cfg.maxAppendBytes = 64 * 1024)
    (ho : .append p req ∈ s.out) : batchBytes req.entries ≤ MAX_BODY := by
  have hfits : FitsIn s.cfg.maxAppendBytes req.entries := by
    refine World.core_induction (Q := Raft.Batched) (fun cfg d now p req hmem => ?_)
      (fun he hq => hq.effect he) hw hm p req ho
    cases hmem
  rcases hfits with h | h
  · exact h.trans (by rw [hmax]; decide)
  · have hcommand := (hf.carries hg).command
    match req.entries, h, hcommand with
    | [], _, _ => decide
    | [e], _, hcommand =>
      have := (length_of_validCommand (hcommand e (by simp))).2
      simp only [batchBytes, MAX_BODY, List.map_cons, List.map_nil, List.sum_cons, List.sum_nil]
      omega

/-- **The wire format is transparent.**  What a replica sends arrives as it was sent, framed by its
own line; and what is accepted is, byte for byte, what the encoder writes.  (The tracker is not
started with an id above 1000: its `main` refuses it.) -/
theorem wire_transparent {n : ℕ} (sha : Sha1) (members : List Str) {w : World n}
    (hw : World.Reachable (fun c => validCommand c = true) w) {i : Fin n} {s : Raft n}
    (hm : w.machine i = .up s) (hi : (i : ℕ) ≤ 1000) (hmax : s.cfg.maxAppendBytes = 64 * 1024) :
    let group := groupFingerprint sha members
    (∀ p req, .vote p req ∈ s.out → req.Small →
      (encodeVote group req).length ≤ MAX_LINE ∧ bodyLength (encodeVote group req) = .none ∧
      parseVote (splitSingleSpaces (encodeVote group req)) = some (group, req)) ∧
    (∀ p req, .append p req ∈ s.out → req.Small →
      (encodeAppend group req).1.length ≤ MAX_LINE ∧
      (encodeAppend group req).2.length ≤ MAX_BODY ∧
      bodyLength (encodeAppend group req).1 = .present (encodeAppend group req).2.length ∧
      parseAppend validCommand (encodeAppend group req).2
        (splitSingleSpaces (encodeAppend group req).1) = some (group, req)) ∧
    (∀ reply : VoteReply, reply.term < 10 ^ 18 →
      (encodeVoteReply reply).length ≤ MAX_LINE ∧ bodyLength (encodeVoteReply reply) = .none ∧
      parseVoteReply (encodeVoteReply reply) = some reply) ∧
    (∀ reply : AppendReply, reply.term < 10 ^ 18 → reply.index < 10 ^ 18 →
      (encodeAppendReply reply).length ≤ MAX_LINE ∧ bodyLength (encodeAppendReply reply) = .none ∧
      parseAppendReply (encodeAppendReply reply) = some reply) ∧
    (∀ line group req, parseVote (splitSingleSpaces line) = some (group, req) →
      encodeVote group req = line) ∧
    (∀ line body group req, parseAppend validCommand body (splitSingleSpaces line) =
      some (group, req) → encodeAppend group req = (line, body)) ∧
    (∀ line reply, parseVoteReply line = some reply → encodeVoteReply reply = line) ∧
    (∀ line reply, parseAppendReply line = some reply → encodeAppendReply reply = line) := by
  intro group
  have hgroup : ' ' ∉ group := not_mem_of_hex (by decide) (sha.hex_short _)
  have hlen : group.length ≤ 18 := (sha.length_short _).le.trans (by decide)
  obtain ⟨g, hg⟩ := rel_of_reachable validCommand_noop hw
  refine ⟨fun p req ho hs => ?_, fun p req ho hs => ?_, fun reply h => encodeVoteReply_travels h,
    fun reply h h' => encodeAppendReply_travels h h', fun _ _ _ => encodeVote_of_parseVote,
    fun _ _ _ _ => encodeAppend_of_parseAppend, fun _ _ => encodeVoteReply_of_parseVoteReply,
    fun _ _ => encodeAppendReply_of_parseAppendReply⟩
  · exact encodeVote_travels hgroup hlen hs hi (hg.said_of_out hm ho).1
  · have hf : AppendFact g i req := hg.said_of_out hm ho
    exact encodeAppend_travels hgroup hlen hs (hf.carries hg.inv)
      (batchBytes_of_out hw hg.inv hf hm hmax ho) hi hf.leader

/-- Replica 0 is asked to register a name, and sends the entry to replica 1. -/
def registration : List (Event 3) :=
  [.input r0 (.propose (registerCommand "a.txt".toList
    "a9993e364706816aba3e25717850c26c9cd0d89d".toList []) 155) .ok]

/-- The SHA-1 of the member list of three trackers. -/
def trackers : List Str :=
  ["10.0.0.1:9400".toList, "10.0.0.2:9400".toList, "10.0.0.3:9400".toList]

def trackerDigest : Sha1 := .ofTable
  [([','].intercalate trackers, "ae6df4b27b404e9c50983bfa1fa17dea88d567e7".toList)]

theorem wire_transparent_registration : let group := groupFingerprint trackerDigest trackers
    let req : AppendRequest := ⟨1, 0, 1, 1, [⟨1, registerCommand "a.txt".toList
      "a9993e364706816aba3e25717850c26c9cd0d89d".toList []⟩], 1, 3⟩
    group = "ae6df4b2".toList ∧
    (encodeAppend group req).1 = "APPEND ae6df4b2 1 0 1 1 1 3 1 58".toList ∧
    parseAppend validCommand (encodeAppend group req).2
      (splitSingleSpaces (encodeAppend group req).1) = some (group, req) := by
  intro group req
  have hw : World.Reachable (fun c => validCommand c = true)
      ((World.init.run (election ++ registration)).getD .init) :=
    World.steps_getD_run _ (by decide +kernel) (by decide +kernel)
  obtain ⟨s, hs, ho⟩ := Machine.exists_of_runs
    (m := ((World.init.run (election ++ registration)).getD .init).machine 0)
    (q := fun s => .append 1 req ∈ s.out ∧ s.cfg.maxAppendBytes = 64 * 1024) (by decide +kernel)
  obtain ⟨ho, hmax⟩ := of_decide_eq_true ho
  have h := wire_transparent trackerDigest trackers hw hs (by decide) hmax
  have hsmall : req.Small := ⟨by decide, by decide, by decide, by decide, by decide⟩
  exact ⟨by decide +kernel, by decide +kernel, (h.2.1 1 req ho hsmall).2.2.2⟩

end ChordFs
