import ChordFs.Lib.LineLog
import ChordFs.Names
import ChordFs.RaftDurability

/-! # The log file

A replica's durable state as one append-only file of checked records (`raft_log.h`,
`raft_log.cpp`): the records, their replay, `FileStorage::open` and `FileStorage::save`.  The file
is the string of its bytes; how the system calls turn out is an argument. -/

namespace ChordFs

open Text

/-- No batch is longer, so a crash damages no more than this at the end of the file. -/
def LOG_TAIL_LIMIT : ℕ := 256 * 1024

section format
variable (sha : Sha1)

/-- One record for `body`, without its newline. -/
def logRecord (body : Str) : Str := body ++ ' ' :: sha.short body

/-- The body of a line whose check matches. -/
def parseLogRecord (line : Str) : Option Str :=
  match cutLast ' ' line with
  | none => none
  | some (body, check) =>
    if check.length ≠ 8 then none else if check = sha.short body then some body else none

def voteWord (votedFor : ℤ) : Str := if votedFor = NOBODY then "-".toList else numInt votedFor

def parseVoteWord (word : Str) : Option ℤ :=
  if word ≠ "-".toList then parseId word else some NOBODY

/-- The text of a record, without its check. -/
def recordBody : LogRecord → Str
  | .term t vote => words ["TERM".toList, num t, voteWord vote]
  | .cut i => words ["CUT".toList, num i]
  | .entry i e => words ["ENTRY".toList, num i, num e.term, e.command]

def recordLine (r : LogRecord) : Str := logRecord sha (recordBody r)

/-- One record's body applied to `d`, refusing anything a correct writer never wrote: a term going
backwards, a second vote in one term, an entry out of sequence or newer than the term, a cut beyond
the end. -/
def replayOne (d : Durable) (body : Str) : Option Durable :=
  let w := splitSingleSpaces body
  if w = [] ∨ w.contains [] then none
  else if w.getD 0 [] = "TERM".toList ∧ w.length = 3 then do
    let t ← parseU64 (w.getD 1 [])
    let vote ← parseVoteWord (w.getD 2 [])
    if t < d.term then none
    else if t = d.term ∧ d.votedFor ≠ NOBODY ∧ d.votedFor ≠ vote then none
    else some { d with term := t, votedFor := vote }
  else if w.getD 0 [] = "ENTRY".toList ∧ w.length ≥ 4 then do
    let i ← parseU64 (w.getD 1 [])
    let t ← parseU64 (w.getD 2 [])
    if i ≠ d.log.length + 1 ∨ t > d.term then none
    else if ∃ e ∈ d.log.getLast?, t < e.term then none
    else
      -- the command is the rest of the body, spaces and all
      let at_ := (w.getD 0 []).length + (w.getD 1 []).length + (w.getD 2 []).length + 3
      some { d with log := d.log ++ [⟨t, body.drop at_⟩] }
  else if w.getD 0 [] = "CUT".toList ∧ w.length = 2 then do
    let i ← parseU64 (w.getD 1 [])
    if i = 0 ∨ i > d.log.length then none else some { d with log := d.log.take (i - 1) }
  else none

end format

/-! ### The storage -/

/-- The arguments of one `save`. -/
structure SaveCall where
  term : ℕ
  votedFor : ℤ
  from_ : ℕ
  log : List Entry
deriving DecidableEq

/-- `FileStorage`, next to the file itself. -/
structure FileStorage where
  /-- Whether there is a file descriptor. -/
  isOpen : Bool := false
  -- what the file holds now
  term : ℕ := 0
  votedFor : ℤ := NOBODY
  last : ℕ := 0
  batches : ℕ := 0

/-- How the system calls of `open` turn out; a failure is its error text. -/
structure OpenCalls where
  read : Option Str := none
  append : Option Str := none
  cut : Option Str := none
  dirSynced : Bool := true

/-- What `open` gives back, and the file it leaves. -/
structure Opened where
  storage : FileStorage
  out : Durable
  report : Str
  file : Str

/-- What becomes of the bytes of a batch: they are flushed, or something else is in their place. -/
inductive Wrote where
  | ok
  | torn (tail : Str)

namespace FileStorage

variable (sha : Sha1)

def why : LineLog.Damage → Str
  | .torn => "a torn final record".toList
  | .unreadable => "a record that fails its check".toList
  | .refused => "a record out of sequence".toList

/-- `text` is the file as it was found; there is no text if there is no file yet. -/
def openFile (path text : Str) (io : OpenCalls) : Except Str Opened :=
  match io.read with
  | some e => .error ("cannot read ".toList ++ path ++ ": ".toList ++ e)
  | none =>
    let r := LineLog.scan (parseLogRecord sha) replayOne .empty text
    let behind := text.length - r.good
    let report := num r.records ++ " records replayed from ".toList ++ path ++ ": term ".toList ++
      num r.state.term ++ ", ".toList ++ num r.state.log.length ++ " entries".toList
    let warning := if io.dirSynced then []
      else " (warning: the log's directory could not be flushed)".toList
    let storage : FileStorage :=
      { isOpen := true, term := r.state.term, votedFor := r.state.votedFor
        last := r.state.log.length }
    match r.damage with
    | none =>
      match io.append with
      | some e => .error ("cannot open ".toList ++ path ++ " for appending: ".toList ++ e)
      | none => .ok ⟨storage, r.state, report ++ warning, text⟩
    | some damage =>
      if behind > LOG_TAIL_LIMIT then
        .error (path ++ ": ".toList ++ why damage ++ " at byte ".toList ++ num r.good ++
          ", ".toList ++ num behind ++
          " bytes from the end -- further back than a crash can damage (".toList ++
          num LOG_TAIL_LIMIT ++
          " bytes); refusing to start rather than forget a vote or an acknowledged entry".toList)
      else
        match io.append, io.cut with
        | some e, _ => .error ("cannot open ".toList ++ path ++ " for appending: ".toList ++ e)
        | none, some e =>
          .error ("cannot cut the damaged tail off ".toList ++ path ++ ": ".toList ++ e)
        | none, none =>
          let cut := "; ".toList ++ why damage ++ " and the ".toList ++ num behind ++
            " bytes after it cut off".toList ++ if r.after = 0 then [] else
              " (".toList ++ num r.after ++ " intact-looking records among them)".toList
          .ok ⟨storage, r.state, report ++ cut ++ warning, text.take r.good⟩

/-- The records a save writes: the term and vote if they changed, a cut if entries the file holds
are replaced, and the entries from `from_` on. -/
def records (fs : FileStorage) (c : SaveCall) : List LogRecord :=
  (if c.term ≠ fs.term ∨ c.votedFor ≠ fs.votedFor then [.term c.term c.votedFor] else []) ++
    (if c.from_ ≤ fs.last then [.cut c.from_] else []) ++
    (c.log.drop (c.from_ - 1)).mapIdx fun k e => .entry (c.from_ + k) e

def batch (fs : FileStorage) (c : SaveCall) : Str := terminated ((fs.records c).map (recordLine sha))

/-- What may be left of an interrupted save: no line passes its check but lines of the batch at
their own place, and there is no more than a crash can damage. -/
def Leaves (fs : FileStorage) (c : SaveCall) (tail : Str) : Prop :=
  LineLog.Torn (parseLogRecord sha) (fs.batch sha c) tail ∧ tail.length ≤ LOG_TAIL_LIMIT

instance (fs : FileStorage) (c : SaveCall) (tail : Str) : Decidable (fs.Leaves sha c tail) :=
  inferInstanceAs (Decidable (_ ∧ _))

/-- One write and one flush for the whole batch; the storage, the file and the result. -/
def save (fs : FileStorage) (file : Str) (c : SaveCall) (o : Wrote) : FileStorage × Str × Bool :=
  if ¬ fs.isOpen then (fs, file, false)
  else if fs.batch sha c = [] then (fs, file, true)
  else
    match o with
    | .ok =>
      ({ fs with term := c.term, votedFor := c.votedFor, last := c.log.length
                 batches := fs.batches + 1 }, file ++ fs.batch sha c, true)
    | .torn tail => (fs, file ++ tail, false)

end FileStorage

/-! ### Records -/

variable {d : Durable} {r : LogRecord} {rs : List LogRecord}

theorem parseLogRecord_logRecord (sha : Sha1) (body : Str) :
    parseLogRecord sha (logRecord sha body) = some body := by
  have hcut := cutLast_append (not_mem_of_hex (c := ' ') (by decide) (sha.hex_short body)) body
  simp [parseLogRecord, logRecord, hcut, sha.length_short body]

/-- The records a correct writer appends where the file holds `d`. -/
def Permits (d : Durable) : LogRecord → Prop
  | .term t v => t < 10 ^ 18 ∧ (v = NOBODY ∨ ∃ k : ℕ, k ≤ 1000 ∧ v = k) ∧ d.term ≤ t ∧
      (t = d.term → d.votedFor ≠ NOBODY → d.votedFor = v)
  | .cut i => 0 < i ∧ i ≤ d.log.length ∧ i < 10 ^ 18
  | .entry i e => i = d.log.length + 1 ∧ i < 10 ^ 18 ∧ e.term ≤ d.term ∧ e.term < 10 ^ 18 ∧
      (∀ e' ∈ d.log.getLast?, e'.term ≤ e.term) ∧ validCommand e.command = true

theorem voteWord_cases {v : ℤ} (h : v = NOBODY ∨ ∃ k : ℕ, k ≤ 1000 ∧ v = k) :
    ' ' ∉ voteWord v ∧ '\n' ∉ voteWord v ∧ voteWord v ≠ [] ∧
      parseVoteWord (voteWord v) = some v := by
  rcases h with rfl | ⟨k, hk, rfl⟩
  · decide
  · have hne : (k : ℤ) ≠ NOBODY := by simp only [NOBODY]; omega
    have hnum : num k ≠ "-".toList := fun h =>
      not_mem_num (c := '-') (by decide) k (by rw [h]; decide)
    have hid : parseId (num k) = some (k : ℤ) := parseId_numInt rfl hk
    simp only [voteWord, parseVoteWord, if_neg hne, numInt_natCast, hid]
    exact ⟨space_not_mem_num k, not_mem_num (by decide) k, num_ne_nil k, if_pos hnum⟩

/-- **Replay accepts every record of a correct writer.** -/
theorem replayOne_recordBody (h : Permits d r) : replayOne d (recordBody r) = some (d.replay r) := by
  cases r with
  | term t v =>
    obtain ⟨ht, hv, hle, hsame⟩ := h
    obtain ⟨hspace, -, hne, hvote⟩ := voteWord_cases hv
    have hw : splitSingleSpaces (recordBody (.term t v)) =
        ["TERM".toList, num t, voteWord v] :=
      splitSingleSpaces_words (by simp [space_not_mem_num, hspace]) (by simp)
    have hsecond : ¬ (t = d.term ∧ d.votedFor ≠ NOBODY ∧ d.votedFor ≠ v) :=
      fun h => h.2.2 (hsame h.1 h.2.1)
    unfold replayOne
    rw [hw]
    dsimp only
    rw [if_neg (by simp [(num_ne_nil t).symm, hne.symm]), if_pos (by simp)]
    simp only [List.getD_cons_zero, List.getD_cons_succ, parseU64_num ht, hvote,
      Option.bind_eq_bind, Option.bind_some, if_neg (Nat.not_lt.mpr hle), if_neg hsecond,
      Durable.replay]
  | cut i =>
    obtain ⟨hpos, hle, hi⟩ := h
    have hw : splitSingleSpaces (recordBody (.cut i)) = ["CUT".toList, num i] :=
      splitSingleSpaces_words (by simp [space_not_mem_num]) (by simp)
    have hrange : ¬ (i = 0 ∨ i > d.log.length) := by omega
    unfold replayOne
    rw [hw]
    dsimp only
    rw [if_neg (by simp [(num_ne_nil i).symm]), if_neg (by simp), if_neg (by simp),
      if_pos (by simp)]
    simp only [List.getD_cons_zero, List.getD_cons_succ, parseU64_num hi, Option.bind_eq_bind,
      Option.bind_some, if_neg hrange, Durable.replay]
  | entry i e =>
    obtain ⟨rfl, hi, hle, ht, hlast, hvalid⟩ := h
    have hw : splitSingleSpaces (recordBody (.entry (d.log.length + 1) e)) =
        ["ENTRY".toList, num (d.log.length + 1), num e.term] ++ splitSingleSpaces e.command :=
      splitSingleSpaces_words_append ["ENTRY".toList, num (d.log.length + 1), num e.term]
        (by simp [space_not_mem_num]) e.command
    have hpos : 0 < (splitSingleSpaces e.command).length :=
      List.length_pos_iff.mpr (List.splitOn_ne_nil _ _)
    have hrange : ¬ (d.log.length + 1 ≠ d.log.length + 1 ∨ e.term > d.term) := by omega
    have hfalls : ¬ ∃ e' ∈ d.log.getLast?, e.term < e'.term := by
      rintro ⟨e', he', hlt⟩
      exact Nat.not_lt.mpr (hlast e' he') hlt
    have hdrop : (recordBody (.entry (d.log.length + 1) e)).drop
        ("ENTRY".toList.length + (num (d.log.length + 1)).length + (num e.term).length + 3) =
        e.command := by
      have heq : recordBody (.entry (d.log.length + 1) e) =
          ("ENTRY".toList ++ ' ' :: num (d.log.length + 1) ++ ' ' :: num e.term ++ [' ']) ++
            e.command := by
        simp [recordBody, words]
      rw [heq, List.drop_left' (by simp; omega)]
    unfold replayOne
    rw [hw]
    dsimp only
    rw [if_neg, if_neg, if_pos]
    · simp only [List.cons_append, List.getD_cons_zero, List.getD_cons_succ, parseU64_num hi,
        parseU64_num ht, Option.bind_eq_bind, Option.bind_some, if_neg hrange, if_neg hfalls, hdrop,
        Durable.replay]
    · exact ⟨rfl, by simp; omega⟩
    · simp
    · simp [(num_ne_nil _).symm, words_of_validCommand hvalid]

theorem newline_not_mem_recordLine (sha : Sha1) (h : Permits d r) : '\n' ∉ recordLine sha r := by
  have hcheck : '\n' ∉ sha.short (recordBody r) := not_mem_of_hex (by decide) (sha.hex_short _)
  have hnum : ∀ k, '\n' ∉ num k := not_mem_num (by decide)
  have hbody : '\n' ∉ recordBody r := by
    cases r with
    | term t v =>
      obtain ⟨-, hv, -, -⟩ := h
      simp [recordBody, words, hnum, (voteWord_cases hv).2.1]
    | cut i => simp [recordBody, words, hnum]
    | entry i e =>
      obtain ⟨-, -, -, -, -, hc⟩ := h
      simp [recordBody, words, hnum, newline_not_mem_of_validCommand hc]
  simp [recordLine, logRecord, hbody, hcheck]

/-- Records a correct writer appends one after the other. -/
def PermitsAll : Durable → List LogRecord → Prop
  | _, [] => True
  | d, r :: rs => Permits d r ∧ PermitsAll (d.replay r) rs

theorem PermitsAll.append {rs' : List LogRecord} : ∀ {d : Durable}, PermitsAll d rs →
    PermitsAll (rs.foldl Durable.replay d) rs' → PermitsAll d (rs ++ rs') := by
  induction rs with
  | nil => intro d _ h; exact h
  | cons r rs ih => intro d h h'; exact ⟨h.1, ih h.2 h'⟩

theorem PermitsAll.take : ∀ {d : Durable}, PermitsAll d rs → ∀ k, PermitsAll d (rs.take k) := by
  induction rs with
  | nil => intro d _ k; simp [PermitsAll]
  | cons r rs ih =>
    intro d h k
    cases k with
    | zero => trivial
    | succ k => exact ⟨h.1, ih h.2 k⟩

theorem PermitsAll.replay (sha : Sha1) : ∀ {d : Durable}, PermitsAll d rs →
    LineLog.replay (parseLogRecord sha) replayOne d (rs.map (recordLine sha)) =
      some (rs.foldl Durable.replay d) := by
  induction rs with
  | nil => intro d _; rfl
  | cons r rs ih =>
    intro d h
    have hstep : ((parseLogRecord sha (recordLine sha r)).bind (replayOne d)) =
        some (d.replay r) := by
      rw [recordLine, parseLogRecord_logRecord, Option.bind_some, replayOne_recordBody h.1]
    have hrest := ih h.2
    simp only [LineLog.replay] at hrest
    simp [LineLog.replay, hstep, hrest]

theorem PermitsAll.newline (sha : Sha1) : ∀ {d : Durable}, PermitsAll d rs →
    ∀ l ∈ rs.map (recordLine sha), '\n' ∉ l := by
  induction rs with
  | nil => intro d _ l hl; cases hl
  | cons r rs ih =>
    intro d h l hl
    rcases List.mem_cons.mp hl with rfl | hl
    · exact newline_not_mem_recordLine sha h.1
    · exact ih h.2 l hl

/-! ### Saves -/

/-- The term and the indexes of a save are below `10 ^ 18`. -/
structure SaveCall.Small (c : SaveCall) : Prop where
  term : c.term < 10 ^ 18
  from_ : c.from_ < 10 ^ 18
  length : c.log.length < 10 ^ 18

instance (c : SaveCall) : Decidable c.Small :=
  decidable_of_iff (c.term < 10 ^ 18 ∧ c.from_ < 10 ^ 18 ∧ c.log.length < 10 ^ 18)
    ⟨fun h => ⟨h.1, h.2.1, h.2.2⟩, fun h => ⟨h.term, h.from_, h.length⟩⟩

/-- A save that a Raft core makes where `d` is durable: terms never fall, one vote per term, valid
commands, and entries whose terms never fall either. -/
structure Storable (d : Durable) (c : SaveCall) : Prop where
  term_le : d.term ≤ c.term
  vote : c.term = d.term → d.votedFor ≠ NOBODY → d.votedFor = c.votedFor
  voter : c.votedFor = NOBODY ∨ ∃ k : ℕ, k ≤ 1000 ∧ c.votedFor = k
  from_pos : 0 < c.from_
  from_le : c.from_ ≤ c.log.length + 1
  agree : d.log.take (c.from_ - 1) = c.log.take (c.from_ - 1)
  rising : c.log.Pairwise fun e e' => e.term ≤ e'.term
  ceiling : ∀ e ∈ c.log, e.term ≤ c.term
  command : ∀ e ∈ c.log, validCommand e.command = true
  small : c.Small

/-- The records of the save `c` where `d` is durable. -/
abbrev Durable.recordsOf (d : Durable) (c : SaveCall) : List LogRecord :=
  d.records c.term c.votedFor c.from_ c.log

section storable
variable {d : Durable} {c : SaveCall}

theorem Storable.permitsAll_entries (h : Storable d c) {l : List Entry} :
    ∀ {f : ℕ → ℕ} {d' : Durable}, c.log = d'.log ++ l → d'.term = c.term →
    (∀ k, f k = d'.log.length + 1 + k) →
    PermitsAll d' (l.mapIdx fun k e => LogRecord.entry (f k) e) := by
  induction l with
  | nil => intro f d' _ _ _; trivial
  | cons e l ih =>
    intro f d' hlog hterm hf
    have hmem : e ∈ c.log := by rw [hlog]; simp
    have hlen : d'.log.length + 1 ≤ c.log.length := by rw [hlog]; simp
    have hle := h.ceiling e hmem
    have hsmall := h.small.term
    have hlast : ∀ e' ∈ d'.log.getLast?, e'.term ≤ e.term := by
      intro e' he'
      have hrising := h.rising
      rw [hlog, List.pairwise_append] at hrising
      exact hrising.2.2 e' (List.mem_of_getLast? he') e (by simp)
    rw [List.mapIdx_cons]
    refine ⟨⟨hf 0, ?_, by omega, by omega, hlast, h.command e hmem⟩, ?_⟩
    · have := h.small.length
      rw [hf 0]
      omega
    · refine ih (f := fun k => f (k + 1)) ?_ hterm fun k => ?_
      · rw [hlog]; simp [Durable.replay]
      · rw [hf (k + 1)]
        simp [Durable.replay]
        omega

/-- **Replay accepts the records of every save of a core.** -/
theorem Storable.permitsAll (h : Storable d c) : PermitsAll d (d.recordsOf c) := by
  have hterm := Durable.foldl_replay_term d c.term c.votedFor
  have hcut := Durable.foldl_replay_cut { d with term := c.term, votedFor := c.votedFor } h.from_pos
  have hpos := h.from_pos
  have hfrom := h.from_le
  have hlen : c.from_ - 1 ≤ d.log.length := by
    have := congrArg List.length h.agree
    simp only [List.length_take] at this
    omega
  simp only at hcut
  refine .append (.append ?_ ?_) ?_
  · split
    · exact ⟨⟨h.small.term, h.voter, h.term_le, h.vote⟩, trivial⟩
    · trivial
  · rw [hterm]
    split
    · rename_i hle
      exact ⟨⟨hpos, hle, h.small.from_⟩, trivial⟩
    · trivial
  · rw [List.foldl_append, hterm, hcut]
    refine h.permitsAll_entries (f := fun k => c.from_ + k) ?_ rfl fun k => ?_
    · rw [h.agree, List.take_append_drop]
    · simp only [List.length_take]
      omega

/-- What the storage remembers of the file. -/
structure FileStorage.Mirrors (fs : FileStorage) (d : Durable) : Prop where
  isOpen : fs.isOpen = true
  term : fs.term = d.term
  votedFor : fs.votedFor = d.votedFor
  last : fs.last = d.log.length

theorem FileStorage.Mirrors.records_eq {fs : FileStorage} (h : fs.Mirrors d) (c : SaveCall) :
    fs.records c = d.recordsOf c := by
  rw [FileStorage.records, h.term, h.votedFor, h.last]
  rfl

end storable

/-! ### Files -/

/-- The file holds exactly the records whose replay gives `d`. -/
def Stored (sha : Sha1) (file : Str) (d : Durable) : Prop :=
  ∃ ls, file = terminated ls ∧ (∀ l ∈ ls, '\n' ∉ l) ∧
    LineLog.replay (parseLogRecord sha) replayOne .empty ls = some d

/-- The file holds `good`, whose replay gives `d`, and behind it no more damage than a crash can
do. -/
def Recovers (sha : Sha1) (file good : Str) (d : Durable) : Prop :=
  ∃ rest, file = good ++ rest ∧ Stored sha good d ∧ LineLog.Broken (parseLogRecord sha) rest ∧
    rest.length ≤ LOG_TAIL_LIMIT

section files
variable {sha : Sha1} {file good : Str} {d : Durable} {fs : FileStorage} {c : SaveCall}

theorem stored_nil : Stored sha [] .empty := ⟨[], rfl, by simp, rfl⟩

theorem broken_nil : LineLog.Broken (parseLogRecord sha) [] := by
  intro l hl
  simp [completeLines] at hl

theorem Stored.recovers (h : Stored sha file d) : Recovers sha file file d :=
  ⟨[], by simp, h, broken_nil, Nat.zero_le _⟩

theorem Stored.append (h : Stored sha file d) {rs : List LogRecord} (hrs : PermitsAll d rs) :
    Stored sha (file ++ terminated (rs.map (recordLine sha))) (rs.foldl Durable.replay d) := by
  obtain ⟨ls, rfl, hls, hreplay⟩ := h
  refine ⟨ls ++ rs.map (recordLine sha), by simp, fun l hl => ?_, ?_⟩
  · rcases List.mem_append.mp hl with hl | hl
    · exact hls l hl
    · exact hrs.newline sha l hl
  · rw [LineLog.replay_append, hreplay, Option.bind_some, hrs.replay sha]

/-- **A completed save.** -/
theorem Stored.save (h : Stored sha file d) (hm : fs.Mirrors d) (hc : Storable d c) :
    Stored sha (file ++ fs.batch sha c) ⟨c.term, c.votedFor, c.log⟩ := by
  have hs := h.append hc.permitsAll
  rw [Durable.foldl_replay_records d c.term c.votedFor hc.from_pos c.log, Durable.save, hc.agree,
    List.take_append_drop] at hs
  rw [FileStorage.batch, hm.records_eq]
  exact hs

/-- **An interrupted save** leaves the records before it and some of its own. -/
theorem Stored.torn (h : Stored sha file d) (hm : fs.Mirrors d) (hc : Storable d c) {tail : Str}
    (hl : fs.Leaves sha c tail) : let k := (LineLog.intact (parseLogRecord sha) tail).length
    k ≤ (d.recordsOf c).length ∧
    Recovers sha (file ++ tail)
      (file ++ terminated (((d.recordsOf c).take k).map (recordLine sha)))
      (((d.recordsOf c).take k).foldl Durable.replay d) := by
  intro k
  obtain ⟨ht, hlen⟩ := hl
  rw [FileStorage.batch, hm.records_eq] at ht
  obtain ⟨hpre, rest, htail, hbroken⟩ := LineLog.torn_cases (hc.permitsAll.newline sha) ht
  have hk : LineLog.intact (parseLogRecord sha) tail =
      ((d.recordsOf c).take k).map (recordLine sha) := by
    rw [List.map_take]
    exact List.prefix_iff_eq_take.mp hpre
  rw [hk] at htail
  refine ⟨by simpa using hpre.length_le, rest, ?_, h.append (hc.permitsAll.take k), hbroken, ?_⟩
  · conv_lhs => rw [htail]
    rw [List.append_assoc]
  · have := congrArg List.length htail
    rw [List.length_append] at this
    omega

/-- The system calls of `open` succeed; flushing the directory may fail. -/
def OpenCalls.Fine (io : OpenCalls) : Prop := io.read = none ∧ io.append = none ∧ io.cut = none

/-- **`open` finds what the file holds, and cuts the damage off.** -/
theorem Recovers.openFile (h : Recovers sha file good d) (path : Str) (io : OpenCalls) :
    (∀ r, FileStorage.openFile sha path file io = .ok r →
      r.out = d ∧ r.file = good ∧ r.storage.Mirrors d) ∧
    (io.Fine → ∃ r, FileStorage.openFile sha path file io = .ok r) := by
  obtain ⟨rest, rfl, ⟨ls, rfl, hls, hreplay⟩, hbroken, hlen⟩ := h
  obtain ⟨damage, after, hdamage, hscan⟩ := LineLog.scan_terminated_append hls hreplay hbroken
  have hbehind : ¬ (terminated ls ++ rest).length - (terminated ls).length > LOG_TAIL_LIMIT := by
    rw [List.length_append]
    omega
  obtain ⟨read, append, cut, dirSynced⟩ := io
  unfold FileStorage.openFile OpenCalls.Fine
  cases read with
  | some e => exact ⟨(fun r h => by cases h), fun h => by cases h.1⟩
  | none =>
    rw [hscan]
    cases append with
    | some e =>
      refine ⟨fun r h => ?_, fun h => by cases h.2.1⟩
      cases damage with
      | none => cases h
      | some damage => dsimp only at h; rw [if_neg hbehind] at h; cases h
    | none =>
      cases damage with
      | none =>
        refine ⟨fun r h => ?_, fun _ => ⟨_, rfl⟩⟩
        cases h
        exact ⟨rfl, by dsimp only; rw [hdamage rfl, List.append_nil], ⟨rfl, rfl, rfl, rfl⟩⟩
      | some damage =>
        dsimp only
        rw [if_neg hbehind]
        cases cut with
        | some e => exact ⟨(fun r h => by cases h), fun h => by cases h.2.2⟩
        | none =>
          refine ⟨fun r h => ?_, fun _ => ⟨_, rfl⟩⟩
          cases h
          exact ⟨rfl, List.take_left, ⟨rfl, rfl, rfl, rfl⟩⟩

theorem Stored.save_cases (h : Stored sha file d) (hm : fs.Mirrors d) (hc : Storable d c)
    (o : Wrote) :
    (fs.save sha file c o).2.2 = true ∧
      Stored sha (fs.save sha file c o).2.1 ⟨c.term, c.votedFor, c.log⟩ ∧
      (fs.save sha file c o).1.Mirrors ⟨c.term, c.votedFor, c.log⟩ ∨
    ∃ tail, o = .torn tail ∧ fs.save sha file c o = (fs, file ++ tail, false) := by
  have hs := h.save hm hc
  unfold FileStorage.save
  rw [if_neg (by simp [hm.isOpen])]
  split
  · -- nothing to write: the file holds it already
    rename_i hb
    have hnil : d.recordsOf c = [] := by
      cases hr : d.recordsOf c with
      | nil => rfl
      | cons r rs => simp [FileStorage.batch, hm.records_eq, hr] at hb
    have hd : d = ⟨c.term, c.votedFor, c.log⟩ := by
      have hreplay := Durable.foldl_replay_records d c.term c.votedFor hc.from_pos c.log
      rw [show d.records c.term c.votedFor c.from_ c.log = [] from hnil, Durable.save, hc.agree,
        List.take_append_drop] at hreplay
      exact hreplay
    rw [← hd]
    exact .inl ⟨rfl, h, hm⟩
  · cases o with
    | ok => exact .inl ⟨rfl, hs, ⟨hm.isOpen, rfl, rfl, rfl⟩⟩
    | torn tail => exact .inr ⟨tail, rfl, rfl⟩

end files

end ChordFs
