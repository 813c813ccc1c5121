import ChordFs.RaftWire
import ChordFs.LogFile

/-! # From a request to the log

What `client_request` proposes for a change of the namespace (`replica.cpp`), and the way of the
proposed command through the parsers behind it: the followers' (`parse_append`), the restart's
(`parse_log_record`, `replay_one`) and the state machine's (`apply_command`).  They split at
different characters; a visible-ASCII name has none of them. -/

namespace ChordFs

/-- The command `client_request` proposes; the log holds the owner hash, never the secret. -/
def proposal (sha : Sha1) : NamesRequest → Option Str
  | .register name key owner => some (registerCommand name key owner)
  | .unregister name secret => some (unregisterCommand name (ownerHash sha secret))
  | _ => none

/-- What registering a name means: the first registration takes the name, and a repeated one is
told so. -/
def registering (ns : Namespace) (name key owner : Str) : Namespace × Str :=
  match ns.find? name with
  | none => (ns.insertNew name ⟨key, owner⟩, "OK".toList)
  | some e =>
    (ns, if e = ⟨key, owner⟩ then "OK".toList else "EXISTS ".toList ++ e.key)

/-- What deleting a name means: only its owner can. -/
def unregistering (ns : Namespace) (name owner : Str) : Namespace × Str :=
  match ns.find? name with
  | none => (ns, "MISSING".toList)
  | some e => if e.owner ≠ [] ∧ e.owner = owner then (ns.erase name, "OK".toList)
      else (ns, "DENIED".toList)

/-- What a line of the log asks for. -/
inductive NameCommand where
  | register (name key owner : Str)
  | unregister (name owner : Str)
deriving DecidableEq

/-- A line as `apply_command` reads it: nothing for what it ignores. -/
def commandOf (line : Str) : Option NameCommand :=
  if ¬ validCommand line ∨ line = NOOP then none
  else
    let w := splitSingleSpaces line
    if w.getD 0 [] = "UNREGISTER".toList then some (.unregister (w.getD 1 []) (w.getD 2 []))
    else some (.register (w.getD 1 []) (w.getD 2 []) (if w.length = 4 then w.getD 3 [] else []))

def NameCommand.apply (ns : Namespace) : NameCommand → Namespace × Str
  | .register name key owner => registering ns name key owner
  | .unregister name owner => unregistering ns name owner

/-- The change a request asks for, in terms of its name, key and owner alone. -/
def NamesRequest.change (sha : Sha1) (ns : Namespace) : NamesRequest → Namespace × Str
  | .register name key owner => registering ns name key owner
  | .unregister name secret => unregistering ns name (ownerHash sha secret)
  | _ => (ns, [])

/-! ### The words of a command -/

section words
variable {ns : Namespace} {line name key owner : Str}

/-- **A command line does what it says**, and nothing if it says nothing. -/
theorem applyCommand_eq (ns : Namespace) (line : Str) :
    applyCommand ns line = ((commandOf line).map fun c => c.apply ns).getD (ns, []) := by
  unfold commandOf applyCommand
  split
  · rfl
  dsimp only
  split
  · simp only [Option.map_some, Option.getD_some, NameCommand.apply, unregistering]
    cases ns.find? ((splitSingleSpaces line).getD 1 []) with
    | none => rfl
    | some e =>
      dsimp only
      by_cases hdenied : e.owner = [] ∨ e.owner ≠ (splitSingleSpaces line).getD 2 []
      · rw [if_pos hdenied, if_neg fun h => hdenied.elim h.1 fun hne => hne h.2]
      · rw [not_or, not_not] at hdenied
        rw [if_neg fun h => h.elim hdenied.1 fun hne => hne hdenied.2, if_pos hdenied]
  · simp only [Option.map_some, Option.getD_some, NameCommand.apply, registering]
    cases ns.find? ((splitSingleSpaces line).getD 1 []) with
    | none => rfl
    | some e =>
      cases e
      simp only [NameEntry.mk.injEq]

theorem applyCommand_none (h : commandOf line = none) : applyCommand ns line = (ns, []) := by
  rw [applyCommand_eq, h]
  rfl

theorem applyCommand_register (h : commandOf line = some (.register name key owner)) :
    applyCommand ns line = registering ns name key owner := by
  rw [applyCommand_eq, h]
  rfl

theorem applyCommand_unregister (h : commandOf line = some (.unregister name owner)) :
    applyCommand ns line = unregistering ns name owner := by
  rw [applyCommand_eq, h]
  rfl

theorem space_not_mem_of_validName (h : validName name = true) : ' ' ∉ name := by
  intro hc
  have := (validName_char h hc).1
  simp at this

theorem ne_nil_of_validKey (h : validKey key = true) : key ≠ [] := by
  rintro rfl
  cases h

theorem validKey_ownerHash (sha : Sha1) (secret : Str) : validKey (ownerHash sha secret) = true :=
  validKey_digest sha secret

theorem splitSingleSpaces_registerCommand (hn : validName name = true) (hk : validKey key = true)
    (ho : owner = [] ∨ validKey owner = true) :
    splitSingleSpaces (registerCommand name key owner) =
      ["REGISTER".toList, name, key] ++ if owner = [] then [] else [owner] := by
  apply splitSingleSpaces_words
  · have hown : ' ' ∉ owner := by
      rcases ho with rfl | ho
      · simp
      · exact space_not_mem_of_validKey ho
    split <;> simp [space_not_mem_of_validName hn, space_not_mem_of_validKey hk, hown]
  · simp

theorem splitSingleSpaces_unregisterCommand (hn : validName name = true)
    (ho : validKey owner = true) :
    splitSingleSpaces (unregisterCommand name owner) = ["UNREGISTER".toList, name, owner] := by
  apply splitSingleSpaces_words
  · simp [space_not_mem_of_validName hn, space_not_mem_of_validKey ho]
  · simp

theorem registerCommand_ne_noop : registerCommand name key owner ≠ NOOP := by
  have hhead : (registerCommand name key owner).head? = some 'R' := by
    rw [registerCommand, List.cons_append, List.cons_append, words_cons_cons]
    rfl
  intro h
  rw [h] at hhead
  cases hhead

theorem unregisterCommand_ne_noop : unregisterCommand name owner ≠ NOOP := by
  have hhead : (unregisterCommand name owner).head? = some 'U' := by
    rw [unregisterCommand, words_cons_cons]
    rfl
  intro h
  rw [h] at hhead
  cases hhead

section
variable (hn : validName name = true)
include hn

theorem validCommand_registerCommand (hk : validKey key = true)
    (ho : owner = [] ∨ validKey owner = true) :
    validCommand (registerCommand name key owner) = true := by
  rw [validCommand, if_neg registerCommand_ne_noop, splitSingleSpaces_registerCommand hn hk ho]
  rcases ho with rfl | ho
  · simp [hn, hk]
  · simp [ne_nil_of_validKey ho, hn, hk, ho]

theorem validCommand_unregisterCommand (ho : validKey owner = true) :
    validCommand (unregisterCommand name owner) = true := by
  rw [validCommand, if_neg unregisterCommand_ne_noop, splitSingleSpaces_unregisterCommand hn ho]
  simp [hn, ho]

theorem commandOf_registerCommand (hk : validKey key = true)
    (ho : owner = [] ∨ validKey owner = true) :
    commandOf (registerCommand name key owner) = some (.register name key owner) := by
  rw [commandOf, if_neg (by simp [validCommand_registerCommand hn hk ho, registerCommand_ne_noop]),
    splitSingleSpaces_registerCommand hn hk ho]
  dsimp only
  rw [List.cons_append, List.getD_cons_zero, if_neg (by decide)]
  by_cases h : owner = [] <;> simp [h]

theorem commandOf_unregisterCommand (ho : validKey owner = true) :
    commandOf (unregisterCommand name owner) = some (.unregister name owner) := by
  rw [commandOf, if_neg (by simp [validCommand_unregisterCommand hn ho, unregisterCommand_ne_noop]),
    splitSingleSpaces_unregisterCommand hn ho]
  rfl

end

end words

/-! ### What the request parser lets through -/

theorem proposal_parsePage (sha : Sha1) {w : List Str} {kind : Option Str → NamesRequest}
    (hk : ∀ after, proposal sha (kind after) = none) (usage : Str) :
    proposal sha (parsePage w kind usage) = none := by
  unfold parsePage
  split
  · rfl
  split
  · rfl
  · exact hk _

section
variable {sha : Sha1} {line command : Str}
  (h : proposal sha (parseNamesRequest line) = some command)
include h

/-- A line that is proposed is a registration or a deletion with a valid name, key and owner. -/
theorem proposal_cases :
    (∃ name key owner, parseNamesRequest line = .register name key owner ∧
      command = registerCommand name key owner ∧ validName name = true ∧ validKey key = true ∧
      (owner = [] ∨ validKey owner = true)) ∨
    ∃ name secret, parseNamesRequest line = .unregister name secret ∧
      command = unregisterCommand name (ownerHash sha secret) ∧ validName name = true := by
  unfold parseNamesRequest at h ⊢
  split at h
  · cases h
  rename_i hempty
  dsimp only at h ⊢
  generalize splitSingleSpaces line = w at h ⊢
  rw [if_neg hempty]
  split at h
  · cases h
  rename_i hping
  rw [if_neg hping]
  split at h
  · rename_i hverb
    rw [if_pos hverb]
    split at h
    · cases h
    split at h
    · cases h
    split at h
    · cases h
    split at h
    · cases h
    rename_i hlen hname hkey hown
    cases h
    rw [if_neg hlen, if_neg hname, if_neg hkey, if_neg hown]
    refine .inl ⟨_, _, _, rfl, rfl, not_not.mp hname, not_not.mp hkey, ?_⟩
    split
    · rename_i h4
      exact .inr (not_not.mp fun hv => hown ⟨h4, hv⟩)
    · exact .inl rfl
  rename_i hreg
  rw [if_neg hreg]
  split at h
  · rename_i hverb
    rw [if_pos hverb]
    split at h
    · cases h
    split at h
    · cases h
    split at h
    · cases h
    rename_i hlen hname hsecret
    cases h
    rw [if_neg hlen, if_neg hname, if_neg hsecret]
    exact .inr ⟨_, _, rfl, rfl, not_not.mp hname⟩
  split at h
  · split at h
    · cases h
    split at h <;> cases h
  split at h
  · rw [proposal_parsePage sha (fun _ => rfl)] at h
    cases h
  split at h
  · rw [proposal_parsePage sha (fun _ => rfl)] at h
    cases h
  · cases h

theorem validCommand_proposal : validCommand command = true := by
  rcases proposal_cases h with ⟨name, key, owner, -, rfl, hn, hk, ho⟩ | ⟨name, secret, -, rfl, hn⟩
  · exact validCommand_registerCommand hn hk ho
  · exact validCommand_unregisterCommand hn (validKey_ownerHash sha secret)

end

/-- **What a leader proposes is accepted everywhere.**  The command of an accepted request is a
valid one; a call that carries it among other valid commands is read back as it was sent; its
record in the log file is one line that is read back and replayed as it was appended; and
applying it makes the change the request asked for. -/
theorem proposal_accepted (sha : Sha1) {line command : Str}
    (h : proposal sha (parseNamesRequest line) = some command) :
    validCommand command = true ∧
    (∀ (group : Str) (req : AppendRequest) (leader : ℕ), ' ' ∉ group → leader ≤ 1000 →
      req.leader = leader → req.Small → batchBytes req.entries < 10 ^ 18 →
      Carries (fun c => c = command || validCommand c) req.prevTerm req.term req.entries →
      parseAppend validCommand (encodeAppend group req).2
        (splitSingleSpaces (encodeAppend group req).1) = some (group, req)) ∧
    (∀ (d : Durable) (term : ℕ), term ≤ d.term → (∀ e ∈ d.log.getLast?, e.term ≤ term) →
      d.term < 10 ^ 18 → d.log.length + 1 < 10 ^ 18 →
      '\n' ∉ recordLine sha (.entry (d.log.length + 1) ⟨term, command⟩) ∧
      (parseLogRecord sha (recordLine sha (.entry (d.log.length + 1) ⟨term, command⟩))).bind
        (replayOne d) = some { d with log := d.log ++ [⟨term, command⟩] }) ∧
    ∀ ns, applyCommand ns command = (parseNamesRequest line).change sha ns := by
  have hvalid := validCommand_proposal h
  refine ⟨hvalid, ?_, ?_, ?_⟩
  · intro group req leader hg hle hl hsmall hbytes hc
    have hcarries : Carries validCommand req.prevTerm req.term req.entries := by
      refine ⟨hc.floor, hc.rising, hc.ceiling, fun e he => ?_⟩
      rcases Bool.or_eq_true_iff.mp (hc.command e he) with heq | hv
      · rw [of_decide_eq_true heq]
        exact hvalid
      · exact hv
    exact parseAppend_encodeAppend hg (fun _ => newline_not_mem_of_validCommand) hsmall hcarries
      hbytes hle hl
  · intro d term hterm hlast hd hlen
    have hpermits : Permits d (.entry (d.log.length + 1) ⟨term, command⟩) :=
      ⟨rfl, hlen, hterm, Nat.lt_of_le_of_lt hterm hd, hlast, hvalid⟩
    refine ⟨newline_not_mem_recordLine sha hpermits, ?_⟩
    rw [recordLine, parseLogRecord_logRecord, Option.bind_some, replayOne_recordBody hpermits]
    rfl
  · intro ns
    rcases proposal_cases h with ⟨name, key, owner, hp, rfl, hn, hk, ho⟩ | ⟨name, secret, hp, rfl, hn⟩
    · rw [hp, applyCommand_register (commandOf_registerCommand hn hk ho)]
      rfl
    · rw [hp, applyCommand_unregister (commandOf_unregisterCommand hn (validKey_ownerHash sha secret))]
      rfl

/-- A request for a name that looks like a command, and the log entry it becomes. -/
def lookalike : Str := "REGISTER NOOP aaaaaaaaaaaaaaaaaaaaaaaaaaaaaaaaaaaaaaaa".toList

theorem proposal_accepted_lookalike :
    let call : AppendRequest := ⟨2, 0, 0, 0, [⟨1, NOOP⟩, ⟨2, lookalike⟩], 1, 7⟩
    proposal (.ofTable []) (parseNamesRequest lookalike) = some lookalike ∧
    parseAppend validCommand (encodeAppend "abcdef01".toList call).2
      (splitSingleSpaces (encodeAppend "abcdef01".toList call).1) =
        some ("abcdef01".toList, call) ∧
    (parseLogRecord (.ofTable []) (recordLine (.ofTable []) (.entry 2 ⟨2, lookalike⟩))).bind
      (replayOne ⟨2, 0, [⟨1, NOOP⟩]⟩) = some ⟨2, 0, [⟨1, NOOP⟩, ⟨2, lookalike⟩]⟩ ∧
    applyCommand .empty lookalike = registering .empty "NOOP".toList (List.replicate 40 'a') [] := by
  have h : proposal (.ofTable []) (parseNamesRequest lookalike) = some lookalike := by decide +kernel
  obtain ⟨-, hwire, hlog, happly⟩ := proposal_accepted (.ofTable []) h
  refine ⟨h, ?_, ?_, happly .empty⟩
  · apply hwire _ _ 0 (by decide) (by decide) rfl ⟨by decide, by decide, by decide, by decide, by decide⟩
    · decide
    · refine ⟨?_, ?_, ?_, ?_⟩ <;> decide
  · exact (hlog ⟨2, 0, [⟨1, NOOP⟩]⟩ 2 (by decide) (by decide) (by decide) (by decide)).2

end ChordFs
