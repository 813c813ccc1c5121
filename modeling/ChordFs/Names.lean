import ChordFs.Lib.SortedMap
import ChordFs.Net
import Mathlib.Algebra.Order.Ring.Int
import Mathlib.Data.Char
import Mathlib.Data.List.Lex

/-! # The namespace

The state machine the group replicates (`names.h`, `names.cpp`): file names with their manifest
keys and owners, the commands of the log, and the requests of the clients. -/

namespace ChordFs

/-- The longest name, in bytes. -/
def MAX_NAME : ℕ := 200

def validName (name : Str) : Bool :=
  name ≠ [] ∧ name.length ≤ MAX_NAME ∧ name.all fun c => 0x21 ≤ c.toNat ∧ c.toNat ≤ 0x7e

def validSecret (secret : Str) : Bool :=
  32 ≤ secret.length ∧ secret.length ≤ 64 ∧ secret.all isHex

/-- The owner hash of a secret. -/
def ownerHash (sha : Sha1) (secret : Str) : Str := sha.digest secret

structure NameEntry where
  key : Str
  /-- The owner hash; empty if the name has no owner. -/
  owner : Str
deriving DecidableEq, Repr

/-- The names in order, each with its entry. -/
abbrev Namespace := SortedMap Str NameEntry

/-! ### Requests -/

/-- A client's request line, parsed and checked. -/
inductive NamesRequest where
  | register (name key owner : Str)
  | unregister (name secret : Str)
  | resolve (name : Str)
  | list (after : Option Str)
  | entries (after : Option Str)
  | ping
  | invalid (error : Str)
deriving DecidableEq, Repr

def BAD_NAME : Str := "ERR a name is 1 to 200 visible ASCII characters".toList
def BAD_KEY : Str := "ERR a key is 40 lowercase hexadecimal characters".toList
def BAD_OWNER : Str := "ERR an owner hash is 40 lowercase hexadecimal characters".toList
def BAD_SECRET : Str := "ERR a secret is 32 to 64 lowercase hexadecimal characters".toList

/-- A verb alone or with a name to start after, as LIST and ENTRIES take it. -/
def parsePage (w : List Str) (kind : Option Str → NamesRequest) (usage : Str) : NamesRequest :=
  if w.length > 2 then .invalid usage
  else if w.length = 2 ∧ ¬ validName (w.getD 1 []) then .invalid BAD_NAME
  else kind (if w.length = 2 then some (w.getD 1 []) else none)

def parseNamesRequest (line : Str) : NamesRequest :=
  if line = [] then .invalid "ERR empty request".toList
  else
    let w := splitSingleSpaces line
    let verb := w.getD 0 []
    if verb = "PING".toList ∧ w.length = 1 then .ping
    else if verb = "REGISTER".toList then
      if w.length ≠ 3 ∧ w.length ≠ 4 then
        .invalid "ERR usage: REGISTER <name> <manifest-key> [<owner-hash>]".toList
      else if ¬ validName (w.getD 1 []) then .invalid BAD_NAME
      else if ¬ validKey (w.getD 2 []) then .invalid BAD_KEY
      else if w.length = 4 ∧ ¬ validKey (w.getD 3 []) then .invalid BAD_OWNER
      else .register (w.getD 1 []) (w.getD 2 []) (if w.length = 4 then w.getD 3 [] else [])
    else if verb = "UNREGISTER".toList then
      if w.length ≠ 3 then .invalid "ERR usage: UNREGISTER <name> <secret>".toList
      else if ¬ validName (w.getD 1 []) then .invalid BAD_NAME
      else if ¬ validSecret (w.getD 2 []) then .invalid BAD_SECRET
      else .unregister (w.getD 1 []) (w.getD 2 [])
    else if verb = "RESOLVE".toList then
      if w.length ≠ 2 then .invalid "ERR usage: RESOLVE <name>".toList
      else if ¬ validName (w.getD 1 []) then .invalid BAD_NAME
      else .resolve (w.getD 1 [])
    else if verb = "LIST".toList then parsePage w .list "ERR usage: LIST [<after>]".toList
    else if verb = "ENTRIES".toList then parsePage w .entries "ERR usage: ENTRIES [<after>]".toList
    else .invalid "ERR unknown request".toList

/-! ### Commands -/

def registerCommand (name key owner : Str) : Str :=
  words (["REGISTER".toList, name, key] ++ if owner = [] then [] else [owner])

def unregisterCommand (name owner : Str) : Str := words ["UNREGISTER".toList, name, owner]

/-- The commands a replica proposes, applies, or accepts from a leader. -/
def validCommand (command : Str) : Bool :=
  if command = NOOP then true
  else
    let w := splitSingleSpaces command
    if w.getD 0 [] = "REGISTER".toList then
      (w.length = 3 ∨ w.length = 4) ∧ validName (w.getD 1 []) ∧ validKey (w.getD 2 []) ∧
        (w.length = 3 ∨ validKey (w.getD 3 []))
    else if w.getD 0 [] = "UNREGISTER".toList then
      w.length = 3 ∧ validName (w.getD 1 []) ∧ validKey (w.getD 2 [])
    else false

theorem validCommand_noop : validCommand NOOP = true := by decide

/-- **What is a valid command is what the two encoders write.** -/
theorem validCommand_cases {command : Str} (h : validCommand command = true) :
    command = NOOP ∨
    (∃ name key owner, command = registerCommand name key owner ∧ validName name = true ∧
      validKey key = true ∧ (owner = [] ∨ validKey owner = true)) ∨
    ∃ name owner, command = unregisterCommand name owner ∧ validName name = true ∧
      validKey owner = true := by
  have hw := words_splitSingleSpaces command
  rw [validCommand] at h
  generalize splitSingleSpaces command = w at hw h
  subst hw
  split at h
  · exact .inl ‹_›
  dsimp only at h
  split at h
  · rename_i hverb
    simp only [decide_eq_true_eq, List.length_eq_three] at h
    obtain ⟨h3 | h4, hn, hk, ho⟩ := h
    · obtain ⟨verb, name, key, rfl⟩ := h3
      subst hverb
      exact .inr (.inl ⟨name, key, [], by simp [registerCommand], hn, hk, .inl rfl⟩)
    · obtain ⟨verb, name, key, owner, rfl⟩ : ∃ a b c d, w = [a, b, c, d] := by
        rcases w with - | ⟨a, - | ⟨b, - | ⟨c, - | ⟨d, - | ⟨e, w⟩⟩⟩⟩⟩ <;> simp_all
      subst hverb
      have hown : validKey owner = true := by simpa using ho
      have hne : owner ≠ [] := by rintro rfl; cases hown
      exact .inr (.inl ⟨name, key, owner, by simp [registerCommand, hne], hn, hk, .inr hown⟩)
  split at h
  · rename_i hverb
    simp only [decide_eq_true_eq, List.length_eq_three] at h
    obtain ⟨⟨verb, name, key, rfl⟩, hn, hk⟩ := h
    subst hverb
    exact .inr (.inr ⟨name, key, rfl, hn, hk⟩)
  · cases h

theorem validName_char {name : Str} (h : validName name = true) {c : Char} (hc : c ∈ name) :
    0x21 ≤ c.toNat ∧ c.toNat ≤ 0x7e := by
  simp only [validName, decide_eq_true_eq, List.all_eq_true] at h
  exact h.2.2 c hc

theorem length_of_validKey {key : Str} (h : validKey key = true) : key.length = 40 := by
  simp only [validKey, decide_eq_true_eq] at h
  exact h.1

theorem length_of_validName {name : Str} (h : validName name = true) : name.length ≤ 200 := by
  simp only [validName, decide_eq_true_eq] at h
  exact h.2.1

section
variable {command : Str} (h : validCommand command = true)
include h

theorem newline_not_mem_of_validCommand : '\n' ∉ command := by
  have hname : ∀ {name : Str}, validName name = true → '\n' ∉ name := fun hn hc => by
    have := (validName_char hn hc).1
    simp at this
  have hkey : ∀ {key : Str}, validKey key = true → '\n' ∉ key := fun hk hc => by
    have := validKey_char hk hc
    simp [isHex] at this
  rcases validCommand_cases h with rfl | ⟨name, key, owner, rfl, hn, hk, rfl | ho⟩ |
    ⟨name, owner, rfl, hn, ho⟩
  · decide
  · simp [registerCommand, words, hname hn, hkey hk]
  · by_cases hne : owner = []
    · simp [registerCommand, words, hname hn, hkey hk, hne]
    · simp [registerCommand, words, hname hn, hkey hk, hkey ho, hne]
  · simp [unregisterCommand, words, hname hn, hkey ho]

theorem words_of_validCommand : [] ∉ splitSingleSpaces command := by
  have hname : ∀ {name : Str}, validName name = true → ' ' ∉ name ∧ name ≠ [] := fun hn => by
    refine ⟨fun hc => ?_, ?_⟩
    · have := (validName_char hn hc).1
      simp at this
    · rintro rfl
      cases hn
  have hkey : ∀ {key : Str}, validKey key = true → ' ' ∉ key ∧ key ≠ [] := fun hk => by
    refine ⟨fun hc => ?_, ?_⟩
    · have := validKey_char hk hc
      simp [isHex] at this
    · rintro rfl
      cases hk
  rcases validCommand_cases h with rfl | ⟨name, key, owner, rfl, hn, hk, rfl | ho⟩ |
    ⟨name, owner, rfl, hn, ho⟩
  · decide
  · rw [registerCommand, splitSingleSpaces_words (by simp [hname hn, hkey hk]) (by simp)]
    simp [(hname hn).2.symm, (hkey hk).2.symm]
  · rw [registerCommand, if_neg (hkey ho).2,
      splitSingleSpaces_words (by simp [hname hn, hkey hk, hkey ho]) (by simp)]
    simp [(hname hn).2.symm, (hkey hk).2.symm, (hkey ho).2.symm]
  · rw [unregisterCommand, splitSingleSpaces_words (by simp [hname hn, hkey ho]) (by simp)]
    simp [(hname hn).2.symm, (hkey ho).2.symm]

theorem length_of_validCommand : 4 ≤ command.length ∧ command.length ≤ 291 := by
  rcases validCommand_cases h with rfl | ⟨name, key, owner, rfl, hn, hk, rfl | ho⟩ |
    ⟨name, owner, rfl, hn, ho⟩
  · decide
  · have := length_of_validName hn
    have := length_of_validKey hk
    simp [registerCommand, words]
    omega
  · have := length_of_validName hn
    have := length_of_validKey hk
    have := length_of_validKey ho
    by_cases hne : owner = []
    · simp [registerCommand, words, hne]
      omega
    · simp [registerCommand, words, hne]
      omega
  · have := length_of_validName hn
    have := length_of_validKey ho
    simp [unregisterCommand, words]
    omega

end

/-- One committed entry: the new state, and what a client waiting on it is told. -/
def applyCommand (ns : Namespace) (command : Str) : Namespace × Str :=
  if ¬ validCommand command ∨ command = NOOP then (ns, [])
  else
    let w := splitSingleSpaces command
    let it := ns.find? (w.getD 1 [])
    if w.getD 0 [] = "UNREGISTER".toList then
      match it with
      | none => (ns, "MISSING".toList)
      -- only the owner, proved by the secret's hash; a name with no owner never
      | some e =>
        if e.owner = [] ∨ e.owner ≠ w.getD 2 [] then (ns, "DENIED".toList)
        else (ns.erase (w.getD 1 []), "OK".toList)
    else
      let owner := if w.length = 4 then w.getD 3 [] else []
      match it with
      | none => (ns.insertNew (w.getD 1 []) ⟨w.getD 2 [], owner⟩, "OK".toList)
      | some e =>
        (ns, if e.key = w.getD 2 [] ∧ e.owner = owner then "OK".toList
          else "EXISTS ".toList ++ e.key)

/-! ### Reads -/

/-- As many entries as fit in one reply line, and their number. -/
def fillPage (budget : ℕ) (word : Str × NameEntry → Str) :
    Str → ℕ → List (Str × NameEntry) → Str × ℕ
  | text, count, [] => (text, count)
  | text, count, e :: es =>
    if text.length + (word e).length > budget then (text, count)
    else fillPage budget word (text ++ word e) (count + 1) es

/-- One page of names behind `after`, or from the start. -/
def page (ns : Namespace) (verb : Str) (after : Option Str) (word : Str × NameEntry → Str) : Str :=
  let budget := MAX_LINE - verb.length - " 9999".toList.length
  let es := match after with
    | none => ns.entries
    | some name => ns.after name
  let (text, count) := fillPage budget word [] 0 es
  verb ++ " ".toList ++ num count ++ text

/-- The answer to a RESOLVE, LIST or ENTRIES from the state as applied so far. -/
def answerRead (ns : Namespace) : NamesRequest → Str
  | .resolve name =>
    match ns.find? name with
    | none => "MISSING".toList
    | some e => "FILE ".toList ++ e.key
  | .list after => page ns "NAMES".toList after fun e => ' ' :: e.1
  | .entries after => page ns "ENTRIES".toList after fun e => ' ' :: e.1 ++ ' ' :: e.2.key
  | _ => "ERR not a read".toList

end ChordFs
