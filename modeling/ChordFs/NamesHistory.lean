import ChordFs.Commands

/-! # Histories of the namespace

What a sequence of commands makes of the empty namespace.  A command line is read once
(`commandOf`), and what it does to a name is said by the command alone (`rebind`).  Then a name is
bound just as its last change left it (`ownership`), and a registration that is repeated changes
nothing (`retry_harmless`). -/

namespace ChordFs

/-- The namespace after some commands. -/
def runCommands (ns : Namespace) (lines : List Str) : Namespace :=
  lines.foldl (fun ns line => (applyCommand ns line).1) ns

/-- What each of them was answered. -/
def commandAnswers : Namespace → List Str → List Str
  | _, [] => []
  | ns, line :: lines => (applyCommand ns line).2 :: commandAnswers (applyCommand ns line).1 lines

/-! ### One command -/

section one
variable {ns : Namespace} {line name key owner : Str} {e : NameEntry}

/-- A command is a registration of a key under a name, or a deletion that carries a hash. -/
theorem commandOf_cases {c : NameCommand} (h : commandOf line = some c) :
    (∃ name key owner, c = .register name key owner ∧ validName name = true ∧ validKey key = true) ∨
    ∃ name owner, c = .unregister name owner ∧ validKey owner = true := by
  have hguard : ¬ (¬ validCommand line = true ∨ line = NOOP) := by
    intro hguard
    rw [commandOf, if_pos hguard] at h
    cases h
  rw [not_or, not_not] at hguard
  rcases validCommand_cases hguard.1 with hnoop | ⟨name, key, owner, rfl, hn, hk, ho⟩ |
    ⟨name, owner, rfl, hn, ho⟩
  · exact absurd hnoop hguard.2
  · cases h.symm.trans (commandOf_registerCommand hn hk ho)
    exact .inl ⟨_, _, _, rfl, hn, hk⟩
  · cases h.symm.trans (commandOf_unregisterCommand hn ho)
    exact .inr ⟨_, _, rfl, ho⟩

theorem find?_registering (n : Str) : (registering ns name key owner).1.find? n =
    if n = name ∧ ns.find? name = none then some ⟨key, owner⟩ else ns.find? n := by
  unfold registering
  cases hfind : ns.find? name with
  | none =>
    rw [SortedMap.find?_insertNew hfind]
    simp
  | some e => simp

theorem find?_unregistering (n : Str) : (unregistering ns name owner).1.find? n =
    if n = name ∧ ∃ e, ns.find? name = some e ∧ e.owner ≠ [] ∧ e.owner = owner then none
    else ns.find? n := by
  unfold unregistering
  cases hfind : ns.find? name with
  | none => simp
  | some e =>
    dsimp only
    split
    · rename_i hown
      obtain ⟨hne, rfl⟩ := hown
      rw [SortedMap.find?_erase]
      simp [hne]
    · rename_i hown
      simp [hown]

/-- What a name is bound to after one more command, by the command alone: a registration binds it if
it is free, a deletion with the hash of its owner frees it, and no other command does anything to
it. -/
def rebind (name : Str) : Option NameEntry → Option NameCommand → Option NameEntry
  | none, some (.register n key owner) => if n = name then some ⟨key, owner⟩ else none
  | some e, some (.unregister n owner) =>
    if n = name ∧ owner ≠ [] ∧ owner = e.owner then none else some e
  | bound, _ => bound

theorem find?_applyCommand : (applyCommand ns line).1.find? name = rebind name (ns.find? name)
    (commandOf line) := by
  cases hc : commandOf line with
  | none =>
    rw [applyCommand_none hc]
    cases ns.find? name <;> rfl
  | some c =>
    cases c with
    | register n key owner =>
      rw [applyCommand_register hc, find?_registering]
      by_cases hn : n = name
      · subst hn
        cases ns.find? n <;> simp [rebind]
      · rw [if_neg fun h => hn h.1.symm]
        cases ns.find? name <;> simp [rebind, hn]
    | unregister n owner =>
      rw [applyCommand_unregister hc, find?_unregistering]
      by_cases hn : n = name
      · subst hn
        cases ns.find? n with
        | none => simp [rebind]
        | some e =>
          simp only [rebind, true_and, Option.some.injEq, exists_eq_left']
          refine if_congr ⟨fun h => ⟨h.2 ▸ h.1, h.2.symm⟩, fun h => ⟨h.2 ▸ h.1, h.2.symm⟩⟩ rfl rfl
      · rw [if_neg fun h => hn h.1.symm]
        cases ns.find? name <;> simp [rebind, hn]

/-- **The two ways to change a name**: a registration of a free one, a deletion by its owner. -/
theorem rebind_cases {bound : Option NameEntry} {c : Option NameCommand}
    (h : rebind name bound c ≠ bound) :
    (∃ key owner, c = some (.register name key owner) ∧ bound = none ∧
    rebind name bound c = some ⟨key, owner⟩) ∨ ∃ e, c = some (.unregister name e.owner) ∧
    e.owner ≠ [] ∧ bound = some e ∧ rebind name bound c = none := by
  fun_cases rebind name bound c with
  | case1 key owner => exact .inl ⟨key, owner, rfl, rfl, rfl⟩
  | case2 n key owner hn => simp [rebind, hn] at h
  | case3 e n owner hown =>
    obtain ⟨rfl, hne, rfl⟩ := hown
    exact .inr ⟨e, rfl, hne, rfl, rfl⟩
  | case4 e n owner hown => simp [rebind, hown] at h
  | case5 bound c => exact absurd (by simp_all [rebind]) h

/-- What is bound and lost was deleted by its owner. -/
theorem deleted_of_lost (h : ns.find? name = some e)
    (hlost : (applyCommand ns line).1.find? name ≠ some e) :
    e.owner ≠ [] ∧ commandOf line = some (.unregister name e.owner) ∧
      (applyCommand ns line).1.find? name = none := by
  rw [find?_applyCommand, h] at hlost ⊢
  rcases rebind_cases hlost with ⟨_, _, -, hfree, -⟩ | ⟨e', hc, hown, hfind, hafter⟩
  · cases hfree
  · cases hfind
    exact ⟨hown, hc, hafter⟩

end one

/-! ### Whole histories -/

section history
variable {ns : Namespace} {lines pre post : List Str} {line name : Str} {e : NameEntry}

theorem runCommands_append : runCommands ns (pre ++ post) = runCommands (runCommands ns pre) post :=
  List.foldl_append

theorem runCommands_cons : runCommands ns (line :: post) = runCommands
    (applyCommand ns line).1 post := rfl

theorem runCommands_concat : runCommands ns (pre ++ [line]) =
    (applyCommand (runCommands ns pre) line).1 := by
  rw [runCommands_append]
  rfl

/-- What a history of commands, from the empty namespace on, makes of a name. -/
def boundAfter (lines : List Str) (name : Str) : Option NameEntry :=
  lines.foldl (fun bound line => rebind name bound (commandOf line)) none

theorem boundAfter_concat :
    boundAfter (lines ++ [line]) name = rebind name (boundAfter lines name) (commandOf line) := by
  rw [boundAfter, List.foldl_append]
  rfl

theorem find?_runCommands : (runCommands .empty lines).find? name = boundAfter lines name := by
  induction lines using List.reverseRecOn with
  | nil => rfl
  | append_singleton lines last ih => rw [runCommands_concat, find?_applyCommand, ih,
    boundAfter_concat]

/-- After these commands, the next one changes the name. -/
def Changes (pre : List Str) (line name : Str) : Prop :=
  boundAfter (pre ++ [line]) name ≠ boundAfter pre name

/-- The last command of a history that changed the name. -/
def LastChange (lines : List Str) (name line : Str) : Prop :=
  ∃ pre post, lines = pre ++ line :: post ∧ Changes pre line name ∧
    ∀ p l q, post = p ++ l :: q → ¬ Changes (pre ++ line :: p) l name

/-- By the history, the name is bound: its last change was this registration. -/
def BoundBy (lines : List Str) (name : Str) (e : NameEntry) : Prop :=
  ∃ line, commandOf line = some (.register name e.key e.owner) ∧ LastChange lines name line

theorem lastChange_concat {last : Str} : LastChange (lines ++ [last]) name line ↔
    (Changes lines last name ∧ line = last) ∨
    (¬ Changes lines last name ∧ LastChange lines name line) := by
  constructor
  · rintro ⟨pre, post, heq, hchange, hrest⟩
    rcases List.eq_nil_or_concat post with rfl | ⟨post, l, rfl⟩
    · obtain ⟨rfl, hl⟩ := List.append_inj' heq rfl
      cases hl
      exact .inl ⟨hchange, rfl⟩
    · rw [List.concat_eq_append, ← List.cons_append, ← List.append_assoc] at heq
      obtain ⟨rfl, hl⟩ := List.append_inj' heq rfl
      cases hl
      refine .inr ⟨hrest post last [] (List.concat_eq_append ..), pre, post, rfl, hchange, ?_⟩
      intro p l q hp
      exact hrest p l (q ++ [last]) (by simp [hp])
  · rintro (⟨hchange, rfl⟩ | ⟨hno, pre, post, rfl, hchange, hrest⟩)
    · exact ⟨lines, [], rfl, hchange, by simp⟩
    · refine ⟨pre, post ++ [last], by simp, hchange, fun p l q hp => ?_⟩
      rcases List.eq_nil_or_concat q with rfl | ⟨q, l', rfl⟩
      · obtain ⟨rfl, hl⟩ := List.append_inj' hp rfl
        cases hl
        exact hno
      · rw [List.concat_eq_append, ← List.cons_append, ← List.append_assoc] at hp
        exact hrest p l q (List.append_inj' hp rfl).1

/-- **A name is bound as its last change left it.** -/
theorem boundAfter_eq_some : boundAfter lines name = some e ↔ BoundBy lines name e := by
  induction lines using List.reverseRecOn with
  | nil =>
    refine iff_of_false nofun ?_
    rintro ⟨line, -, pre, post, heq, -⟩
    simp at heq
  | append_singleton lines last ih =>
    simp only [BoundBy, lastChange_concat]
    by_cases hchange : Changes lines last name
    · simp only [hchange, true_and, not_true_eq_false, false_and, or_false, exists_eq_right]
      rw [Changes, boundAfter_concat] at hchange
      rw [boundAfter_concat]
      rcases rebind_cases hchange with ⟨key, owner, hc, -, hafter⟩ | ⟨e', hc, -, -, hafter⟩
      · rw [hafter, hc]
        constructor
        · intro h
          cases h
          rfl
        · intro h
          cases h
          rfl
      · rw [hafter, hc]
        simp
    · simp only [hchange, false_and, not_false_eq_true, true_and, false_or]
      rw [not_not.mp hchange]
      exact ih

theorem find?_runCommands_of_ownerless {key : Str} (h : ns.find? name = some ⟨key, []⟩)
    (rest : List Str) : (runCommands ns rest).find? name = some ⟨key, []⟩ := by
  induction rest generalizing ns with
  | nil => exact h
  | cons line rest ih =>
    apply ih
    by_contra hlost
    exact (deleted_of_lost h hlost).1 rfl

end history

/-! ### Answers -/

/-- What a client is told of its command. -/
inductive NameOutcome where
  | ignored
  | ok
  | taken (key : Str)
  | missing
  | denied

def NameOutcome.text : NameOutcome → Str
  | .ignored => []
  | .ok => "OK".toList
  | .taken key => "EXISTS ".toList ++ key
  | .missing => "MISSING".toList
  | .denied => "DENIED".toList

theorem NameOutcome.text_injective : Function.Injective NameOutcome.text := by
  intro a b h
  -- the texts begin with different letters
  have hhead := congrArg List.head? h
  cases a with
  | ignored => cases b <;> first | rfl | cases hhead
  | ok => cases b <;> first | rfl | cases hhead
  | taken key =>
    cases b with
    | taken key' => rw [List.append_cancel_left h]
    | _ => cases hhead
  | missing => cases b <;> first | rfl | cases hhead
  | denied => cases b <;> first | rfl | cases hhead

def outcome (ns : Namespace) : Option NameCommand → NameOutcome
  | none => .ignored
  | some (.register name key owner) =>
    match ns.find? name with
    | none => .ok
    | some e => if e = ⟨key, owner⟩ then .ok else .taken e.key
  | some (.unregister name owner) =>
    match ns.find? name with
    | none => .missing
    | some e => if e.owner = owner then .ok else .denied

section told
variable {ns : Namespace} {line : Str}

theorem answer_eq : (applyCommand ns line).2 = (outcome ns (commandOf line)).text := by
  cases hc : commandOf line with
  | none =>
    rw [applyCommand_none hc]
    rfl
  | some c =>
    cases c with
    | register name key owner =>
      rw [applyCommand_register hc, registering, outcome]
      cases ns.find? name with
      | none => rfl
      | some e =>
        dsimp only
        split <;> rfl
    | unregister name owner =>
      rw [applyCommand_unregister hc, unregistering, outcome]
      obtain ⟨_, _, _, ⟨⟩, -⟩ | ⟨_, _, ⟨⟩, hown⟩ := commandOf_cases hc
      cases ns.find? name with
      | none => rfl
      | some e =>
        dsimp only
        by_cases heq : e.owner = owner
        · rw [if_pos ⟨heq ▸ ne_nil_of_validKey hown, heq⟩, if_pos heq]
          rfl
        · rw [if_neg fun h => heq h.2, if_neg heq]
          rfl

theorem answer_eq_text_iff {o : NameOutcome} :
    (applyCommand ns line).2 = o.text ↔ outcome ns (commandOf line) = o := by
  rw [answer_eq]
  exact NameOutcome.text_injective.eq_iff

theorem exists_eq_entry {e : NameEntry} {owner : Str} :
    (∃ key, e = ⟨key, owner⟩) ↔ e.owner = owner := by
  constructor
  · rintro ⟨key, rfl⟩
    rfl
  · rintro rfl
    exact ⟨e.key, rfl⟩

theorem outcome_ok_iff (c : Option NameCommand) : outcome ns c = .ok ↔
    (∃ name key owner, c = some (.register name key owner) ∧
      (ns.find? name = none ∨ ns.find? name = some ⟨key, owner⟩)) ∨
    ∃ name owner key, c = some (.unregister name owner) ∧ ns.find? name = some ⟨key, owner⟩ := by
  fun_cases outcome ns c <;> simp_all [exists_eq_entry]

theorem outcome_taken_iff (c : Option NameCommand) (k : Str) : outcome ns c = .taken k ↔
    ∃ name key owner e, c = some (.register name key owner) ∧ ns.find? name = some e ∧
    e ≠ ⟨key, owner⟩ ∧
      e.key = k := by
  fun_cases outcome ns c <;> simp_all

theorem outcome_missing_iff (c : Option NameCommand) : outcome ns c = .missing ↔
    ∃ name owner, c = some (.unregister name owner) ∧ ns.find? name = none := by
  fun_cases outcome ns c <;> simp_all

theorem outcome_denied_iff (c : Option NameCommand) : outcome ns c = .denied ↔
    ∃ name owner e, c = some (.unregister name owner) ∧ ns.find? name = some e ∧
    e.owner ≠ owner := by
  fun_cases outcome ns c <;> simp_all

end told

theorem boundAfter_eq_none {lines : List Str} {name : Str} :
    boundAfter lines name = none ↔ ∀ e, ¬ BoundBy lines name e := by
  rw [Option.eq_none_iff_forall_ne_some]
  exact forall_congr' fun e => not_congr boundAfter_eq_some

/-- **Ownership of names.**  After any commands, a name is bound just as the last command that
changed it registered it, where the commands alone say what changes a name.  One more command binds
a free name that it registers, frees a name that it deletes with the hash of its owner, and unbinds
no other, so that a name without an owner stays; and the answer to it is decided by that history. -/
theorem ownership (lines : List Str) :
    (∀ name e, (runCommands .empty lines).find? name = some e ↔ BoundBy lines name e) ∧
    (∀ name key, (runCommands .empty lines).find? name = some ⟨key, []⟩ →
      ∀ rest, (runCommands .empty (lines ++ rest)).find? name = some ⟨key, []⟩) ∧
    ∀ line,
      (∀ name key owner, commandOf line = some (.register name key owner) →
        (∀ e, ¬ BoundBy lines name e) →
        (runCommands .empty (lines ++ [line])).find? name = some ⟨key, owner⟩) ∧
      (∀ name e, commandOf line = some (.unregister name e.owner) → BoundBy lines name e →
        (runCommands .empty (lines ++ [line])).find? name = none) ∧
      (∀ name e, (runCommands .empty lines).find? name = some e →
        (runCommands .empty (lines ++ [line])).find? name ≠ some e →
        e.owner ≠ [] ∧ commandOf line = some (.unregister name e.owner) ∧
          (runCommands .empty (lines ++ [line])).find? name = none) ∧
      let answer := (applyCommand (runCommands .empty lines) line).2
      (answer = "OK".toList ↔
        (∃ name key owner, commandOf line = some (.register name key owner) ∧
          ((∀ e, ¬ BoundBy lines name e) ∨ BoundBy lines name ⟨key, owner⟩)) ∨
        ∃ name owner key, commandOf line = some (.unregister name owner) ∧
          BoundBy lines name ⟨key, owner⟩) ∧
      (∀ k, answer = "EXISTS ".toList ++ k ↔
        ∃ name key owner e, commandOf line = some (.register name key owner) ∧
          BoundBy lines name e ∧ e ≠ ⟨key, owner⟩ ∧ e.key = k) ∧
      (answer = "MISSING".toList ↔
        ∃ name owner, commandOf line = some (.unregister name owner) ∧
          ∀ e, ¬ BoundBy lines name e) ∧
      (answer = "DENIED".toList ↔
        ∃ name owner e, commandOf line = some (.unregister name owner) ∧ BoundBy lines name e ∧
          e.owner ≠ owner) := by
  refine ⟨fun name e => ?_, fun name key h rest => ?_, fun line => ⟨?_, ?_, ?_, ?_⟩⟩
  · rw [find?_runCommands, boundAfter_eq_some]
  · rw [runCommands_append]
    exact find?_runCommands_of_ownerless h rest
  · intro name key owner hc hfree
    rw [find?_runCommands, boundAfter_concat, boundAfter_eq_none.mpr hfree, hc, rebind, if_pos rfl]
  · intro name e hc hbound
    obtain ⟨_, _, _, ⟨⟩, -⟩ | ⟨_, _, ⟨⟩, hown⟩ := commandOf_cases hc
    rw [find?_runCommands, boundAfter_concat, boundAfter_eq_some.mpr hbound, hc, rebind,
      if_pos ⟨rfl, ne_nil_of_validKey hown, rfl⟩]
  · intro name e hbound hlost
    rw [runCommands_concat] at hlost ⊢
    exact deleted_of_lost hbound hlost
  · simp only [← boundAfter_eq_none]
    simp only [← boundAfter_eq_some, ← find?_runCommands]
    refine ⟨?_, fun k => ?_, ?_, ?_⟩
    · exact (answer_eq_text_iff (o := .ok)).trans (outcome_ok_iff _)
    · exact (answer_eq_text_iff (o := .taken k)).trans (outcome_taken_iff _ k)
    · exact (answer_eq_text_iff (o := .missing)).trans (outcome_missing_iff _)
    · exact (answer_eq_text_iff (o := .denied)).trans (outcome_denied_iff _)

/-! ### Retries -/

section retry
variable {ns : Namespace} {pre post mid : List Str} {line name : Str}

theorem commandAnswers_append : commandAnswers ns (pre ++ post) = commandAnswers ns pre ++
    commandAnswers (runCommands ns pre) post := by
  induction pre generalizing ns with
  | nil => rfl
  | cons line pre ih =>
    rw [List.cons_append, commandAnswers, commandAnswers, ih, List.cons_append]
    rfl

theorem length_commandAnswers : (commandAnswers ns pre).length = pre.length := by
  induction pre generalizing ns with
  | nil => rfl
  | cons line pre ih => rw [commandAnswers, List.length_cons, List.length_cons, ih]

/-- After a registration it is bound, and the answer to it again is the same, with nothing
changed. -/
theorem registering_again (ns : Namespace) (name key owner : Str) :
    ∃ e, (registering ns name key owner).1.find? name = some e ∧
    ∀ ns' : Namespace, ns'.find? name = some e →
      registering ns' name key owner = (ns', (registering ns name key owner).2) := by
  cases hf : ns.find? name with
  | none =>
    refine ⟨⟨key, owner⟩, by simp [find?_registering, hf], fun ns' h => ?_⟩
    rw [registering, registering, h, hf]
    dsimp only
    rw [if_pos rfl]
  | some e =>
    refine ⟨e, by simp [find?_registering, hf], fun ns' h => ?_⟩
    rw [registering, registering, h, hf]

theorem find?_runCommands_kept {e : NameEntry} (h : ns.find? name = some e)
    (hmid : ∀ p l q, mid = p ++ l :: q → ∀ owner, commandOf l = some (.unregister name owner) →
      (applyCommand (runCommands ns p) l).2 ≠ "OK".toList) :
    (runCommands ns mid).find? name = some e := by
  induction mid generalizing ns with
  | nil => exact h
  | cons line mid ih =>
    refine ih ?_ fun p l q hq owner hc => hmid (line :: p) l q (by rw [hq]; rfl) owner hc
    by_contra hlost
    obtain ⟨-, hc, -⟩ := deleted_of_lost h hlost
    refine hmid [] line mid rfl e.owner hc ?_
    exact (answer_eq_text_iff (o := .ok)).mpr
      ((outcome_ok_iff _).mpr (.inr ⟨name, e.owner, e.key, hc, h⟩))

theorem commandOf_of_register (h : (splitSingleSpaces line).head? = some "REGISTER".toList) :
    commandOf line = none ∨ ∃ name key owner, commandOf line = some (.register name key owner) := by
  unfold commandOf
  split
  · exact .inl rfl
  · have hverb : (splitSingleSpaces line).getD 0 [] ≠ "UNREGISTER".toList := by
      rw [List.getD_eq_getElem?_getD, ← List.head?_eq_getElem?, h]
      decide
    rw [if_neg hverb]
    exact .inr ⟨_, _, _, rfl⟩

theorem applyCommand_copy (ns : Namespace)
    (hregister : (splitSingleSpaces line).head? = some "REGISTER".toList)
    (hmid : ∀ name key owner, commandOf line = some (.register name key owner) →
      ∀ p l q, mid = p ++ l :: q → ∀ o, commandOf l = some (.unregister name o) →
      (applyCommand (runCommands ns (line :: p)) l).2 ≠ "OK".toList) :
    applyCommand (runCommands ns (line :: mid)) line =
      (runCommands ns (line :: mid), (applyCommand ns line).2) := by
  rcases commandOf_of_register hregister with hc | ⟨name, key, owner, hc⟩
  · rw [applyCommand_none hc, applyCommand_none hc]
  · obtain ⟨e, hbound, hagain⟩ := registering_again ns name key owner
    rw [applyCommand_register hc, applyCommand_register hc]
    apply hagain
    rw [runCommands_cons, applyCommand_register hc]
    refine find?_runCommands_kept hbound fun p l q hq o hl => ?_
    have hdenied := hmid name key owner hc p l q hq o hl
    rwa [runCommands_cons, applyCommand_register hc] at hdenied

/-- **A repeated registration is harmless.**  A second copy of a REGISTER, later in the log and with
no successful deletion of its name in between, is answered as the first one was; the namespace in
the end and all other answers are those of the log without it. -/
theorem retry_harmless (pre mid post : List Str) (line : Str)
    (hregister : (splitSingleSpaces line).head? = some "REGISTER".toList)
    (hmid : ∀ name key owner, commandOf line = some (.register name key owner) →
      ∀ p l q, mid = p ++ l :: q → ∀ o, commandOf l = some (.unregister name o) →
      (applyCommand (runCommands .empty (pre ++ line :: p)) l).2 ≠ "OK".toList) :
    runCommands .empty (pre ++ line :: mid ++ line :: post) =
      runCommands .empty (pre ++ line :: mid ++ post) ∧
    ∃ before again after, commandAnswers .empty (pre ++ line :: mid ++ post) = before ++ after ∧
      commandAnswers .empty (pre ++ line :: mid ++ line :: post) = before ++ again :: after ∧
      before.length = pre.length + 1 + mid.length ∧ before[pre.length]? = some again := by
  have hcopy := applyCommand_copy (runCommands .empty pre) hregister
    fun name key owner hc p l q hq o hl => by
    have hdenied := hmid name key owner hc p l q hq o hl
    rwa [runCommands_append] at hdenied
  rw [← runCommands_append] at hcopy
  constructor
  · calc runCommands .empty (pre ++ line :: mid ++ line :: post)
        = runCommands (applyCommand (runCommands .empty (pre ++ line :: mid)) line).1 post := by
          rw [runCommands_append, runCommands_cons]
      _ = runCommands .empty (pre ++ line :: mid ++ post) := by rw [hcopy, ← runCommands_append]
  · refine ⟨commandAnswers .empty (pre ++ line :: mid),
      (applyCommand (runCommands .empty pre) line).2,
        commandAnswers (runCommands .empty (pre ++ line :: mid)) post, commandAnswers_append, ?_,
        ?_, ?_⟩
    · rw [commandAnswers_append, commandAnswers, hcopy]
    · rw [length_commandAnswers, List.length_append, List.length_cons]
      omega
    · have hlen : (commandAnswers .empty pre).length = pre.length := length_commandAnswers
      rw [commandAnswers_append, commandAnswers, List.getElem?_append_right (by omega),
        hlen, Nat.sub_self]
      rfl

/-- A registration of a name with an owner. -/
def ownedLine : Str := registerCommand "f".toList (List.replicate 40 'a') (List.replicate 40 'b')

/-- Somebody else's attempt to delete it. -/
def deniedLine : Str := unregisterCommand "f".toList (List.replicate 40 'c')

/-- The retry after a deletion that was denied, with the deletion by the owner to follow. -/
theorem retry_harmless_denied : let removed := unregisterCommand "f".toList (List.replicate 40 'b')
    runCommands .empty [ownedLine, deniedLine, ownedLine, removed] =
      runCommands .empty [ownedLine, deniedLine, removed] ∧
    ∃ before again after, commandAnswers .empty [ownedLine, deniedLine, removed] = before ++ after ∧
      commandAnswers .empty [ownedLine, deniedLine, ownedLine, removed] = before ++ again :: after ∧
      before.length = 2 ∧ before[0]? = some again := by
  have hdenied : (applyCommand (runCommands .empty [ownedLine]) deniedLine).2 ≠ "OK".toList := by
    decide +kernel
  refine retry_harmless [] [deniedLine] [_] ownedLine (by decide +kernel) ?_
  intro name key owner _ p l q hq o _
  obtain ⟨rfl, hcons⟩ : p = [] ∧ [deniedLine] = l :: q := by
    cases p with
    | nil => exact ⟨rfl, hq⟩
    | cons x p => simp at hq
  cases hcons
  exact hdenied

end retry

end ChordFs
