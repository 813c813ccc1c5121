import ChordFs.Collect
import ChordFs.Lib.Cursor
import ChordFs.NamesHistory
import Mathlib.Data.Set.Finite.List

/-! # Listing the names

LIST and ENTRIES answer one page of the namespace, as much as fits in a line.  A page is the
beginning of what lies behind the cursor and is read back as it was written (`entriesPage_eq`,
`namesPage_eq`), so a client that follows the cursor lists a namespace that changes under it exactly
(`paging_exact`). -/

namespace ChordFs

open Cursor Collect

/-- Names and keys are what a REGISTER lets through. -/
structure Namespace.Valid (ns : Namespace) : Prop where
  name : ∀ e ∈ ns.entries, validName e.1 = true
  key : ∀ e ∈ ns.entries, validKey e.2.key = true

/-! ### Every command keeps the namespace valid -/

section valid
variable {ns : Namespace}

theorem Namespace.Valid.mono {ns' : Namespace} (h : ns.Valid) (hsub : ns'.entries ⊆ ns.entries) :
    ns'.Valid :=
  ⟨fun e he => h.name e (hsub he), fun e he => h.key e (hsub he)⟩

theorem valid_empty : Namespace.Valid .empty :=
    ⟨by simp [SortedMap.empty], by simp [SortedMap.empty]⟩

theorem valid_insertNew (h : ns.Valid) {name : Str} {e : NameEntry} (hn : validName name = true)
    (hk : validKey e.key = true) : Namespace.Valid (ns.insertNew name e) := by
  constructor
  · intro e' he'
    rcases SortedMap.mem_insertEntry he' with rfl | he'
    · exact hn
    · exact h.name e' he'
  · intro e' he'
    rcases SortedMap.mem_insertEntry he' with rfl | he'
    · exact hk
    · exact h.key e' he'

theorem valid_applyCommand (h : ns.Valid) (line : Str) :
    Namespace.Valid (applyCommand ns line).1 := by
  cases hc : commandOf line with
  | none =>
    rw [applyCommand_none hc]
    exact h
  | some c =>
    cases c with
    | register name key owner =>
      obtain ⟨_, _, _, ⟨⟩, hn, hk⟩ | ⟨_, _, ⟨⟩, -⟩ := commandOf_cases hc
      rw [applyCommand_register hc, registering]
      split
      · exact valid_insertNew h hn hk
      · exact h
    | unregister name owner =>
      rw [applyCommand_unregister hc, unregistering]
      split
      · exact h
      · split
        · exact h.mono (List.filter_subset_self ..)
        · exact h

/-- **Every namespace that commands build is valid.** -/
theorem valid_runCommands (lines : List Str) : Namespace.Valid (runCommands .empty lines) := by
  induction lines using List.reverseRecOn with
  | nil => exact valid_empty
  | append_singleton lines line ih =>
    rw [runCommands_concat]
    exact valid_applyCommand ih line

/-- There are finitely many texts of ASCII characters up to a length. -/
theorem exists_all_texts (n : ℕ) :
    ∃ texts : Finset Str, ∀ t : Str, t.length ≤ n → (∀ c ∈ t, c.toNat < 127) → t ∈ texts := by
  have hfinite : ((List.map fun i : Fin 127 => Char.ofNat i) '' {l | l.length ≤ n}).Finite :=
    (List.finite_length_le (Fin 127) n).image _
  refine ⟨hfinite.toFinset, fun t hlen hcodes => ?_⟩
  rw [Set.Finite.mem_toFinset]
  refine ⟨t.map fun c => Fin.ofNat 127 c.toNat, ?_, ?_⟩
  · rwa [Set.mem_ofPred_eq, List.length_map]
  · rw [List.map_map]
    refine (List.map_congr_left fun c hc => ?_).trans (List.map_id t)
    simp [Nat.mod_eq_of_lt (hcodes c hc)]

theorem exists_all_names : ∃ names : Finset Str, ∀ name, validName name = true → name ∈ names := by
  obtain ⟨texts, htexts⟩ := exists_all_texts 200
  refine ⟨texts, fun name hname => htexts name (length_of_validName hname) fun c hc => ?_⟩
  have hle := (validName_char hname hc).2
  omega

end valid

/-! ### What fits in a line -/

/-- The entries a page has room for. -/
def fitting (budget : ℕ) (word : Str × NameEntry → Str) :
    ℕ → List (Str × NameEntry) → List (Str × NameEntry)
  | _, [] => []
  | used, e :: es =>
    if used + (word e).length > budget then []
      else e :: fitting budget word (used + (word e).length) es

section fitting
variable {budget : ℕ} {word : Str × NameEntry → Str} {used : ℕ} {es : List (Str × NameEntry)}

theorem fillPage_eq (text : Str) (count : ℕ) : fillPage budget word text count es =
    (text ++ (fitting budget word text.length es).flatMap word,
      count + (fitting budget word text.length es).length) := by
  induction es generalizing text count with
  | nil => simp [fillPage, fitting]
  | cons e es ih =>
    rw [fillPage, fitting]
    split
    · simp
    · rw [ih, List.length_append]
      simp only [List.flatMap_cons, List.length_cons, List.append_assoc, Prod.mk.injEq, true_and]
      omega

theorem isPrefix_fitting : fitting budget word used es <+: es := by
  induction es generalizing used with
  | nil => exact List.prefix_rfl
  | cons e es ih =>
    rw [fitting]
    split
    · exact List.nil_prefix
    · exact List.cons_prefix_cons.mpr ⟨rfl, ih⟩

theorem length_flatMap_fitting (h : used ≤ budget) :
    used + ((fitting budget word used es).flatMap word).length ≤ budget := by
  induction es generalizing used with
  | nil => simpa [fitting] using h
  | cons e es ih =>
    rw [fitting]
    split
    · simpa using h
    · rename_i hfits
      have hrest := @ih (used + (word e).length) (by omega)
      rw [List.flatMap_cons, List.length_append]
      omega

theorem fitting_eq_nil (hroom : ∀ e ∈ es, (word e).length ≤ budget)
    (h : fitting budget word 0 es = []) : es = [] := by
  cases es with
  | nil => rfl
  | cons e es =>
    have := hroom e List.mem_cons_self
    rw [fitting, if_neg (by omega)] at h
    cases h

theorem two_mul_length_le (h : ∀ e ∈ es, 2 ≤ (word e).length) :
    2 * es.length ≤ (es.flatMap word).length := by
  induction es with
  | nil => simp
  | cons e es ih =>
    rw [List.forall_mem_cons] at h
    have := ih h.2
    rw [List.flatMap_cons, List.length_append, List.length_cons]
    omega

end fitting

/-! ### A page -/

/-- What a page shows of the entries behind the cursor. -/
def shownEntries (ns : Namespace) (verb : Str) (after : Option Str) (word : Str × NameEntry → Str) :
    List (Str × NameEntry) :=
  fitting (MAX_LINE - verb.length - " 9999".toList.length) word 0 (behind Prod.fst after ns.entries)

def nameWord (e : Str × NameEntry) : Str := ' ' :: e.1

def entryWord (e : Str × NameEntry) : Str := ' ' :: e.1 ++ ' ' :: e.2.key

theorem answerRead_list (ns : Namespace) (after : Option Str) :
    answerRead ns (.list after) = page ns "NAMES".toList after nameWord := rfl

theorem answerRead_entries (ns : Namespace) (after : Option Str) :
    answerRead ns (.entries after) = page ns "ENTRIES".toList after entryWord := rfl

section page
variable {ns : Namespace} {verb : Str} {after : Option Str} {word : Str × NameEntry → Str}

theorem page_eq : page ns verb after word =
    verb ++ " ".toList ++ num (shownEntries ns verb after word).length ++
      (shownEntries ns verb after word).flatMap word := by
  have hfill : page ns verb after word =
      let filled := fillPage (MAX_LINE - verb.length - " 9999".toList.length) word [] 0
        (behind Prod.fst after ns.entries)
      verb ++ " ".toList ++ num filled.2 ++ filled.1 := by
    cases after <;> rfl
  rw [hfill, fillPage_eq]
  dsimp only
  rw [List.nil_append, Nat.zero_add]
  rfl

theorem isPrefix_shownEntries :
    shownEntries ns verb after word <+: behind Prod.fst after ns.entries := isPrefix_fitting

theorem mem_of_shownEntries {e : Str × NameEntry} (he : e ∈ shownEntries ns verb after word) :
    e ∈ ns.entries :=
  ((mem_behind ns.sorted).mp (isPrefix_shownEntries.subset he)).1

/-- What a page shows fits in it, and an entry takes at least two characters. -/
theorem length_shownEntries (hword : ∀ e ∈ ns.entries, 2 ≤ (word e).length) :
    ((shownEntries ns verb after word).flatMap word).length ≤
        MAX_LINE - verb.length - " 9999".toList.length ∧
      2 * (shownEntries ns verb after word).length ≤
        ((shownEntries ns verb after word).flatMap word).length := by
  have htext : 0 + ((shownEntries ns verb after word).flatMap word).length ≤ _ :=
    length_flatMap_fitting (Nat.zero_le (MAX_LINE - verb.length - " 9999".toList.length))
  rw [Nat.zero_add] at htext
  exact ⟨htext, two_mul_length_le fun e he => hword e (mem_of_shownEntries he)⟩

/-- **A page fits in a line**: with words of two characters or more its count has at most four
digits. -/
theorem length_page (hverb : verb.length ≤ 7) (hword : ∀ e ∈ ns.entries, 2 ≤ (word e).length) :
    (page ns verb after word).length ≤ MAX_LINE := by
  obtain ⟨htext, hcount⟩ := @length_shownEntries ns verb after word hword
  have hline : MAX_LINE = 1024 := rfl
  have hdigits : " 9999".toList.length = 5 := rfl
  have hnum : (num (shownEntries ns verb after word).length).length ≤ 4 :=
    (Nat.length_toDigits_le_iff (by decide) (by decide)).mpr (by omega)
  rw [page_eq]
  simp only [List.length_append, hline, hdigits] at htext ⊢
  have : " ".toList.length = 1 := rfl
  omega

/-- **A page is empty only at the end.** -/
theorem shownEntries_eq_nil
    (hroom : ∀ e ∈ ns.entries, (word e).length ≤ MAX_LINE - verb.length - " 9999".toList.length)
    (h : shownEntries ns verb after word = []) : behind Prod.fst after ns.entries = [] :=
  fitting_eq_nil (fun e he => hroom e ((mem_behind ns.sorted).mp he).1) h

end page

/-! ### Reading it back -/

section read
variable {ns : Namespace} {after : Option Str}

theorem splitSingleSpaces_page {verb : Str} {word : Str × NameEntry → Str}
    {f : Str × NameEntry → List Str} (hverb : ' ' ∉ verb)
    (hword : ∀ e, word e = (f e).flatMap (' ' :: ·)) (hf : ∀ e ∈ ns.entries, ∀ w ∈ f e, ' ' ∉ w) :
    splitSingleSpaces (page ns verb after word) =
      verb :: num (shownEntries ns verb after word).length ::
        (shownEntries ns verb after word).flatMap f := by
  have hwords : page ns verb after word =
      words (verb :: num (shownEntries ns verb after word).length ::
      (shownEntries ns verb after word).flatMap f) := by
    rw [page_eq, words_cons, List.flatMap_cons, List.flatMap_assoc, ← funext hword,
      List.append_assoc, List.append_assoc]
    rfl
  rw [hwords]
  refine splitSingleSpaces_words ?_ (by simp)
  intro w hw
  rcases List.mem_cons.mp hw with rfl | hw
  · exact hverb
  rcases List.mem_cons.mp hw with rfl | hw
  · exact space_not_mem_num _
  obtain ⟨e, he, hwe⟩ := List.mem_flatMap.mp hw
  exact hf e (mem_of_shownEntries he) w hwe

theorem parsePairs_flatMap {es : List (Str × NameEntry)} (hn : ∀ e ∈ es, validName e.1 = true)
    (hk : ∀ e ∈ es, validKey e.2.key = true) :
    parsePairs (es.flatMap fun e => [e.1, e.2.key]) = some (es.map fun e => (e.1, e.2.key)) := by
  induction es with
  | nil => rfl
  | cons e es ih =>
    rw [List.forall_mem_cons] at hn hk
    rw [List.flatMap_cons, List.cons_append, List.singleton_append, parsePairs, ih hn.2 hk.2,
      if_neg (by simp [hn.1, hk.1])]
    rfl

/-- What LIST prints of a reply: `ls` reads the tag, the number and that many names. -/
def parseNamesReply (reply : Str) : Option (List Str) :=
  match splitSingleSpaces reply with
  | tag :: count :: rest =>
    if tag ≠ "NAMES".toList then none else (parseU64 count).map fun n => rest.take n
  | _ => none

/-- The entries of a page as ENTRIES shows them. -/
def bindings (es : List (Str × NameEntry)) : List (Str × Str) := es.map fun e => (e.1, e.2.key)

/-- The entries an ENTRIES page is built from. -/
def shownByEntries (ns : Namespace) (after : Option Str) : List (Str × NameEntry) :=
  shownEntries ns "ENTRIES".toList after entryWord

/-- The entries a LIST page is built from. -/
def shownByList (ns : Namespace) (after : Option Str) : List (Str × NameEntry) :=
  shownEntries ns "NAMES".toList after nameWord

theorem length_lt_of_shown {verb : Str} {word : Str × NameEntry → Str}
    (hword : ∀ e ∈ ns.entries, 2 ≤ (word e).length) :
    (shownEntries ns verb after word).length < 10 ^ 18 := by
  obtain ⟨htext, hcount⟩ := @length_shownEntries ns verb after word hword
  have hline : MAX_LINE = 1024 := rfl
  omega

namespace Namespace.Valid
variable (h : ns.Valid)
include h

theorem two_le_nameWord : ∀ e ∈ ns.entries, 2 ≤ (nameWord e).length := by
  intro e he
  have hne : e.1 ≠ [] := by
    intro hnil
    have hname := h.name e he
    rw [hnil] at hname
    cases hname
  have := List.length_pos_of_ne_nil hne
  rw [nameWord, List.length_cons]
  omega

theorem two_le_entryWord : ∀ e ∈ ns.entries, 2 ≤ (entryWord e).length := by
  intro e he
  have := length_of_validKey (h.key e he)
  rw [entryWord, List.length_append, List.length_cons, List.length_cons]
  omega

theorem length_entryWord_le : ∀ e ∈ ns.entries, (entryWord e).length ≤ 242 := by
  intro e he
  have := length_of_validKey (h.key e he)
  have := length_of_validName (h.name e he)
  rw [entryWord, List.length_append, List.length_cons, List.length_cons]
  omega

theorem length_nameWord_le : ∀ e ∈ ns.entries, (nameWord e).length ≤ 201 := by
  intro e he
  have := length_of_validName (h.name e he)
  rw [nameWord, List.length_cons]
  omega

/-- **An ENTRIES page is read back as what it was built from.** -/
theorem parseEntriesReply_page :
    parseEntriesReply (answerRead ns (.entries after)) =
      some (bindings (shownByEntries ns after)) := by
  rw [answerRead_entries]
  have hmem : ∀ e ∈ shownByEntries ns after, e ∈ ns.entries := fun e he => mem_of_shownEntries he
  have hsplit : splitSingleSpaces (page ns "ENTRIES".toList after entryWord) =
      "ENTRIES".toList :: num (shownByEntries ns after).length ::
        (shownByEntries ns after).flatMap fun e => [e.1, e.2.key] := by
    refine splitSingleSpaces_page (by decide) (fun e => by simp [entryWord]) fun e he w hw => ?_
    simp only [List.mem_cons, List.not_mem_nil, or_false] at hw
    rcases hw with rfl | rfl
    · exact space_not_mem_of_validName (h.name e he)
    · exact space_not_mem_of_validKey (h.key e he)
  have hlength : ((shownByEntries ns after).flatMap fun e => [e.1, e.2.key]).length =
      2 * (shownByEntries ns after).length := by
    simp [List.length_flatMap, Nat.mul_comm]
  have hcount : Collect.parseCount (num (shownByEntries ns after).length) =
      some (shownByEntries ns after).length := parseU64_num (length_lt_of_shown h.two_le_entryWord)
  rw [parseEntriesReply, hsplit]
  dsimp only
  rw [if_neg (not_not.mpr rfl), hcount]
  dsimp only
  rw [if_neg (not_not.mpr hlength)]
  exact parsePairs_flatMap (fun e he => h.name e (hmem e he)) fun e he => h.key e (hmem e he)

/-- **A LIST page is read back as the names it was built from.** -/
theorem parseNamesReply_page :
    parseNamesReply (answerRead ns (.list after)) = some ((shownByList ns after).map Prod.fst) := by
  rw [answerRead_list]
  have hsplit : splitSingleSpaces (page ns "NAMES".toList after nameWord) =
      "NAMES".toList :: num (shownByList ns after).length :: (shownByList ns after).flatMap
        fun e => [e.1] := by
    refine splitSingleSpaces_page (by decide) (fun e => by simp [nameWord]) fun e he w hw => ?_
    rw [List.mem_singleton.mp hw]
    exact space_not_mem_of_validName (h.name e he)
  have hcount : parseU64 (num (shownByList ns after).length) = some (shownByList ns after).length :=
    parseU64_num (length_lt_of_shown h.two_le_nameWord)
  rw [parseNamesReply, hsplit]
  dsimp only
  rw [if_neg (not_not.mpr rfl), hcount, Option.map_some]
  have hnames : ((shownByList ns after).flatMap fun e => [e.1]) =
      (shownByList ns after).map Prod.fst :=
    List.flatMap_pure_eq_map ..
  rw [hnames, List.take_of_length_le (le_of_eq (List.length_map _))]

end Namespace.Valid

end read

/-! ### Following the cursor -/

/-- The request for the page behind `after`, from the start if it is empty. -/
def pageRequest (verb after : Str) : Str := if after = [] then verb else verb ++ " ".toList ++ after

/-- The page of entries a client reads from the state its `i`-th request meets. -/
def fetchEntries (ns : ℕ → Namespace) (i : ℕ) (after : Option Str) : Option (List (Str × Str)) :=
  parseEntriesReply
    (answerRead (ns i) (parseNamesRequest (pageRequest "ENTRIES".toList (after.getD []))))

/-- The page of names. -/
def fetchNames (ns : ℕ → Namespace) (i : ℕ) (after : Option Str) : Option (List Str) :=
  parseNamesReply
    (answerRead (ns i) (parseNamesRequest (pageRequest "LIST".toList (after.getD []))))

section follow
variable {ns : Namespace} {after : Option Str} {name : Str}

theorem ne_nil_of_validName (h : validName name = true) : name ≠ [] := by
  rintro rfl
  cases h

theorem splitSingleSpaces_pageRequest {verb : Str} (hverb : ' ' ∉ verb)
    (h : validName name = true) : splitSingleSpaces (pageRequest verb name) = [verb, name] := by
  have hwords : pageRequest verb name = words [verb, name] := by
    rw [pageRequest, if_neg (ne_nil_of_validName h), words_cons_cons, words_singleton,
      List.append_assoc]
    rfl
  rw [hwords]
  refine splitSingleSpaces_words ?_ (by simp)
  simp [hverb, space_not_mem_of_validName h]

theorem parsePage_name {verb : Str} {kind : Option Str → NamesRequest} (usage : Str)
    (h : validName name = true) : parsePage [verb, name] kind usage = kind (some name) := by
  simp [parsePage, h]

theorem pageRequest_ne_nil {verb : Str} (hverb : ' ' ∉ verb) (h : validName name = true) :
    pageRequest verb name ≠ [] := by
  intro hnil
  have hsplit := splitSingleSpaces_pageRequest hverb h
  rw [hnil] at hsplit
  cases hsplit

theorem parseNamesRequest_entries (h : ∀ a ∈ after, validName a = true) :
    parseNamesRequest (pageRequest "ENTRIES".toList (after.getD [])) = .entries after := by
  cases after with
  | none => decide
  | some a =>
    rw [Option.getD_some, parseNamesRequest, if_neg (pageRequest_ne_nil (by decide) (h a rfl)),
      splitSingleSpaces_pageRequest (by decide) (h a rfl)]
    exact parsePage_name "ERR usage: ENTRIES [<after>]".toList (h a rfl)

theorem parseNamesRequest_list (h : ∀ a ∈ after, validName a = true) :
    parseNamesRequest (pageRequest "LIST".toList (after.getD [])) = .list after := by
  cases after with
  | none => decide
  | some a =>
    rw [Option.getD_some, parseNamesRequest, if_neg (pageRequest_ne_nil (by decide) (h a rfl)),
      splitSingleSpaces_pageRequest (by decide) (h a rfl)]
    exact parsePage_name "ERR usage: LIST [<after>]".toList (h a rfl)

end follow

section serves
variable {ns : ℕ → Namespace} (hns : ∀ i, (ns i).Valid)
include hns

variable {after : Option Str}

theorem fetchEntries_eq (i : ℕ) (h : ∀ a ∈ after, validName a = true) :
    fetchEntries ns i after = some (bindings (shownByEntries (ns i) after)) := by
  rw [fetchEntries, parseNamesRequest_entries h]
  exact (hns i).parseEntriesReply_page

theorem fetchNames_eq (i : ℕ) (h : ∀ a ∈ after, validName a = true) :
    fetchNames ns i after = some ((shownByList (ns i) after).map Prod.fst) := by
  rw [fetchNames, parseNamesRequest_list h]
  exact (hns i).parseNamesReply_page

theorem behind_eq_nil_of_shownByEntries (i : ℕ) (h : shownByEntries (ns i) after = []) :
    behind Prod.fst after (ns i).entries = [] := by
  refine shownEntries_eq_nil (fun e he => le_trans ((hns i).length_entryWord_le e he) ?_) h
  decide

theorem behind_eq_nil_of_shownByList (i : ℕ) (h : shownByList (ns i) after = []) :
    behind Prod.fst after (ns i).entries = [] := by
  refine shownEntries_eq_nil (fun e he => le_trans ((hns i).length_nameWord_le e he) ?_) h
  decide

theorem serves_entries : Serves Prod.fst (fun name => validName name = true)
    (fun i => bindings (ns i).entries) (fetchEntries ns) where
  sorted i := List.pairwise_map.mpr (ns i).sorted
  keys_known i e he := by
    obtain ⟨e', he', rfl⟩ := List.mem_map.mp he
    exact (hns i).name e' he'
  page i after h := by
    refine ⟨_, fetchEntries_eq hns i h, ?_⟩
    rw [bindings, bindings, behind_map]
    constructor
    · exact List.IsPrefix.map _ isPrefix_shownEntries
    · intro hnil
      rw [List.map_eq_nil_iff] at hnil ⊢
      exact behind_eq_nil_of_shownByEntries hns i hnil

theorem serves_names : Serves id (fun name => validName name = true) (fun i => (ns i).keys)
    (fetchNames ns) where
  sorted i := List.pairwise_map.mpr (ns i).sorted
  keys_known i e he := by
    obtain ⟨e', he', rfl⟩ := List.mem_map.mp he
    exact (hns i).name e' he'
  page i after h := by
    refine ⟨_, fetchNames_eq hns i h, ?_⟩
    rw [SortedMap.keys, behind_map]
    constructor
    · exact List.IsPrefix.map _ isPrefix_shownEntries
    · intro hnil
      rw [List.map_eq_nil_iff] at hnil ⊢
      exact behind_eq_nil_of_shownByList hns i hnil

end serves

/-- The entries of a page: a beginning of what lies behind the cursor, all of it if there is
none. -/
structure PageOf (ns : Namespace) (after : Option Str) (es : List (Str × NameEntry)) : Prop where
  beginning : es <+: behind Prod.fst after ns.entries
  ended : es = [] → ∀ e ∈ ns.entries, ∃ a ∈ after, e.1 ≤ a

theorem pageOf_shownEntries {ns : Namespace} {verb : Str} {after : Option Str}
    {word : Str × NameEntry → Str}
    (h : shownEntries ns verb after word = [] → behind Prod.fst after ns.entries = []) :
    PageOf ns after (shownEntries ns verb after word) := by
  refine ⟨isPrefix_shownEntries, fun hnil e he => ?_⟩
  by_contra hno
  have hmem : e ∈ behind Prod.fst after ns.entries :=
    (mem_behind ns.sorted).mpr ⟨he, fun a ha => not_le.mp fun hle => hno ⟨a, ha, hle⟩⟩
  rw [h hnil] at hmem
  cases hmem

/-- **Paging is exact under change.**  Whatever namespace each request meets, following the cursor
of LIST or ENTRIES from the start comes to an empty page, and what it listed is in order, has every
name that was there all the time once, and each key as it was in the namespace its page was read
from.  A page fits in a line, is empty only if nothing lies behind the cursor, and is read back as
what it was built from. -/
theorem paging_exact (ns : ℕ → Namespace) (hns : ∀ i, (ns i).Valid) :
    (∃ pages rounds,
      (∀ more, rounds ≤ more → follow Prod.fst (fetchEntries ns) more 0 none = some pages) ∧
      Exact Prod.fst (fun i => bindings (ns i).entries) pages) ∧
    (∃ pages rounds, (∀ more, rounds ≤ more → follow id (fetchNames ns) more 0 none = some pages) ∧
      Exact id (fun i => (ns i).keys) pages) ∧
    ∀ i after,
      (∃ es, PageOf (ns i) after es ∧ (answerRead (ns i) (.entries after)).length ≤ MAX_LINE ∧
        answerRead (ns i) (.entries after) = "ENTRIES ".toList ++ num es.length ++
          es.flatMap entryWord ∧
        parseEntriesReply (answerRead (ns i) (.entries after)) = some (bindings es)) ∧
      ∃ es, PageOf (ns i) after es ∧ (answerRead (ns i) (.list after)).length ≤ MAX_LINE ∧
        answerRead (ns i) (.list after) = "NAMES ".toList ++ num es.length ++
          es.flatMap nameWord := by
  obtain ⟨names, hnames⟩ := exists_all_names
  refine ⟨(serves_entries hns).exact_follow names hnames,
    (serves_names hns).exact_follow names hnames, fun i after => ⟨?_, ?_⟩⟩
  · exact ⟨shownByEntries (ns i) after, pageOf_shownEntries (behind_eq_nil_of_shownByEntries hns i),
      length_page (by decide) (hns i).two_le_entryWord, page_eq, (hns i).parseEntriesReply_page⟩
  · exact ⟨shownByList (ns i) after, pageOf_shownEntries (behind_eq_nil_of_shownByList hns i),
      length_page (by decide) (hns i).two_le_nameWord, page_eq⟩

/-- A name that goes, one that stays and one that comes while they are listed. -/
def changingNames (i : ℕ) : Namespace :=
  runCommands .empty <| if i = 0 then [registerCommand "a".toList (List.replicate 40 'a') [],
      registerCommand "b".toList (List.replicate 40 'b') []]
    else [registerCommand "b".toList (List.replicate 40 'b') [],
      registerCommand "c".toList (List.replicate 40 'c') []]

theorem paging_exact_changing : (∀ i, (changingNames i).Valid) ∧
    ∃ pages rounds, (∀ more, rounds ≤ more →
      follow Prod.fst (fetchEntries changingNames) more 0 none = some pages) ∧
      Exact Prod.fst (fun i => bindings (changingNames i).entries) pages :=
  ⟨fun _ => valid_runCommands _, (paging_exact changingNames fun _ => valid_runCommands _).1⟩

end ChordFs
