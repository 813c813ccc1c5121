import Mathlib.Algebra.Order.Ring.Int
import Mathlib.Data.Finset.Card
import Mathlib.Data.List.Basic

/-! # Listing by cursor

A sorted list that changes is read page by page: each request gives the key of the last element
seen, and a page is the beginning of what lies behind it.  Every request meets another state of the
list.  What holds of one page (`Serves`) gives what holds of the whole listing: it is in order,
nothing that stays is missed, and it ends if there are only finitely many keys. -/

namespace Cursor

variable {α κ : Type*} [LinearOrder κ]

/-- What lies behind the cursor. -/
def behind (key : α → κ) : Option κ → List α → List α
  | none, l => l
  | some k, l => l.dropWhile fun e => key e ≤ k

/-- Page after page until one is empty, the first one asked of state `i`; `none` if a page could not
be read or the rounds were not enough. -/
def follow (key : α → κ) (fetch : ℕ → Option κ → Option (List α)) :
    ℕ → ℕ → Option κ → Option (List (List α))
  | 0, _, _ => none
  | rounds + 1, i, cursor =>
    match fetch i cursor with
    | none => none
    | some page =>
      match page.getLast? with
      | none => some []
      | some e => (follow key fetch rounds (i + 1) (some (key e))).map (page :: ·)

/-- The pages are served from the states: each is a beginning of what lies behind the cursor, and
empty only if there is nothing. -/
structure Serves (key : α → κ) (known : κ → Prop) (state : ℕ → List α)
    (fetch : ℕ → Option κ → Option (List α)) : Prop where
  sorted : ∀ i, (state i).Pairwise fun a b => key a < key b
  keys_known : ∀ i, ∀ e ∈ state i, known (key e)
  page : ∀ i cursor, (∀ k ∈ cursor, known k) → ∃ page, fetch i cursor = some page ∧
    page <+: behind key cursor (state i) ∧ (page = [] → behind key cursor (state i) = [])

/-- What such a listing is to give: the elements in order, every key that is there all the time
once, and each element as it was in the state its page was read from. -/
structure Exact (key : α → κ) (state : ℕ → List α) (pages : List (List α)) : Prop where
  increasing : pages.flatten.Pairwise fun a b => key a < key b
  complete : ∀ k, (∀ i ≤ pages.length, ∃ e ∈ state i, key e = k) →
    (pages.flatten.map key).count k = 1
  current : ∀ i page, pages[i]? = some page → ∀ e ∈ page, e ∈ state i

section behind
variable {key : α → κ} {cursor : Option κ} {l : List α} {e : α}

theorem mem_behind (hsorted : l.Pairwise fun a b => key a < key b) :
    e ∈ behind key cursor l ↔ e ∈ l ∧ ∀ k ∈ cursor, k < key e := by
  cases cursor with
  | none => simp [behind]
  | some k =>
    simp only [behind, Option.mem_some_iff, forall_eq']
    induction l with
    | nil => simp
    | cons a l ih =>
      obtain ⟨ha, hl⟩ := List.pairwise_cons.mp hsorted
      rw [List.dropWhile_cons]
      split
      · rename_i hle
        rw [decide_eq_true_eq] at hle
        rw [ih hl, List.mem_cons]
        constructor
        · exact fun h => ⟨.inr h.1, h.2⟩
        · rintro ⟨rfl | he, hk⟩
          · exact absurd hle (not_le.mpr hk)
          · exact ⟨he, hk⟩
      · rename_i hle
        rw [decide_eq_true_eq, not_le] at hle
        refine ⟨fun he => ⟨he, ?_⟩, fun h => h.1⟩
        -- what follows the first one behind the cursor is behind it too
        rcases List.mem_cons.mp he with rfl | he
        · exact hle
        · exact lt_trans hle (ha e he)

theorem behind_map {β : Type*} (f : β → α) (l : List β) :
    behind key cursor (l.map f) = (behind (key ∘ f) cursor l).map f := by
  cases cursor with
  | none => rfl
  | some k => exact List.dropWhile_map ..

section
variable (hsorted : l.Pairwise fun a b => key a < key b)
include hsorted

theorem pairwise_behind : (behind key cursor l).Pairwise fun a b => key a < key b := by
  cases cursor with
  | none => exact hsorted
  | some k => exact hsorted.sublist (List.dropWhile_sublist _)

theorem mem_or_lt_of_isPrefix {page : List α} {last : α} (hpage : page <+: l)
    (hlast : page.getLast? = some last) (he : e ∈ l) : e ∈ page ∨ key last < key e := by
  obtain ⟨rest, rfl⟩ := hpage
  rcases List.mem_append.mp he with he | he
  · exact .inl he
  · exact .inr ((List.pairwise_append.mp hsorted).2.2 last (List.mem_of_getLast? hlast) e he)

theorem le_of_getLast? {last : α}
    (hlast : l.getLast? = some last) (he : e ∈ l) : key e ≤ key last := by
  obtain ⟨front, rfl⟩ := List.getLast?_eq_some_iff.mp hlast
  rcases List.mem_append.mp he with he | he
  · exact le_of_lt ((List.pairwise_append.mp hsorted).2.2 e he last (List.mem_singleton.mpr rfl))
  · rw [List.mem_singleton.mp he]

end

end behind

/-- How many keys there are behind the cursor. -/
def left (keys : Finset κ) (cursor : Option κ) : ℕ :=
  (keys.filter fun k => ∀ c ∈ cursor, c < k).card

theorem left_lt {keys : Finset κ} {cursor : Option κ} {k : κ} (hk : k ∈ keys)
    (hcursor : ∀ c ∈ cursor, c < k) :
    left keys (some k) < left keys cursor := by
  refine Finset.card_lt_card (Finset.ssubset_iff_of_subset ?_ |>.mpr ⟨k, ?_, ?_⟩)
  · intro k' hk'
    simp only [Finset.mem_filter, Option.mem_some_iff, forall_eq'] at hk' ⊢
    exact ⟨hk'.1, fun c hc => lt_trans (hcursor c hc) hk'.2⟩
  · exact Finset.mem_filter.mpr ⟨hk, hcursor⟩
  · simp

/-! ### The listing -/

section listing
variable {key : α → κ} {known : κ → Prop} {state : ℕ → List α}
  {fetch : ℕ → Option κ → Option (List α)}
variable {rounds i : ℕ} {cursor : Option κ} {pages : List (List α)}

omit [LinearOrder κ] in
theorem follow_succ_cases (h : follow key fetch (rounds + 1) i cursor = some pages) :
    (fetch i cursor = some [] ∧ pages = []) ∨
    ∃ page last rest, fetch i cursor = some page ∧ page.getLast? = some last ∧
    pages = page :: rest ∧
      follow key fetch rounds (i + 1) (some (key last)) = some rest := by
  rw [follow] at h
  split at h
  · cases h
  · rename_i page hpage
    split at h
    · rename_i hlast
      rw [List.getLast?_eq_none_iff.mp hlast] at hpage
      cases h
      exact .inl ⟨hpage, rfl⟩
    · rename_i last hlast
      obtain ⟨rest, hrest, rfl⟩ := Option.map_eq_some_iff.mp h
      exact .inr ⟨page, last, rest, hpage, hlast, rfl, hrest⟩

omit [LinearOrder κ] in
theorem follow_mono (h : follow key fetch rounds i cursor = some pages) {more : ℕ}
    (hle : rounds ≤ more) :
    follow key fetch more i cursor = some pages := by
  induction rounds generalizing i cursor pages more with
  | zero => cases h
  | succ rounds ih =>
    obtain ⟨more, rfl⟩ : ∃ m, more = m + 1 := ⟨more - 1, by omega⟩
    rcases follow_succ_cases h with ⟨hpage, rfl⟩ | ⟨page, last, rest, hpage, hlast, rfl, hrest⟩
    · rw [follow, hpage]
      rfl
    · rw [follow, hpage]
      simp only [hlast, ih hrest (Nat.le_of_succ_le_succ hle), Option.map_some]

namespace Serves
variable (s : Serves key known state fetch)
include s

section
variable (hcursor : ∀ k ∈ cursor, known k) {page : List α} (hpage : fetch i cursor = some page)
include hcursor hpage

theorem of_page : page <+: behind key cursor (state i) ∧
    (page = [] → behind key cursor (state i) = []) := by
  obtain ⟨page', hpage', h⟩ := s.page i cursor hcursor
  rw [hpage] at hpage'
  cases hpage'
  exact h

theorem mem_of_page {e : α} (he : e ∈ page) : e ∈ state i ∧ ∀ k ∈ cursor, k < key e :=
  (mem_behind (s.sorted i)).mp ((s.of_page hcursor hpage).1.subset he)

theorem known_last {last : α} (hlast : page.getLast? = some last) :
    ∀ k ∈ some (key last), known k := by
  intro k hk
  cases hk
  exact s.keys_known i last (s.mem_of_page hcursor hpage (List.mem_of_getLast? hlast)).1

end

section
variable (hcursor : ∀ k ∈ cursor, known k) (h : follow key fetch rounds i cursor = some pages)
include hcursor h

/-- **In order**, and behind the cursor it started with. -/
theorem sorted_follow :
    (pages.flatten.Pairwise fun a b => key a < key b) ∧
      ∀ e ∈ pages.flatten, ∀ k ∈ cursor, k < key e := by
  induction rounds generalizing i cursor pages with
  | zero => cases h
  | succ rounds ih =>
    rcases follow_succ_cases h with ⟨-, rfl⟩ | ⟨page, last, rest, hpage, hlast, rfl, hrest⟩
    · simp
    · obtain ⟨hsorted, hbehind⟩ := ih (s.known_last hcursor hpage hlast) hrest
      have hbegins := (s.of_page hcursor hpage).1
      have hpsorted := (pairwise_behind (s.sorted i)).sublist hbegins.sublist
      rw [List.flatten_cons]
      constructor
      · refine List.pairwise_append.mpr ⟨hpsorted, hsorted, fun a ha b hb => ?_⟩
        exact lt_of_le_of_lt (le_of_getLast? hpsorted hlast ha) (hbehind b hb _ rfl)
      · intro e he k hk
        rcases List.mem_append.mp he with he | he
        · exact (s.mem_of_page hcursor hpage he).2 k hk
        · have hlt := (s.mem_of_page hcursor hpage (List.mem_of_getLast? hlast)).2 k hk
          exact lt_trans hlt (hbehind e he _ rfl)

/-- **Every page is of the state it was read from.** -/
theorem mem_follow {j : ℕ} {page : List α} (hj : pages[j]? = some page)
    {e : α} (he : e ∈ page) : e ∈ state (i + j) := by
  induction rounds generalizing i cursor pages j with
  | zero => cases h
  | succ rounds ih =>
    rcases follow_succ_cases h with ⟨-, rfl⟩ | ⟨first, last, rest, hpage, hlast, rfl, hrest⟩
    · simp at hj
    · cases j with
      | zero =>
        cases hj
        exact (s.mem_of_page hcursor hpage he).1
      | succ j =>
        rw [List.getElem?_cons_succ] at hj
        have hstate := ih (s.known_last hcursor hpage hlast) hrest hj
        rwa [Nat.add_right_comm] at hstate

/-- **Nothing that stays is missed.** -/
theorem complete_follow {k : κ} (hk : ∀ c ∈ cursor, c < k)
    (hstays : ∀ j ≤ pages.length, ∃ e ∈ state (i + j), key e = k) :
    ∃ e ∈ pages.flatten, key e = k := by
  induction rounds generalizing i cursor pages with
  | zero => cases h
  | succ rounds ih =>
    obtain ⟨e, he, rfl⟩ := hstays 0 (Nat.zero_le _)
    have hbehind : e ∈ behind key cursor (state i) := (mem_behind (s.sorted i)).mpr ⟨he, hk⟩
    rcases follow_succ_cases h with ⟨hpage, rfl⟩ | ⟨page, last, rest, hpage, hlast, rfl, hrest⟩
    · -- an empty page while the element is there
      rw [(s.of_page hcursor hpage).2 rfl] at hbehind
      cases hbehind
    · rw [List.flatten_cons]
      have hbegins := (s.of_page hcursor hpage).1
      rcases mem_or_lt_of_isPrefix (pairwise_behind (s.sorted i)) hbegins hlast hbehind with hmem |
        hlt
      · exact ⟨e, List.mem_append_left _ hmem, rfl⟩
      · have hlater : ∀ j ≤ rest.length, ∃ e' ∈ state (i + 1 + j), key e' = key e := fun j hj => by
          have hstay := hstays (j + 1) (Nat.succ_le_succ hj)
          rwa [Nat.add_comm j 1, ← Nat.add_assoc] at hstay
        obtain ⟨e', he', hkey⟩ := ih (s.known_last hcursor hpage hlast) hrest
          (fun c hc => by cases hc; exact hlt) hlater
        exact ⟨e', List.mem_append_right _ he', hkey⟩

end

/-- **The listing ends**: each page moves the cursor up among finitely many keys. -/
theorem follow_ends (keys : Finset κ) (hkeys : ∀ k, known k → k ∈ keys) (i : ℕ) (cursor : Option κ)
    (hcursor : ∀ k ∈ cursor, known k) :
    ∃ pages, follow key fetch (left keys cursor + 1) i cursor = some pages := by
  induction hn : left keys cursor using Nat.strong_induction_on generalizing i cursor with
  | _ n ih =>
    obtain ⟨page, hpage, -⟩ := s.page i cursor hcursor
    cases hlast : page.getLast? with
    | none => exact ⟨[], by rw [follow, hpage]; simp only [hlast]⟩
    | some last =>
      have hmem := s.mem_of_page hcursor hpage (List.mem_of_getLast? hlast)
      have hknown := s.known_last hcursor hpage hlast
      have hless : left keys (some (key last)) < n := by
        rw [← hn]
        exact left_lt (hkeys _ (hknown _ rfl)) hmem.2
      obtain ⟨rest, hrest⟩ := ih _ hless (i + 1) (some (key last)) hknown rfl
      refine ⟨page :: rest, ?_⟩
      rw [follow, hpage]
      simp only [hlast, follow_mono hrest hless, Option.map_some]

/-- **The listing ends and is exact**, whatever the states are that its requests meet. -/
theorem exact_follow (keys : Finset κ) (hkeys : ∀ k, known k → k ∈ keys) :
    ∃ pages rounds, (∀ more, rounds ≤ more → follow key fetch more 0 none = some pages) ∧
      Exact key state pages := by
  have hnone : ∀ k ∈ (none : Option κ), known k := fun _ h => absurd h (Option.not_mem_none _)
  obtain ⟨pages, hpages⟩ := s.follow_ends keys hkeys 0 none hnone
  have hsorted := (s.sorted_follow hnone hpages).1
  refine ⟨pages, _, fun more hmore => follow_mono hpages hmore, hsorted, fun k hk => ?_,
    fun i page hi e he => ?_⟩
  · obtain ⟨e, he, rfl⟩ := s.complete_follow hnone hpages
      (fun _ h => absurd h (Option.not_mem_none _)) fun j hj => by rw [Nat.zero_add]; exact hk j hj
    refine List.count_eq_one_of_mem ?_ (List.mem_map_of_mem he)
    exact List.pairwise_map.mpr (hsorted.imp fun h => ne_of_lt h)
  · have hstate := s.mem_follow hnone hpages hi he
    rwa [Nat.zero_add] at hstate

end Serves

end listing

end Cursor
