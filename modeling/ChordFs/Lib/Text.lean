import Mathlib.Algebra.Order.Ring.Int
import Mathlib.Data.List.Induction
import Mathlib.Data.Nat.Init

/-! # Text: numbers, words and lines

The vocabulary of line-based formats, over lists of characters: decimal numbers without leading
zeros and their reading back (`toDigits_ofDigitChars`), cutting a text at the first or the last
occurrence of a character (`cutFirst`, `cutLast`), and texts made of terminated lines
(`terminated`).  Splitting into words is `List.splitOn`. -/

namespace Text

/-! ### Decimal numbers -/

/-- A decimal number as it is printed: digits, and no leading zero. -/
structure IsDecimal (s : List Char) : Prop where
  ne_nil : s ≠ []
  digit : ∀ c ∈ s, c.isDigit = true
  canonical : 1 < s.length → s.head? ≠ some '0'

variable {ls : List (List Char)}

theorem digitChar_toNat {c : Char} (h : c.isDigit = true) :
    c.toNat - 48 < 10 ∧ Nat.digitChar (c.toNat - 48) = c := by
  simp only [Char.isDigit, ge_iff_le, Bool.and_eq_true, decide_eq_true_eq] at h
  have h1 : 48 ≤ c.toNat := h.1
  have h2 : c.toNat ≤ 57 := h.2
  have hlt : c.toNat - 48 < 10 := by omega
  refine ⟨hlt, Char.toNat_inj.mp ?_⟩
  rw [Nat.toNat_digitChar_of_lt_ten hlt]
  omega

/-- **Reading a number and printing it again gives the same text.** -/
theorem toDigits_ofDigitChars {s : List Char} (h : IsDecimal s) :
    Nat.toDigits 10 (Nat.ofDigitChars 10 s 0) = s := by
  induction s using List.reverseRecOn with
  | nil => exact absurd rfl h.ne_nil
  | append_singleton l c ih =>
    obtain ⟨hlt, hc⟩ := digitChar_toNat (h.digit c (by simp))
    have hdig : Nat.toDigits 10 (c.toNat - 48) = [c] := by
      rw [Nat.toDigits_of_lt_base hlt, hc]
    rw [Nat.ofDigitChars_append, Nat.ofDigitChars_cons, Nat.ofDigitChars_nil]
    cases l with
    | nil => simpa using hdig
    | cons d l =>
      have hcan : d ≠ '0' := by
        simpa using h.canonical (by simp)
      have hl : IsDecimal (d :: l) :=
        ⟨by simp, fun x hx => h.digit x (List.mem_append_left _ hx), fun _ => by simpa using hcan⟩
      have ih' := ih hl
      have hpos : 0 < Nat.ofDigitChars 10 (d :: l) 0 := by
        rcases Nat.eq_zero_or_pos (Nat.ofDigitChars 10 (d :: l) 0) with h0 | h0
        · rw [h0, Nat.toDigits_zero] at ih'
          cases ih'
          exact absurd rfl hcan
        · exact h0
      rw [show '0'.toNat = 48 from rfl, ← Nat.toDigits_append_toDigits (by decide) hpos hlt, ih',
        hdig]

theorem isDecimal_toDigits (n : ℕ) : IsDecimal (Nat.toDigits 10 n) where
  ne_nil := Nat.toDigits_ne_nil
  digit _ hc := Nat.isDigit_of_mem_toDigits (by decide) (by decide) hc
  canonical := by
    induction n using Nat.strong_induction_on with
    | _ n ih =>
      rcases Nat.lt_or_ge n 10 with hn | hn
      · rw [Nat.toDigits_of_lt_base hn]; simp
      · rw [Nat.toDigits_of_base_le (by decide) hn]
        intro _
        have hne : Nat.toDigits 10 (n / 10) ≠ [] := Nat.toDigits_ne_nil
        rcases Nat.lt_or_ge (n / 10) 10 with hlt | hge
        · rw [Nat.toDigits_of_lt_base hlt]
          simp only [List.singleton_append, List.head?_cons, ne_eq, Option.some.injEq,
            Nat.digitChar_eq_zero]
          omega
        · have hlen : 1 < (Nat.toDigits 10 (n / 10)).length := by
            by_contra hcon
            have := (Nat.length_toDigits_le_iff (b := 10) (k := 1) (by decide) (by decide)).mp
              (Nat.le_of_not_lt hcon)
            omega
          have hrec := ih (n / 10) (by omega) hlen
          obtain ⟨d, l, hd⟩ := List.exists_cons_of_ne_nil hne
          rw [hd] at hrec ⊢
          simpa using hrec

theorem not_mem_toDigits {c : Char} (h : c.isDigit = false) (n : ℕ) : c ∉ Nat.toDigits 10 n := by
  intro hc
  rw [(isDecimal_toDigits n).digit c hc] at h
  cases h

/-! ### Cutting a text in two -/

variable {α : Type*} [DecidableEq α]

/-- The parts before and after the first `c`. -/
def cutFirst (c : α) : List α → Option (List α × List α)
  | [] => none
  | x :: l => if x = c then some ([], l) else (cutFirst c l).map fun p => (x :: p.1, p.2)

theorem cutFirst_append {c : α} {a : List α} (h : c ∉ a) (b : List α) :
    cutFirst c (a ++ c :: b) = some (a, b) := by
  induction a with
  | nil => simp [cutFirst]
  | cons x a ih =>
    simp only [List.mem_cons, not_or] at h
    rw [List.cons_append, cutFirst, if_neg fun hx => h.1 hx.symm, ih h.2]
    rfl

theorem eq_of_cutFirst {c : α} {l a b : List α} (h : cutFirst c l = some (a, b)) :
    l = a ++ c :: b ∧ c ∉ a := by
  induction l generalizing a with
  | nil => cases h
  | cons x l ih =>
    rw [cutFirst] at h
    split at h
    · rename_i hx
      cases h
      exact ⟨by rw [hx]; rfl, by simp⟩
    · rename_i hx
      obtain ⟨⟨a', b'⟩, hcut, heq⟩ := Option.map_eq_some_iff.mp h
      cases heq
      obtain ⟨rfl, hn⟩ := ih hcut
      refine ⟨rfl, ?_⟩
      simp only [List.mem_cons, not_or]
      exact ⟨fun h => hx h.symm, hn⟩

/-- The parts before and after the last `c`. -/
def cutLast (c : α) (l : List α) : Option (List α × List α) :=
  (cutFirst c l.reverse).map fun p => (p.2.reverse, p.1.reverse)

theorem cutLast_append {c : α} {b : List α} (h : c ∉ b) (a : List α) :
    cutLast c (a ++ c :: b) = some (a, b) := by
  have hrev : (a ++ c :: b).reverse = b.reverse ++ c :: a.reverse := by simp
  rw [cutLast, hrev, cutFirst_append (by simpa using h)]
  simp

/-! ### Parts of a text -/

theorem exists_mem_splitOn {c sep : α} {s : List α} (h : c ∈ s) (hne : c ≠ sep) :
    ∃ part ∈ s.splitOn sep, c ∈ part := by
  induction s with
  | nil => cases h
  | cons x s ih =>
    rw [List.splitOn_cons_eq_if_modifyHead]
    rcases List.mem_cons.mp h with rfl | h
    · rw [if_neg (by simpa using hne)]
      obtain ⟨part, parts, hp⟩ := List.exists_cons_of_ne_nil (List.splitOn_ne_nil sep s)
      exact ⟨c :: part, by simp [hp], by simp⟩
    · obtain ⟨part, hpart, hc⟩ := ih h
      split
      · exact ⟨part, List.mem_cons_of_mem _ hpart, hc⟩
      · cases hs : s.splitOn sep with
        | nil => exact absurd hs (List.splitOn_ne_nil sep s)
        | cons p ps =>
          rw [hs] at hpart
          rcases List.mem_cons.mp hpart with rfl | hpart
          · exact ⟨x :: part, by simp, by simp [hc]⟩
          · exact ⟨part, by simp [hpart], hc⟩

/-! ### Lines -/

/-- The text of lines, each ended by a newline. -/
def terminated (ls : List (List Char)) : List Char := ls.flatMap fun l => l ++ ['\n']

@[simp] theorem terminated_nil : terminated [] = [] := rfl

@[simp] theorem terminated_cons (l : List Char) (ls : List (List Char)) :
    terminated (l :: ls) = l ++ '\n' :: terminated ls := by
  simp [terminated]

@[simp] theorem terminated_append (ls ls' : List (List Char)) :
    terminated (ls ++ ls') = terminated ls ++ terminated ls' := by
  simp [terminated]

theorem splitOn_terminated (h : ∀ l ∈ ls, '\n' ∉ l) (t : List Char) :
    (terminated ls ++ t).splitOn '\n' = ls ++ t.splitOn '\n' := by
  induction ls with
  | nil => simp
  | cons l ls ih =>
    simp only [List.mem_cons, forall_eq_or_imp] at h
    rw [terminated_cons, List.append_assoc, List.cons_append,
      List.splitOn_append_cons_self_of_not_mem h.1, ih h.2, List.cons_append]

theorem eq_terminated_append (t : List Char) : ∃ ls r, t = terminated ls ++ r ∧
    t.splitOn '\n' = ls ++ [r] ∧ (∀ l ∈ ls, '\n' ∉ l) ∧ '\n' ∉ r := by
  induction t with
  | nil => exact ⟨[], [], by simp⟩
  | cons c t ih =>
    obtain ⟨ls, r, ht, hs, hl, hr⟩ := ih
    by_cases hc : c = '\n'
    · subst hc
      refine ⟨[] :: ls, r, by rw [ht]; simp, ?_, by simpa using hl, hr⟩
      rw [List.splitOn_cons_eq_if_modifyHead, hs]
      simp
    · cases ls with
      | nil =>
        refine ⟨[], c :: r, by rw [ht]; simp, ?_, by simp, ?_⟩
        · rw [List.splitOn_cons_eq_if_modifyHead, hs]
          simp [hc]
        · simp only [List.mem_cons, not_or]
          exact ⟨fun h => hc h.symm, hr⟩
      | cons l ls =>
        refine ⟨(c :: l) :: ls, r, by rw [ht]; simp, ?_, ?_, hr⟩
        · rw [List.splitOn_cons_eq_if_modifyHead, hs]
          simp [hc]
        · simp only [List.mem_cons, forall_eq_or_imp, not_or] at hl ⊢
          exact ⟨⟨fun h => hc h.symm, hl.1⟩, hl.2⟩

/-- The lines of a text that are ended by a newline. -/
def completeLines (t : List Char) : List (List Char) := (t.splitOn '\n').dropLast

/-- What follows the last newline. -/
def lastPart (t : List Char) : List Char := (t.splitOn '\n').getLastD []

theorem completeLines_terminated_append (h : ∀ l ∈ ls, '\n' ∉ l) (t : List Char) :
    completeLines (terminated ls ++ t) = ls ++ completeLines t := by
  rw [completeLines, splitOn_terminated h, List.dropLast_append_of_ne_nil (List.splitOn_ne_nil _ _),
    completeLines]

theorem lastPart_terminated_append (h : ∀ l ∈ ls, '\n' ∉ l) (t : List Char) :
    lastPart (terminated ls ++ t) = lastPart t := by
  obtain ⟨a, r, -, hs, -, -⟩ := eq_terminated_append t
  simp [lastPart, splitOn_terminated h, hs]

theorem terminated_completeLines (t : List Char) :
    terminated (completeLines t) ++ lastPart t = t ∧ ∀ l ∈ completeLines t, '\n' ∉ l := by
  obtain ⟨ls, r, ht, hs, hl, -⟩ := eq_terminated_append t
  have h1 : completeLines t = ls := by simp [completeLines, hs]
  have h2 : lastPart t = r := by simp [lastPart, hs]
  rw [h1, h2]
  exact ⟨ht.symm, hl⟩

/-- The lines of a text that ends in a newline; `none` if something follows the last one. -/
def lines (t : List Char) : Option (List (List Char)) :=
  if lastPart t = [] then some (completeLines t) else none

theorem lines_terminated (h : ∀ l ∈ ls, '\n' ∉ l) : lines (terminated ls) = some ls := by
  have h1 := completeLines_terminated_append h []
  have h2 := lastPart_terminated_append h []
  rw [List.append_nil] at h1 h2
  rw [lines, h1, h2]
  simp [completeLines, lastPart]

theorem eq_of_lines {t : List Char} (h : lines t = some ls) : t = terminated ls := by
  rw [lines] at h
  split at h
  · rename_i hr
    cases h
    conv_lhs => rw [← (terminated_completeLines t).1, hr, List.append_nil]
  · cases h

end Text
