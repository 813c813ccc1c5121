import Mathlib.Algebra.Order.Ring.Int
import Mathlib.Data.List.Infix
import Mathlib.Data.List.TakeDrop
import Mathlib.Tactic.Common

/-! # Logs of entries stamped with terms

A replicated log is a list of entries, each carrying the term of the leader that created it.
Positions are counted from one, position `0` standing for "before the first entry", which has
term `0` (`termAt`).  A family `L : ℕ → List (Entry κ)` gives, for every term, the log that the
leader of that term holds; a log is *coherent* with the family when each of its prefixes that
ends in an entry of term `t` is a prefix of `L t` (`Coherent`).  Coherence is what log matching
rests on: two coherent logs that agree on one term agree up to that position
(`Coherent.take_eq`).

`Splice l b c` describes the point at which a log `l` is rewritten from a log `b`: the two agree
on the first `c` entries and `l` either ends there or holds an entry of another term next.
Whatever is a prefix of both logs survives the rewriting (`Splice.length_le`). -/

namespace TermLog

/-- A log entry: the term of the leader that created it and its command. -/
structure Entry (κ : Type*) where
  term : ℕ
  command : κ
deriving DecidableEq, Repr

variable {κ : Type*} {l l' b : List (Entry κ)} {L L' : ℕ → List (Entry κ)}

/-! ### Terms by position -/

/-- The term at position `i`, counted from one; `0` at position `0` and past the end. -/
def termAt (l : List (Entry κ)) (i : ℕ) : ℕ :=
  if i = 0 ∨ l.length < i then 0 else (l[i - 1]?).elim 0 Entry.term

variable {c i : ℕ} {a : List (Entry κ)}

@[simp] theorem termAt_zero (l : List (Entry κ)) : termAt l 0 = 0 := by simp [termAt]

theorem termAt_succ (l : List (Entry κ)) (i : ℕ) :
    termAt l (i + 1) = (l[i]?).elim 0 Entry.term := by
  unfold termAt
  by_cases h : l.length < i + 1
  · rw [if_pos (.inr h), List.getElem?_eq_none (by omega)]; rfl
  · rw [if_neg (by omega)]; rfl

theorem termAt_of_getElem? {e : Entry κ} (h : l[i]? = some e) : termAt l (i + 1) = e.term := by
  rw [termAt_succ, h]; rfl

theorem exists_getElem?_of_le (h0 : i ≠ 0) (hi : i ≤ l.length) :
    ∃ e, l[i - 1]? = some e ∧ termAt l i = e.term := by
  obtain ⟨k, rfl⟩ : ∃ k, i = k + 1 := ⟨i - 1, by omega⟩
  have hk : k < l.length := by omega
  exact ⟨l[k], List.getElem?_eq_getElem hk, termAt_of_getElem? (List.getElem?_eq_getElem hk)⟩

theorem getElem?_of_isPrefix {α : Type*} {l l' : List α} (h : l <+: l') (hi : i < l.length) :
    l[i]? = l'[i]? := by
  rw [List.getElem?_eq_getElem hi, List.prefix_iff_getElem?.mp h i hi]

theorem termAt_of_isPrefix (h : l <+: l') (hi : i ≤ l.length) : termAt l i = termAt l' i := by
  cases i with
  | zero => simp
  | succ i =>
    rw [termAt_succ, termAt_succ, getElem?_of_isPrefix h hi]

/-- The term of the last entry, `0` for the empty log. -/
def lastTerm (l : List (Entry κ)) : ℕ := termAt l l.length

/-- `l` is at least as up to date as `l'`: a later last term, or the same one and no fewer
entries. -/
def UpToDate (l l' : List (Entry κ)) : Prop :=
  lastTerm l' < lastTerm l ∨ lastTerm l = lastTerm l' ∧ l'.length ≤ l.length

theorem UpToDate.refl (l : List (Entry κ)) : UpToDate l l := .inr ⟨rfl, le_rfl⟩

/-! ### Coherence with a family of leader logs -/

/-- Every prefix of `l` that ends in an entry of term `t` is a prefix of `L t`. -/
def Coherent (L : ℕ → List (Entry κ)) (l : List (Entry κ)) : Prop :=
  ∀ i e, l[i]? = some e → l.take (i + 1) <+: L e.term

theorem Coherent.nil : Coherent L ([] : List (Entry κ)) := by
  intro i e h
  simp at h

section
variable (h : Coherent L l)
include h

theorem Coherent.of_isPrefix (hp : l' <+: l) : Coherent L l' := by
  intro i e he
  have hi : i < l'.length := (List.getElem?_eq_some_iff.mp he).1
  have hl := h i e ((getElem?_of_isPrefix hp hi).symm.trans he)
  have ht : l'.take (i + 1) <+: l.take (i + 1) :=
    List.prefix_take_iff.mpr ⟨(List.take_prefix _ _).trans hp, List.length_take_le _ _⟩
  exact ht.trans hl

theorem Coherent.mono (hL : ∀ t, L t <+: L' t) : Coherent L' l :=
  fun i e he => (h i e he).trans (hL e.term)

/-- **Matching**: two coherent logs that hold entries of one term at one position are equal up
to that position. -/
theorem Coherent.take_eq (h' : Coherent L l') {i : ℕ} {e e' : Entry κ} (he : l[i]? = some e)
    (he' : l'[i]? = some e') (ht : e.term = e'.term) : l.take (i + 1) = l'.take (i + 1) := by
  have h1 := h i e he
  have h2 := h' i e' he'
  rw [← ht] at h2
  have hi := (List.getElem?_eq_some_iff.mp he).1
  have hi' := (List.getElem?_eq_some_iff.mp he').1
  have hlen : (l.take (i + 1)).length = (l'.take (i + 1)).length := by
    simp only [List.length_take]; omega
  exact (List.prefix_of_prefix_length_le h1 h2 hlen.le).eq_of_length hlen

theorem Coherent.take_eq_of_termAt (h' : Coherent L l') {p : ℕ} (hp : p ≤ l.length)
    (hp' : p ≤ l'.length) (ht : termAt l p = termAt l' p) : l.take p = l'.take p := by
  rcases Nat.eq_zero_or_pos p with rfl | hpos
  · simp
  · obtain ⟨e, he, hte⟩ := exists_getElem?_of_le (by omega) hp
    obtain ⟨e', he', hte'⟩ := exists_getElem?_of_le (by omega) hp'
    have := h.take_eq h' he he' (by omega)
    rwa [Nat.sub_add_cancel hpos] at this

section
variable (hL : ∀ t, ∀ e ∈ L t, e.term ≤ t)
include hL

/-- When no leader log holds an entry newer than its own term, terms never fall along a
coherent log. -/
theorem Coherent.term_le {i j : ℕ} {e e' : Entry κ}
    (he : l[i]? = some e) (he' : l[j]? = some e') (hj : j ≤ i) : e'.term ≤ e.term := by
  apply hL e.term
  apply (h i e he).subset
  refine List.mem_of_getElem? (i := j) ?_
  rw [List.getElem?_take_of_lt (by omega)]
  exact he'

theorem Coherent.termAt_le {i j : ℕ}
    (hj : j ≤ i) (hi : i ≤ l.length) : termAt l j ≤ termAt l i := by
  rcases Nat.eq_zero_or_pos j with rfl | hpos
  · simp
  · obtain ⟨e, he, hte⟩ := exists_getElem?_of_le (l := l) (i := i) (by omega) hi
    obtain ⟨e', he', hte'⟩ := exists_getElem?_of_le (l := l) (i := j) (by omega) (by omega)
    have := h.term_le hL he he' (by omega)
    omega

theorem Coherent.pairwise : l.Pairwise fun e e' => e.term ≤ e'.term := by
  rw [List.pairwise_iff_getElem]
  intro i j hi hj hij
  exact h.term_le hL (List.getElem?_eq_getElem hj) (List.getElem?_eq_getElem hi) hij.le

end

theorem Coherent.prefix_lastTerm (hne : l ≠ []) : l <+: L (lastTerm l) := by
  have hpos : 0 < l.length := List.length_pos_iff.mpr hne
  obtain ⟨e, he, hte⟩ := exists_getElem?_of_le (l := l) (i := l.length) (by omega) le_rfl
  have := h _ e he
  rw [Nat.sub_add_cancel hpos, List.take_length, ← hte] at this
  exact this

theorem Coherent.append {t : ℕ} {r : List (Entry κ)} (hr : ∀ e ∈ r, e.term = t)
    (hL : l ++ r <+: L t) : Coherent L (l ++ r) := by
  intro i e he
  rcases Nat.lt_or_ge i l.length with hi | hi
  · rw [List.getElem?_append_left hi] at he
    rw [List.take_append_of_le_length (by omega)]
    exact h i e he
  · rw [List.getElem?_append_right hi] at he
    rw [hr e (List.mem_of_getElem? he)]
    exact (List.take_prefix _ _).trans hL

end

theorem prefix_of_prefix_append {r : List (Entry κ)} (h : a <+: l ++ r) (hne : ∀ e ∈ a, e ∉ r) :
    a <+: l := by
  rcases List.prefix_or_prefix_of_prefix h (List.prefix_append l r) with h' | ⟨x, rfl⟩
  · exact h'
  · have hx : x <+: r := (List.prefix_append_right_inj l).mp h
    cases x with
    | nil => simp
    | cons e x => exact absurd (hx.subset (by simp)) (hne e (by simp))

/-! ### Rewriting a log from another one -/

/-- The point `c` at which `l` is rewritten from `b`: they agree below it, and `l` ends there or
holds an entry of another term next. -/
structure Splice (l b : List (Entry κ)) (c : ℕ) : Prop where
  le_right : c ≤ b.length
  agree : l.take c = b.take c
  differ : l.length = c ∨ ∃ e f, l[c]? = some e ∧ b[c]? = some f ∧ e.term ≠ f.term

theorem Splice.length_le (h : Splice l b c) (hl : a <+: l) (hb : a <+: b) : a.length ≤ c := by
  rcases h.differ with hc | ⟨e, f, he, hf, hne⟩
  · rw [← hc]; exact hl.length_le
  · by_contra hlt
    have h1 := getElem?_of_isPrefix hl (i := c) (by omega)
    have h2 := getElem?_of_isPrefix hb (i := c) (by omega)
    rw [he] at h1
    rw [hf, h1] at h2
    exact hne (by rw [Option.some.inj h2])

theorem Splice.prefix_take {k : ℕ} (h : Splice l b c) (hk : c ≤ k) (hl : a <+: l) (hb : a <+: b) :
    a <+: b.take k :=
  List.prefix_take_iff.mpr ⟨hb, (h.length_le hl hb).trans hk⟩

end TermLog
