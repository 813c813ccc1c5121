import Mathlib.Algebra.Order.Ring.Int
import Mathlib.Data.List.Basic

/-! # The first distinct elements of a list

A list is walked from its front, and each element is taken that is not the same as one taken before,
up to a number.  What is taken is pairwise distinct (`pairwise_firsts`), and one element more at
the end of the list changes the outcome by that element at most (`firsts_concat`). -/

namespace Distinct

variable {α : Type*} (same : α → α → Bool) (n : ℕ)

/-- The walk, with what has been taken. -/
def firstsFrom : List α → List α → List α
  | out, [] => out
  | out, p :: ps =>
    if out.length ≥ n then out
    else if out.any (same p) then firstsFrom out ps
    else firstsFrom (out ++ [p]) ps

def firsts (l : List α) : List α := firstsFrom same n [] l

section
variable {same : α → α → Bool} {n : ℕ} {out l : List α} {x z : α}

theorem mem_of_mem_firstsFrom (h : x ∈ firstsFrom same n out l) : x ∈ out ∨ x ∈ l := by
  induction l generalizing out with
  | nil => exact .inl h
  | cons p l ih =>
    rw [firstsFrom] at h
    split at h
    · exact .inl h
    split at h
    · exact (ih h).imp id (List.mem_cons_of_mem _ ·)
    · rcases ih h with h | h
      · exact (List.mem_append.mp h).imp id fun h => by simp [List.mem_singleton.mp h]
      · exact .inr (List.mem_cons_of_mem _ h)

theorem prefix_firstsFrom : out <+: firstsFrom same n out l := by
  induction l generalizing out with
  | nil => exact List.prefix_refl out
  | cons p l ih =>
    rw [firstsFrom]
    split
    · exact List.prefix_refl out
    split
    · exact ih
    · exact (List.prefix_append out [p]).trans ih

/-- **One element more** is taken, or changes nothing. -/
theorem firstsFrom_concat : firstsFrom same n out (l ++ [z]) =
    if n ≤ (firstsFrom same n out l).length ∨ (firstsFrom same n out l).any (same z) = true
    then firstsFrom same n out l else firstsFrom same n out l ++ [z] := by
  induction l generalizing out with
  | nil =>
    simp only [List.nil_append, firstsFrom]
    split
    · simp [*]
    · split <;> simp_all
  | cons p l ih =>
    rw [List.cons_append, firstsFrom, firstsFrom]
    split
    · simp [*]
    split
    · exact ih
    · exact ih

theorem firsts_concat : firsts same n (l ++ [z]) =
    if n ≤ (firsts same n l).length ∨ (firsts same n l).any (same z) = true
    then firsts same n l else firsts same n l ++ [z] := firstsFrom_concat

theorem pairwise_firstsFrom (h : out.Pairwise fun a b => same b a = false) :
    (firstsFrom same n out l).Pairwise fun a b => same b a = false := by
  induction l generalizing out with
  | nil => exact h
  | cons p l ih =>
    rw [firstsFrom]
    split
    · exact h
    split
    · exact ih h
    · rename_i hnew
      refine ih (List.pairwise_append.mpr ⟨h, List.pairwise_singleton _ _, fun a ha b hb => ?_⟩)
      rw [List.mem_singleton.mp hb]
      simp only [List.any_eq_true, not_exists, not_and, Bool.not_eq_true] at hnew
      exact hnew a ha

/-- **What is taken is pairwise distinct.** -/
theorem pairwise_firsts : (firsts same n l).Pairwise fun a b => same b a = false :=
  pairwise_firstsFrom List.Pairwise.nil

theorem length_firstsFrom (h : out.length ≤ n) : (firstsFrom same n out l).length ≤ n := by
  induction l generalizing out with
  | nil => exact h
  | cons p l ih =>
    rw [firstsFrom]
    split
    · exact h
    split
    · exact ih h
    · exact ih (by simp; omega)

theorem length_firsts : (firsts same n l).length ≤ n := length_firstsFrom (Nat.zero_le n)

theorem prefix_loop : out.reverse <+: List.eraseDupsBy.loop same l out := by
  induction l generalizing out with
  | nil => exact List.prefix_refl _
  | cons p l ih =>
    rw [List.eraseDupsBy.loop]
    split
    · exact ih
    · exact (by simp : out.reverse <+: (p :: out).reverse).trans ih

theorem firstsFrom_eq (h : out.length ≤ n) :
    firstsFrom same n out.reverse l = (List.eraseDupsBy.loop same l out).take n := by
  induction l generalizing out with
  | nil =>
    rw [firstsFrom, List.eraseDupsBy.loop, List.take_of_length_le]
    simpa using h
  | cons p l ih =>
    rw [firstsFrom, List.length_reverse, List.any_reverse]
    split
    · obtain ⟨rest, hrest⟩ := @prefix_loop α same out (p :: l)
      rw [← hrest, List.take_left']
      rw [List.length_reverse]
      omega
    rw [List.eraseDupsBy.loop]
    split <;> rename_i hany
    · rw [hany]
      exact ih h
    · rw [Bool.not_eq_true] at hany
      rw [hany]
      simpa using @ih (p :: out) (by simp; omega)

/-- **The elements of the list without what was the same before, as many as are asked for.** -/
theorem firsts_eq : firsts same n l = (l.eraseDupsBy same).take n :=
  @firstsFrom_eq α same n [] l (Nat.zero_le n)

theorem firsts_cons (hn : 0 < n) : ∃ rest, firsts same n (x :: l) = x :: rest := by
  have hstart : firsts same n (x :: l) = firstsFrom same n [x] l := by
    rw [firsts, firstsFrom, if_neg (by simp; omega)]
    simp
  obtain ⟨rest, hrest⟩ := @prefix_firstsFrom α same n [x] l
  exact ⟨rest, by rw [hstart, ← hrest]; rfl⟩

end

end Distinct
