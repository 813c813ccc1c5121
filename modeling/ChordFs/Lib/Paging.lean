import Mathlib.Algebra.Order.Ring.Int
import Mathlib.Data.List.Basic

/-! # Work in batches

A list cut into runs of a fixed length, the last one shorter, as a loop over its indices cuts it. -/

namespace Paging

variable {α : Type*} {n : ℕ} {l : List α}

/-- The runs of `n` elements at `0`, `n`, `2 n`, and so on. -/
def batches (n : ℕ) (l : List α) : List (List α) :=
  (List.range ((l.length + n - 1) / n)).map fun i => (l.drop (i * n)).take n

theorem batches_nil (hn : 0 < n) : batches n ([] : List α) = [] := by
  have h : (0 + n - 1) / n = 0 := Nat.div_eq_of_lt (by omega)
  rw [batches, List.length_nil, h, List.range_zero, List.map_nil]

theorem batches_eq_cons (hn : 0 < n) (hl : l ≠ []) :
    batches n l = l.take n :: batches n (l.drop n) := by
  have hpos : 0 < l.length := List.length_pos_of_ne_nil hl
  have hcount : (l.length + n - 1) / n = ((l.drop n).length + n - 1) / n + 1 := by
    rw [List.length_drop, ← Nat.add_div_right _ hn]
    rcases Nat.le_total n l.length with h | h
    · congr 1
      omega
    · rw [Nat.div_eq_of_lt_le (k := 1) (by omega) (by omega),
        Nat.div_eq_of_lt_le (k := 1) (by omega) (by omega)]
  rw [batches, hcount, List.range_succ_eq_map, List.map_cons, List.map_map]
  simp only [Nat.zero_mul, List.drop_zero, batches, List.cons.injEq, true_and]
  refine List.map_congr_left fun i _ => ?_
  rw [Function.comp_apply, List.drop_drop, Nat.succ_mul, Nat.add_comm]

theorem batches_induction {P : List α → List (List α) → Prop} (hn : 0 < n) (nil : P [] [])
    (cons : ∀ l ≠ [], P (l.drop n) (batches n (l.drop n)) → P l (l.take n :: batches n (l.drop n)))
    (l : List α) : P l (batches n l) := by
  rcases eq_or_ne l [] with rfl | hl
  · rw [batches_nil hn]
    exact nil
  · rw [batches_eq_cons hn hl]
    exact cons l hl (batches_induction hn nil cons (l.drop n))
termination_by l.length
decreasing_by
  have := List.length_pos_of_ne_nil hl
  rw [List.length_drop]
  omega

/-- **The batches are the list.** -/
theorem flatten_batches (hn : 0 < n) (l : List α) : (batches n l).flatten = l := by
  refine batches_induction (P := fun l bs => bs.flatten = l) hn rfl (fun l _ ih => ?_) l
  rw [List.flatten_cons, ih, List.take_append_drop]

theorem ne_nil_of_mem_batches (hn : 0 < n) {b : List α} (hb : b ∈ batches n l) : b ≠ [] := by
  refine batches_induction (P := fun _ bs => ∀ b ∈ bs, b ≠ []) hn (by simp) (fun l hl ih => ?_) l b hb
  intro b hb
  rcases List.mem_cons.mp hb with rfl | hb
  · simp only [ne_eq, List.take_eq_nil_iff, hl, or_false]
    omega
  · exact ih b hb

theorem length_le_of_mem_batches {b : List α} (hb : b ∈ batches n l) : b.length ≤ n := by
  obtain ⟨i, -, rfl⟩ := List.mem_map.mp hb
  exact List.length_take_le _ _

theorem mem_of_mem_batches {b : List α} (hb : b ∈ batches n l) {x : α} (hx : x ∈ b) : x ∈ l := by
  obtain ⟨i, -, rfl⟩ := List.mem_map.mp hb
  exact List.mem_of_mem_drop (List.mem_of_mem_take hx)

end Paging
