import Mathlib.Algebra.Order.Ring.Int
import Mathlib.Data.Set.Insert
import Mathlib.Tactic.Set

/-! # A circle of `2 ^ w` points

Points are words of `w` bits and addition wraps.  `dist a b` counts the clockwise steps from `a` to
`b`; `steps a b` does the same but goes all the way round from a point to itself, so that seen from
`a` the whole circle is the line `1, …, 2 ^ w` and `a` is its last point.  On that line an arc that
starts at `a` is an initial segment, whether it wraps or not.

For a set of marked points, `First M a m` is the first one after `a` and `Last M k p` the last one
before `k`; `Owner M k m` is the first one at or after `k`.  `Last.dist_lt_of_jump` is the
halving argument: a jump to the first point at or after `n + 2 ^ i` more than halves a distance of
`2 ^ i` to `2 ^ (i + 1)`. -/

namespace Circle

variable {w : ℕ} {a b c k m n p : BitVec w}

/-- Clockwise steps from `a` to `b`, none if they are equal. -/
def dist (a b : BitVec w) : ℕ := (b - a).toNat

/-- Clockwise steps from `a` to `b`, the whole circle if they are equal. -/
def steps (a b : BitVec w) : ℕ := if a = b then 2 ^ w else dist a b

theorem dist_eq (a b : BitVec w) :
    dist a b = if a.toNat ≤ b.toNat then b.toNat - a.toNat else 2 ^ w + b.toNat - a.toNat := by
  have ha := a.isLt
  have hb := b.isLt
  rw [dist, BitVec.toNat_sub]
  split
  · rw [show 2 ^ w - a.toNat + b.toNat = b.toNat - a.toNat + 2 ^ w by omega, Nat.add_mod_right,
      Nat.mod_eq_of_lt (by omega)]
  · rw [Nat.mod_eq_of_lt (by omega)]
    omega

theorem steps_eq (a b : BitVec w) :
    steps a b = if a.toNat < b.toNat then b.toNat - a.toNat else 2 ^ w + b.toNat - a.toNat := by
  rw [steps, dist_eq]
  by_cases h : a = b
  · simp [h]
  · have : a.toNat ≠ b.toNat := fun he => h (BitVec.eq_of_toNat_eq he)
    rw [if_neg h]
    split <;> split <;> omega

theorem dist_self (a : BitVec w) : dist a a = 0 := by simp [dist]

theorem steps_self (a : BitVec w) : steps a a = 2 ^ w := by simp [steps]

theorem dist_eq_steps (h : a ≠ b) : dist a b = steps a b := by simp [steps, h]

theorem dist_lt (a b : BitVec w) : dist a b < 2 ^ w := (b - a).isLt

theorem steps_pos (a b : BitVec w) : 0 < steps a b := by
  have := a.isLt
  rw [steps_eq]
  split <;> omega

theorem steps_le (a b : BitVec w) : steps a b ≤ 2 ^ w := by
  have := b.isLt
  rw [steps_eq]
  split <;> omega

theorem steps_lt (h : a ≠ b) : steps a b < 2 ^ w := by
  rw [← dist_eq_steps h]
  exact dist_lt a b

theorem steps_injective (h : steps a b = steps a c) : b = c := by
  have := b.isLt
  have := c.isLt
  rw [steps_eq, steps_eq] at h
  apply BitVec.eq_of_toNat_eq
  split at h <;> split at h <;> omega

theorem steps_injective_left (h : steps a c = steps b c) : a = b := by
  have := a.isLt
  have := b.isLt
  rw [steps_eq, steps_eq] at h
  apply BitVec.eq_of_toNat_eq
  split at h <;> split at h <;> omega

theorem dist_injective (h : dist a b = dist a c) : b = c := by
  have := b.isLt
  have := c.isLt
  rw [dist_eq, dist_eq] at h
  apply BitVec.eq_of_toNat_eq
  split at h <;> split at h <;> omega

/-! ### One point seen from another -/

theorem steps_of_lt (h : steps a b < steps a c) : steps b c = steps a c - steps a b := by
  have := a.isLt
  have := b.isLt
  have := c.isLt
  simp only [steps_eq] at *
  split at h <;> split at h <;> split <;> omega

theorem steps_of_le (h : steps a c ≤ steps a b) : steps b c = 2 ^ w + steps a c - steps a b := by
  have := a.isLt
  have := b.isLt
  have := c.isLt
  simp only [steps_eq] at *
  split at h <;> split at h <;> split <;> omega

theorem dist_of_le (h : steps a b ≤ steps a c) : dist b c = steps a c - steps a b := by
  have := a.isLt
  have := b.isLt
  have := c.isLt
  simp only [steps_eq, dist_eq] at *
  split at h <;> split at h <;> split <;> omega

theorem dist_of_lt (h : steps a c < steps a b) : dist b c = 2 ^ w + steps a c - steps a b := by
  have := a.isLt
  have := b.isLt
  have := c.isLt
  simp only [steps_eq, dist_eq] at *
  split at h <;> split at h <;> split <;> omega

theorem steps_add (a : BitVec w) {d : ℕ} (h0 : 0 < d) (hd : d < 2 ^ w) :
    steps a (a + BitVec.ofNat w d) = d := by
  have ha := a.isLt
  rw [steps_eq, BitVec.toNat_add, BitVec.toNat_ofNat, Nat.mod_eq_of_lt hd]
  rcases Nat.lt_or_ge (a.toNat + d) (2 ^ w) with h | h
  · rw [Nat.mod_eq_of_lt h]
    split <;> omega
  · have hm : (a.toNat + d) % 2 ^ w = a.toNat + d - 2 ^ w := by
      rw [Nat.mod_eq_sub_mod h, Nat.mod_eq_of_lt (by omega)]
    rw [hm]
    split <;> omega

/-! ### Arcs by comparison of numbers -/

theorem arc_closed_iff (k a b : BitVec w) :
    (if a < b then a < k ∧ k ≤ b else a < k ∨ k ≤ b) ↔ steps a k ≤ steps a b := by
  have := a.isLt
  have := b.isLt
  have := k.isLt
  simp only [BitVec.lt_def, BitVec.le_def, steps_eq]
  split <;> split <;> omega

theorem arc_open_iff (k a b : BitVec w) :
    (if a < b then a < k ∧ k < b else a < k ∨ k < b) ↔ steps a k < steps a b := by
  have := a.isLt
  have := b.isLt
  have := k.isLt
  simp only [BitVec.lt_def, steps_eq]
  split <;> split <;> omega

/-! ### Marked points -/

variable {M : Set (BitVec w)}

/-- The first marked point after `a`. -/
structure First (M : Set (BitVec w)) (a m : BitVec w) : Prop where
  mem : m ∈ M
  le : ∀ m' ∈ M, steps a m ≤ steps a m'

/-- The first marked point at or after `k`. -/
structure Owner (M : Set (BitVec w)) (k m : BitVec w) : Prop where
  mem : m ∈ M
  le : ∀ m' ∈ M, dist k m ≤ dist k m'

/-- The last marked point before `k`. -/
structure Last (M : Set (BitVec w)) (k p : BitVec w) : Prop where
  mem : p ∈ M
  le : ∀ m' ∈ M, steps p k ≤ steps m' k

theorem First.unique (h : First M a m) (h' : First M a n) : m = n :=
  steps_injective (Nat.le_antisymm (h.le n h'.mem) (h'.le m h.mem))

theorem Owner.unique (h : Owner M k m) (h' : Owner M k n) : m = n :=
  dist_injective (Nat.le_antisymm (h.le n h'.mem) (h'.le m h.mem))

/-- **Whoever has `k` between itself and the next marked point knows the owner of `k`.** -/
theorem First.owner (h : First M a m) (hk : steps a k ≤ steps a m) : Owner M k m := by
  refine ⟨h.mem, fun m' hm' => ?_⟩
  have hle := h.le m' hm'
  rw [dist_of_le hk, dist_of_le (hk.trans hle)]
  omega

theorem Last.steps_lt (h : Last M k p) (hn : n ∈ M) (hne : n ≠ p) : steps n p < steps n k := by
  have hle := h.le n hn
  have hfull := Circle.steps_lt hne
  by_contra hcon
  rw [steps_of_le (Nat.le_of_not_lt hcon)] at hle
  omega

theorem Last.first_lt (h : Last M k p) (hn : n ∈ M) (hne : n ≠ p) (hf : First M n m) :
    steps n m < steps n k :=
  Nat.lt_of_le_of_lt (hf.le p h.mem) (h.steps_lt hn hne)

theorem Last.unique (h : Last M k p) (h' : Last M k n) : p = n := by
  by_contra hne
  have h₁ := h.steps_lt h'.mem fun he => hne he.symm
  have h₂ := h'.le p h.mem
  have h₃ := steps_pos n p
  rw [steps_of_lt h₁] at h₂
  omega

theorem First.last (h : First M a m) (ha : a ∈ M) : Last M m a := by
  refine ⟨ha, fun m' hm' => ?_⟩
  have := steps_le a m'
  rw [steps_of_le (h.le m' hm')]
  omega

theorem Last.first_insert (h : Last M k p) : First (insert k M) p k := by
  refine ⟨Set.mem_insert k M, fun m hm => ?_⟩
  rcases Set.mem_insert_iff.mp hm with rfl | hm
  · exact le_rfl
  by_contra hlt
  have hle := h.le m hm
  rw [steps_of_lt (Nat.lt_of_not_le hlt)] at hle
  have := steps_pos p m
  omega

theorem Last.first (h : Last M k p) (hk : k ∈ M) : First M p k := by
  have hfirst := h.first_insert
  rwa [Set.insert_eq_of_mem hk] at hfirst

theorem Last.first_le (h : Last M k p) (hf : First M p m) : steps p k ≤ steps p m :=
  h.first_insert.le m (Set.mem_insert_of_mem k hf.mem)

theorem Last.steps_le (h : Last M k p) (hm : m ∈ M) (hlt : steps n m < steps n k)
    (hp : steps n p < steps n k) : steps n m ≤ steps n p := by
  have hle := h.le m hm
  rw [steps_of_lt hlt, steps_of_lt hp] at hle
  omega

theorem Last.dist_jump (h : Last M k p) (hn : n ∈ M) (hne : n ≠ p) (hm : m ∈ M)
    (hlt : steps n m < steps n k) : dist m p + steps n m = dist n p := by
  have hle := h.steps_le hm hlt (h.steps_lt hn hne)
  rw [dist_of_le hle, dist_eq_steps hne]
  omega

/-- The owner of `n + d` seen from the marked point `n`: no closer than `d`, and no further than
any marked point from there on. -/
theorem Owner.steps_of_add {d : ℕ} (h0 : 0 < d) (hd : d < 2 ^ w)
    (h : Owner M (n + BitVec.ofNat w d) m) (hn : n ∈ M) :
    d ≤ steps n m ∧ ∀ m' ∈ M, d ≤ steps n m' → steps n m ≤ steps n m' := by
  have hadd := steps_add n h0 hd
  -- seen from `n`, the start of the search is at `d` and `n` itself at the end of the line
  have hself : dist (n + BitVec.ofNat w d) n = 2 ^ w - d := by
    rw [dist_of_le (a := n) (by rw [hadd, steps_self]; omega), hadd, steps_self]
  have hle := h.le n hn
  have hge : d ≤ steps n m := by
    by_contra hcon
    rw [dist_of_lt (a := n) (by omega), hadd] at hle
    have := steps_pos n m
    omega
  refine ⟨hge, fun m' hm' hd' => ?_⟩
  have hle' := h.le m' hm'
  rw [dist_of_le (a := n) (by omega), dist_of_le (a := n) (by omega), hadd] at hle'
  omega

/-- **Halving**: from a marked point at a distance below `2 ^ (i + 1)`, a jump of at least `2 ^ i`
to a marked point before `k` leaves a distance below `2 ^ i`. -/
theorem Last.dist_lt_of_jump {i : ℕ} (h : Last M k p) (hn : n ∈ M) (hne : n ≠ p) (hm : m ∈ M)
    (hlt : steps n m < steps n k) (hfar : dist n p < 2 ^ (i + 1)) (hjump : 2 ^ i ≤ steps n m) :
    dist m p < 2 ^ i := by
  have := h.dist_jump hn hne hm hlt
  have : 2 ^ (i + 1) = 2 ^ i + 2 ^ i := by rw [Nat.pow_succ]; omega
  omega

/-! ### A new point

A point `k` that is not marked yet is marked between the last one before it and its owner. -/

theorem Owner.first_insert (h : Owner M k m) (hk : k ∉ M) : First (insert k M) k m := by
  have hne : ∀ n ∈ M, k ≠ n := fun n hn he => hk (he ▸ hn)
  refine ⟨Set.mem_insert_of_mem k h.mem, fun n hn => ?_⟩
  rcases Set.mem_insert_iff.mp hn with rfl | hn
  · rw [steps_self]
    exact Circle.steps_le _ _
  · rw [← dist_eq_steps (hne m h.mem), ← dist_eq_steps (hne n hn)]
    exact h.le n hn

theorem Last.first_of_owner (h : Last M k p) (ho : Owner M k m) : First M p m := by
  refine ⟨ho.mem, fun n hn => ?_⟩
  have hfirst := h.first_insert
  have hle := ho.le n hn
  rw [dist_of_le (hfirst.le m (Set.mem_insert_of_mem k ho.mem)),
    dist_of_le (hfirst.le n (Set.mem_insert_of_mem k hn))] at hle
  have := hfirst.le n (Set.mem_insert_of_mem k hn)
  omega

theorem First.insert_of_ne (h : First M n m) (hl : Last M k p) (hn : n ∈ M) (hne : n ≠ p) :
    First (insert k M) n m := by
  refine ⟨Set.mem_insert_of_mem k h.mem, fun m' hm' => ?_⟩
  rcases Set.mem_insert_iff.mp hm' with rfl | hm'
  · exact Nat.le_of_lt (hl.first_lt hn hne h)
  · exact h.le m' hm'

end Circle
