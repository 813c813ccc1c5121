import ChordFs.Lib.Circle
import Mathlib.Algebra.Order.Ring.Int
import Mathlib.Logic.Function.Basic
import Mathlib.Logic.Relation

/-! # Walks round a circle

Every node has a position on a circle and points to a next node.  `Walk pos next a b`: following the
pointers from `a` one gets to `b` in less than one turn, or in exactly one if `b` is `a`, and never
past it.

Such walks survive when a node is pointed to a nearer one that has a walk to its old target
(`Walk.shorten`).  And if the pointers are injective and lead from everywhere to a node with a walk
round the circle, then everyone points to the nearest node (`first_of_walk`). -/

namespace Circle

open Function

variable {w : ℕ} {P : Type*} {pos : P → BitVec w} {next : P → P} {a b c n z : P}

/-- The pointers lead from `a` to `b` within one turn. -/
inductive Walk (pos : P → BitVec w) (next : P → P) : P → P → Prop
  | last {a b : P} : next a = b → Walk pos next a b
  | step {a b : P} : steps (pos a) (pos (next a)) < steps (pos a) (pos b) → Walk pos next (next a) b →
      Walk pos next a b

/-- The pointers lead from `a` to `b`. -/
abbrev Leads (next : P → P) : P → P → Prop := Relation.ReflTransGen fun a b => next a = b

theorem Walk.leads (h : Walk pos next a b) : Leads next a b := by
  induction h with
  | last h => exact .single h
  | step _ _ ih => exact .head rfl ih

theorem Leads.mem {M : P → Prop} (hM : ∀ a, M a → M (next a)) (h : Leads next a b) (ha : M a) :
    M b := by
  induction h with
  | refl => exact ha
  | tail _ hb ih => exact hb ▸ hM _ ih

theorem Walk.next_le (h : Walk pos next a b) :
    steps (pos a) (pos (next a)) ≤ steps (pos a) (pos b) := by
  cases h with
  | last h => rw [h]
  | step h _ => exact Nat.le_of_lt h

theorem Walk.trans (h : Walk pos next a b) (h' : Walk pos next b c)
    (hlt : steps (pos a) (pos b) < steps (pos a) (pos c)) : Walk pos next a c := by
  induction h with
  | last h =>
    subst h
    exact .step hlt h'
  | @step a b hstep _ ih =>
    refine .step (Nat.lt_trans hstep hlt) (ih h' ?_)
    rw [steps_of_lt hstep, steps_of_lt (Nat.lt_trans hstep hlt)]
    omega

theorem Walk.cut (h : Walk pos next a b) (h' : Walk pos next a c)
    (hlt : steps (pos a) (pos b) < steps (pos a) (pos c)) : Walk pos next b c := by
  induction h with
  | last h =>
    subst h
    cases h' with
    | last h' =>
      rw [h'] at hlt
      exact absurd hlt (Nat.lt_irrefl _)
    | step _ h' => exact h'
  | @step a b hstep _ ih =>
    cases h' with
    | last h' =>
      rw [← h'] at hlt
      omega
    | step hstep' h' =>
      refine ih h' ?_
      rw [steps_of_lt hstep, steps_of_lt hstep']
      omega

theorem Walk.exists_last (h : Walk pos next a b) : ∃ v, next v = b ∧
    (v = a ∨ Walk pos next a v ∧ steps (pos a) (pos v) < steps (pos a) (pos b)) := by
  induction h with
  | @last a b h => exact ⟨a, h, .inl rfl⟩
  | @step a b hstep _ ih =>
    obtain ⟨v, hv, rfl | ⟨hwalk, hlt⟩⟩ := ih
    · exact ⟨next a, hv, .inr ⟨.last rfl, hstep⟩⟩
    · refine ⟨v, hv, .inr ?_⟩
      have hb := steps_le (pos a) (pos b)
      have hv0 := steps_pos (pos (next a)) (pos v)
      rw [steps_of_lt hstep] at hlt
      have hav : steps (pos a) (pos (next a)) < steps (pos a) (pos v) := by
        by_contra hcon
        rw [steps_of_le (Nat.le_of_not_lt hcon)] at hlt
        omega
      rw [steps_of_lt hav] at hlt
      exact ⟨.step hav hwalk, by omega⟩

/-! ### Other pointers -/

section
variable {next' : P → P} {M : P → Prop} (hM : ∀ a, M a → M (next a) ∧ next' a = next a) (ha : M a)
include hM ha

theorem Walk.congr (h : Walk pos next a b) : Walk pos next' a b := by
  induction h with
  | last h => exact .last ((hM _ ha).2.trans h)
  | step hstep _ ih =>
    obtain ⟨hnext, heq⟩ := hM _ ha
    have := ih hnext
    rw [← heq] at hstep this
    exact .step hstep this

theorem Leads.congr (h : Leads next a b) : Leads next' a b := by
  induction h with
  | refl => exact .refl
  | @tail b c hab hb ih =>
    exact ih.tail ((hM b (Leads.mem (fun a h => (hM a h).1) hab ha)).2.trans hb)

end

section shorten
variable [DecidableEq P]

/-- A walk to the old target of `n` from nearer than `n` never comes by `n`. -/
theorem Walk.update_of_lt {x : P} (h : Walk pos next c b)
    (hlt : steps (pos n) (pos c) < steps (pos n) (pos b)) : Walk pos (update next n x) c b := by
  induction h with
  | @last c b h =>
    have hne : c ≠ n := by
      rintro rfl
      have := steps_le (pos c) (pos b)
      rw [steps_self] at hlt
      omega
    exact .last (by rw [update_of_ne hne, h])
  | @step c b hstep _ ih =>
    have hle := steps_le (pos n) (pos b)
    have hne : c ≠ n := by
      rintro rfl
      rw [steps_self] at hlt
      omega
    have hnext : update next n x c = next c := update_of_ne hne ..
    refine .step (by rwa [hnext]) ?_
    rw [hnext]
    apply ih
    -- seen from `n`, the step stays before `b`
    rw [steps_of_lt hlt] at hstep
    have hpos := steps_pos (pos c) (pos (next c))
    by_contra hcon
    rcases Nat.lt_or_ge (steps (pos n) (pos c)) (steps (pos n) (pos (next c))) with hc | hc
    · rw [steps_of_lt hc] at hstep
      omega
    · rw [steps_of_le hc] at hstep
      omega

section
variable (hc : Walk pos next c (next n))
  (hlt : steps (pos n) (pos c) < steps (pos n) (pos (next n)))
include hc hlt

/-- **A shorter pointer**: every walk survives if the new target is nearer and has a walk to the old
one. -/
theorem Walk.shorten (h : Walk pos next a b) : Walk pos (update next n c) a b := by
  have hcn : Walk pos (update next n c) n (next n) := by
    refine .step ?_ ?_
    · rwa [update_self]
    · rw [update_self]
      exact hc.update_of_lt hlt
  induction h with
  | @last a b h =>
    by_cases han : a = n
    · subst han h
      exact hcn
    · exact .last (by rw [update_of_ne han, h])
  | @step a b hstep _ ih =>
    by_cases han : a = n
    · subst han
      exact hcn.trans ih hstep
    · have hnext : update next n c a = next a := update_of_ne han ..
      exact .step (by rwa [hnext]) (by rwa [hnext])

theorem Leads.shorten (h : Leads next a b) : Leads (update next n c) a b := by
  induction h with
  | refl => exact .refl
  | tail _ hb ih => exact ih.trans (hb ▸ Walk.shorten hc hlt (.last rfl)).leads

end

end shorten

/-! ### Everyone's nearest node -/

section nearest
variable {M : P → Prop}

theorem walk_of_first (hinj : ∀ a b, M a → M b → pos a = pos b → a = b) (hM : ∀ a, M a → M (next a))
    (hfirst : ∀ a b, M a → M b → steps (pos a) (pos (next a)) ≤ steps (pos a) (pos b)) (ha : M a)
    (hb : M b) : Walk pos next a b := by
  -- by the length of the way from `a` to `b`
  induction hd : steps (pos a) (pos b) using Nat.strong_induction_on generalizing a with
  | _ d ih =>
    subst hd
    rcases Nat.lt_or_eq_of_le (hfirst a b ha hb) with hlt | heq
    · refine .step hlt (ih _ ?_ (hM a ha) rfl)
      rw [steps_of_lt hlt]
      have := steps_pos (pos a) (pos (next a))
      omega
    · exact .last (hinj _ _ (hM a ha) hb (steps_injective heq))

theorem Walk.between (hinj : pos b = pos a → b = a) (hround : Walk pos next a a)
    (hb : Walk pos next a b) (hc : Walk pos next a c) : Walk pos next b c := by
  rcases Nat.lt_or_ge (steps (pos a) (pos b)) (steps (pos a) (pos c)) with hlt | hge
  · exact hb.cut hc hlt
  by_cases hba : b = a
  · rw [hba]
    exact hc
  -- on to `a` and from there to `c`
  have hturn : steps (pos a) (pos b) < steps (pos a) (pos a) := by
    rw [steps_self]
    exact steps_lt fun h => hba (hinj h.symm)
  refine (hb.cut hround hturn).trans hc ?_
  have := steps_pos (pos a) (pos c)
  rw [steps_of_lt hturn, steps_of_le hge, steps_self]
  rw [steps_self] at hturn
  omega

/-- **Pointers that are injective, lead everywhere to one node and go round from there point to the
nearest node.** -/
theorem first_of_walk (hinj : ∀ a b, M a → M b → pos a = pos b → a = b) (hM : ∀ a, M a → M (next a))
    (hnext : ∀ a b, M a → M b → next a = next b → a = b) (ha : M a) (hround : Walk pos next a a)
    (hleads : ∀ b, M b → Leads next b a) (hb : M b) (hc : M c) :
    steps (pos b) (pos (next b)) ≤ steps (pos b) (pos c) := by
  -- everyone is met on the way round: whoever points to somebody met is met itself
  have hmet : ∀ b, M b → Walk pos next a b := by
    intro b hb
    have hlead := hleads b hb
    induction hlead using Relation.ReflTransGen.head_induction_on with
    | refl => exact hround
    | @head b c hbc _ ih =>
      subst hbc
      obtain ⟨v, hv, hva⟩ := (ih (hM b hb)).exists_last
      rcases hva with rfl | ⟨hwalk, _⟩
      · rw [hnext b v hb ha hv.symm]
        exact hround
      · rw [hnext b v hb (hwalk.leads.mem hM ha) hv.symm]
        exact hwalk
  exact (Walk.between (hinj b a hb ha) hround (hmet b hb) (hmet c hc)).next_le

end nearest

end Circle
