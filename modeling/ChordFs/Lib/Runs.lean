import Mathlib.Algebra.Order.Ring.Int
import Mathlib.Data.List.Basic

/-! # Runs of a machine

A machine takes an event to its next state, or cannot take it.  What every step keeps, a run keeps
(`exec_induction`); and where a step keeps something only under a condition on the state before it,
a run keeps it whose steps all meet the condition (`Meets.induction`).

A `Trace` is a run that goes on for ever, with nothing happening in some of its moments.  What holds
until an event of some kind comes, and such an event comes, holds when it comes
(`Trace.reaches`). -/

namespace Runs

variable {S E : Type*} {step? : S → E → Option S} {s s' : S} {e : E} {es es' : List E}

/-- The state after some events, if all of them can be taken. -/
def exec (step? : S → E → Option S) (s : S) (es : List E) : Option S := es.foldlM step? s

theorem exec_cons : exec step? s (e :: es) = (step? s e).bind (exec step? · es) := rfl

theorem exec_append : exec step? s (es ++ es') = (exec step? s es).bind (exec step? · es') := by
  simp [exec, List.foldlM_append]

/-- **What every step keeps, a run keeps.** -/
theorem exec_induction {I : S → Prop} (hstep : ∀ s e s', e ∈ es → step? s e = some s' → I s → I s')
    (h : exec step? s es = some s') (hI : I s) : I s' := by
  induction es generalizing s with
  | nil =>
    cases h
    exact hI
  | cons e es ih =>
    rw [exec_cons] at h
    obtain ⟨s₁, h₁, h₂⟩ := Option.bind_eq_some_iff.mp h
    exact ih (fun s e s' he => hstep s e s' (List.mem_cons_of_mem _ he)) h₂
      (hstep _ _ _ List.mem_cons_self h₁ hI)

/-- A run with an end, of which a test shows something. -/
theorem exists_of_any {run : Option S} {Q : S → Prop} (test : S → Bool)
    (h : ∀ s, run = some s → test s = true → Q s) (hrun : run.any test = true) : ∃ s, run = some s ∧ Q s := by
  obtain ⟨s, hs, htest⟩ := (Option.any_eq_true ..).mp hrun
  exact ⟨s, hs, h s hs htest⟩

/-- Every step of the run meets `C`, judged by the state before it and the event. -/
def Meets (step? : S → E → Option S) (C : S → E → Prop) : S → List E → Prop
  | _, [] => True
  | s, e :: es => C s e ∧ ∀ s', step? s e = some s' → Meets step? C s' es

/-- The same for a test that can be run. -/
def checks (step? : S → E → Option S) (c : S → E → Bool) : S → List E → Bool
  | _, [] => true
  | s, e :: es => c s e && (step? s e).all (checks step? c · es)

theorem meets_of_checks {C : S → E → Prop} {c : S → E → Bool} (hc : ∀ s e, c s e = true → C s e)
    (h : checks step? c s es = true) : Meets step? C s es := by
  induction es generalizing s with
  | nil => trivial
  | cons e es ih =>
    rw [checks, Bool.and_eq_true] at h
    refine ⟨hc s e h.1, fun s' hs' => ih ?_⟩
    rw [hs'] at h
    exact h.2

theorem Meets.append {C : S → E → Prop} (hC : Meets step? C s (es ++ es')) (h : exec step? s es = some s') :
    Meets step? C s' es' := by
  induction es generalizing s with
  | nil =>
    cases h
    exact hC
  | cons e es ih =>
    rw [exec_cons] at h
    obtain ⟨s₁, h₁, h₂⟩ := Option.bind_eq_some_iff.mp h
    exact ih (hC.2 s₁ h₁) h₂

/-- **What every step that meets the condition keeps, a run of such steps keeps.** -/
theorem Meets.induction {C : S → E → Prop} {I : S → Prop} (hC : Meets step? C s es)
    (hstep : ∀ s e s', e ∈ es → step? s e = some s' → C s e → I s → I s')
    (h : exec step? s es = some s') (hI : I s) : I s' := by
  induction es generalizing s with
  | nil =>
    cases h
    exact hI
  | cons e es ih =>
    rw [exec_cons] at h
    obtain ⟨s₁, h₁, h₂⟩ := Option.bind_eq_some_iff.mp h
    exact ih (hC.2 s₁ h₁) (fun s e s' he => hstep s e s' (List.mem_cons_of_mem _ he)) h₂
      (hstep _ _ _ List.mem_cons_self h₁ hC.1 hI)

/-! ### Runs that go on for ever -/

/-- A run without an end: the state in every moment, and the event, if there is one. -/
structure Trace (step? : S → E → Option S) where
  state : ℕ → S
  event : ℕ → Option E
  step : ∀ n e, event n = some e → step? (state n) e = some (state (n + 1))
  idle : ∀ n, event n = none → state (n + 1) = state n

namespace Trace

variable {τ : Trace step?} {P : S → Prop} {n m : ℕ}

/-- **What every step keeps stays.** -/
theorem stays (hstep : ∀ s e s', step? s e = some s' → P s → P s') (hnm : n ≤ m) (h : P (τ.state n)) :
    P (τ.state m) := by
  induction hnm with
  | refl => exact h
  | @step m _ ih =>
    cases he : τ.event m with
    | none =>
      rw [τ.idle m he]
      exact ih
    | some e => exact hstep _ e _ (τ.step m e he) ih

/-- **What only events of a kind can end holds when the next of them comes.** -/
theorem reaches {F : E → Prop} (hstep : ∀ s e s', step? s e = some s' → ¬ F e → P s → P s')
    (h : P (τ.state n)) (hnext : ∃ m e, n ≤ m ∧ τ.event m = some e ∧ F e) :
    ∃ m e, n ≤ m ∧ τ.event m = some e ∧ F e ∧ P (τ.state m) := by
  obtain ⟨m, e, hnm, he, hF⟩ := hnext
  -- on the moments left until an event of the kind
  induction hd : m - n generalizing n with
  | zero =>
    obtain rfl : n = m := by omega
    exact ⟨n, e, hnm, he, hF, h⟩
  | succ d ih =>
    by_cases hnow : ∃ e', τ.event n = some e' ∧ F e'
    · obtain ⟨e', he', hF'⟩ := hnow
      exact ⟨n, e', Nat.le_refl n, he', hF', h⟩
    · have hnext : P (τ.state (n + 1)) := by
        cases hen : τ.event n with
        | none =>
          rw [τ.idle n hen]
          exact h
        | some e' => exact hstep _ e' _ (τ.step n e' hen) (fun hF' => hnow ⟨e', hen, hF'⟩) h
      obtain ⟨m', e', hle, h'⟩ := ih hnext (by omega) (by omega)
      exact ⟨m', e', by omega, h'⟩

/-- Some events, and then nothing. -/
def ofList (s : S) (es : List E) (h : (exec step? s es).isSome = true) : Trace step? where
  state n := (exec step? s (es.take n)).getD s
  event n := es[n]?
  step n e he := by
    obtain ⟨hlt, rfl⟩ := List.getElem?_eq_some_iff.mp he
    rw [← List.take_append_drop (n + 1) es, exec_append] at h
    rw [List.take_succ_eq_append_getElem hlt, exec_append] at h ⊢
    cases hpre : exec step? s (es.take n) with
    | none => simp [hpre] at h
    | some s₁ =>
      rw [hpre, Option.bind_some, exec_cons] at h
      rw [Option.bind_some, exec_cons, Option.getD_some]
      cases hs : step? s₁ es[n] with
      | none => simp [hs] at h
      | some s₂ => rfl
  idle n he := by
    have hle := List.getElem?_eq_none_iff.mp he
    rw [List.take_of_length_le hle, List.take_of_length_le (by omega)]

theorem state_ofList_of_le (h : (exec step? s es).isSome = true) (hn : es.length ≤ n) :
    (ofList s es h).state n = (ofList s es h).state es.length := by
  simp only [ofList]
  rw [List.take_of_length_le hn, List.take_length]

end Trace

end Runs
