import ChordFs.Lib.Dialogue
import ChordFs.Lib.Runs
import Mathlib.Algebra.Order.Ring.Int
import Mathlib.Data.List.Basic

/-! # Programs that run together

A `Pool` is a state and the programs under way over it, each with the dialogue it has had so far.
The environment picks what happens next: it starts a program, lets one take the lock, answers one,
or lets a finished one go on with what it has left for later.  Whatever the order and whatever the
answers, a program that follows its rules when it runs alone follows them here, and the state
changes only as the rules allow (`Scheme.Obeys.exec`, `Scheme.Obeys.change`). -/

namespace Dialogue

variable {σ Q A ι α : Type}

/-- A program under way: what it is for, its dialogue, newest first, and what is left of it. -/
structure Job (σ Q A ι α : Type) where
  tag : ι
  turns : List (Turn σ Q fun _ => A)
  code : Prog σ Q (fun _ => A) α

/-- What happens in a pool. -/
inductive Happening (σ Q A ι α : Type) where
  | began (i : ℕ) (tag : ι)
  | turn (i : ℕ) (e : Turn σ Q fun _ => A)
  | ended (i : ℕ) (a : α)

structure Pool (σ Q A ι α : Type) where
  state : σ
  jobs : List (Job σ Q A ι α)
  /-- Everything that has happened, newest first. -/
  past : List (Happening σ Q A ι α)

/-- What the environment can pick. -/
inductive Pick (A ι : Type) where
  | start (tag : ι)
  | lock (i : ℕ)
  | answer (i : ℕ) (a : A)
  | finish (i : ℕ)
deriving DecidableEq

/-- The programs of a pool: how each begins, and what a result leaves for later. -/
structure Scheme (σ Q A ι α : Type) where
  start : ι → Prog σ Q (fun _ => A) α
  resume : α → Option (Prog σ Q (fun _ => A) α)

namespace Scheme

variable (K : Scheme σ Q A ι α)

def step? (P : Pool σ Q A ι α) : Pick A ι → Option (Pool σ Q A ι α)
  | .start tag =>
    some ⟨P.state, P.jobs ++ [⟨tag, [], K.start tag⟩], .began P.jobs.length tag :: P.past⟩
  | .lock i =>
    match P.jobs[i]? with
    | some ⟨tag, H, .lock f next⟩ =>
      some ⟨f P.state, P.jobs.set i ⟨tag, .held P.state (f P.state) :: H, next P.state⟩,
        .turn i (.held P.state (f P.state)) :: P.past⟩
    | _ => none
  | .answer i a =>
    match P.jobs[i]? with
    | some ⟨tag, H, .call q next⟩ =>
      some ⟨P.state, P.jobs.set i ⟨tag, .said q a :: H, next a⟩, .turn i (.said q a) :: P.past⟩
    | _ => none
  | .finish i =>
    match P.jobs[i]? with
    | some ⟨tag, H, .done b⟩ =>
      (K.resume b).map fun p => ⟨P.state, P.jobs.set i ⟨tag, H, p⟩, .ended i b :: P.past⟩
    | _ => none

def exec (P : Pool σ Q A ι α) (picks : List (Pick A ι)) : Option (Pool σ Q A ι α) :=
  Runs.exec K.step? P picks

/-- Every step of the run is one of `C`, judged by the pool before it and the pick. -/
abbrev Meets (C : Pool σ Q A ι α → Pick A ι → Prop) (P : Pool σ Q A ι α) (picks : List (Pick A ι)) : Prop :=
  Runs.Meets K.step? C P picks

/-- The same for a test that can be run. -/
abbrev checks (c : Pool σ Q A ι α → Pick A ι → Bool) (P : Pool σ Q A ι α) (picks : List (Pick A ι)) : Bool :=
  Runs.checks K.step? c P picks

/-- Everything a pick can do. -/
inductive Moves (P : Pool σ Q A ι α) : Pick A ι → Pool σ Q A ι α → Prop
  | start (tag : ι) : Moves P (.start tag)
      ⟨P.state, P.jobs ++ [⟨tag, [], K.start tag⟩], .began P.jobs.length tag :: P.past⟩
  | lock {i : ℕ} {tag : ι} {H : List (Turn σ Q fun _ => A)} {f : σ → σ}
      {next : σ → Prog σ Q (fun _ => A) α} : P.jobs[i]? = some ⟨tag, H, .lock f next⟩ →
      Moves P (.lock i) ⟨f P.state,
        P.jobs.set i ⟨tag, .held P.state (f P.state) :: H, next P.state⟩,
        .turn i (.held P.state (f P.state)) :: P.past⟩
  | answer {i : ℕ} {tag : ι} {H : List (Turn σ Q fun _ => A)} {q : Q}
      {next : A → Prog σ Q (fun _ => A) α} (a : A) : P.jobs[i]? = some ⟨tag, H, .call q next⟩ →
      Moves P (.answer i a) ⟨P.state, P.jobs.set i ⟨tag, .said q a :: H, next a⟩,
        .turn i (.said q a) :: P.past⟩
  | finish {i : ℕ} {tag : ι} {H : List (Turn σ Q fun _ => A)} {b : α}
      {p : Prog σ Q (fun _ => A) α} : P.jobs[i]? = some ⟨tag, H, .done b⟩ → K.resume b = some p →
      Moves P (.finish i) ⟨P.state, P.jobs.set i ⟨tag, H, p⟩, .ended i b :: P.past⟩

variable {K} {P P' : Pool σ Q A ι α} {pick : Pick A ι} {picks : List (Pick A ι)}

variable {I : Pool σ Q A ι α → Prop} {C : Pool σ Q A ι α → Pick A ι → Prop}

theorem moves_of_step? (h : K.step? P pick = some P') : K.Moves P pick P' := by
  cases pick with
  | start tag =>
    cases h
    exact .start tag
  | lock i =>
    simp only [step?] at h
    split at h
    · rename_i hj
      cases h
      exact .lock hj
    · cases h
  | answer i a =>
    simp only [step?] at h
    split at h
    · rename_i hj
      cases h
      exact .answer a hj
    · cases h
  | finish i =>
    simp only [step?] at h
    split at h
    · rename_i hj
      obtain ⟨p, hp, rfl⟩ := Option.map_eq_some_iff.mp h
      exact .finish hj hp
    · cases h

theorem exec_append (picks' : List (Pick A ι)) :
    K.exec P (picks ++ picks') = (K.exec P picks).bind (K.exec · picks') :=
  Runs.exec_append

/-- **What every step keeps, a run keeps.** -/
theorem exec_induction (hstep : ∀ P pick P', K.Moves P pick P' → I P → I P') (h : K.exec P picks = some P')
    (hI : I P) : I P' :=
  Runs.exec_induction (fun _ _ _ _ hs => hstep _ _ _ (moves_of_step? hs)) h hI

theorem Meets.induction (hC : K.Meets C P picks)
    (hstep : ∀ P pick P', K.Moves P pick P' → C P pick → I P → I P') (h : K.exec P picks = some P')
    (hI : I P) : I P' :=
  Runs.Meets.induction hC (fun _ _ _ _ hs => hstep _ _ _ (moves_of_step? hs)) h hI

/-! ### Rules -/

/-- Every program follows the rules for its purpose, when it begins and when it goes on, as long as
the state is one of `I`, which the rules keep. -/
structure Obeys (K : Scheme σ Q A ι α) (R : ι → Rules σ Q fun _ => A)
    (post : ι → List (Turn σ Q fun _ => A) → α → Prop) (I : σ → Prop) : Prop where
  held : ∀ t H s s', I s → (R t).assume H (.held s s')
  said : ∀ t H q a, (R t).assume H (.said q a)
  keeps : ∀ t H s s', I s → (R t).change H s s' → I s'
  start : ∀ t, Sat (R t) (post t) [] (K.start t)
  resume : ∀ t H b p, post t H b → K.resume b = some p → Sat (R t) (post t) H p

/-- Every job follows its rules from where it stands. -/
def Lawful (R : ι → Rules σ Q fun _ => A)
    (post : ι → List (Turn σ Q fun _ => A) → α → Prop) (I : σ → Prop) (P : Pool σ Q A ι α) : Prop :=
  I P.state ∧ ∀ j ∈ P.jobs, Sat (R j.tag) (post j.tag) j.turns j.code

section
variable {R : ι → Rules σ Q fun _ => A} {post : ι → List (Turn σ Q fun _ => A) → α → Prop}
  {I : σ → Prop}

theorem Obeys.change (hK : K.Obeys R post I) (hP : Lawful R post I P) {i : ℕ} {tag : ι}
    {H : List (Turn σ Q fun _ => A)} {f : σ → σ} {next : σ → Prog σ Q (fun _ => A) α}
    (hj : P.jobs[i]? = some ⟨tag, H, .lock f next⟩) : (R tag).change H P.state (f P.state) :=
  (hP.2 _ (List.mem_of_getElem? hj) P.state (hK.held _ _ _ _ hP.1)).1

theorem Obeys.moves (hK : K.Obeys R post I) (hm : K.Moves P pick P') (hP : Lawful R post I P) :
    Lawful R post I P' := by
  cases hm with
  | start tag =>
    refine ⟨hP.1, fun j hj => ?_⟩
    rcases List.mem_append.mp hj with hj | hj
    · exact hP.2 j hj
    · rw [List.mem_singleton.mp hj]
      exact hK.start tag
  | lock hi =>
    have hsat := hP.2 _ (List.mem_of_getElem? hi) P.state (hK.held _ _ _ _ hP.1)
    refine ⟨hK.keeps _ _ _ _ hP.1 hsat.1, fun j hj => ?_⟩
    rcases List.mem_or_eq_of_mem_set hj with hj | rfl
    · exact hP.2 j hj
    · exact hsat.2
  | answer a hi =>
    refine ⟨hP.1, fun j hj => ?_⟩
    rcases List.mem_or_eq_of_mem_set hj with hj | rfl
    · exact hP.2 j hj
    · exact (hP.2 _ (List.mem_of_getElem? hi)).2 a (hK.said _ _ _ _)
  | finish hi hp =>
    refine ⟨hP.1, fun j hj => ?_⟩
    rcases List.mem_or_eq_of_mem_set hj with hj | rfl
    · exact hP.2 j hj
    · exact hK.resume _ _ _ _ (hP.2 _ (List.mem_of_getElem? hi)) hp

/-- **In a pool every program follows its rules to the end.** -/
theorem Obeys.exec (hK : K.Obeys R post I) (h : K.exec P picks = some P')
    (hP : Lawful R post I P) : Lawful R post I P' :=
  exec_induction (fun _ _ _ hm => hK.moves hm) h hP

end

end Scheme

end Dialogue
