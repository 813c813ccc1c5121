import Mathlib.Algebra.Order.Ring.Int
import Mathlib.Init

/-! # Programs that lock a state and ask questions

A `Prog` is a program as its environment sees it: it takes a lock to look at a state and change it,
or asks a question and goes on with the answer.  Between two of these steps the state can change
under it and nothing is known of the answers, so what can be said of such a program is what it does
in every dialogue.

`Sat R post H p` says it: with `H` the events so far, newest first, `p` makes only changes and asks
only questions that the rules `R` allow after what it has seen, and `post` holds where it ends, as
long as every event is one that `R` assumes.  The rules for sequencing are `Sat.bind` and
`Sat.mono`. -/

namespace Dialogue

universe u v

/-- A program over a shared state `σ`, with questions `Q` and their answers. -/
inductive Prog (σ : Type u) (Q : Type u) (A : Q → Type u) (α : Type v) where
  | done (a : α)
  /-- One critical section: the change, and how to go on from the state that was found. -/
  | lock (update : σ → σ) (next : σ → Prog σ Q A α)
  | call (q : Q) (next : A q → Prog σ Q A α)

variable {σ Q : Type u} {A : Q → Type u} {α β : Type v}

namespace Prog

def bind : Prog σ Q A α → (α → Prog σ Q A β) → Prog σ Q A β
  | done a, k => k a
  | lock f next, k => lock f fun s => (next s).bind k
  | call q next, k => call q fun a => (next a).bind k

instance : Monad (Prog σ Q A) where
  pure := done
  bind := bind

/-- Ask, and return the answer. -/
def ask (q : Q) : Prog σ Q A (A q) := call q done

/-- A critical section that returns a value. -/
def sect {α : Type u} (f : σ → α × σ) : Prog σ Q A α := lock (fun s => (f s).2) fun s => done (f s).1

end Prog

/-- What happens to a program: it held the lock, or was answered. -/
inductive Turn (σ : Type u) (Q : Type u) (A : Q → Type u) where
  | held (found left : σ)
  | said (q : Q) (a : A q)

/-- What is assumed of the events, and which changes and questions are allowed.  The list holds the
events so far, newest first. -/
structure Rules (σ : Type u) (Q : Type u) (A : Q → Type u) where
  assume : List (Turn σ Q A) → Turn σ Q A → Prop
  change : List (Turn σ Q A) → σ → σ → Prop
  ask : List (Turn σ Q A) → Q → Prop

/-- The program follows the rules, and ends with `post`. -/
def Sat (R : Rules σ Q A) (post : List (Turn σ Q A) → α → Prop) :
    List (Turn σ Q A) → Prog σ Q A α → Prop
  | H, .done a => post H a
  | H, .lock f next => ∀ s, R.assume H (.held s (f s)) →
      R.change H s (f s) ∧ Sat R post (.held s (f s) :: H) (next s)
  | H, .call q next => R.ask H q ∧
      ∀ a, R.assume H (.said q a) → Sat R post (.said q a :: H) (next a)

section rules
variable {R R' : Rules σ Q A} {post post' : List (Turn σ Q A) → α → Prop}
  {H : List (Turn σ Q A)} {p : Prog σ Q A α}

theorem Sat.mono (h : Sat R post H p) (hp : ∀ H a, post H a → post' H a) : Sat R post' H p := by
  induction p generalizing H with
  | done a => exact hp H a h
  | lock f next ih => exact fun s hs => ⟨(h s hs).1, ih s (h s hs).2⟩
  | call q next ih => exact ⟨h.1, fun a ha => ih a (h.2 a ha)⟩

/-- Rules that assume more and allow more are followed too. -/
theorem Sat.weaken (h : Sat R post H p) (hassume : ∀ H e, R'.assume H e → R.assume H e)
    (hchange : ∀ H s s', R.change H s s' → R'.change H s s') (hask : ∀ H q, R.ask H q → R'.ask H q) :
    Sat R' post H p := by
  induction p generalizing H with
  | done a => exact h
  | lock f next ih =>
    exact fun s hs => ⟨hchange _ _ _ (h s (hassume _ _ hs)).1, ih s (h s (hassume _ _ hs)).2⟩
  | call q next ih => exact ⟨hask _ _ h.1, fun a ha => ih a (h.2 a (hassume _ _ ha))⟩

/-- **Sequencing.** -/
theorem Sat.bind {post : List (Turn σ Q A) → β → Prop} {k : α → Prog σ Q A β}
    (h : Sat R (fun H a => Sat R post H (k a)) H p) : Sat R post H (p >>= k) := by
  induction p generalizing H with
  | done a => exact h
  | lock f next ih => exact fun s hs => ⟨(h s hs).1, ih s (h s hs).2⟩
  | call q next ih => exact ⟨h.1, fun a ha => ih a (h.2 a ha)⟩

theorem sat_pure {a : α} (h : post H a) : Sat R post H (pure a) := h

theorem sat_sect {α : Type u} {f : σ → α × σ} {post : List (Turn σ Q A) → α → Prop}
    (h : ∀ s, R.assume H (.held s (f s).2) → R.change H s (f s).2 ∧ post (.held s (f s).2 :: H) (f s).1) :
    Sat R post H (.sect f) := h

theorem sat_ask {q : Q} {post : List (Turn σ Q A) → A q → Prop} (hq : R.ask H q)
    (h : ∀ a, R.assume H (.said q a) → post (.said q a :: H) a) : Sat R post H (.ask q) :=
  ⟨hq, h⟩

end rules

/-- The rules that only assume. -/
def freeRules (assume : List (Turn σ Q A) → Turn σ Q A → Prop) : Rules σ Q A where
  assume := assume
  change _ _ _ := True
  ask _ _ := True

variable {H H₁ H₂ : List (Turn σ Q A)} {R : Rules σ Q A} {post : List (Turn σ Q A) → α → Prop}
  {p p' q : Prog σ Q A α} {e : Turn σ Q A}

theorem sat_of_stable {assume : List (Turn σ Q A) → Turn σ Q A → Prop} {P : List (Turn σ Q A) → Prop}
    (hP : ∀ e H, P H → P (e :: H)) (h : P H) (p : Prog σ Q A α) :
    Sat (freeRules assume) (fun H _ => P H) H p := by
  induction p generalizing H with
  | done a => exact h
  | lock f next ih => exact fun s _ => ⟨trivial, ih s (hP _ _ h)⟩
  | call q next ih => exact ⟨trivial, fun a _ => ih a (hP _ _ h)⟩

/-! ### Single steps -/

/-- One event of a program. -/
inductive Prog.Step : Prog σ Q A α → Turn σ Q A → Prog σ Q A α → Prop
  | lock (f : σ → σ) (next : σ → Prog σ Q A α) (s : σ) : Step (.lock f next) (.held s (f s)) (next s)
  | call (q : Q) (next : A q → Prog σ Q A α) (a : A q) : Step (.call q next) (.said q a) (next a)

theorem Sat.step (h : Sat R post H p) (hs : p.Step e p') (ha : R.assume H e) : Sat R post (e :: H) p' := by
  cases hs with
  | lock f next s => exact (h s ha).2
  | call q next a => exact h.2 a ha

theorem Sat.changed {s s' : σ} (h : Sat R post H p) (hs : p.Step (.held s s') p')
    (ha : R.assume H (.held s s')) : R.change H s s' := by
  cases hs with
  | lock f next s => exact (h s ha).1

/-- The events of a dialogue that has led a program to another, newest first. -/
inductive Prog.Run : Prog σ Q A α → List (Turn σ Q A) → Prog σ Q A α → Prop
  | nil (p : Prog σ Q A α) : Run p [] p
  | cons {p p' p'' : Prog σ Q A α} {H : List (Turn σ Q A)} {e : Turn σ Q A} :
      Run p H p' → p'.Step e p'' → Run p (e :: H) p''

theorem Prog.Run.head (hs : p.Step e p') (hr : p'.Run H q) : p.Run (H ++ [e]) q := by
  induction hr with
  | nil => exact .cons (.nil p) hs
  | cons _ hs' ih => exact .cons ih hs'

theorem Prog.Run.before (hr : p.Run (H₁ ++ e :: H₂) q) :
    ∃ p₁ p₂ : Prog σ Q A α, p.Run H₂ p₁ ∧ p₁.Step e p₂ := by
  induction H₁ generalizing q with
  | nil =>
    cases hr with
    | cons hr hs => exact ⟨_, _, hr, hs⟩
  | cons e' H₁ ih =>
    cases hr with
    | cons hr hs => exact ih hr

theorem Sat.traced (h : Sat R post H p) :
    Sat R (fun H' a => post H' a ∧ ∃ T, H' = T ++ H ∧ p.Run T (.done a)) H p := by
  induction p generalizing H with
  | done a => exact ⟨h, [], rfl, .nil _⟩
  | lock f next ih =>
    refine fun s hs => ⟨(h s hs).1, (ih s (h s hs).2).mono ?_⟩
    rintro H' a ⟨hp, T, rfl, hr⟩
    exact ⟨hp, T ++ [.held s (f s)], by simp, .head (.lock f next s) hr⟩
  | call q next ih =>
    refine ⟨h.1, fun b hb => (ih b (h.2 b hb)).mono ?_⟩
    rintro H' a ⟨hp, T, rfl, hr⟩
    exact ⟨hp, T ++ [.said q b], by simp, .head (.call q next b) hr⟩

/-- Every event of a dialogue is assumed after those before it. -/
def Assumed (R : Rules σ Q A) : List (Turn σ Q A) → Prop
  | [] => True
  | e :: H => R.assume H e ∧ Assumed R H

/-- **A program that follows the rules follows them in every dialogue.** -/
theorem Sat.of_run (h : Sat R post [] p) (hr : p.Run H p') (ha : Assumed R H) : Sat R post H p' := by
  induction hr with
  | nil => exact h
  | cons hr hs ih => exact (ih ha.2).step hs ha.1

theorem Sat.asked {q : Q} {a : A q} (h : Sat R post [] p) (hr : p.Run (H₁ ++ .said q a :: H₂) p')
    (ha : Assumed R H₂) : R.ask H₂ q := by
  obtain ⟨p₁, p₂, hr₁, hs⟩ := hr.before
  have hsat := h.of_run hr₁ ha
  cases hs with
  | call q next a => exact hsat.1

/-! ### One environment -/

/-- The program alone with an environment that answers every question. -/
def Prog.run {ε : Type v} (env : (q : Q) → ε → A q × ε) : Prog σ Q A α → σ → ε → α × σ × ε
  | done a, s, e => (a, s, e)
  | lock f next, s, e => (next s).run env (f s) e
  | call q next, s, e => (next (env q e).1).run env s (env q e).2

/-- The program as part of one that can ask more: its questions, and what it hears of their
answers. -/
def Prog.embed {Q' : Type u} {A' : Q' → Type u} (f : Q → Q') (g : (q : Q) → A' (f q) → A q) :
    Prog σ Q A α → Prog σ Q' A' α
  | done a => done a
  | lock u next => lock u fun s => (next s).embed f g
  | call q next => call (f q) fun a => (next (g q a)).embed f g

theorem Prog.run_embed {Q' : Type u} {A' : Q' → Type u} {f : Q → Q'} {g : (q : Q) → A' (f q) → A q}
    {ε : Type v} (env : (q : Q') → ε → A' q × ε) (p : Prog σ Q A α) (s : σ) (e : ε) :
    (p.embed f g).run env s e =
      p.run (fun q e => (g q (env (f q) e).1, (env (f q) e).2)) s e := by
  induction p generalizing s e with
  | done a => rfl
  | lock u next ih => exact ih s (u s) e
  | call q next ih => exact ih _ s _

theorem Prog.run_bind {ε : Type v} (env : (q : Q) → ε → A q × ε) (p : Prog σ Q A α)
    (k : α → Prog σ Q A β) (s : σ) (e : ε) :
    (p >>= k).run env s e =
      (k (p.run env s e).1).run env (p.run env s e).2.1 (p.run env s e).2.2 := by
  induction p generalizing s e with
  | done a => rfl
  | lock u next ih => exact ih s (u s) e
  | call q next ih => exact ih _ s _

/-- The events of a program alone with an environment that answers from them, and its result. -/
def Prog.play (env : (q : Q) → List (Turn σ Q A) → A q) :
    Prog σ Q A α → σ → List (Turn σ Q A) → List (Turn σ Q A) × α
  | done a, _, H => (H, a)
  | lock f next, s, H => (next s).play env (f s) (.held s (f s) :: H)
  | call q next, s, H => (next (env q H)).play env s (.said q (env q H) :: H)

theorem Prog.Run.play (env : (q : Q) → List (Turn σ Q A) → A q) (hr : p.Run H p') (s : σ) :
    p.Run (p'.play env s H).1 (.done (p'.play env s H).2) := by
  induction p' generalizing H s with
  | done a => exact hr
  | lock f next ih => exact ih s (hr.cons (.lock f next s)) (f s)
  | call q next ih => exact ih _ (hr.cons (.call q next _)) s

instance [DecidableEq σ] [DecidableEq Q] [∀ q, DecidableEq (A q)] : DecidableEq (Turn σ Q A)
  | .held s t, .held s' t' => decidable_of_iff (s = s' ∧ t = t') (by simp)
  | .held _ _, .said _ _ => isFalse (by simp)
  | .said _ _, .held _ _ => isFalse (by simp)
  | .said q a, .said q' a' =>
    if h : q = q' then decidable_of_iff (h ▸ a = a') (by subst h; simp)
    else isFalse (by simp [h])

end Dialogue
