import ChordFs.Lib.Dialogue

/-! # Worlds that only grow

A program that runs in a world with an invariant, in which what is so once stays so: each run keeps
the invariant and leaves a larger world.  Facts that larger worlds keep are collected along the way,
so that a program is followed part by part, with what each part has added (`Reaches.bind`).  Of a
program that is only known by the questions it asks, as much is known as each of them keeps
(`Asks.reaches`). -/

namespace Dialogue

universe u v

/-- What holds of a world at all times, and what it can become. -/
structure Growth (ε : Type v) where
  inv : ε → Prop
  le : ε → ε → Prop
  refl : ∀ w, le w w
  trans : ∀ {w w' w''}, le w w' → le w' w'' → le w w''

variable {Q : Type u} {A : Q → Type u} {ε : Type v} {α β : Type v}

/-- The program ends with `post` in a larger world. -/
def Reaches (G : Growth ε) (env : (q : Q) → ε → A q × ε) (p : Prog PUnit Q A α) (w : ε)
    (post : α → ε → Prop) : Prop :=
  let out := p.run env ⟨⟩ w
  G.inv out.2.2 ∧ G.le w out.2.2 ∧ post out.1 out.2.2

variable {G : Growth ε} {env : (q : Q) → ε → A q × ε} {p : Prog PUnit Q A α} {w : ε}

theorem reaches_pure {post : α → ε → Prop} {a : α} (hw : G.inv w) (h : post a w) :
    Reaches G env (pure a) w post :=
  ⟨hw, G.refl w, h⟩

theorem Reaches.mono {post post' : α → ε → Prop} (h : Reaches G env p w post)
    (hpost : ∀ a w', G.inv w' → G.le w w' → post a w' → post' a w') : Reaches G env p w post' :=
  ⟨h.1, h.2.1, hpost _ _ h.1 h.2.1 h.2.2⟩

/-- **Sequencing.**  The rest starts in a larger world, with what the first part has added. -/
theorem Reaches.bind {mid : α → ε → Prop} {post : β → ε → Prop} {k : α → Prog PUnit Q A β}
    (h : Reaches G env p w mid)
    (hk : ∀ a w', G.inv w' → G.le w w' → mid a w' → Reaches G env (k a) w' post) :
    Reaches G env (p >>= k) w post := by
  obtain ⟨hinv, hle, hmid⟩ := h
  obtain ⟨hinv', hle', hpost⟩ := hk _ _ hinv hle hmid
  unfold Reaches
  rw [Prog.run_bind]
  exact ⟨hinv', G.trans hle hle', hpost⟩

/-! ### Questions that keep the world -/

/-- Whatever the program is told, it asks only questions of `P`. -/
def Asks (P : Q → Prop) : Prog PUnit Q A α → Prop
  | .done _ => True
  | .lock _ next => ∀ s, Asks P (next s)
  | .call q next => P q ∧ ∀ a, Asks P (next a)

variable {P : Q → Prop}

theorem Asks.embed {Q' : Type u} {A' : Q' → Type u} {f : Q → Q'} {g : (q : Q) → A' (f q) → A q}
    {P' : Q' → Prop} (h : Asks P p) (hP : ∀ q, P q → P' (f q)) : Asks P' (p.embed f g) := by
  induction p with
  | done a => trivial
  | lock u next ih => exact fun s => ih s (h s)
  | call q next ih => exact ⟨hP q h.1, fun a => ih _ (h.2 _)⟩

theorem asks_all (p : Prog PUnit Q A α) : Asks (fun _ => True) p := by
  induction p with
  | done a => trivial
  | lock f next ih => exact ih
  | call q next ih => exact ⟨trivial, ih⟩

/-- **What every question keeps, the program keeps.** -/
theorem Asks.reaches (h : Asks P p)
    (hkeeps : ∀ q w, P q → G.inv w → G.inv (env q w).2 ∧ G.le w (env q w).2) (hw : G.inv w) :
    Reaches G env p w fun _ _ => True := by
  induction p generalizing w with
  | done a => exact ⟨hw, G.refl w, trivial⟩
  | lock f next ih => exact ih _ (h _) hw
  | call q next ih =>
    obtain ⟨hinv, hle⟩ := hkeeps q w h.1 hw
    obtain ⟨hinv', hle', -⟩ := ih _ (h.2 _) hinv
    exact ⟨hinv', G.trans hle hle', trivial⟩

end Dialogue
