import ChordFs.Lib.Dialogue
import ChordFs.Lib.Runs
import Mathlib.Algebra.Order.Ring.Int
import Mathlib.Data.List.Basic

/-! # Workers on numbered jobs

Some workers take the numbers of jobs from a shared counter and run them over shared data.  A job
that fails makes all of them stop taking new ones.  Between two steps of a worker the others can do
anything, so a job is only right if it is right whatever they do: `Good` says that it minds its own
part of the data and needs no other.  Then when all workers are gone and none has failed, every job
was done, and what it was to do still holds (`Sound.all_done`). -/

namespace Workers

open Dialogue

variable {σ Q : Type} {A : Q → Type}

/-- Where a worker is.  One that runs a job has what is left of it. -/
inductive Place (σ Q : Type) (A : Q → Type) where
  /-- About to look whether to go on. -/
  | looking
  /-- About to take a number. -/
  | taking
  | running (i : ℕ) (code : Prog (Bool × σ) Q A Bool)
  /-- A job has failed; the others are to be stopped. -/
  | failing
  | gone

/-- The jobs: how many, and what each does.  A job sees whether the workers were told to stop. -/
structure Work (σ Q : Type) (A : Q → Type) where
  count : ℕ
  job : ℕ → Prog (Bool × σ) Q A Bool

/-- The workers, what they share, and the jobs that came to a good end. -/
structure Crew (σ Q : Type) (A : Q → Type) where
  data : σ
  next : ℕ
  stop : Bool
  hands : List (Place σ Q A)
  finished : List ℕ

/-- What the environment picks: who moves, and the answer to the question that is asked. -/
inductive Beat (Q : Type) (A : Q → Type) where
  | step (t : ℕ)
  | answer (t : ℕ) (q : Q) (a : A q)
  /-- The job throws. -/
  | throw (t : ℕ)

/-- Some workers at their start. -/
def Crew.start (data : σ) (workers : ℕ) : Crew σ Q A :=
  ⟨data, 0, false, List.replicate workers .looking, []⟩

/-- Worker `t` goes to `p`. -/
def Crew.go (C : Crew σ Q A) (t : ℕ) (p : Place σ Q A) : Crew σ Q A :=
  { C with hands := C.hands.set t p }

def Work.step? [DecidableEq Q] (W : Work σ Q A) (C : Crew σ Q A) : Beat Q A → Option (Crew σ Q A)
  | .step t =>
    match C.hands[t]? with
    | some .looking => some (if C.stop then C.go t .gone else C.go t .taking)
    | some .taking =>
      -- the number is taken and the counter moved in one step
      let C' := { C with next := C.next + 1 }
      some (if C.next < W.count then C'.go t (.running C.next (W.job C.next)) else C'.go t .gone)
    | some (.running i (.lock f k)) =>
      some ({ C with data := (f (C.stop, C.data)).2 }.go t (.running i (k (C.stop, C.data))))
    | some (.running i (.done true)) => some ({ C with finished := i :: C.finished }.go t .looking)
    | some (.running _ (.done false)) => some (C.go t .failing)
    | some .failing => some ({ C with stop := true }.go t .looking)
    | _ => none
  | .answer t q a =>
    match C.hands[t]? with
    | some (.running i (.call asked k)) =>
      if h : q = asked then some (C.go t (.running i (k (h ▸ a)))) else none
    | _ => none
  | .throw t =>
    match C.hands[t]? with
    | some (.running _ _) => some (C.go t .failing)
    | _ => none

/-- Everything a beat can do. -/
inductive Moves (W : Work σ Q A) (C : Crew σ Q A) : Beat Q A → Crew σ Q A → Prop
  | leave {t : ℕ} : C.hands[t]? = some .looking → C.stop = true → Moves W C (.step t) (C.go t .gone)
  | look {t : ℕ} : C.hands[t]? = some .looking → C.stop = false →
    Moves W C (.step t) (C.go t .taking)
  | take {t : ℕ} : C.hands[t]? = some .taking → C.next < W.count →
      Moves W C (.step t) ({ C with next := C.next + 1 }.go t (.running C.next (W.job C.next)))
  | none_left {t : ℕ} : C.hands[t]? = some .taking → W.count ≤ C.next →
      Moves W C (.step t) ({ C with next := C.next + 1 }.go t .gone)
  | lock {t i : ℕ} {f : Bool × σ → Bool × σ} {k : Bool × σ → Prog (Bool × σ) Q A Bool} :
      C.hands[t]? = some (.running i (.lock f k)) → Moves W C (.step t)
        ({ C with data := (f (C.stop, C.data)).2 }.go t (.running i (k (C.stop, C.data))))
  | finish {t i : ℕ} : C.hands[t]? = some (.running i (.done true)) →
      Moves W C (.step t) ({ C with finished := i :: C.finished }.go t .looking)
  | fail {t i : ℕ} {code : Prog (Bool × σ) Q A Bool} {b : Beat Q A} :
      C.hands[t]? = some (.running i code) → Moves W C b (C.go t .failing)
  | raise {t : ℕ} : C.hands[t]? = some .failing →
    Moves W C (.step t) ({ C with stop := true }.go t .looking)
  | answer {t i : ℕ} {q : Q} {k : A q → Prog (Bool × σ) Q A Bool} (a : A q) :
      C.hands[t]? = some (.running i (.call q k)) →
        Moves W C (.answer t q a) (C.go t (.running i (k a)))

section moves
variable [DecidableEq Q] {W : Work σ Q A} {C C' : Crew σ Q A} {b : Beat Q A}

theorem moves_of_step? (h : W.step? C b = some C') : Moves W C b C' := by
  cases b with
  | step t =>
    rw [Work.step?] at h
    split at h
    · rename_i ht
      cases hstop : C.stop with
      | true =>
        rw [hstop, if_pos rfl] at h
        cases h
        exact .leave ht hstop
      | false =>
        rw [hstop, if_neg Bool.false_ne_true] at h
        cases h
        exact .look ht hstop
    · rename_i ht
      dsimp only at h
      split at h
      · rename_i hlt
        cases h
        exact .take ht hlt
      · rename_i hge
        cases h
        exact .none_left ht (Nat.le_of_not_lt hge)
    · rename_i ht
      cases h
      exact .lock ht
    · rename_i ht
      cases h
      exact .finish ht
    · rename_i ht
      cases h
      exact .fail ht
    · rename_i ht
      cases h
      exact .raise ht
    · cases h
  | answer t q a =>
    rw [Work.step?] at h
    split at h
    · rename_i ht
      split at h
      · rename_i hq
        subst hq
        cases h
        exact .answer a ht
      · cases h
    · cases h
  | throw t =>
    rw [Work.step?] at h
    split at h
    · rename_i ht
      cases h
      exact .fail ht
    · cases h

end moves

/-! ### Jobs that mind their own part -/

/-- How the data is parted among the jobs: `same i` says that job `i`'s part was not touched.
`allowed` is what is assumed of the answers, `post` what a job is to bring about in its part. -/
structure Parts (σ Q : Type) (A : Q → Type) where
  same : ℕ → σ → σ → Prop
  refl : ∀ i s, same i s s
  trans : ∀ i s s' s'', same i s s' → same i s' s'' → same i s s''
  allowed : (q : Q) → A q → Prop
  post : ℕ → σ → Prop
  stable : ∀ i s s', post i s → same i s s' → post i s'

/-- **A program that is right whatever the other jobs do.**  It touches no part but job `i`'s, and
ends with `post`, of its result and the data. -/
def Parts.Does {α : Type} (P : Parts σ Q A) (i : ℕ) (post : α → σ → Prop) :
    Prog (Bool × σ) Q A α → σ → Prop
  | .done a, s => post a s
  | .lock f k, s => ∀ stop s', P.same i s s' →
      (∀ j, j ≠ i → P.same j s' (f (stop, s')).2) ∧ P.Does i post (k (stop, s')) (f (stop, s')).2
  | .call q k, s => ∀ a, P.allowed q a → P.Does i post (k a) s

/-- A job: when it comes to a good end its part is as it should be. -/
def Parts.Good (P : Parts σ Q A) (i : ℕ) : Prog (Bool × σ) Q A Bool → σ → Prop :=
  P.Does i fun b s => b = true → P.post i s

section good
variable {P : Parts σ Q A} {i : ℕ} {s s' : σ} {α β : Type}
variable {post post' : α → σ → Prop} {p : Prog (Bool × σ) Q A α}

theorem Parts.Does.mono (h : P.Does i post p s) (hp : ∀ a s, post a s → post' a s) :
    P.Does i post' p s := by
  induction p generalizing s with
  | done a => exact hp a s h
  | lock f next ih => exact fun stop s' hs => ⟨(h stop s' hs).1, ih _ (h stop s' hs).2⟩
  | call q next ih => exact fun a ha => ih a (h a ha)

/-- **Sequencing.** -/
theorem Parts.Does.bind {post : β → σ → Prop} {k : α → Prog (Bool × σ) Q A β}
    (h : P.Does i (fun a s => P.Does i post (k a) s) p s) : P.Does i post (p >>= k) s := by
  induction p generalizing s with
  | done a => exact h
  | lock f next ih => exact fun stop s' hs => ⟨(h stop s' hs).1, ih _ (h stop s' hs).2⟩
  | call q next ih => exact fun a ha => ih a (h a ha)

theorem Parts.Does.stable (hpost : ∀ a s s', post a s → P.same i s s' → post a s')
    (h : P.Does i post p s) (hs : P.same i s s') : P.Does i post p s' := by
  induction p with
  | done a => exact hpost a s s' h hs
  | lock f k ih => exact fun stop s'' hs' => h stop s'' (P.trans i s s' s'' hs hs')
  | call q k ih => exact fun a ha => ih a (h a ha)

theorem Parts.Good.stable {p : Prog (Bool × σ) Q A Bool} (h : P.Good i p s) (hs : P.same i s s') :
    P.Good i p s' :=
  Parts.Does.stable (fun _ s s' hp hs hb => P.stable i s s' (hp hb) hs) h hs

end good

/-! ### The whole crew -/

/-- A job has failed. -/
def Crew.Stopped (C : Crew σ Q A) : Prop :=
  C.stop = true ∨ ∃ t : ℕ, C.hands[t]? = some Place.failing

/-- The job a worker has. -/
def Place.job? : Place σ Q A → Option ℕ
  | .running i _ => some i
  | _ => none

/-- Worker `t` has job `i`. -/
def Crew.Has (C : Crew σ Q A) (t i : ℕ) : Prop := ∃ x, C.hands[t]? = some x ∧ x.job? = some i

/-- Where the jobs stand. -/
structure Sound (W : Work σ Q A) (P : Parts σ Q A) (C : Crew σ Q A) : Prop where
  running : ∀ (t i : ℕ) p, C.hands[t]? = some (Place.running i p) → P.Good i p C.data
  finished : ∀ i ∈ C.finished, P.post i C.data
  taken : ∀ i, ((∃ t, C.Has t i) ∨ i ∈ C.finished) → i < C.next
  counted : ∀ t i, C.Has t i → i < W.count
  /-- No two workers have the same job. -/
  alone : ∀ t t' i, C.Has t i → C.Has t' i → t = t'
  fresh : ∀ t i, C.Has t i → i ∉ C.finished
  /-- No job is lost. -/
  accounted : ∀ i, i < C.next → i < W.count → (∃ t, C.Has t i) ∨ i ∈ C.finished ∨ C.Stopped
  gone : ∀ t : ℕ, C.hands[t]? = some Place.gone → W.count ≤ C.next ∨ C.Stopped

section crew
variable {W : Work σ Q A} {P : Parts σ Q A} {C C' : Crew σ Q A} {t t' i : ℕ} {x y : Place σ Q A}

variable {p : Prog (Bool × σ) Q A Bool} {data : σ} {b : Beat Q A} {beats : List (Beat Q A)}
  {workers : ℕ}

theorem hands_go (ht : C.hands[t]? = some x) :
    (C.go t y).hands[t']? = if t' = t then some y else C.hands[t']? := by
  have hlt : t < C.hands.length := (List.getElem?_eq_some_iff.mp ht).1
  rw [Crew.go, List.getElem?_set]
  by_cases h : t' = t
  · subst h
    simp [hlt]
  · rw [if_neg fun h' => h h'.symm, if_neg h]

theorem has_go (ht : C.hands[t]? = some x) :
    (C.go t y).Has t' i ↔ if t' = t then y.job? = some i else C.Has t' i := by
  rw [Crew.Has, hands_go ht]
  split <;> simp [Crew.Has]

theorem has_of_running (h : C.hands[t]? = some (.running i p)) : C.Has t i :=
  ⟨_, h, rfl⟩

theorem has_iff (ht : C.hands[t]? = some x) : C.Has t i ↔ x.job? = some i := by simp [Crew.Has, ht]

/-- **One worker moves from `x` to `y`.**  It keeps its job, takes the next one, or puts it down: at
a good end, or because it has failed. -/
theorem Sound.move (h : Sound W P C) (ht : C.hands[t]? = some x) {next : ℕ} {stop : Bool}
    {finished : List ℕ} (hothers : ∀ j, x.job? ≠ some j → P.same j C.data data)
    (hnext : C.next ≤ next) (hstop : C.stop = true ∨ x = .failing → stop = true)
    (hfinished : ∀ i ∈ finished, i ∈ C.finished ∨ x.job? = some i ∧ y.job? = none ∧ P.post i data)
    (hkept : C.finished ⊆ finished) (hgood : ∀ i p, y = .running i p → P.Good i p data)
    (hjob : ∀ i, y.job? = some i → x.job? = some i ∨ i = C.next ∧ i < next ∧ i < W.count)
    (hput : ∀ i, x.job? = some i → y.job? = some i ∨ i ∈ finished ∨ y = .failing)
    (hnew : ∀ i, C.next ≤ i → i < next → i < W.count → y.job? = some i)
    (hgone : y = .gone → W.count ≤ next ∨ stop = true) :
    Sound W P (Crew.go ⟨data, next, stop, C.hands, finished⟩ t y) := by
  have ht' : (⟨data, next, stop, C.hands, finished⟩ : Crew σ Q A).hands[t]? = some x := ht
  have hhas : ∀ {t' i}, (Crew.go ⟨data, next, stop, C.hands, finished⟩ t y).Has t' i ↔
      if t' = t then y.job? = some i else C.Has t' i := has_go ht'
  -- a job that is new to its worker is new to all
  have hown : ∀ {t' i}, y.job? = some i → C.Has t' i → t' = t := by
    intro t' i hi hold
    rcases hjob i hi with hx | ⟨rfl, -⟩
    · exact h.alone t' t i hold ((has_iff ht).mpr hx)
    · exact absurd (h.taken _ (.inl ⟨t', hold⟩)) (Nat.lt_irrefl _)
  have hstopped : C.Stopped → (Crew.go ⟨data, next, stop, C.hands, finished⟩ t y).Stopped := by
    rintro (hs | ⟨t', hs⟩)
    · exact .inl (hstop (.inl hs))
    · by_cases htt : t' = t
      · subst htt
        exact .inl (hstop (.inr (Option.some.inj (ht.symm.trans hs))))
      · refine .inr ⟨t', ?_⟩
        rw [hands_go ht', if_neg htt]
        exact hs
  refine ⟨fun t' i p hp => ?_, fun i hi => ?_, fun i hi => ?_, fun t' i hi => ?_,
    fun t₁ t₂ i h₁ h₂ => ?_, fun t' i hi hfin => ?_, fun i hi hcount => ?_, fun t' hgo => ?_⟩
  · rw [hands_go ht'] at hp
    split at hp
    · exact hgood i p (Option.some.inj hp)
    · rename_i htt
      refine (h.running t' i p hp).stable (hothers i fun hx => ?_)
      exact htt (h.alone t' t i (has_of_running hp) ((has_iff ht).mpr hx))
  · rcases hfinished i hi with hold | ⟨-, -, hpost⟩
    · exact P.stable i _ _ (h.finished i hold)
        (hothers i fun hx => h.fresh t i ((has_iff ht).mpr hx) hold)
    · exact hpost
  · have hold : ∀ {i}, (∃ t, C.Has t i) ∨ i ∈ C.finished → i < next :=
      fun hi => Nat.lt_of_lt_of_le (h.taken _ hi) hnext
    rcases hi with ⟨t', hi⟩ | hfin
    · rw [hhas] at hi
      split at hi
      · rcases hjob i hi with hx | ⟨-, hlt, -⟩
        · exact hold (.inl ⟨t, (has_iff ht).mpr hx⟩)
        · exact hlt
      · exact hold (.inl ⟨t', hi⟩)
    · exact (hfinished i hfin).elim (fun hi => hold (.inr hi)) fun hi => hold
        (.inl ⟨t, (has_iff ht).mpr hi.1⟩)
  · rw [hhas] at hi
    split at hi
    · exact (hjob i hi).elim (fun hx => h.counted t i ((has_iff ht).mpr hx)) fun hi => hi.2.2
    · exact h.counted t' i hi
  · rw [hhas] at h₁ h₂
    split at h₁ <;> split at h₂ <;> rename_i e₁ e₂
    · exact e₁.trans e₂.symm
    · exact absurd (hown h₁ h₂) e₂
    · exact absurd (hown h₂ h₁) e₁
    · exact h.alone t₁ t₂ i h₁ h₂
  · rw [hhas] at hi
    split at hi
    · rcases hfinished i hfin with hold | ⟨-, hnone, -⟩
      · rcases hjob i hi with hx | ⟨rfl, -⟩
        · exact h.fresh t i ((has_iff ht).mpr hx) hold
        · exact Nat.lt_irrefl _ (h.taken _ (.inr hold))
      · rw [hnone] at hi
        cases hi
    · rename_i htt
      rcases hfinished i hfin with hold | ⟨hx, -⟩
      · exact h.fresh t' i hi hold
      · exact htt (h.alone t' t i hi ((has_iff ht).mpr hx))
  · rcases Nat.lt_or_ge i C.next with hlt | hge
    · rcases h.accounted i hlt hcount with ⟨t', hold⟩ | hfin | hs
      · by_cases htt : t' = t
        · subst htt
          rcases hput i ((has_iff ht).mp hold) with hy | hfin | rfl
          · exact .inl ⟨t', by rwa [hhas, if_pos rfl]⟩
          · exact .inr (.inl hfin)
          · exact .inr (.inr (.inr ⟨t', by rw [hands_go ht', if_pos rfl]⟩))
        · exact .inl ⟨t', by rwa [hhas, if_neg htt]⟩
      · exact .inr (.inl (hkept hfin))
      · exact .inr (.inr (hstopped hs))
    · exact .inl ⟨t, by rw [hhas, if_pos rfl]; exact hnew i hge hi hcount⟩
  · rw [hands_go ht'] at hgo
    split at hgo
    · exact (hgone (Option.some.inj hgo)).imp id .inl
    · exact (h.gone t' hgo).imp (fun hc => hc.trans hnext) hstopped

theorem Sound.idle (h : Sound W P C) (ht : C.hands[t]? = some x) (hx : x.job? = none)
    (hy : y.job? = none) (next : ℕ) (stop : Bool) (hnext : C.next ≤ next)
    (hnew : next = C.next ∨ W.count ≤ C.next) (hstop : C.stop = true ∨ x = .failing → stop = true)
    (hgone : y = .gone → W.count ≤ next ∨ stop = true) :
    Sound W P ({ C with next := next, stop := stop }.go t y) := by
  refine h.move ht (fun j _ => P.refl j _) hnext hstop (fun i hi => .inl hi) (List.Subset.refl _) ?_
    (by simp [hy])
    (by simp [hx]) (by omega) hgone
  rintro i p rfl
  cases hy

theorem Sound.goOn (h : Sound W P C) {p' : Prog (Bool × σ) Q A Bool}
    (ht : C.hands[t]? = some (.running i p)) (hothers : ∀ j, j ≠ i → P.same j C.data data)
    (hgood : P.Good i p' data) : Sound W P ({ C with data := data }.go t (.running i p')) := by
  refine h.move ht (fun j hj => hothers j fun he => hj (congrArg some he.symm)) le_rfl ?_
    (fun i hi => .inl hi)
    (List.Subset.refl _) ?_ (fun _ hi => .inl hi) (fun _ hi => .inl hi) (by omega)
      (fun hy => by cases hy)
  · rintro (hs | hs)
    · exact hs
    · cases hs
  · rintro _ _ ⟨⟩
    exact hgood

/-- The answer a beat gives is one of those assumed. -/
def Parts.Allows (P : Parts σ Q A) : Beat Q A → Prop
  | .answer _ q a => P.allowed q a
  | _ => True

/-- **Every move keeps the account.** -/
theorem Sound.step? [DecidableEq Q] (h : Sound W P C)
    (hgood : ∀ i < W.count, P.Good i (W.job i) C.data) (hallow : P.Allows b)
    (hstep : W.step? C b = some C') : Sound W P C' := by
  have hself : ∀ j, P.same j C.data C.data := fun j => P.refl j _
  cases moves_of_step? hstep with
  | leave ht hstop =>
    exact h.idle ht rfl rfl C.next C.stop le_rfl (.inl rfl) (fun _ => hstop) fun _ => .inr hstop
  | look ht hstop =>
    exact h.idle ht rfl rfl C.next C.stop le_rfl (.inl rfl) (by simp) fun h => by cases h
  | take ht hlt =>
    refine h.move ht (fun j _ => hself j) (Nat.le_succ _) (by simp) (fun i hi => .inl hi)
      (List.Subset.refl _) ?_ ?_
      (fun i hi => by cases hi) (fun i h₁ h₂ _ => congrArg some (by omega)) fun h => by cases h
    · rintro _ _ ⟨⟩
      exact hgood _ hlt
    · rintro _ ⟨⟩
      exact .inr ⟨rfl, Nat.lt_succ_self _, hlt⟩
  | none_left ht hge =>
    exact h.idle ht rfl rfl (C.next + 1) C.stop (Nat.le_succ _) (.inr hge) (by simp)
      fun _ => .inl (Nat.le_succ_of_le hge)
  | lock ht =>
    obtain ⟨hothers, hnext⟩ := h.running _ _ _ ht C.stop C.data (P.refl _ _)
    exact h.goOn ht hothers hnext
  | finish ht =>
    have hpost := h.running _ _ _ ht rfl
    refine h.move ht (fun j _ => hself j) le_rfl (by simp) ?_ (List.subset_cons_self _ _)
      (fun _ _ h => by cases h)
      (fun _ h => by cases h) ?_ (by omega) fun h => by cases h
    · exact List.forall_mem_cons.mpr ⟨.inr ⟨rfl, rfl, hpost⟩, fun j hj => .inl hj⟩
    · rintro _ ⟨⟩
      exact .inr (.inl List.mem_cons_self)
  | fail ht =>
    exact h.move ht (fun j _ => hself j) le_rfl (by simp) (fun j hj => .inl hj) (List.Subset.refl _)
      (fun _ _ h => by cases h) (fun _ h => by cases h) (fun _ _ => .inr (.inr rfl)) (by omega)
        fun h => by cases h
  | raise ht =>
    exact h.idle ht rfl rfl C.next true le_rfl (.inl rfl) (fun _ => rfl) fun h => by cases h
  | answer a ht => exact h.goOn ht (fun j _ => P.refl j C.data) (h.running _ _ _ ht a hallow)

theorem Sound.untouched [DecidableEq Q] (h : Sound W P C) (hstep : W.step? C b = some C') {j : ℕ}
    (hj : W.count ≤ j) : P.same j C.data C'.data := by
  cases moves_of_step? hstep with
  | lock ht =>
    obtain ⟨hothers, -⟩ := h.running _ _ _ ht C.stop C.data (P.refl _ _)
    refine hothers j ?_
    rintro rfl
    exact absurd (h.counted _ _ (has_of_running ht)) (Nat.not_lt.mpr hj)
  | _ => exact P.refl j _

theorem sound_start (data : σ) (workers : ℕ) : Sound W P (Crew.start data workers) := by
  have hhands : ∀ {t : ℕ} {x : Place σ Q A}, (Crew.start (Q := Q) (A := A) data workers).hands[t]? =
      some x → x = .looking := fun hx => List.eq_of_mem_replicate (List.mem_of_getElem? hx)
  have hhas : ∀ t i, ¬ (Crew.start (Q := Q) (A := A) data workers).Has t i := by
    rintro t i ⟨x, hx, hjob⟩
    rw [hhands hx] at hjob
    cases hjob
  refine ⟨fun t i p hp => ?_, fun i hi => ?_, fun i hi => ?_, fun t i ht => absurd ht (hhas t i),
    fun t t' i ht => absurd ht (hhas t i), fun t i ht => absurd ht (hhas t i),
    fun i hi => absurd hi (Nat.not_lt_zero i), fun t ht => ?_⟩
  · cases hhands hp
  · cases hi
  · rcases hi with ⟨t, ht⟩ | hfin
    · exact absurd ht (hhas t i)
    · cases hfin
  · cases hhands ht

def Place.isGone : Place σ Q A → Bool
  | .gone => true
  | _ => false

/-- All workers have come to their end. -/
def Crew.allGone (C : Crew σ Q A) : Bool := C.hands.all Place.isGone

theorem Crew.allGone_iff : C.allGone = true ↔ ∀ x ∈ C.hands, x = .gone := by
  rw [Crew.allGone, List.all_eq_true]
  refine forall₂_congr fun x _ => ?_
  cases x <;> simp [Place.isGone]

/-- **All is done**, when everybody is gone and nothing has failed. -/
theorem Sound.all_finished (h : Sound W P C) (hsome : C.hands ≠ []) (hgone : C.allGone = true)
    (hstop : C.stop = false) : ∀ i < W.count, i ∈ C.finished := by
  rw [Crew.allGone_iff] at hgone
  have hnot : ¬ C.Stopped := by
    rintro (hs | ⟨t, ht⟩)
    · rw [hstop] at hs
      cases hs
    · cases hgone _ (List.mem_of_getElem? ht)
  have hnext : W.count ≤ C.next := by
    obtain ⟨x, l, hl⟩ := List.exists_cons_of_ne_nil hsome
    have hx : C.hands[0]? = some x := by rw [hl]; rfl
    rw [hgone x (List.mem_of_getElem? hx)] at hx
    exact (h.gone 0 hx).resolve_right hnot
  intro i hi
  rcases h.accounted i (lt_of_lt_of_le hi hnext) hi with ⟨t, x, hx, hjob⟩ | hfin | hs
  · rw [hgone x (List.mem_of_getElem? hx)] at hjob
    cases hjob
  · exact hfin
  · exact absurd hs hnot

theorem length_hands_step? [DecidableEq Q] (hstep : W.step? C b = some C') :
    C'.hands.length = C.hands.length := by
  cases moves_of_step? hstep <;> exact List.length_set

theorem hands_ne_nil [DecidableEq Q] (hworkers : 0 < workers)
    (hrun : Runs.exec W.step? (Crew.start data workers) beats = some C) : C.hands ≠ [] := by
  have hlength := Runs.exec_induction (I := fun C' : Crew σ Q A => C'.hands.length = workers)
    (fun _ _ _ _ hstep hl => (length_hands_step? hstep).trans hl) hrun List.length_replicate
  intro hnil
  rw [hnil, List.length_nil] at hlength
  omega

/-- **A pool that ends without a failure has done every job**, in every schedule, and touched
nothing that belongs to none.  A job has to be good only as long as that is so. -/
theorem exec_all_done [DecidableEq Q] (hworkers : 0 < workers)
    (hgood : ∀ i < W.count, ∀ s, (∀ j, W.count ≤ j → P.same j data s) → P.Good i (W.job i) s)
    (hallow : ∀ b ∈ beats, P.Allows b)
    (hrun : Runs.exec W.step? (Crew.start data workers) beats = some C) (hgone : C.allGone = true)
    (hstop : C.stop = false) :
    (∀ i < W.count, P.post i C.data) ∧ ∀ j, W.count ≤ j → P.same j data C.data := by
  have hsound := Runs.exec_induction (I := fun C' => Sound W P C' ∧ ∀ j, W.count ≤ j →
    P.same j data C'.data)
    (fun C' b _ hb hstep hs =>
      ⟨hs.1.step? (fun i hi => hgood i hi C'.data hs.2) (hallow b hb) hstep, fun j hj =>
      P.trans j _ _ _ (hs.2 j hj) (hs.1.untouched hstep hj)⟩)
    hrun ⟨sound_start data workers, fun j _ => P.refl j data⟩
  exact ⟨fun i hi => hsound.1.finished i
    (hsound.1.all_finished (hands_ne_nil hworkers hrun) hgone hstop i hi), hsound.2⟩

/-! ### What is begun -/

/-- The job that the beat begins, and who has it. -/
def Work.begins (W : Work σ Q A) (C : Crew σ Q A) : Beat Q A → List (ℕ × ℕ)
  | .step t =>
    match C.hands[t]? with
    | some .taking => if C.next < W.count then [(t, C.next)] else []
    | _ => []
  | _ => []

/-- The jobs that are begun, in order. -/
def Work.begun [DecidableEq Q] (W : Work σ Q A) : Crew σ Q A → List (Beat Q A) → List (ℕ × ℕ)
  | _, [] => []
  | C, b :: bs => W.begins C b ++ ((W.step? C b).map (W.begun · bs)).getD []

/-- A job was taken that nobody has and that has not come to a good end. -/
def Crew.Lost (W : Work σ Q A) (C : Crew σ Q A) : Prop :=
  ∃ i, i < C.next ∧ i < W.count ∧ i ∉ C.finished ∧ ∀ t, ¬ C.Has t i

section begun
variable [DecidableEq Q] {b : Beat Q A} {bs : List (Beat Q A)}

theorem begins_cases (hstep : W.step? C b = some C') :
    (W.begins C b = [] ∧ min C'.next W.count = min C.next W.count) ∨
    ∃ t p, C.hands[t]? = some .taking ∧ C.next < W.count ∧ W.begins C b = [(t, C.next)] ∧
      C' = { C with next := C.next + 1 }.go t (.running C.next p) := by
  by_cases htaking : ∃ t, b = .step t ∧ C.hands[t]? = some .taking
  · obtain ⟨t, rfl, ht⟩ := htaking
    simp only [Work.step?, ht, Option.some.injEq] at hstep
    by_cases hlt : C.next < W.count
    · rw [if_pos hlt] at hstep
      exact .inr ⟨t, _, ht, hlt, by simp [Work.begins, ht, hlt], hstep.symm⟩
    · rw [if_neg hlt] at hstep
      subst hstep
      refine .inl ⟨by simp [Work.begins, ht, hlt], ?_⟩
      change min (C.next + 1) W.count = _
      omega
  · refine .inl ⟨?_, ?_⟩
    · unfold Work.begins
      split
      · split
        · rename_i ht
          exact absurd ⟨_, rfl, ht⟩ htaking
        · rfl
      · rfl
    · cases moves_of_step? hstep with
      | take ht | none_left ht => exact absurd ⟨_, rfl, ht⟩ htaking
      | _ => rfl

/-- **The jobs are begun in their order**, each once. -/
theorem range_begun (h : Runs.exec W.step? C bs = some C') :
    List.range (min C.next W.count) ++ (W.begun C bs).map Prod.snd =
      List.range (min C'.next W.count) := by
  induction bs generalizing C with
  | nil =>
    cases h
    simp [Work.begun]
  | cons b bs ih =>
    rw [Runs.exec_cons] at h
    obtain ⟨C₁, hstep, h⟩ := Option.bind_eq_some_iff.mp h
    rw [← ih h, Work.begun, hstep, Option.map_some, Option.getD_some, List.map_append,
      ← List.append_assoc]
    rcases begins_cases hstep with ⟨hnone, hnext⟩ | ⟨t, p, -, hlt, hone, rfl⟩
    · simp [hnone, hnext]
    · have hmin : min C.next W.count = C.next ∧ min (C.next + 1) W.count = C.next + 1 := by omega
      simp [hone, Crew.go, hmin, List.range_succ]

theorem taking_of_stop (hstop : C.stop = true) (hstep : W.step? C b = some C') :
    C'.stop = true ∧ ∀ t : ℕ, C'.hands[t]? = some .taking → C.hands[t]? = some .taking := by
  have hset : ∀ {t : ℕ} {y : Place σ Q A}, y ≠ .taking → C'.hands = C.hands.set t y →
      ∀ t' : ℕ, C'.hands[t']? = some .taking → C.hands[t']? = some .taking := by
    intro t y hy hhands t' ht'
    rw [hhands, List.getElem?_set] at ht'
    split at ht'
    · split at ht'
      · exact absurd (Option.some.inj ht') hy
      · cases ht'
    · exact ht'
  cases moves_of_step? hstep with
  | look ht hs =>
    rw [hstop] at hs
    cases hs
  | raise ht => exact ⟨rfl, hset (by simp) rfl⟩
  | leave | take | none_left | lock | finish | fail | answer => exact ⟨hstop, hset (by simp) rfl⟩

/-- **Each worker begins at most one more job once the workers are to stop.** -/
theorem begun_of_stop (hstop : C.stop = true) (h : Runs.exec W.step? C bs = some C') :
    ((W.begun C bs).map Prod.fst).Nodup ∧ ∀ r ∈ W.begun C bs, C.hands[r.1]? = some .taking := by
  induction bs generalizing C with
  | nil => simp [Work.begun]
  | cons b bs ih =>
    rw [Runs.exec_cons] at h
    obtain ⟨C₁, hstep, h⟩ := Option.bind_eq_some_iff.mp h
    obtain ⟨hstop₁, htaking⟩ := taking_of_stop hstop hstep
    obtain ⟨hnodup, hall⟩ := ih hstop₁ h
    rw [Work.begun, hstep, Option.map_some, Option.getD_some]
    rcases begins_cases hstep with ⟨hnone, -⟩ | ⟨t, p, ht, -, hone, rfl⟩
    · rw [hnone]
      exact ⟨hnodup, fun r hr => htaking _ (hall r hr)⟩
    · rw [hone]
      refine ⟨List.nodup_cons.mpr ⟨fun hmem => ?_, hnodup⟩,
        List.forall_mem_cons.mpr ⟨ht, fun r hr => htaking _ (hall r hr)⟩⟩
      obtain ⟨r, hr, rfl⟩ := List.mem_map.mp hmem
      have := hall r hr
      rw [hands_go (C := { C with next := C.next + 1 }) ht, if_pos rfl] at this
      cases this

omit [DecidableEq Q] in
theorem lost_go (hl : C.Stopped → C.Lost W) {D : Crew σ Q A} (ht : C.hands[t]? = some x)
    (hD : D.hands = C.hands) (hy : y ≠ .failing) (hnext : C.next ≤ D.next)
    (hstop : D.stop = true → C.stop = true ∨ x = .failing)
    (hfin : ∀ i ∈ D.finished, i ∈ C.finished ∨ x.job? = some i)
    (hjob : ∀ i, y.job? = some i → x.job? = some i ∨ C.next ≤ i) (hs : (D.go t y).Stopped) :
    (D.go t y).Lost W := by
  have ht' : D.hands[t]? = some x := hD ▸ ht
  have hbefore : C.Stopped := by
    rcases hs with hs | ⟨t', hs⟩
    · refine (hstop hs).imp id ?_
      rintro rfl
      exact ⟨t, ht⟩
    · rw [hands_go ht'] at hs
      split at hs
      · exact absurd (Option.some.inj hs) hy
      · exact .inr ⟨t', hD ▸ hs⟩
  obtain ⟨i, hlt, hcount, hnot, hnone⟩ := hl hbefore
  have hx : x.job? ≠ some i := fun hx => hnone t ((has_iff ht).mpr hx)
  refine ⟨i, Nat.lt_of_lt_of_le hlt hnext, hcount, fun hi => (hfin i hi).elim hnot hx,
    fun t' hi => ?_⟩
  rw [has_go ht'] at hi
  split at hi
  · exact (hjob i hi).elim hx (Nat.not_le_of_lt hlt)
  · exact hnone t' (by rwa [Crew.Has, ← hD])

/-- **A job that fails is lost**, and there is one if the workers are to stop. -/
theorem Sound.lost (h : Sound W P C) (hl : C.Stopped → C.Lost W) (hstep : W.step? C b = some C') :
    C'.Stopped → C'.Lost W := by
  cases moves_of_step? hstep with
  | @fail t i p _ ht =>
    intro _
    have hi := has_of_running ht
    refine ⟨i, h.taken i (.inl ⟨t, hi⟩), h.counted t i hi, h.fresh t i hi, fun t' ht' => ?_⟩
    rw [has_go ht] at ht'
    split at ht'
    · cases ht'
    · rename_i htt
      exact htt (h.alone t' t i ht' hi)
  | take ht =>
    refine lost_go hl ht rfl (by simp) (Nat.le_succ _) .inl (fun _ => .inl) ?_
    rintro _ ⟨⟩
    exact .inr le_rfl
  | none_left ht =>
    exact lost_go hl ht rfl (by simp) (Nat.le_succ _) .inl (fun _ => .inl) fun _ hi => by cases hi
  | finish ht =>
    refine lost_go hl ht rfl (by simp) le_rfl .inl ?_ fun _ hi => by cases hi
    exact List.forall_mem_cons.mpr ⟨.inr rfl, fun _ => .inl⟩
  | lock ht | answer a ht => exact lost_go hl ht rfl (by simp) le_rfl .inl (fun _ => .inl) fun _ => .inl
  | raise ht => exact lost_go hl ht rfl (by simp) le_rfl (fun _ => .inr rfl) (fun _ => .inl) fun _ hi => by cases hi
  | leave ht | look ht =>
    exact lost_go hl ht rfl (by simp) le_rfl .inl (fun _ => .inl) fun _ hi => by cases hi

/-- Nothing is asked of the jobs. -/
def Parts.none (σ Q : Type) (A : Q → Type) : Parts σ Q A :=
  ⟨fun _ _ _ => True, fun _ _ => trivial, fun _ _ _ _ _ _ => trivial, fun _ _ => True,
    fun _ _ => True, fun _ _ _ _ _ => trivial⟩

omit [DecidableEq Q] in
theorem good_none (i : ℕ) (p : Prog (Bool × σ) Q A Bool) (s : σ) :
    (Parts.none σ Q A).Good i p s := by
  induction p generalizing s with
  | done a => exact fun _ => trivial
  | lock f k ih => exact fun stop s' _ => ⟨fun _ _ => trivial, ih _ _⟩
  | call q k ih => exact fun a _ => ih a s

/-- **A pool ends without a failure exactly if every job came to a good end.** -/
theorem finished_of_exec {beats : List (Beat Q A)} {data : σ} {workers : ℕ} (hworkers : 0 < workers)
    (hrun : Runs.exec W.step? (Crew.start data workers) beats = some C) (hgone : C.allGone = true) :
    (C.stop = false ↔ ∀ i < W.count, i ∈ C.finished) ∧ ∀ i ∈ C.finished, i < C.next := by
  have hstart : (Crew.start data workers : Crew σ Q A).Stopped →
      (Crew.start data workers).Lost W := by
    rintro (hs | ⟨t, ht⟩)
    · cases hs
    · cases List.eq_of_mem_replicate (List.mem_of_getElem? ht)
  obtain ⟨hsound, hlost⟩ := Runs.exec_induction
    (I := fun C' => Sound W (Parts.none σ Q A) C' ∧ (C'.Stopped → C'.Lost W))
    (fun C' b _ _ hstep hs =>
      ⟨hs.1.step? (fun i _ => good_none i _ _) (by cases b <;> trivial) hstep,
      hs.1.lost hs.2 hstep⟩)
    hrun ⟨sound_start data workers, hstart⟩
  refine ⟨⟨hsound.all_finished (hands_ne_nil hworkers hrun) hgone, fun hall => Bool.eq_false_iff.mpr
    fun hs => ?_⟩, fun i hi => hsound.taken i (.inr hi)⟩
  obtain ⟨i, -, hcount, hnot, -⟩ := hlost (.inl hs)
  exact hnot (hall i hcount)

end begun

end crew

end Workers
