import ChordFs.Member
import ChordFs.RingNet
import Mathlib.Algebra.Order.Ring.Int
import Mathlib.Order.Monotone.Basic

/-! # Unending runs of a ring

A `Timeline` is a run that goes on for ever.  Threads keep their place in the list of a net, so a
thread can be followed through time; `Sound.tracks` follows those that keep to a discipline from
some time on, even if others do not, as long as the invariant holds and nothing known is lost. -/

namespace ChordFs

open Dialogue

/-- A run that goes on for ever. -/
structure Timeline where
  net : ℕ → Net
  move : ℕ → Move
  step : ∀ k, (net k).step? (move k) = some (net (k + 1))

/-! ### One thread through time -/

variable {ρ ρ' : Ring} {t t' : Thread} {post : Ending → Prop} {n : Net} {M : List Peer}

theorem Thread.Steps.not_done {new : List Thread} (h : t.Steps ρ ρ' t' new) : t.isDone = false := by
  unfold Thread.isDone
  cases h with
  | lock hcode _ => rw [hcode]
  | mine hcode _ _ => rw [hcode]
  | call hcode _ => rw [hcode]
  | absent _ hcode _ => rw [hcode]
  | reply _ hcode _ => rw [hcode]
  | listen hcode hstack _ _ => rw [hcode, hstack]; rfl

section
variable {n n' : Net} {m : Move} (h : n.step? m = some n')
include h

theorem Net.thread_step? {i : ℕ} {t : Thread} (ht : n.threads[i]? = some t) : ∃ t', n'.threads[i]? = some t' ∧
      (t' = t ∨ ∃ new, t.Steps n.ring n'.ring t' new) := by
  have hi := (List.getElem?_eq_some_iff.mp ht).1
  obtain ⟨p, rfl, hp, rfl⟩ | ⟨p, known, r, rfl, hp, hk, rfl⟩ |
    ⟨j, took, u, u', ρ, new, rfl, hu, hsteps, rfl⟩ := Net.step?_cases h
  · exact ⟨t, by rw [Net.push, List.getElem?_append_left hi, ht], .inl rfl⟩
  · exact ⟨t, by rw [Net.push, List.getElem?_append_left hi, ht], .inl rfl⟩
  · have hi' : i < (n.threads.set j u').length := by rwa [List.length_set]
    rw [List.getElem?_append_left hi']
    by_cases hij : j = i
    · subst hij
      rw [ht] at hu
      cases hu
      exact ⟨u', List.getElem?_set_self hi, .inr ⟨new, hsteps⟩⟩
    · exact ⟨t, by rw [List.getElem?_set_ne hij, ht], .inl rfl⟩

theorem Net.new_thread {i : ℕ} {t : Thread} (hi : n.threads.length ≤ i) (ht : n'.threads[i]? = some t) :
    (∃ p, m = .round p ∧ p ∈ n.ring.members ∧ t = roundThread p ∧ n'.ring = n.ring) ∨
      ∀ p, t.errand ≠ .round p := by
  obtain ⟨p, rfl, hp, rfl⟩ | ⟨p, known, r, rfl, hp, hk, rfl⟩ |
    ⟨j, took, u, u', ρ, new, rfl, hu, hsteps, rfl⟩ := Net.step?_cases h
  · rw [Net.push, List.getElem?_append_right hi] at ht
    have hmem := List.mem_of_getElem? ht
    exact .inl ⟨p, rfl, hp, List.mem_singleton.mp hmem, rfl⟩
  · rw [Net.push, List.getElem?_append_right hi] at ht
    rw [List.mem_singleton.mp (List.mem_of_getElem? ht)]
    exact .inr fun _ he => by cases he
  · rw [List.getElem?_append_right (by rwa [List.length_set])] at ht
    have hmem := List.mem_of_getElem? ht
    refine .inr fun p he => ?_
    cases hsteps with
    | reply _ _ _ =>
      rw [List.mem_singleton.mp hmem] at he
      cases he
    | _ => cases hmem

theorem Net.length_threads_le : n.threads.length ≤ n'.threads.length := by
  obtain ⟨p, rfl, hp, rfl⟩ | ⟨p, known, r, rfl, hp, hk, rfl⟩ |
    ⟨j, took, u, u', ρ, new, rfl, hu, hsteps, rfl⟩ := Net.step?_cases h <;>
    simp [Net.push]

theorem Net.node_step? :
    n'.ring = n.ring ∨ ∃ (i : ℕ) (t t' : Thread) (new : List Thread), n.threads[i]? = some t ∧
      t.Steps n.ring n'.ring t' new := by
  obtain ⟨p, rfl, hp, rfl⟩ | ⟨p, known, r, rfl, hp, hk, rfl⟩ |
    ⟨j, took, u, u', ρ, new, rfl, hu, hsteps, rfl⟩ := Net.step?_cases h
  · exact .inl rfl
  · exact .inl rfl
  · exact .inr ⟨j, u, u', new, hu, hsteps⟩

end

namespace Timeline

variable (τ : Timeline)

def ring (k : ℕ) : Ring := (τ.net k).ring

def members (k : ℕ) : List Peer := (τ.ring k).members

/-- Who takes part: the first members, and all who try to join. -/
def Involves (p : Peer) : Prop := p ∈ τ.members 0 ∨ ∃ k known r, τ.move k = .join p known r

/-- From time `K` on every member starts one maintenance round after another. -/
def KeepsRounds (K : ℕ) : Prop := ∀ k ≥ K, ∀ p ∈ τ.members k, ∃ j ≥ k, τ.move j = .round p

/-- Every round that is started comes to its end. -/
def RoundsEnd : Prop := ∀ (k i : ℕ) (t : Thread) (p : Peer), (τ.net k).threads[i]? = some t →
  t.errand = .round p → ∃ m ≥ k, ∃ t' : Thread, (τ.net m).threads[i]? = some t' ∧ t'.isDone = true

variable {τ}

theorem ring_step (τ : Timeline) (k : ℕ) : τ.ring (k + 1) = τ.ring k ∨
    ∃ (i : ℕ) (t t' : Thread) (new : List Thread), (τ.net k).threads[i]? = some t ∧
      t.Steps (τ.ring k) (τ.ring (k + 1)) t' new :=
  Net.node_step? (τ.step k)

theorem done_forever {k i : ℕ} {t : Thread} (ht : (τ.net k).threads[i]? = some t)
    (hd : t.isDone = true) (m : ℕ) (hm : k ≤ m) : (τ.net m).threads[i]? = some t := by
  induction m, hm using Nat.le_induction with
  | base => exact ht
  | succ m _ ih =>
    obtain ⟨t', ht', rfl | ⟨new, hsteps⟩⟩ := Net.thread_step? (τ.step m) ih
    · exact ht'
    · rw [hsteps.not_done] at hd
      cases hd

theorem length_threads_mono {k m : ℕ} (hm : k ≤ m) :
    (τ.net k).threads.length ≤ (τ.net m).threads.length := by
  induction m, hm using Nat.le_induction with
  | base => exact le_rfl
  | succ m _ ih => exact ih.trans (Net.length_threads_le (τ.step m))

theorem thread_forever {k i : ℕ} {t : Thread} (ht : (τ.net k).threads[i]? = some t) (m : ℕ)
    (hm : k ≤ m) : ∃ t', (τ.net m).threads[i]? = some t' ∧ t'.errand = t.errand := by
  induction m, hm using Nat.le_induction with
  | base => exact ⟨t, ht, rfl⟩
  | succ m _ ih =>
    obtain ⟨u, hu, he⟩ := ih
    obtain ⟨t', ht', rfl | ⟨new, hsteps⟩⟩ := Net.thread_step? (τ.step m) hu
    · exact ⟨t', ht', he⟩
    · exact ⟨t', ht', hsteps.errand_eq.trans he⟩

theorem RoundsEnd.all_done (h : τ.RoundsEnd) (k : ℕ) : ∃ m ≥ k, ∀ j ≥ m, ∀ (i : ℕ) (t : Thread)
    (p : Peer), i < (τ.net k).threads.length → (τ.net j).threads[i]? = some t → t.errand = .round p →
      t.isDone = true := by
  -- one thread after the other
  suffices hall : ∀ L ≤ (τ.net k).threads.length, ∃ m ≥ k, ∀ j ≥ m, ∀ (i : ℕ) (t : Thread) (p : Peer),
      i < L → (τ.net j).threads[i]? = some t → t.errand = .round p → t.isDone = true from
    hall _ (le_rfl)
  intro L
  induction L with
  | zero => exact fun _ => ⟨k, Nat.le_refl k, fun j _ i t p hi => absurd hi (Nat.not_lt_zero i)⟩
  | succ L ih =>
    intro hL
    obtain ⟨m, hm, hdone⟩ := ih (Nat.le_of_succ_le hL)
    have hget : (τ.net k).threads[L]? = some (τ.net k).threads[L] := List.getElem?_eq_getElem hL
    by_cases hround : ∃ p, (τ.net k).threads[L].errand = .round p
    · obtain ⟨p, he⟩ := hround
      obtain ⟨m', hm', t', ht', hd⟩ := h k L _ p hget he
      refine ⟨max m m', hm.trans (Nat.le_max_left _ _), fun j hj i u q hi hu hq => ?_⟩
      rcases Nat.lt_succ_iff_lt_or_eq.mp hi with hi | rfl
      · exact hdone j (Nat.le_trans (Nat.le_max_left _ _) hj) i u q hi hu hq
      · rw [done_forever ht' hd j (Nat.le_trans (Nat.le_max_right _ _) hj)] at hu
        cases hu
        exact hd
    · refine ⟨m, hm, fun j hj i u q hi hu hq => ?_⟩
      rcases Nat.lt_succ_iff_lt_or_eq.mp hi with hi | rfl
      · exact hdone j hj i u q hi hu hq
      · obtain ⟨t', ht', he⟩ := thread_forever hget j (hm.trans hj)
        rw [ht'] at hu
        cases hu
        exact absurd ⟨q, he.symm.trans hq⟩ hround

end Timeline

/-! ### Disciplines through time -/

namespace Discipline

variable {D : Discipline} {τ : Timeline}

theorem Sound.forever (hD : D.Sound) (hK : D.Keeps) (hm : ∀ k, D.Admits (τ.move k))
    (h : D.Holds (τ.net 0)) (k : ℕ) : D.Holds (τ.net k) := by
  induction k with
  | zero => exact h
  | succ k ih => exact (hD.step hK (hm k) ih (τ.step k)).1

section
variable (hD : D.Sound) {K : ℕ} (hI : ∀ k ≥ K, D.Inv (τ.ring k)) (hl : ∀ k ≥ K, D.Later (τ.ring k) (τ.ring (k + 1)))
include hD hI hl

/-- **A thread that follows a discipline goes on following it**, whatever the others do, while the
invariant holds and nothing known is lost. -/
theorem Sound.tracks {k i : ℕ} {t t' : Thread} (hk : K ≤ k)
    (ht : (τ.net k).threads[i]? = some t) (ht' : (τ.net (k + 1)).threads[i]? = some t')
    (hf : ∃ T, D.Follows (τ.ring k) t T) : ∃ T, D.Follows (τ.ring (k + 1)) t' T := by
  obtain ⟨T, hf⟩ := hf
  obtain ⟨u, hu, rfl | ⟨new, hsteps⟩⟩ := Net.thread_step? (τ.step k) ht
  · rw [ht'] at hu
    cases hu
    exact ⟨T, hf.later hD (hl k hk)⟩
  · rw [ht'] at hu
    cases hu
    exact (hD.thread_step (hI k hk) (hI (k + 1) (Nat.le_succ_of_le hk)) hf hsteps).2.1

/-- **The rounds that start from some time on follow a discipline whose invariant holds from then
on.** -/
theorem Sound.rounds_follow (k : ℕ) (hk : K ≤ k) (i : ℕ) (t : Thread)
    (p : Peer) (hi : (τ.net K).threads.length ≤ i) (ht : (τ.net k).threads[i]? = some t)
    (he : t.errand = .round p) : ∃ T, D.Follows (τ.ring k) t T := by
  induction k, hk using Nat.le_induction generalizing t with
  | base =>
    rw [List.getElem?_eq_none hi] at ht
    cases ht
  | succ k hk ih =>
    rcases Nat.lt_or_ge i (τ.net k).threads.length with hlt | hge
    · have hget := List.getElem?_eq_getElem hlt
      obtain ⟨u, hu, hor⟩ := Net.thread_step? (τ.step k) hget
      rw [ht] at hu
      cases hu
      have herrand : t.errand = (τ.net k).threads[i].errand := by
        rcases hor with rfl | ⟨new, hsteps⟩
        · rfl
        · exact hsteps.errand_eq
      exact hD.tracks hI hl hk hget ht (ih _ hget (herrand.symm.trans he))
    · rcases Net.new_thread (τ.step k) hge ht with ⟨q, _, hq, rfl, hring⟩ | hno
      · refine ⟨[], ?_⟩
        rw [Timeline.ring, hring]
        exact follows_roundThread hD (hI k hk) hq
      · exact absurd he (hno p)

/-- **A round that starts from some time on comes to its goal.** -/
theorem Sound.round_goal (hend : τ.RoundsEnd) {j : ℕ} (hj : K ≤ j)
    {p : Peer} (hmove : τ.move j = .round p) : ∃ H, D.goal (.round p) H := by
  have hstep := τ.step j
  rw [hmove] at hstep
  simp only [Net.step?] at hstep
  split at hstep
  · cases hnet : τ.net (j + 1) with
    | mk ring threads =>
      rw [hnet] at hstep
      have hthreads : (τ.net (j + 1)).threads = (τ.net j).threads ++ [roundThread p] := by
        rw [hnet]
        exact (congrArg Net.threads (Option.some.inj hstep)).symm
      have hget : (τ.net (j + 1)).threads[(τ.net j).threads.length]? = some (roundThread p) := by
        rw [hthreads]
        simp
      obtain ⟨m, hm, t, ht, hd⟩ := hend (j + 1) _ _ p hget rfl
      obtain ⟨t', ht', he⟩ := Timeline.thread_forever hget m hm
      rw [ht] at ht'
      cases ht'
      have hle : (τ.net K).threads.length ≤ (τ.net j).threads.length :=
        Timeline.length_threads_mono hj
      obtain ⟨T, hf⟩ := hD.rounds_follow hI hl m (by omega) _ t p hle ht he
      exact ⟨_, (hf.done_errand hd he).2⟩
  · cases hstep

end

end Discipline

/-! ### Threads come to their end -/

/-- A thread alone, some steps further. -/
inductive Thread.Alone : Ring → Thread → Ring → Thread → Prop
  | refl (ρ : Ring) (t : Thread) : Alone ρ t ρ t
  | step {ρ ρ' ρ'' : Ring} {t t' t'' : Thread} {new : List Thread} :
      t.step ρ 0 = some (ρ', t', new) → Alone ρ' t' ρ'' t'' → Alone ρ t ρ'' t''

theorem Thread.Alone.trans {ρ'' : Ring} {t'' : Thread} (h : Thread.Alone ρ t ρ' t')
    (h' : Thread.Alone ρ' t' ρ'' t'') : Thread.Alone ρ t ρ'' t'' := by
  induction h with
  | refl => exact h'
  | step hs _ ih => exact .step hs (ih h')

/-- The rules of a task that sends only some lines. -/
def linesRules (L : Str → Prop) : TurnRules where
  assume _ _ := True
  change _ _ _ := True
  ask _ q := L q.line

/-- A thread left alone gets to the end of its code. -/
def Thread.Ends (ρ : Ring) (t : Thread) (post : Ending → Prop) : Prop :=
  ∃ (ρ' : Ring) (t' : Thread) (e : Ending), Thread.Alone ρ t ρ' t' ∧ t'.code = .done e ∧ post e ∧
    t'.stack = t.stack ∧ t'.errand = t.errand ∧ ρ'.members = ρ.members

theorem Thread.Ends.head (h : t'.Ends ρ' post) (ha : Thread.Alone ρ t ρ' t') (hstack : t'.stack = t.stack)
    (herrand : t'.errand = t.errand) (hmem : ρ'.members = ρ.members) : t.Ends ρ post := by
  obtain ⟨ρ'', t'', e, ha', hcode, he, hs, hr, hm⟩ := h
  exact ⟨ρ'', t'', e, ha.trans ha', hcode, he, hs.trans hstack, hr.trans herrand, hm.trans hmem⟩

/-- Whatever is sent with such a line is answered in the end. -/
def Replied (L : Str → Prop) : Prop := ∀ (q : Call) (ρ : Ring) (t : Thread), L q.line →
  (t.code = do let h ← handleRequest q.node q.line; return .served h) →
    t.Ends ρ fun e => ∃ h, e = .served h

/-- **A task whose lines are answered comes to its end.** -/
theorem ends_of_replied {L : Str → Prop} (hL : Replied L) {H : Turns} {code : Task Ending}
    (h : Sat (linesRules L) (fun _ e => post e) H code) (ρ : Ring) (t : Thread) (hcode : t.code = code) :
    t.Ends ρ post := by
  induction code generalizing H ρ t with
  | done e => exact ⟨ρ, t, e, .refl ρ t, hcode, h, rfl, rfl, rfl⟩
  | lock f next ih =>
    by_cases hmine : ∃ s, t.stack = [] ∧ t.own = some s
    · obtain ⟨s, hstack, hown⟩ := hmine
      have hstep : t.step ρ 0 = some (ρ,
          { t with own := some (f s), turns := .held s (f s) :: t.turns, code := next s }, []) := by
        rw [Thread.step, hcode, hstack, hown]
      exact (ih s (h s trivial).2 ρ _ rfl).head (.step hstep (.refl ..)) rfl rfl rfl
    · have hstep : t.step ρ 0 = some (ρ.set t.me (f (ρ.node t.me)), { t with
          turns := .held (ρ.node t.me) (f (ρ.node t.me)) :: t.turns
          code := next (ρ.node t.me) }, []) := by
        rw [Thread.step, hcode]
        dsimp only
        split
        · rename_i s hstack hown
          exact absurd ⟨s, hstack, hown⟩ hmine
        · rfl
      exact (ih _ (h _ trivial).2 _ _ rfl).head (.step hstep (.refl ..)) rfl rfl rfl
  | call q next ih =>
    by_cases hmem : q.node ∈ ρ.members
    · -- the member answers, and the task goes on
      have hcall : t.step ρ 0 = some (ρ, { t with
          me := q.node
          turns := []
          code := do let h ← handleRequest q.node q.line; return .served h
          stack := ⟨t.me, t.turns, q, next⟩ :: t.stack }, []) := by
        rw [Thread.step, hcode]
        exact if_pos hmem
      obtain ⟨ρ₁, t₁, e, ha, hdone, ⟨served, rfl⟩, hstack, herrand, hmembers⟩ := hL q ρ _ h.1
        (show ({ t with
          me := q.node
          turns := []
          code := do let h ← handleRequest q.node q.line; return .served h
          stack := ⟨t.me, t.turns, q, next⟩ :: t.stack } : Thread).code = _ from rfl)
      have hreply : t₁.step ρ₁ 0 = some (ρ₁.answer q, { t₁ with
          me := t.me
          turns := .said q ⟨.ok, served.reply, 0⟩ :: t.turns
          code := next ⟨.ok, served.reply, 0⟩
          stack := t.stack }, [deferredThread q t₁.turns served]) := by
        rw [Thread.step, hdone, hstack]
      exact (ih _ (h.2 _ trivial) _ _ rfl).head
        (.step hcall (ha.trans (.step hreply (.refl ..)))) rfl herrand hmembers
    · have habsent : t.step ρ 0 = some (ρ, { t with
          turns := .said q (ρ.absent q.node 0) :: t.turns
          code := next (ρ.absent q.node 0) }, []) := by
        rw [Thread.step, hcode]
        exact if_neg hmem
      exact (ih _ (h.2 _ trivial) _ _ rfl).head (.step habsent (.refl ..)) rfl rfl rfl

section lines
variable {L : Str → Prop} {H : Turns}

theorem sat_lines_ping (self : Peer) :
    Sat (linesRules L) (fun _ _ => True) H (handleRequest self "PING".toList) := by
  have hwords : blankWords "PING".toList = ["PING".toList] := by decide
  rw [handleRequest, hwords]
  dsimp only
  rw [if_pos (by decide)]
  apply Sat.bind
  refine sat_sect fun s _ => ⟨trivial, ?_⟩
  cases s.orphaned with
  | true => trivial
  | false =>
    dsimp only
    rw [serve, if_pos rfl]
    trivial

theorem Replied.of_sat {L' : Str → Prop} (hL : Replied L)
    (h : ∀ q : Call, L' q.line → Sat (linesRules L) (fun _ _ => True) [] (handleRequest q.node q.line)) :
    Replied L' := by
  intro q ρ t hq hcode
  refine ends_of_replied hL (H := []) ?_ ρ t hcode
  apply Sat.bind
  exact (h q hq).mono fun _ h _ => ⟨h, rfl⟩

/-- **Every request is answered**: at most a PING is sent for it, and a PING needs nobody else. -/
theorem replied_all : Replied fun _ => True := by
  have hnone : Replied fun _ => False := fun _ _ _ h => h.elim
  have hping : Replied fun line => line = "PING".toList := by
    refine hnone.of_sat fun q hq => ?_
    rw [hq]
    exact sat_lines_ping q.node
  exact hping.of_sat fun q _ => ((requests_handleRequest q.line).mono fun _ _ _ => trivial).weaken
    (fun _ _ _ => trivial) (fun _ _ _ _ => trivial) fun _ _ h => h

/-- **Every round can be run to its end.** -/
theorem roundThread_ends (ρ : Ring) (p : Peer) : (roundThread p).Ends ρ (· = .finished) := by
  have hany : ∀ {α : Type} (H : Turns) (code : Task α),
      Sat (linesRules fun _ => True) (fun _ _ => True) H code := by
    intro α H code
    induction code generalizing H with
    | done _ => trivial
    | lock f next ih => exact fun s _ => ⟨trivial, ih s _⟩
    | call q next ih => exact ⟨trivial, fun a _ => ih a _⟩
  refine ends_of_replied replied_all (H := []) ?_ ρ (roundThread p) rfl
  apply Sat.bind
  exact (hany [] (maintenanceRound p)).mono fun _ _ _ => rfl

end lines

/-! ### Fair runs -/

theorem Net.exec_alone {i : ℕ} (h : Thread.Alone ρ t ρ' t') (hring : n.ring = ρ)
    (ht : n.threads[i]? = some t) : ∃ (l : List Move) (n' : Net),
      n.exec l = some n' ∧ n'.ring = ρ' ∧ n'.threads[i]? = some t' ∧ (∀ m ∈ l, m = .run i 0) ∧
      ∀ (j : ℕ) (u : Thread), j ≠ i → n'.threads[j]? = some u →
        n.threads[j]? = some u ∨ ∃ q, u.errand = .deferred q := by
  induction h generalizing n with
  | refl ρ t => exact ⟨[], n, rfl, hring, ht, by simp, fun j u _ hu => .inl hu⟩
  | @step ρ ρ₁ ρ₂ t t₁ t₂ new hs _ ih =>
    subst hring
    have hi := (List.getElem?_eq_some_iff.mp ht).1
    have hstep : n.step? (.run i 0) = some ⟨ρ₁, n.threads.set i t₁ ++ new⟩ := by
      simp only [Net.step?, ht, hs]
    obtain ⟨l, n', hexec, hring, ht', hl, hothers⟩ := @ih ⟨ρ₁, n.threads.set i t₁ ++ new⟩ rfl (by
      rw [List.getElem?_append_left (by rwa [List.length_set]), List.getElem?_set_self hi])
    refine ⟨.run i 0 :: l, n', ?_, hring, ht', ?_, fun j u hj hu => ?_⟩
    · rw [Net.exec_cons, hstep]
      exact hexec
    · intro m hm
      rcases List.mem_cons.mp hm with rfl | hm
      · rfl
      · exact hl m hm
    · rcases hothers j u hj hu with hu | hu
      · rcases Nat.lt_or_ge j n.threads.length with hlt | hge
        · rw [List.getElem?_append_left (by rwa [List.length_set]),
            List.getElem?_set_ne fun h => hj h.symm] at hu
          exact .inl hu
        · rw [List.getElem?_append_right (by rwa [List.length_set])] at hu
          have hmem := List.mem_of_getElem? hu
          cases Thread.step_steps hs with
          | reply _ _ _ =>
            rw [List.mem_singleton.mp hmem]
            exact .inr ⟨_, rfl⟩
          | _ => cases hmem
      · exact .inr hu

/-- Between two rounds: these are the members, and no round is running. -/
structure Net.Rests (n : Net) (M : List Peer) : Prop where
  members : n.ring.members = M
  done : ∀ (i : ℕ) (t : Thread) (p : Peer), n.threads[i]? = some t → t.errand = .round p →
    t.isDone = true

theorem Net.Rests.round (h : n.Rests M) {p : Peer} (hp : p ∈ M) :
    ∃ (l : List Move) (n' : Net), n.exec (.round p :: l) = some n' ∧ n'.Rests M ∧
      ∀ m ∈ l, ∃ i took, m = .run i took := by
  have hstep : n.step? (.round p) = some (n.push (roundThread p)) := by
    rw [Net.step?, if_pos (by rwa [h.members])]
  obtain ⟨ρ', t', e, ha, hcode, rfl, hstack, _, hmembers⟩ := roundThread_ends n.ring p
  obtain ⟨l, n', hexec, hring, ht', hl, hothers⟩ := @Net.exec_alone _ _ _ _ (n.push (roundThread p))
    n.threads.length ha rfl (by simp [Net.push])
  refine ⟨l, n', ?_, ⟨?_, fun i t q ht he => ?_⟩, fun m hm => ⟨_, _, hl m hm⟩⟩
  · rw [Net.exec_cons, hstep]
    exact hexec
  · rw [hring, hmembers, h.members]
  · by_cases hi : i = n.threads.length
    · subst hi
      rw [ht'] at ht
      cases ht
      rw [Thread.isDone, hcode, hstack]
      rfl
    · rcases hothers i t hi ht with hold | ⟨q', hq'⟩
      · have hlt : i < n.threads.length := by
          have := (List.getElem?_eq_some_iff.mp hold).1
          rw [Net.push, List.length_append, List.length_singleton] at this
          omega
        rw [Net.push, List.getElem?_append_left hlt] at hold
        exact h.done i t q hold he
      · rw [hq'] at he
        cases he

theorem Net.members_suffix {n' : Net} {m : Move} (h : n.step? m = some n') :
    n.ring.members <:+ n'.ring.members := by
  rcases Net.node_step? h with h | ⟨i, t, t', new, _, hsteps⟩
  · rw [h]
  · generalize n'.ring = ρ' at hsteps
    cases hsteps with
    | listen _ _ _ _ => exact List.suffix_cons _ _
    | _ => exact List.suffix_rfl

/-- A net with the moves that are left to make until its members rest. -/
structure Plan (pre : List Move) (M : List Peer) where
  net : Net
  moves : List Move
  /-- The rounds started so far. -/
  turn : ℕ
  rests : ∃ n, net.exec moves = some n ∧ n.Rests M
  quiet : ∀ m ∈ moves, m ∈ pre ∨ ∀ p known r, m ≠ .join p known r

namespace Plan

variable {pre : List Move} {M : List Peer}

theorem rests_net (s : Plan pre M) (h : s.moves = []) : s.net.Rests M := by
  obtain ⟨n, hn, hrests⟩ := s.rests
  rw [h] at hn
  cases hn
  exact hrests

theorem exists_next (hM : 0 < M.length) (s : Plan pre M) : ∃ (m : Move) (s' : Plan pre M),
    s.net.step? m = some s'.net ∧ (m ∈ pre ∨ ∀ p known r, m ≠ .join p known r) ∧
    (s.moves = m :: s'.moves ∧ s'.turn = s.turn ∨ s.moves = [] ∧ s'.turn = s.turn + 1 ∧
      m = .round (M.get ⟨s.turn % M.length, Nat.mod_lt _ hM⟩)) := by
  cases hm : s.moves with
  | nil =>
    obtain ⟨l, n, hexec, hrests, hruns⟩ := (s.rests_net hm).round
      (List.get_mem M ⟨s.turn % M.length, Nat.mod_lt _ hM⟩)
    obtain ⟨n₁, hstep, hl⟩ := Option.bind_eq_some_iff.mp (Net.exec_cons .. ▸ hexec)
    refine ⟨_, ⟨n₁, l, s.turn + 1, ⟨n, hl, hrests⟩, fun m hm => .inr fun _ _ _ he => ?_⟩, hstep,
      .inr (fun _ _ _ he => by cases he), .inr ⟨rfl, rfl, rfl⟩⟩
    obtain ⟨i, took, rfl⟩ := hruns m hm
    cases he
  | cons m l =>
    obtain ⟨n, hexec, hrests⟩ := s.rests
    have hquiet := s.quiet
    rw [hm] at hexec hquiet
    obtain ⟨n₁, hstep, hl⟩ := Option.bind_eq_some_iff.mp (Net.exec_cons .. ▸ hexec)
    exact ⟨m, ⟨n₁, l, s.turn, ⟨n, hl, hrests⟩, fun m' hm' => hquiet m' (List.mem_cons_of_mem _ hm')⟩,
      hstep, hquiet m List.mem_cons_self, .inl ⟨rfl, rfl⟩⟩

end Plan

/-- **Fairness can always be kept**: from any net between two rounds, however it was reached, there
is a run in which every member runs one round after another for ever. -/
theorem exists_fair {n₀ n₁ : Net} {pre : List Move} (hpre : n₀.exec pre = some n₁) (hrests : n₁.Rests M)
    (hM : M ≠ []) : ∃ τ : Timeline, τ.net 0 = n₀ ∧
      (∀ k ≥ pre.length, τ.members k = M) ∧ τ.KeepsRounds pre.length ∧ τ.RoundsEnd ∧
      ∀ k, τ.move k ∈ pre ∨ ∀ p known r, τ.move k ≠ .join p known r := by
  have hpos := List.length_pos_iff.mpr hM
  choose move next hstep hquiet hcases using fun s : Plan pre M => s.exists_next hpos
  let σ : ℕ → Plan pre M := fun k => next^[k] ⟨n₀, pre, 0, ⟨n₁, hpre, hrests⟩, fun m hm => .inl hm⟩
  have hσ : ∀ k, σ (k + 1) = next (σ k) := fun k => Function.iterate_succ_apply' next k _
  let τ : Timeline := ⟨fun k => (σ k).net, fun k => move (σ k), fun k => by rw [hσ]; exact hstep _⟩
  -- the moves that are left are made
  have hdone : ∀ l k, (σ k).moves.length = l → (σ (k + l)).moves = [] ∧ (σ (k + l)).turn = (σ k).turn := by
    intro l
    induction l with
    | zero => exact fun k hk => ⟨List.length_eq_zero_iff.mp hk, rfl⟩
    | succ l ih =>
      intro k hk
      rcases hcases (σ k) with ⟨hm, ht⟩ | ⟨hm, -⟩
      · rw [hm, List.length_cons, ← hσ] at hk
        rw [← hσ] at ht
        rw [← ht, Nat.add_comm l 1, ← Nat.add_assoc]
        exact ih (k + 1) (Nat.succ.inj hk)
      · rw [hm] at hk
        cases hk
  have hrest : ∀ k, ∃ m ≥ k, (τ.net m).Rests M := fun k =>
    ⟨_, Nat.le_add_right _ _, (σ _).rests_net (hdone _ k rfl).1⟩
  have hturn : ∀ k c, (σ k).turn ≤ c → ∃ m ≥ k, (σ m).moves = [] ∧ (σ m).turn = c := by
    intro k c hc
    induction c, hc using Nat.le_induction with
    | base => exact ⟨_, Nat.le_add_right _ _, hdone _ k rfl⟩
    | succ c _ ih =>
      obtain ⟨m, hm, hempty, hturn⟩ := ih
      rcases hcases (σ m) with ⟨h, -⟩ | ⟨-, h, -⟩
      · rw [hempty] at h
        cases h
      · rw [← hσ, hturn] at h
        obtain ⟨h1, h2⟩ := hdone _ (m + 1) rfl
        exact ⟨_, (Nat.le_succ_of_le hm).trans (Nat.le_add_right _ _), h1, h2.trans h⟩
  have hsuffix : ∀ k m, k ≤ m → τ.members k <:+ τ.members m := by
    intro k m hm
    induction m, hm using Nat.le_induction with
    | base => exact List.suffix_rfl
    | succ m _ ih => exact ih.trans (Net.members_suffix (τ.step m))
  have hmembers : ∀ k ≥ pre.length, τ.members k = M := by
    intro k hk
    obtain ⟨m, hm, hr⟩ := hrest k
    have hfirst := ((σ (0 + pre.length)).rests_net (hdone _ 0 rfl).1).members
    rw [Nat.zero_add] at hfirst
    have h₁ : M <:+ τ.members k := hfirst ▸ hsuffix pre.length k hk
    have h₂ : τ.members k <:+ M := hr.members ▸ hsuffix k m hm
    exact (h₁.eq_of_length (Nat.le_antisymm h₁.length_le h₂.length_le)).symm
  refine ⟨τ, rfl, hmembers, fun k hk p hp => ?_, fun k i t p ht he => ?_, fun k => hquiet (σ k)⟩
  · rw [hmembers k hk] at hp
    obtain ⟨a, ha, rfl⟩ := List.getElem_of_mem hp
    -- the member's next turn
    obtain ⟨m, hm, hempty, hturn⟩ := hturn k (a + M.length * (σ k).turn)
      (Nat.le_trans (Nat.le_mul_of_pos_left _ hpos) (Nat.le_add_left _ _))
    refine ⟨m, hm, ?_⟩
    rcases hcases (σ m) with ⟨h, -⟩ | ⟨-, -, h⟩
    · rw [hempty] at h
      cases h
    · refine h.trans ?_
      simp only [hturn, Nat.add_mul_mod_self_left, Nat.mod_eq_of_lt ha, List.get_eq_getElem]
  · obtain ⟨m, hm, hr⟩ := hrest k
    obtain ⟨t', ht', he'⟩ := Timeline.thread_forever ht m hm
    exact ⟨m, hm, t', ht', hr.done i t' p ht' (he'.trans he)⟩

end ChordFs
