import ChordFs.Lib.Runs
import ChordFs.StabilizeEffects
import Mathlib.Algebra.Order.Ring.Int
import Mathlib.Logic.Function.Basic

/-! # The ring at work

Members run their maintenance rounds, newcomers join, and requests are answered, all at the same
time: every critical section is one step, and between two of them anything else can happen.  A run
in which the rounds follow one another is one of the runs of this net.

A thread is a task of a member with the calls it waits in: a call to a member that listens runs
`handleRequest` there, and what the handler leaves to do becomes a thread of its own.  A call to
anyone else is refused, or answered by the process it shares with a member.

What is kept in such a net is stated as a `Discipline`: an invariant of the members' states and what
is known of the dialogue of every task.  `Discipline.Sound.thread_step` is the step of one thread,
`Discipline.Sound.exec` the run. -/

namespace ChordFs

open Dialogue

/-- What a task comes to. -/
inductive Ending where
  | finished
  | served (h : Handled)
  | joining (status : JoinStatus)

/-- Why a thread runs. -/
inductive Errand where
  | round (p : Peer)
  | joins (p known : Peer) (r : ℕ)
  /-- What the answer to a request has left to do. -/
  | deferred (q : Call)

def Errand.isRound : Errand → Bool
  | .round _ => true
  | _ => false

/-- A task that waits for an answer. -/
structure Frame where
  me : Peer
  turns : Turns
  call : Call
  next : Exchanged → Task Ending

structure Thread where
  errand : Errand
  /-- The state of a newcomer, its own until it listens. -/
  own : Option NodeState
  /-- Where the thread is at work: the caller, or a member it has called. -/
  me : Peer
  turns : Turns
  code : Task Ending
  stack : List Frame

/-- The members that listen, and their states. -/
structure Ring where
  node : Peer → NodeState
  members : List Peer
  /-- The requests that have been answered. -/
  answered : List Call

structure Net where
  ring : Ring
  threads : List Thread

namespace Ring

def set (ρ : Ring) (p : Peer) (s : NodeState) : Ring := { ρ with node := Function.update ρ.node p s }

/-- What a caller gets where no member listens. -/
def absent (ρ : Ring) (p : Peer) (took : ℕ) : Exchanged :=
  if ρ.members.any (sameProcess p) then
    ⟨.ok, "ERR no ring member ".toList ++ idToHex p.id ++ " here".toList, took⟩
  else ⟨.refused, [], took⟩

def answer (ρ : Ring) (q : Call) : Ring := { ρ with answered := q :: ρ.answered }

/-- A newcomer listens. -/
def listen (ρ : Ring) (p : Peer) (s : NodeState) : Ring :=
  { ρ.set p s with members := p :: ρ.members }

theorem node_set_self (ρ : Ring) (p : Peer) (s : NodeState) : (ρ.set p s).node p = s :=
  Function.update_self ..

theorem node_set_ne (ρ : Ring) {p q : Peer} (s : NodeState) (h : q ≠ p) :
    (ρ.set p s).node q = ρ.node q :=
  Function.update_of_ne h ..

end Ring

/-! ### Threads -/

def roundThread (p : Peer) : Thread :=
  ⟨.round p, none, p, [], do maintenanceRound p; return .finished, []⟩

def joinThread (p known : Peer) (r : ℕ) : Thread :=
  ⟨.joins p known r, some (.fresh p r), p, [], do let o ← join p known; return .joining o.1, []⟩

/-- The work a handler leaves behind; it knows what the handler knew. -/
def deferredThread (q : Call) (turns : Turns) (h : Handled) : Thread :=
  ⟨.deferred q, none, q.node, turns, do h.after; return .finished, []⟩

/-- One step of a thread: the ring, the thread, and the threads it starts. -/
def Thread.step (ρ : Ring) (t : Thread) (took : ℕ) : Option (Ring × Thread × List Thread) :=
  match t.code with
  | .lock f next =>
    match t.stack, t.own with
    | [], some s => some (ρ,
        { t with own := some (f s), turns := .held s (f s) :: t.turns, code := next s }, [])
    | _, _ =>
      let s := ρ.node t.me
      some (ρ.set t.me (f s), { t with turns := .held s (f s) :: t.turns, code := next s }, [])
  | .call q next =>
    if q.node ∈ ρ.members then
      some (ρ, { t with
        me := q.node
        turns := []
        code := do let h ← handleRequest q.node q.line; return .served h
        stack := ⟨t.me, t.turns, q, next⟩ :: t.stack }, [])
    else
      let a := ρ.absent q.node took
      some (ρ, { t with turns := .said q a :: t.turns, code := next a }, [])
  | .done (.served h) =>
    match t.stack with
    | [] => none
    | f :: fs =>
      let a : Exchanged := ⟨.ok, h.reply, took⟩
      some (ρ.answer f.call,
        { t with me := f.me, turns := .said f.call a :: f.turns, code := f.next a, stack := fs },
        [deferredThread f.call t.turns h])
  | .done (.joining .joined) =>
    match t.stack, t.own with
    | [], some s =>
      if t.me ∈ ρ.members then none
      else some (ρ.listen t.me s, { t with own := none, code := .done .finished }, [])
    | _, _ => none
  | .done _ => none

/-- Nothing is left to do. -/
def Thread.isDone (t : Thread) : Bool :=
  match t.code, t.stack with
  | .done .finished, [] => true
  | .done (.joining status), [] => status ≠ .joined
  | _, _ => false

inductive Move where
  | round (p : Peer)
  | join (p known : Peer) (r : ℕ)
  /-- Thread `i` takes a step; a call that ends with it took that many milliseconds. -/
  | run (i took : ℕ)

namespace Net

def push (n : Net) (t : Thread) : Net := { n with threads := n.threads ++ [t] }

def step? (n : Net) : Move → Option Net
  | .round p => if p ∈ n.ring.members then some (n.push (roundThread p)) else none
  | .join p known r =>
    if p ∉ n.ring.members ∧ known ∈ n.ring.members then some (n.push (joinThread p known r))
    else none
  | .run i took =>
    match n.threads[i]? with
    | none => none
    | some t =>
      match t.step n.ring took with
      | none => none
      | some (ρ, t', new) => some ⟨ρ, n.threads.set i t' ++ new⟩

def exec (n : Net) (moves : List Move) : Option Net := moves.foldlM step? n

end Net

/-- What a thread can do in one step. -/
inductive Thread.Steps (ρ : Ring) (t : Thread) : Ring → Thread → List Thread → Prop
  | lock {f : NodeState → NodeState} {next : NodeState → Task Ending} : t.code = .lock f next →
      t.stack ≠ [] ∨ t.own = none → Steps ρ t (ρ.set t.me (f (ρ.node t.me)))
        { t with
          turns := .held (ρ.node t.me) (f (ρ.node t.me)) :: t.turns
          code := next (ρ.node t.me) } []
  | mine {f : NodeState → NodeState} {next : NodeState → Task Ending} {s : NodeState} :
      t.code = .lock f next → t.stack = [] → t.own = some s → Steps ρ t ρ
        { t with own := some (f s), turns := .held s (f s) :: t.turns, code := next s } []
  | call {q : Call} {next : Exchanged → Task Ending} : t.code = .call q next → q.node ∈ ρ.members →
      Steps ρ t ρ { t with
        me := q.node
        turns := []
        code := do let h ← handleRequest q.node q.line; return .served h
        stack := ⟨t.me, t.turns, q, next⟩ :: t.stack } []
  | absent {q : Call} {next : Exchanged → Task Ending} (took : ℕ) : t.code = .call q next →
      q.node ∉ ρ.members → Steps ρ t ρ
        { t with
          turns := .said q (ρ.absent q.node took) :: t.turns
          code := next (ρ.absent q.node took) } []
  | reply {h : Handled} {f : Frame} {fs : List Frame} (took : ℕ) : t.code = .done (.served h) →
      t.stack = f :: fs → Steps ρ t (ρ.answer f.call)
        { t with
          me := f.me
          turns := .said f.call ⟨.ok, h.reply, took⟩ :: f.turns
          code := f.next ⟨.ok, h.reply, took⟩
          stack := fs } [deferredThread f.call t.turns h]
  | listen {s : NodeState} : t.code = .done (.joining .joined) → t.stack = [] → t.own = some s →
      t.me ∉ ρ.members → Steps ρ t (ρ.listen t.me s)
        { t with own := none, code := .done .finished } []

variable {ρ ρ' : Ring} {t t' : Thread} {new : List Thread}

theorem Thread.step_steps {took : ℕ} (h : t.step ρ took = some (ρ', t', new)) : t.Steps ρ ρ' t' new := by
  unfold Thread.step at h
  split at h
  · rename_i f next hcode
    split at h
    · rename_i s hstack hown
      cases h
      exact .mine hcode hstack hown
    · rename_i hno
      cases h
      refine .lock hcode ?_
      by_contra hc
      simp only [not_or, not_not] at hc
      obtain ⟨s, hs⟩ := Option.ne_none_iff_exists'.mp hc.2
      exact hno s hc.1 hs
  · rename_i q next hcode
    split at h
    · rename_i hmem
      cases h
      exact .call hcode hmem
    · rename_i hmem
      cases h
      exact .absent took hcode hmem
  · rename_i h' hcode
    split at h
    · cases h
    · rename_i f fs hstack
      cases h
      exact .reply took hcode hstack
  · rename_i hcode
    split at h
    · rename_i s hstack hown
      split at h
      · cases h
      · rename_i hmem
        cases h
        exact .listen hcode hstack hown hmem
    · cases h
  · cases h

theorem Net.step?_cases {n n' : Net} {m : Move} (h : n.step? m = some n') :
    (∃ p, m = .round p ∧ p ∈ n.ring.members ∧ n' = n.push (roundThread p)) ∨
    (∃ p known r, m = .join p known r ∧ p ∉ n.ring.members ∧ known ∈ n.ring.members ∧
      n' = n.push (joinThread p known r)) ∨
    (∃ i took t t' ρ new, m = .run i took ∧ n.threads[i]? = some t ∧ t.Steps n.ring ρ t' new ∧
      n' = ⟨ρ, n.threads.set i t' ++ new⟩) := by
  cases m with
  | round p =>
    simp only [Net.step?] at h
    split at h
    · rename_i hp
      cases h
      exact .inl ⟨p, rfl, hp, rfl⟩
    · cases h
  | join p known r =>
    simp only [Net.step?] at h
    split at h
    · rename_i hp
      cases h
      exact .inr (.inl ⟨p, known, r, rfl, hp.1, hp.2, rfl⟩)
    · cases h
  | run i took =>
    simp only [Net.step?] at h
    split at h
    · cases h
    · rename_i t ht
      split at h
      · cases h
      · rename_i ρ t' new hstep
        cases h
        exact .inr (.inr ⟨i, took, t, t', ρ, new, rfl, ht, Thread.step_steps hstep, rfl⟩)

/-! ### Errands -/

theorem Thread.Steps.errand_eq (h : t.Steps ρ ρ' t' new) : t'.errand = t.errand := by
  cases h <;> rfl

theorem Thread.Steps.answered (h : t.Steps ρ ρ' t' new) {q : Call} (hq : q ∈ ρ'.answered) :
    q ∈ ρ.answered ∨ ∃ u ∈ new, u.errand = .deferred q := by
  cases h with
  | reply took _ _ =>
    rcases List.mem_cons.mp hq with rfl | hq
    · exact .inr ⟨_, List.mem_singleton.mpr rfl, rfl⟩
    · exact .inl hq
  | _ => exact .inl hq

namespace Net

variable {n n' : Net} {moves : List Move} {e : Errand}

theorem exec_cons (n : Net) (m : Move) (l : List Move) :
    n.exec (m :: l) = (n.step? m).bind fun n' => n'.exec l := rfl

theorem exec_induction {I : Net → Prop} (hstep : ∀ n m n', m ∈ moves → n.step? m = some n' → I n → I n')
    (h : n.exec moves = some n') (hI : I n) : I n' := Runs.exec_induction hstep h hI

/-- Somebody runs, or has run, this errand. -/
def Runs (n : Net) (e : Errand) : Prop := ∃ t ∈ n.threads, t.errand = e

theorem Runs.step {m : Move} (h : n.Runs e) (hs : n.step? m = some n') : n'.Runs e := by
  obtain ⟨t, ht, he⟩ := h
  obtain ⟨p, rfl, hp, rfl⟩ | ⟨p, known, r, rfl, hp, hk, rfl⟩ |
    ⟨i, took, u, u', ρ, new, rfl, hu, hsteps, rfl⟩ := Net.step?_cases hs
  · exact ⟨t, List.mem_append_left _ ht, he⟩
  · exact ⟨t, List.mem_append_left _ ht, he⟩
  · obtain ⟨j, hj, rfl⟩ := List.getElem_of_mem ht
    obtain ⟨hi, hiu⟩ := List.getElem?_eq_some_iff.mp hu
    by_cases hij : i = j
    · subst hij
      refine ⟨u', List.mem_append_left _ (List.mem_set hi u'), ?_⟩
      rw [hsteps.errand_eq, ← hiu, he]
    · refine ⟨n.threads[j], List.mem_append_left _ ?_, he⟩
      have hj' : j < (n.threads.set i u').length := by rwa [List.length_set]
      have := List.getElem_mem hj'
      rwa [List.getElem_set_ne hij] at this

theorem Runs.exec (h : n.Runs e) (hs : n.exec moves = some n') : n'.Runs e :=
  exec_induction (I := fun n => n.Runs e) (fun _ _ _ _ hs h => h.step hs) hs h

theorem runs_round {p : Peer} (hs : n.exec moves = some n') (hp : Move.round p ∈ moves) :
    n'.Runs (.round p) := by
  induction moves generalizing n with
  | nil => cases hp
  | cons m moves ih =>
    rw [exec_cons] at hs
    obtain ⟨n₁, h₁, h₂⟩ := Option.bind_eq_some_iff.mp hs
    rcases List.mem_cons.mp hp with rfl | hp
    · refine Runs.exec ?_ h₂
      simp only [Net.step?] at h₁
      split at h₁
      · cases h₁
        exact ⟨roundThread p, List.mem_append_right _ (List.mem_singleton.mpr rfl), rfl⟩
      · cases h₁
    · exact ih h₂ hp

theorem runs_deferred {q : Call} (hs : n.exec moves = some n')
    (hn : ∀ q ∈ n.ring.answered, n.Runs (.deferred q)) (hq : q ∈ n'.ring.answered) :
    n'.Runs (.deferred q) := by
  refine exec_induction (I := fun n => ∀ q ∈ n.ring.answered, n.Runs (.deferred q)) ?_ hs hn q hq
  intro n m n₁ _ h₁ hn x hx
  obtain ⟨p, rfl, hp, rfl⟩ | ⟨p, known, r, rfl, hp, hk, rfl⟩ |
    ⟨i, took, u, u', ρ, new, rfl, hu, hsteps, rfl⟩ := Net.step?_cases h₁
  · exact (hn x hx).step h₁
  · exact (hn x hx).step h₁
  · rcases hsteps.answered hx with hx | ⟨v, hv, he⟩
    · exact (hn x hx).step h₁
    · exact ⟨v, List.mem_append_right _ hv, he⟩

end Net

/-! ### Disciplines -/

/-- What is kept while a ring works. -/
structure Discipline where
  Inv : Ring → Prop
  /-- The second ring has kept what is known of the first. -/
  Later : Ring → Ring → Prop
  /-- What is known of the dialogue of a task at `p` that was told of some peers; `p` can be a
  newcomer. -/
  Known : Ring → Bool → Peer → List Peer → Turns → Prop
  /-- What the task of a member can rely on at its next turn. -/
  assume : Peer → Turns → MemberTurn → Prop
  /-- What an errand has achieved when it ends. -/
  goal : Errand → Turns → Prop
  /-- The newcomers that are let in, with their list length. -/
  admits : Peer → ℕ → Prop

namespace Discipline

/-- The rules of a task that says nothing of how it gets to its goal. -/
def goalRules (D : Discipline) (p : Peer) : TurnRules :=
  freeRules (D.assume p)

/-- What a discipline has to show about its own members. -/
structure Sound (D : Discipline) : Prop where
  later_refl (ρ : Ring) : D.Later ρ ρ
  members_subset {ρ ρ' : Ring} : D.Later ρ ρ' → ρ.members ⊆ ρ'.members
  known_later {ρ ρ' : Ring} {b : Bool} {p : Peer} {T : List Peer} {H : Turns} : D.Later ρ ρ' →
    D.Known ρ b p T H → D.Known ρ' b p T H
  self_eq {ρ : Ring} {p : Peer} : D.Inv ρ → p ∈ ρ.members → (ρ.node p).self = p
  known_round {ρ : Ring} {p : Peer} : D.Inv ρ → p ∈ ρ.members → D.Known ρ false p [] []
  known_join {ρ : Ring} {p known : Peer} {r : ℕ} : D.Inv ρ → known ∈ ρ.members → D.admits p r →
    D.Known ρ true p [known] []
  goal_round (p : Peer) : Sat (D.goalRules p) (fun H _ => D.goal (.round p) H) [] (maintenanceRound p)
  goal_joins {p known : Peer} {r : ℕ} {H : Turns} : D.goal (.joins p known r) H
  goal_deferred {ρ : Ring} {q : Call} {T : List Peer} {H : Turns} {h : Handled} :
    D.Known ρ false q.node T H → Served q.node H q.line h →
    Sat (D.goalRules q.node) (fun H _ => D.goal (.deferred q) H) H h.after
  change {ρ : Ring} {p : Peer} {T : List Peer} {H : Turns} {s' : NodeState} : D.Inv ρ →
    D.Inv (ρ.set p s') → p ∈ ρ.members → D.Known ρ false p T H → Section p T H (ρ.node p) s' →
    D.Later ρ (ρ.set p s') ∧ D.assume p H (.held (ρ.node p) s') ∧
      D.Known (ρ.set p s') false p T (.held (ρ.node p) s' :: H)
  asked {ρ : Ring} {b : Bool} {p : Peer} {T : List Peer} {H : Turns} {q : Call} : D.Inv ρ →
    D.Known ρ b p T H → Request p T H q → (b = true → q.line ≠ notifyLine p) → q.node ∈ ρ.members →
    ∃ T', (q.line = notifyLine p → p ∈ T') ∧ D.Known ρ false q.node T' []
  replied {ρ : Ring} {b : Bool} {p : Peer} {T T' : List Peer} {H H' : Turns} {q : Call} {h : Handled}
    (took : ℕ) : D.Inv ρ → q.node ∈ ρ.members → D.Known ρ false q.node T' H' →
    Served q.node H' q.line h → D.Known ρ b p T H → Request p T H q →
    D.Later ρ (ρ.answer q) ∧ (b = false → D.assume p H (.said q ⟨.ok, h.reply, took⟩)) ∧
      D.Known (ρ.answer q) b p T (.said q ⟨.ok, h.reply, took⟩ :: H)
  absent {ρ : Ring} {b : Bool} {p : Peer} {T : List Peer} {H : Turns} {q : Call} (took : ℕ) : D.Inv ρ →
    q.node ∉ ρ.members → D.Known ρ b p T H → Request p T H q →
    (b = false → D.assume p H (.said q (ρ.absent q.node took))) ∧
      D.Known ρ b p T (.said q (ρ.absent q.node took) :: H)
  mine {ρ : Ring} {p known c owner : Peer} {r : ℕ} {H : Turns} {list : Option (List Peer)}
    {s : NodeState} : D.Inv ρ → D.admits p r → D.Known ρ true p [known] H →
    Joins p H owner list → s.self = p → s.r = r →
    D.Known ρ true p [known] (.held s (s.joined c owner list) :: H)
  listens {ρ : Ring} {p known c owner : Peer} {r : ℕ} {H : Turns} {list : Option (List Peer)}
    {s : NodeState} : D.Inv ρ → D.Inv (ρ.listen p (s.joined c owner list)) → p ∉ ρ.members →
    D.admits p r → D.Known ρ true p [known] H → Joins p H owner list → s.self = p →
    s.r = r → D.Later ρ (ρ.listen p (s.joined c owner list))

/-- What a discipline has to show to keep its invariant. -/
structure Keeps (D : Discipline) : Prop where
  change {ρ : Ring} {p : Peer} {T : List Peer} {H : Turns} {s' : NodeState} : D.Inv ρ →
    p ∈ ρ.members → D.Known ρ false p T H → Section p T H (ρ.node p) s' → D.Inv (ρ.set p s')
  answer {ρ : Ring} {q : Call} : D.Inv ρ → D.Inv (ρ.answer q)
  listens {ρ : Ring} {p known c owner : Peer} {r : ℕ} {H : Turns} {list : Option (List Peer)}
    {s : NodeState} : D.Inv ρ → p ∉ ρ.members → D.admits p r → D.Known ρ true p [known] H →
    Joins p H owner list → s.self = p → s.r = r → D.Inv (ρ.listen p (s.joined c owner list))

/-! ### What holds of a thread -/

/-- The rules of the task above a stack. -/
def rulesAt (e : Errand) (p : Peer) (T : List Peer) : List Frame →
    TurnRules
  | [] => match e with
    | .joins .. => newcomerRules p T
    | .round _ => memberRules p T
    | .deferred _ => servantRules p T
  | _ :: _ => servantRules p T

/-- Only a newcomer's own task is not one of a member. -/
def isNew (e : Errand) : List Frame → Bool
  | [] => match e with
    | .joins .. => true
    | _ => false
  | _ :: _ => false

/-- What the task above a stack ends with. -/
def endAt (p : Peer) : List Frame → Turns → Ending → Prop
  | [], H, o => (∀ h, o ≠ .served h) ∧ (o = .joining .joined → ∃ s s', Turn.held s s' ∈ H)
  | f :: _, H, o => ∃ h, o = .served h ∧ Served p H f.call.line h

/-- Where the task above a stack is at work, and whom it was told of. -/
def Stands (D : Discipline) (ρ : Ring) (e : Errand) (p : Peer) (T : List Peer) : List Frame → Prop
  | [] => match e with
    | .joins x known r => p = x ∧ T = [known] ∧ D.admits x r
    | .round x => p = x ∧ p ∈ ρ.members
    | .deferred q => p = q.node ∧ p ∈ ρ.members
  | f :: _ => p ∈ ρ.members ∧ (f.call.line = notifyLine f.me → f.me ∈ T)

/-- The code keeps to the rules and gets to the goal of its errand. -/
structure Goes (D : Discipline) (e : Errand) (p : Peer) (T : List Peer) (fs : List Frame) (H : Turns)
    (code : Task Ending) : Prop where
  sat : Sat (rulesAt e p T fs) (endAt p fs) H code
  goal : fs = [] → Sat (D.goalRules p) (fun H _ => D.goal e H) H code

/-- The tasks of a stack, the first of them waiting for an answer of `p`. -/
def Waits (D : Discipline) (ρ : Ring) (e : Errand) : Peer → List Frame → Prop
  | _, [] => True
  | p, f :: fs => f.call.node = p ∧ (∃ T, D.Stands ρ e f.me T fs ∧ D.Known ρ (isNew e fs) f.me T f.turns ∧
      Request f.me T f.turns f.call ∧
      ∀ a, (isNew e fs = false → D.assume f.me f.turns (.said f.call a)) →
        D.Goes e f.me T fs (.said f.call a :: f.turns) (f.next a)) ∧ D.Waits ρ e f.me fs

/-- The dialogue of the errand itself, under the calls it waits in. -/
def baseTurns (H : Turns) : List Frame → Turns
  | [] => H
  | f :: fs => baseTurns f.turns fs

/-- The state of a newcomer: as it was made, or as its join has left it. -/
def Born (p : Peer) (r : ℕ) (H : Turns) (s : NodeState) : Prop :=
  (s = .fresh p r ∧ ∀ s s', Turn.held s s' ∉ H) ∨
  ∃ (s₀ : NodeState) (c owner : Peer) (list : Option (List Peer)), s₀.self = p ∧ s₀.r = r ∧ Joins p H owner list ∧
    s = s₀.joined c owner list

/-- A thread has a state of its own exactly while it joins. -/
def Owns (t : Thread) : Prop :=
  match t.errand with
  | .joins p _ r => (t.own = none ∧ t.code = .done .finished ∧ t.stack = []) ∨
      ∃ s, t.own = some s ∧ Born p r (baseTurns t.turns t.stack) s
  | _ => t.own = none

/-- The thread follows the discipline. -/
structure Follows (D : Discipline) (ρ : Ring) (t : Thread) (T : List Peer) : Prop where
  stands : D.Stands ρ t.errand t.me T t.stack
  known : D.Known ρ (isNew t.errand t.stack) t.me T t.turns
  goes : D.Goes t.errand t.me T t.stack t.turns t.code
  waits : D.Waits ρ t.errand t.me t.stack
  owns : Owns t

section thread
variable {D : Discipline} {ρ ρ' : Ring} {t t' : Thread} {T : List Peer} {new : List Thread}

variable {e : Errand} {known p : Peer} {fs : List Frame} {s : NodeState} {r : ℕ} {H : Turns}
  {code : Task Ending} {q : Call} {a : Exchanged}

theorem Stands.later (hm : ρ.members ⊆ ρ'.members) (h : D.Stands ρ e p T fs) : D.Stands ρ' e p T fs := by
  cases fs with
  | nil =>
    cases e with
    | joins x known r => exact h
    | round x => exact ⟨h.1, hm h.2⟩
    | deferred q => exact ⟨h.1, hm h.2⟩
  | cons f fs => exact ⟨hm h.1, h.2⟩

theorem Waits.later (hD : D.Sound) (hl : D.Later ρ ρ') (h : D.Waits ρ e p fs) : D.Waits ρ' e p fs := by
  induction fs generalizing p with
  | nil => trivial
  | cons f fs ih =>
    obtain ⟨hp, ⟨T, hs, hk, hq⟩, hw⟩ := h
    exact ⟨hp, ⟨T, hs.later (hD.members_subset hl), hD.known_later hl hk, hq⟩, ih hw⟩

theorem Follows.later (hD : D.Sound) (hl : D.Later ρ ρ') (h : D.Follows ρ t T) :
    D.Follows ρ' t T where
  stands := h.stands.later (hD.members_subset hl)
  known := hD.known_later hl h.known
  goes := h.goes
  waits := h.waits.later hD hl
  owns := h.owns

theorem Follows.member (h : D.Follows ρ t T) (ht : t.stack ≠ [] ∨ t.own = none)
    (hcode : t.code ≠ .done .finished) :
    t.me ∈ ρ.members ∧ isNew t.errand t.stack = false ∧
      ((rulesAt t.errand t.me T t.stack = memberRules t.me T ∧ t.errand = .round t.me ∧ t.stack = []) ∨
        rulesAt t.errand t.me T t.stack = servantRules t.me T) := by
  have hstands := h.stands
  have howns := h.owns
  cases hstack : t.stack with
  | cons f fs =>
    rw [hstack] at hstands
    exact ⟨hstands.1, rfl, .inr rfl⟩
  | nil =>
    have hown : t.own = none := ht.resolve_left (fun hne => hne hstack)
    rw [hstack] at hstands
    cases he : t.errand with
    | joins x known r =>
      rw [Owns, he] at howns
      rcases howns with ⟨_, hc, _⟩ | ⟨s, hs, _⟩
      · exact absurd hc hcode
      · rw [hown] at hs
        cases hs
    | round x =>
      rw [he] at hstands
      exact ⟨hstands.2, rfl, .inl ⟨rfl, by rw [hstands.1], rfl⟩⟩
    | deferred q =>
      rw [he] at hstands
      exact ⟨hstands.2, rfl, .inr rfl⟩

theorem Follows.newcomer (h : D.Follows ρ t T) (hown : t.own = some s) :
    ∃ p known r, t.errand = .joins p known r ∧ Born p r (baseTurns t.turns t.stack) s := by
  have howns := h.owns
  cases he : t.errand with
  | joins p known r =>
    rw [Owns, he] at howns
    rcases howns with ⟨hn, _⟩ | ⟨s', hs', hb⟩
    · rw [hown] at hn
      cases hn
    · rw [hown] at hs'
      cases hs'
      exact ⟨p, known, r, rfl, hb⟩
  | round p =>
    rw [Owns, he, hown] at howns
    cases howns
  | deferred q =>
    rw [Owns, he, hown] at howns
    cases howns

theorem Born.self_eq (h : Born p r H s) : s.self = p ∧ s.r = r := by
  rcases h with ⟨rfl, _⟩ | ⟨s₀, c, owner, list, hs, hr, _, rfl⟩
  · exact ⟨rfl, rfl⟩
  · have h := sameRouting_joined s₀ c owner list
    exact ⟨h.self.trans hs, h.r.trans hr⟩

theorem Born.said (h : Born p r H s) (q : Call) (a : Exchanged) :
    Born p r (.said q a :: H) s := by
  rcases h with ⟨hs, hno⟩ | ⟨s₀, c, owner, list, hs, hr, hj, he⟩
  · refine .inl ⟨hs, fun s₁ s₂ hmem => ?_⟩
    rcases List.mem_cons.mp hmem with h | h
    · cases h
    · exact hno s₁ s₂ h
  · exact .inr ⟨s₀, c, owner, list, hs, hr, hj.mono (subset_cons _), he⟩

theorem Owns.answered {own : Option NodeState} {f : Frame} {code' : Task Ending}
    (h : Owns ⟨e, own, p, H, code, f :: fs⟩) : Owns ⟨e, own, f.me, .said q a :: f.turns, code', fs⟩ := by
  cases e with
  | round x => exact h
  | deferred x => exact h
  | joins x known r =>
    rcases h with ⟨_, _, h⟩ | ⟨s, hs, hb⟩
    · cases h
    · refine .inr ⟨s, hs, ?_⟩
      cases fs with
      | nil => exact hb.said q a
      | cons g gs => exact hb

theorem follows_roundThread (hD : D.Sound) (hI : D.Inv ρ) (hp : p ∈ ρ.members) :
    D.Follows ρ (roundThread p) [] where
  stands := ⟨rfl, hp⟩
  known := hD.known_round hI hp
  goes := {
    sat := by
      apply Sat.bind
      exact sat_maintenanceRound.mono fun H _ _ => ⟨fun _ => by simp, fun h => by cases h⟩
    goal := fun _ => by
      apply Sat.bind
      exact (hD.goal_round p).mono fun H _ h => h }
  waits := trivial
  owns := rfl

theorem follows_joinThread (hD : D.Sound) (hI : D.Inv ρ) (hk : known ∈ ρ.members) (ha : D.admits p r) :
    D.Follows ρ (joinThread p known r) [known] where
  stands := ⟨rfl, rfl, ha⟩
  known := hD.known_join hI hk ha
  goes := {
    sat := by
      apply Sat.bind
      refine sat_join_newcomer (List.mem_singleton.mpr rfl) fun H o ho => ⟨fun h => ?_, fun h => ?_⟩
      · intro hc
        cases hc
      · exact ho (Ending.joining.inj h)
    goal := fun _ => sat_of_stable (fun _ _ _ => hD.goal_joins) hD.goal_joins _ }
  waits := trivial
  owns := .inr ⟨_, rfl, .inl ⟨rfl, fun _ _ h => by cases h⟩⟩

theorem follows_deferredThread (hD : D.Sound) {h : Handled} {c : Peer} {T' : List Peer} {H' : Turns}
    (hq : q.node ∈ ρ.members) (hk : D.Known ρ false q.node T H) (hr : Request c T' H' q)
    (hc : q.line = notifyLine c → c ∈ T) (hs : Served q.node H q.line h) :
    D.Follows ρ (deferredThread q H h) T where
  stands := ⟨rfl, hq⟩
  known := hk
  goes := {
    sat := by
      apply Sat.bind
      have hany : Sat (servantRules q.node T) anyEnd H h.after := by
        generalize hline : q.line = line at hs
        cases hs with
        | orphan _ _ => trivial
        | ping => trivial
        | neighbours _ => trivial
        | find _ _ => trivial
        | twin _ => trivial
        | @notify c' s hheld hid =>
          have hc' : c' = c := hr.notifier hline
          have hT : c' ∈ T := by
            rw [hc']
            exact hc (by rw [hline, hc'])
          cases ho : (s.notified c').1 with
          | none => trivial
          | some old =>
            refine sat_probePred calling_servantRules (.saw ⟨_, hheld⟩ (.inr ?_))
              fun _ _ _ _ hp => .fill rfl hT hid hp
            simp [NodeState.holds, pred_of_notified ho]
      exact hany.mono fun H _ _ => ⟨fun _ => by simp, fun h => by cases h⟩
    goal := fun _ => by
      apply Sat.bind
      exact (hD.goal_deferred hk hs).mono fun H _ h => h }
  waits := trivial
  owns := rfl

theorem Owns.mono (h : Owns t) (hcode : t.code ≠ .done .finished) (herrand : t'.errand = t.errand)
    (hown : t'.own = t.own) (hborn : ∀ p r s, t.own = some s →
      Born p r (baseTurns t.turns t.stack) s → Born p r (baseTurns t'.turns t'.stack) s) :
    Owns t' := by
  unfold Owns at h ⊢
  rw [herrand, hown]
  cases he : t.errand with
  | joins p known r =>
    rw [he] at h
    rcases h with ⟨_, hc, _⟩ | ⟨s, hs, hb⟩
    · exact absurd hc hcode
    · exact .inr ⟨s, hs, hborn p r s hs hb⟩
  | round x =>
    rw [he] at h
    exact h
  | deferred x =>
    rw [he] at h
    exact h

theorem Owns.locked (h : Owns t) (ht : t.stack ≠ [] ∨ t.own = none) (hcode : t.code ≠ .done .finished)
    {e : MemberTurn} : Owns { t with turns := e :: t.turns, code := code } := by
  refine h.mono hcode rfl rfl fun p r s hs hb => ?_
  cases hstack : t.stack with
  | nil =>
    rw [ht.resolve_left (not_not_intro hstack)] at hs
    cases hs
  | cons f fs =>
    rw [hstack] at hb
    exact hb

theorem Owns.said (h : Owns t) (hcode : t.code ≠ .done .finished) (q : Call) (a : Exchanged) :
    Owns { t with turns := .said q a :: t.turns, code := code } := by
  refine h.mono hcode rfl rfl fun p r s _ hb => ?_
  cases hstack : t.stack with
  | nil =>
    rw [hstack] at hb
    exact hb.said q a
  | cons f fs =>
    rw [hstack] at hb
    exact hb

theorem Owns.called (h : Owns t) (hcode : t.code ≠ .done .finished) (q : Call)
    (next : Exchanged → Task Ending) :
    Owns { t with me := p, turns := [], code := code, stack := ⟨t.me, t.turns, q, next⟩ :: t.stack } :=
  h.mono hcode rfl rfl fun _ _ _ _ hb => hb

theorem ask_rulesAt (h : (rulesAt e p T fs).ask H q) :
    Request p T H q ∧ (isNew e fs = true → q.line ≠ notifyLine p) := by
  cases fs with
  | nil =>
    cases e with
    | joins x known r => exact ⟨h.1, fun _ => h.2⟩
    | round x => exact ⟨h, fun h' => by cases h'⟩
    | deferred x => exact ⟨h, fun h' => by cases h'⟩
  | cons f fs => exact ⟨h, fun h' => by cases h'⟩

theorem assume_rulesAt (e : Errand) (p : Peer) (T : List Peer) (fs : List Frame) :
    (rulesAt e p T fs).assume = (memberRules p T).assume := by
  cases fs with
  | nil => cases e <;> rfl
  | cons f fs => rfl

theorem sat_goal_of_isNew (hD : D.Sound) (h : isNew e fs = true) (H : Turns) (code : Task Ending) :
    Sat (D.goalRules p) (fun H _ => D.goal e H) H code := by
  cases fs with
  | nil =>
    cases e with
    | joins x known r => exact sat_of_stable (fun _ _ _ => hD.goal_joins) hD.goal_joins _
    | round x => cases h
    | deferred q => cases h
  | cons f fs => cases h

theorem goal_said (hD : D.Sound) {next : Exchanged → Task Ending}
    (h : Sat (D.goalRules p) (fun H _ => D.goal e H) H (.call q next))
    (ha : isNew e fs = false → D.assume p H (.said q a)) :
    Sat (D.goalRules p) (fun H _ => D.goal e H) (.said q a :: H) (next a) := by
  cases hnew : isNew e fs with
  | true => exact sat_goal_of_isNew hD hnew _ _
  | false => exact h.2 a (ha hnew)

theorem Follows.done (h : D.Follows ρ t T) (hd : t.isDone = true) :
    t.stack = [] ∧ D.goal t.errand t.turns := by
  have hgoal := h.goes.goal
  unfold Thread.isDone at hd
  split at hd
  · rename_i hcode hstack
    rw [hcode] at hgoal
    exact ⟨hstack, hgoal hstack⟩
  · rename_i status hcode hstack
    rw [hcode] at hgoal
    exact ⟨hstack, hgoal hstack⟩
  · cases hd

theorem Follows.done_errand (h : D.Follows ρ t T) (hd : t.isDone = true) (he : t.errand = e) :
    D.Stands ρ e t.me T [] ∧ D.goal e t.turns := by
  obtain ⟨hstack, hgoal⟩ := h.done hd
  subst he
  exact ⟨hstack ▸ h.stands, hgoal⟩

/-- The section of a member's task is a change of that member, a minor one unless it is its own
round. -/
theorem Follows.change (hD : D.Sound) (hI : D.Inv ρ) (h : D.Follows ρ t T)
    {f : NodeState → NodeState} {next : NodeState → Task Ending} (hcode : t.code = .lock f next)
    (hown : t.stack ≠ [] ∨ t.own = none) :
    t.me ∈ ρ.members ∧ D.Known ρ false t.me T t.turns ∧
      Section t.me T t.turns (ρ.node t.me) (f (ρ.node t.me)) ∧
      ((t.errand = .round t.me ∧ t.stack = []) ∨
        Minor t.me T t.turns (ρ.node t.me) (f (ρ.node t.me))) ∧
      Sat (rulesAt t.errand t.me T t.stack) (endAt t.me t.stack)
        (.held (ρ.node t.me) (f (ρ.node t.me)) :: t.turns) (next (ρ.node t.me)) := by
  obtain ⟨hmem, hnew, hrules⟩ := h.member hown (by rw [hcode]; simp)
  have hsat := h.goes.sat
  have hself := hD.self_eq hI hmem
  have hknown := h.known
  rw [hnew] at hknown
  rw [hcode] at hsat
  rcases hrules with ⟨hrules, hbase⟩ | hrules
  · rw [hrules] at hsat ⊢
    obtain ⟨hc, hs⟩ := hsat (ρ.node t.me) hself
    exact ⟨hmem, hknown, hc, .inl hbase, hs⟩
  · rw [hrules] at hsat ⊢
    obtain ⟨hc, hs⟩ := hsat (ρ.node t.me) hself
    exact ⟨hmem, hknown, .minor hc, .inr hc, hs⟩

theorem Follows.joined (h : D.Follows ρ t T) (hcode : t.code = .done (.joining .joined))
    (hstack : t.stack = []) (hown : t.own = some s) :
    ∃ known r c owner list, ∃ s₀ : NodeState, t.errand = .joins t.me known r ∧ D.admits t.me r ∧
      D.Known ρ true t.me [known] t.turns ∧ Joins t.me t.turns owner list ∧ s₀.self = t.me ∧
      s₀.r = r ∧ s = s₀.joined c owner list := by
  obtain ⟨p, known, r, he, hborn⟩ := h.newcomer hown
  have hstands := h.stands
  have hsat := h.goes.sat
  have hknown := h.known
  rw [hstack] at hborn hstands hsat hknown
  rw [he] at hstands hknown
  obtain ⟨hp, hT, hadm⟩ := hstands
  subst hp hT
  rw [hcode] at hsat
  obtain ⟨s₁, s₂, hheld⟩ := hsat.2 rfl
  rcases hborn with ⟨_, hno⟩ | ⟨s₀, c, owner, list, hself, hr, hj, hs⟩
  · exact absurd hheld (hno s₁ s₂)
  · exact ⟨known, r, c, owner, list, s₀, he, hadm, hknown, hj, hself, hr, hs⟩

/-- **The step of a thread**: it keeps to the discipline, and so do the threads it starts. -/
theorem Sound.thread_step (hD : D.Sound) (hI : D.Inv ρ) (hI' : D.Inv ρ') (hf : D.Follows ρ t T)
    (hs : t.Steps ρ ρ' t' new) :
    D.Later ρ ρ' ∧ (∃ T', D.Follows ρ' t' T') ∧ ∀ u ∈ new, ∃ T', D.Follows ρ' u T' := by
  obtain ⟨hstands, hknown, ⟨hsat, hgoal⟩, hwaits, howns⟩ := hf
  have hnone : ∀ u ∈ ([] : List Thread), ∃ T', D.Follows ρ' u T' := fun u hu => by cases hu
  cases hs with
  | @lock f next hcode hown =>
    have hf : D.Follows ρ t T := ⟨hstands, hknown, ⟨hsat, hgoal⟩, hwaits, howns⟩
    have hnew := (hf.member hown (by rw [hcode]; simp)).2.1
    obtain ⟨hmem, hknown', hchange, _, hsat'⟩ := hf.change hD hI hcode hown
    rw [hcode] at hgoal
    obtain ⟨hl, ha, hk⟩ := hD.change hI hI' hmem hknown' hchange
    refine ⟨hl, ⟨T, hstands.later (hD.members_subset hl), by rw [hnew]; exact hk, ⟨hsat', fun hfs => ?_⟩,
      hwaits.later hD hl, ?_⟩, hnone⟩
    · exact (hgoal hfs (ρ.node t.me) ha).2
    · exact howns.locked hown (by rw [hcode]; simp)
  | @mine f next s hcode hstack hown =>
    obtain ⟨p, known, r, he, hborn⟩ :=
      Follows.newcomer ⟨hstands, hknown, ⟨hsat, hgoal⟩, hwaits, howns⟩ hown
    obtain ⟨e, own, me, turns, code, stack⟩ := t
    dsimp only at hcode hstack hown he hstands hknown hsat hgoal hborn
    subst hcode hstack hown he
    obtain ⟨hp, hT, hadm⟩ := hstands
    subst hp hT
    obtain ⟨⟨c, owner, list, hj, hjoined⟩, hsat'⟩ := hsat s hborn.self_eq.1
    refine ⟨hD.later_refl ρ, ⟨[known], ⟨rfl, rfl, hadm⟩, ?_, ⟨hsat', fun _ => ?_⟩, trivial, ?_⟩, hnone⟩
    · rw [hjoined]
      exact hD.mine hI hadm hknown hj hborn.self_eq.1 hborn.self_eq.2
    · exact sat_of_stable (fun _ _ _ => hD.goal_joins) hD.goal_joins _
    · exact .inr ⟨f s, rfl, .inr ⟨s, c, owner, list, hborn.self_eq.1, hborn.self_eq.2,
        hj.mono (subset_cons _), hjoined⟩⟩
  | @call q next hcode hmem =>
    rw [hcode] at hsat hgoal
    obtain ⟨hreq, hnew⟩ := ask_rulesAt hsat.1
    obtain ⟨T', hT', hk⟩ := hD.asked hI hknown hreq hnew hmem
    refine ⟨hD.later_refl ρ, ⟨T', ⟨hmem, hT'⟩, hk, ⟨?_, fun h => by cases h⟩, ?_, howns.called (by rw [hcode]; simp) q next⟩, hnone⟩
    · apply Sat.bind
      exact (sat_handleRequest hreq hT').mono fun H h hs => ⟨h, rfl, hs⟩
    · refine ⟨rfl, ⟨T, hstands, hknown, hreq, fun a ha => ⟨?_, fun hfs => ?_⟩⟩, hwaits⟩
      · exact hsat.2 a (by rw [assume_rulesAt]; trivial)
      · exact goal_said hD (hgoal hfs) ha
  | @absent q next took hcode hmem =>
    rw [hcode] at hsat hgoal
    have hreq := (ask_rulesAt hsat.1).1
    obtain ⟨ha, hk⟩ := hD.absent took hI hmem hknown hreq
    refine ⟨hD.later_refl ρ, ⟨T, hstands, hk, ⟨?_, fun hfs => ?_⟩, hwaits, ?_⟩, hnone⟩
    · exact hsat.2 _ (by rw [assume_rulesAt]; trivial)
    · exact goal_said hD (hgoal hfs) ha
    · exact howns.said (by rw [hcode]; simp) _ _
  | @reply h f fs took hcode hstack =>
    rw [hstack] at hstands hwaits hsat hknown
    rw [hcode] at hsat
    obtain ⟨h', hh, hserved⟩ := hsat
    cases hh
    obtain ⟨hnode, ⟨T', hstands', hknown', hreq, hnext⟩, hwaits'⟩ := hwaits
    have hme : f.call.node ∈ ρ.members := by
      rw [hnode]
      exact hstands.1
    rw [← hnode] at hknown hserved
    obtain ⟨hl, ha, hk⟩ := hD.replied took hI hme hknown hserved hknown' hreq
    refine ⟨hl, ⟨T', hstands'.later (hD.members_subset hl), hk, hnext _ ha, hwaits'.later hD hl, ?_⟩, ?_⟩
    · obtain ⟨e, own, me, turns, code, stack⟩ := t
      dsimp only at hstack
      subst hstack
      exact howns.answered
    · intro u hu
      rw [List.mem_singleton.mp hu]
      exact ⟨T, follows_deferredThread hD (hD.members_subset hl hme) (hD.known_later hl hknown) hreq
        (by simpa [hcode] using hstands.2) hserved⟩
  | @listen s hcode hstack hown hmem =>
    obtain ⟨known, r, c, owner, list, s₀, he, hadm, hk, hj, hself, hr, hs⟩ :=
      Follows.joined ⟨hstands, hknown, ⟨hsat, hgoal⟩, hwaits, howns⟩ hcode hstack hown
    subst hs
    have hl := hD.listens hI hI' hmem hadm hk hj hself hr
    refine ⟨hl, ⟨T, hstands.later (hD.members_subset hl), hD.known_later hl hknown,
      ⟨?_, fun _ => ?_⟩, ?_, ?_⟩, hnone⟩
    · rw [hstack]
      exact ⟨fun _ => by simp, fun h => by cases h⟩
    · rw [he]
      exact hD.goal_joins
    · rw [hstack]
      trivial
    · rw [Owns, he]
      exact .inl ⟨rfl, rfl, hstack⟩

theorem Keeps.thread_step (hK : D.Keeps) (hD : D.Sound) (hI : D.Inv ρ) (hf : D.Follows ρ t T)
    (hs : t.Steps ρ ρ' t' new) : D.Inv ρ' := by
  cases hs with
  | lock hcode hown =>
    obtain ⟨hmem, hknown, hchange, _⟩ := hf.change hD hI hcode hown
    exact hK.change hI hmem hknown hchange
  | mine _ _ _ => exact hI
  | call _ _ => exact hI
  | absent _ _ _ => exact hI
  | reply _ _ _ => exact hK.answer hI
  | listen hcode hstack hown hmem =>
    obtain ⟨known, r, c, owner, list, s₀, _, hadm, hk, hj, hself, hr, rfl⟩ :=
      hf.joined hcode hstack hown
    exact hK.listens hI hmem hadm hk hj hself hr

end thread

/-! ### What holds of the net -/

/-- The invariant holds and every thread follows the discipline. -/
structure Holds (D : Discipline) (n : Net) : Prop where
  inv : D.Inv n.ring
  follows : ∀ t ∈ n.threads, ∃ T, D.Follows n.ring t T

/-- Newcomers come as the discipline lets them in. -/
def Admits (D : Discipline) (m : Move) : Prop := ∀ p known r, m = .join p known r → D.admits p r

section net
variable {D : Discipline} {n n' : Net}

theorem Holds.push (h : D.Holds n) {t : Thread} {T : List Peer} (ht : D.Follows n.ring t T) :
    D.Holds (n.push t) := by
  refine ⟨h.inv, fun u hu => ?_⟩
  rcases List.mem_append.mp hu with hu | hu
  · exact h.follows u hu
  · rw [List.mem_singleton.mp hu]
    exact ⟨T, ht⟩

/-- **The step of the net.** -/
theorem Sound.step (hD : D.Sound) (hK : D.Keeps) {m : Move} (hm : D.Admits m) (h : D.Holds n)
    (hs : n.step? m = some n') : D.Holds n' ∧ D.Later n.ring n'.ring := by
  obtain ⟨p, rfl, hp, rfl⟩ | ⟨p, known, r, rfl, hp, hk, rfl⟩ |
    ⟨i, took, t, t', ρ, new, rfl, ht, hsteps, rfl⟩ := Net.step?_cases hs
  · exact ⟨h.push (follows_roundThread hD h.inv hp), hD.later_refl _⟩
  · exact ⟨h.push (follows_joinThread hD h.inv hk (hm p known r rfl)), hD.later_refl _⟩
  · obtain ⟨T, hf⟩ := h.follows t (List.mem_of_getElem? ht)
    have hI' := hK.thread_step hD h.inv hf hsteps
    obtain ⟨hl, hf', hnew⟩ := hD.thread_step h.inv hI' hf hsteps
    refine ⟨⟨hI', fun u hu => ?_⟩, hl⟩
    rcases List.mem_append.mp hu with hu | hu
    · rcases List.mem_or_eq_of_mem_set hu with hu | rfl
      · obtain ⟨T', hu⟩ := h.follows u hu
        exact ⟨T', hu.later hD hl⟩
      · exact hf'
    · exact hnew u hu

/-- **The run.** -/
theorem Sound.exec (hD : D.Sound) (hK : D.Keeps) {moves : List Move} (hm : ∀ m ∈ moves, D.Admits m)
    (h : D.Holds n) (hs : n.exec moves = some n') : D.Holds n' :=
  Net.exec_induction (fun _ m _ hmem hs h => (hD.step hK (hm m hmem) h hs).1) hs h

end net

end Discipline

end ChordFs
