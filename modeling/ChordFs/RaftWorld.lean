import ChordFs.RaftDurability
import Mathlib.Algebra.Order.Ring.Int
import Mathlib.Logic.Relation

/-! # A group of replicas

The Raft cores of one group, with everything that can happen to them.  A call that was taken from
a replica's `out` can be delivered at any later time, any number of times or never, and so can the
answer given to it: loss, duplication, delay, reordering and partitions of the network are choices
of what to deliver.  A replica can crash at any moment; a crash in the middle of a save is a failed
save (`Saved.fails`) followed by the crash, and leaves any prefix of that save's records.  A new
life starts from what is durable. -/

namespace ChordFs

open Function

/-- A replica's process, or the disk it left. -/
inductive Machine (n : ℕ) where
  | up (s : Raft n)
  | down (d : Durable)

namespace Machine

variable {n : ℕ}

/-- The replica is in the leader role in term `t`. -/
def leads : Machine n → ℕ → Prop
  | .up s, t => s.role = .leader ∧ s.term = t
  | .down _, _ => False

instance : (m : Machine n) → (t : ℕ) → Decidable (m.leads t)
  | .up _, _ => inferInstanceAs (Decidable (_ ∧ _))
  | .down _, _ => inferInstanceAs (Decidable False)

/-- The replica's logs, in memory and on disk. -/
def logs : Machine n → List (List Entry)
  | .up s => [s.log, s.storage.log]
  | .down d => [d.log]

/-- The replica's commit index has reached `i`, where it holds the entry `e`, and its term is
`t`. -/
def commits : Machine n → ℕ → Entry → ℕ → Prop
  | .up s, i, e, t => 0 < i ∧ i ≤ s.commit ∧ s.log[i - 1]? = some e ∧ s.term = t
  | .down _, _, _, _ => False

instance : (m : Machine n) → (i : ℕ) → (e : Entry) → (t : ℕ) → Decidable (m.commits i e t)
  | .up _, _, _, _ => inferInstanceAs (Decidable (_ ∧ _))
  | .down _, _, _, _ => inferInstanceAs (Decidable False)

/-- The replica's log holds the entry `e` at index `i`. -/
def holds : Machine n → ℕ → Entry → Prop
  | .up s, i, e => s.log[i - 1]? = some e
  | .down _, _, _ => False

/-- The calls of the apply function in the replica's current life. -/
def applies : Machine n → List (ℕ × Entry)
  | .up s => s.applies
  | .down _ => []

/-- The replica is running and its state passes the test `q`. -/
def runs (q : Raft n → Bool) : Machine n → Bool
  | .up s => q s
  | .down _ => false

theorem exists_of_runs {q : Raft n → Bool} {m : Machine n} (h : m.runs q = true) :
    ∃ s, m = .up s ∧ q s = true := by
  cases m with
  | up s => exact ⟨s, rfl, h⟩
  | down d => cases h

end Machine

/-- An answer that replica `by_` gave to a call. -/
inductive Answer (n : ℕ) where
  | vote (by_ : Fin n) (req : VoteRequest) (reply : VoteReply)
  | append (by_ : Fin n) (req : AppendRequest) (reply : AppendReply)
deriving DecidableEq

structure World (n : ℕ) where
  machine : Fin n → Machine n
  /-- How often the replica was started. -/
  life : Fin n → ℕ
  /-- The read ids used in the current life. -/
  readIds : Fin n → List ℕ
  /-- Every call taken so far, with its sender. -/
  calls : List (Fin n × Outgoing n)
  /-- Every answer given so far. -/
  answers : List (Answer n)

inductive Event (n : ℕ) where
  | boot (i : Fin n) (cfg : RaftConfig n) (now : Millis) (o : Saved)
  | input (i : Fin n) (x : Input n) (o : Saved)
  | crash (i : Fin n)

namespace World

variable {n : ℕ}

/-- Every replica is yet to be started, on an empty disk. -/
def init : World n where
  machine _ := .down .empty
  life _ := 0
  readIds _ := []
  calls := []
  answers := []

/-- The inputs replica `i` can get: calls made to it, answers to calls it made, and read ids it has
not used in this life. -/
def admits (w : World n) (i : Fin n) : Input n → Prop
  | .handleVote req _ => ∃ c ∈ w.calls, c.2 = .vote i req
  | .handleAppend req _ => ∃ c ∈ w.calls, c.2 = .append i req
  | .handleVoteReply p sent reply _ =>
    (i, .vote p sent) ∈ w.calls ∧ .vote p sent reply ∈ w.answers
  | .handleAppendReply p sent reply _ =>
    (i, .append p sent) ∈ w.calls ∧ .append p sent reply ∈ w.answers
  | .callFailed _ sent _ => (i, sent) ∈ w.calls
  | .read id _ => id ∉ w.readIds i
  | _ => True

instance (w : World n) (i : Fin n) : (x : Input n) → Decidable (w.admits i x)
  | .handleVote req _ => inferInstanceAs (Decidable (∃ c ∈ w.calls, c.2 = .vote i req))
  | .handleAppend req _ => inferInstanceAs (Decidable (∃ c ∈ w.calls, c.2 = .append i req))
  | .handleVoteReply p sent reply _ =>
    inferInstanceAs (Decidable ((i, Outgoing.vote p sent) ∈ w.calls ∧ .vote p sent reply ∈ w.answers))
  | .handleAppendReply p sent reply _ =>
    inferInstanceAs (Decidable ((i, Outgoing.append p sent) ∈ w.calls ∧
      .append p sent reply ∈ w.answers))
  | .callFailed _ sent _ => inferInstanceAs (Decidable ((i, sent) ∈ w.calls))
  | .read id _ => inferInstanceAs (Decidable (id ∉ w.readIds i))
  | .tick _ | .propose _ _ | .takeOutgoing | .takeReads => isTrue trivial

/-- What the input `x` of replica `i`, answered `y`, adds to the network. -/
def record (w : World n) (i : Fin n) : Input n → Output n → World n
  | .handleVote req _, .vote reply => { w with answers := w.answers ++ [.vote i req reply] }
  | .handleAppend req _, .append reply => { w with answers := w.answers ++ [.append i req reply] }
  | .takeOutgoing, .calls out => { w with calls := w.calls ++ out.map fun o => (i, o) }
  | .read id _, _ => { w with readIds := Function.update w.readIds i (id :: w.readIds i) }
  | _, _ => w

def setMachine (w : World n) (i : Fin n) (m : Machine n) : World n :=
  { w with machine := Function.update w.machine i m }

/-- One event; `none` if it cannot happen. -/
def step (w : World n) : Event n → Option (World n)
  | .boot i cfg now o =>
    match w.machine i with
    | .down d =>
      if cfg.id = i then
        some { w.setMachine i (.up (.start cfg d now o)) with
          life := Function.update w.life i (w.life i + 1)
          readIds := Function.update w.readIds i [] }
      else none
    | .up _ => none
  | .input i x o =>
    match w.machine i with
    | .up s =>
      if w.admits i x then
        some ((w.setMachine i (.up (s.input x o).1)).record i x (s.input x o).2)
      else none
    | .down _ => none
  | .crash i =>
    match w.machine i with
    | .up s => some (w.setMachine i (.down s.storage))
    | .down _ => none

/-- The commands an event proposes satisfy `P`. -/
def Proposes (P : Str → Prop) : Event n → Prop
  | .input _ (.propose command _) _ => P command
  | _ => True

instance (P : Str → Prop) [DecidablePred P] : (e : Event n) → Decidable (Proposes P e)
  | .input _ (.propose command _) _ => inferInstanceAs (Decidable (P command))
  | .input _ (.tick _) _ | .input _ (.handleVote _ _) _ | .input _ (.handleVoteReply _ _ _ _) _
  | .input _ (.handleAppend _ _) _ | .input _ (.handleAppendReply _ _ _ _) _
  | .input _ (.callFailed _ _ _) _ | .input _ (.read _ _) _ | .input _ .takeOutgoing _
  | .input _ .takeReads _ | .boot _ _ _ _ | .crash _ => isTrue trivial

/-- One step of the group in which only commands satisfying `P` are proposed. -/
def Step (P : Str → Prop) (w w' : World n) : Prop := ∃ e, Proposes P e ∧ w.step e = some w'

abbrev Steps (P : Str → Prop) : World n → World n → Prop := Relation.ReflTransGen (Step P)

/-- The state of the group after some run. -/
def Reachable (P : Str → Prop) (w : World n) : Prop := Steps P init w

/-- A run in which any command may be proposed. -/
abbrev Runs : World n → World n → Prop := Steps fun _ => True

/-- The events of a list, one after the other; `none` if one of them cannot happen. -/
def run (w : World n) : List (Event n) → Option (World n)
  | [] => some w
  | e :: es => (w.step e).bind fun w => w.run es

variable {es : List (Event n)} {w w' : World n} {P : Str → Prop} {e : Event n} {i : Fin n} {s : Raft n}
  {x : Input n} {y : Output n} {Q : Raft n → Prop}

theorem run_induction {I : World n → Prop} {A : Event n → Prop}
    (hstep : ∀ {w w' e}, A e → w.step e = some w' → I w → I w') (hA : ∀ e ∈ es, A e)
    (h : w.run es = some w') (hI : I w) : I w' := by
  induction es generalizing w with
  | nil =>
    cases h
    exact hI
  | cons e es ih =>
    rw [List.forall_mem_cons] at hA
    obtain ⟨w₁, h1, h2⟩ := Option.bind_eq_some_iff.mp h
    exact ih hA.2 h2 (hstep hA.1 h1 hI)

theorem steps_of_run (hP : ∀ e ∈ es, Proposes P e) (h : w.run es = some w') : Steps P w w' :=
  run_induction (I := Steps P w) (fun hp hs hw => hw.tail ⟨_, hp, hs⟩) hP h .refl

theorem steps_getD_run (es : List (Event n)) (hP : ∀ e ∈ es, Proposes P e) (h : (w.run es).isSome = true) :
    Steps P w ((w.run es).getD w) := by
  obtain ⟨w', hw⟩ := Option.isSome_iff_exists.mp h
  rw [hw]
  exact steps_of_run hP hw

theorem runs_getD_run (es : List (Event n)) (h : (w.run es).isSome = true) :
    Runs w ((w.run es).getD w) := by
  refine steps_getD_run es (fun e _ => ?_) h
  unfold Proposes
  split <;> trivial

theorem step_getD (h : (w.step e).isSome = true) : w.step e = some ((w.step e).getD w) := by
  obtain ⟨w', hw⟩ := Option.isSome_iff_exists.mp h
  rw [hw, Option.getD_some]

theorem step_cases (h : w.step e = some w') :
    (∃ i cfg now o d, e = .boot i cfg now o ∧ w.machine i = .down d ∧ cfg.id = i ∧
      w' = { w.setMachine i (.up (.start cfg d now o)) with
        life := update w.life i (w.life i + 1)
        readIds := update w.readIds i [] }) ∨
    (∃ i x o s, e = .input i x o ∧ w.machine i = .up s ∧ w.admits i x ∧
      w' = (w.setMachine i (.up (s.input x o).1)).record i x (s.input x o).2) ∨
    (∃ i s, e = .crash i ∧ w.machine i = .up s ∧ w' = w.setMachine i (.down s.storage)) := by
  cases e with
  | boot i cfg now o =>
    simp only [step] at h
    split at h
    · rename_i d hd
      split at h
      · rename_i hi
        exact .inl ⟨i, cfg, now, o, d, rfl, hd, hi, (Option.some.inj h).symm⟩
      · cases h
    · cases h
  | input i x o =>
    simp only [step] at h
    split at h
    · rename_i s hs
      split at h
      · rename_i ha
        exact .inr (.inl ⟨i, x, o, s, rfl, hs, ha, (Option.some.inj h).symm⟩)
      · cases h
    · cases h
  | crash i =>
    simp only [step] at h
    split at h
    · rename_i s hs
      exact .inr (.inr ⟨i, s, rfl, hs, (Option.some.inj h).symm⟩)
    · cases h

/-! ### What the network keeps -/

theorem record_machine (w : World n) (i : Fin n) (x : Input n) (y : Output n) :
    (w.record i x y).machine = w.machine := by
  unfold record
  split <;> rfl

theorem up_of_setMachine {k : Fin n} {m : Machine n} (h : (w.setMachine k m).machine i = .up s) :
    i = k ∧ m = .up s ∨ i ≠ k ∧ w.machine i = .up s := by
  by_cases hik : i = k
  · subst hik
    exact .inl ⟨rfl, by simpa [setMachine] using h⟩
  · exact .inr ⟨hik, by simpa [setMachine, update_of_ne hik] using h⟩

theorem record_life (w : World n) (i : Fin n) (x : Input n) (y : Output n) :
    (w.record i x y).life = w.life := by
  unfold record
  split <;> rfl

theorem mem_record_calls {c : Fin n × Outgoing n} (h : c ∈ (w.record i x y).calls) : c ∈ w.calls ∨
      ∃ out, x = .takeOutgoing ∧ y = .calls out ∧ c.1 = i ∧ c.2 ∈ out := by
  unfold record at h
  split at h
  · exact .inl h
  · exact .inl h
  · refine (List.mem_append.mp h).imp id fun h1 => ?_
    obtain ⟨o, ho, rfl⟩ := List.mem_map.mp h1
    exact ⟨_, rfl, rfl, rfl, ho⟩
  · exact .inl h
  · exact .inl h

theorem mem_record_answers {a : Answer n} (h : a ∈ (w.record i x y).answers) : a ∈ w.answers ∨
      (∃ req now reply, x = .handleVote req now ∧ y = .vote reply ∧ a = .vote i req reply) ∨
      ∃ req now reply, x = .handleAppend req now ∧ y = .append reply ∧ a = .append i req reply := by
  unfold record at h
  split at h
  · refine (List.mem_append.mp h).imp id fun h1 => .inl ⟨_, _, _, rfl, rfl, ?_⟩
    exact List.mem_singleton.mp h1
  · refine (List.mem_append.mp h).imp id fun h1 => .inr ⟨_, _, _, rfl, rfl, ?_⟩
    exact List.mem_singleton.mp h1
  · exact .inl h
  · exact .inl h
  · exact .inl h

theorem calls_subset_record (w : World n) (i : Fin n) (x : Input n) (y : Output n) :
    w.calls ⊆ (w.record i x y).calls := by
  unfold record
  split
  · exact List.Subset.refl _
  · exact List.Subset.refl _
  · exact List.subset_append_left _ _
  · exact List.Subset.refl _
  · exact List.Subset.refl _

theorem calls_subset (h : w.step e = some w') : w.calls ⊆ w'.calls := by
  rcases step_cases h with ⟨k, cfg, now, o, d, -, -, -, rfl⟩ | ⟨k, x, o, s, -, -, -, rfl⟩ |
    ⟨k, s, -, -, rfl⟩
  · exact List.Subset.refl _
  · exact calls_subset_record (w.setMachine k _) k x _
  · exact List.Subset.refl _

theorem called_of_answered (h : Reachable P w) {p : Fin n} {req : AppendRequest} {reply : AppendReply}
    (ha : .append p req reply ∈ w.answers) : ∃ j, (j, Outgoing.append p req) ∈ w.calls := by
  induction h with
  | refl => simp [init] at ha
  | @tail w₁ w₂ _ hst ih =>
    obtain ⟨e, -, he⟩ := hst
    have hsub := calls_subset he
    have hold : .append p req reply ∈ w₁.answers → ∃ j, (j, Outgoing.append p req) ∈ w₂.calls :=
      fun h1 => (ih h1).imp fun j hj => hsub hj
    rcases step_cases he with ⟨k, cfg, now, o, d, -, -, -, rfl⟩ | ⟨k, x, o, s, -, -, hadm, rfl⟩ |
      ⟨k, s, -, -, rfl⟩
    · exact hold ha
    · rcases mem_record_answers ha with h1 | ⟨req', now, reply', -, -, heq⟩ |
        ⟨req', now, reply', rfl, -, heq⟩
      · exact hold h1
      · cases heq
      · cases heq
        obtain ⟨⟨j, o'⟩, hc, rfl⟩ := hadm
        exact ⟨j, hsub hc⟩
    · exact hold ha

/-! ### Read ids -/

theorem readIds_subset_record (w : World n) (i j : Fin n) (x : Input n) (y : Output n) :
    w.readIds j ⊆ (w.record i x y).readIds j := by
  unfold record
  split
  · exact List.Subset.refl _
  · exact List.Subset.refl _
  · exact List.Subset.refl _
  · by_cases hj : j = i
    · subst hj; simp
    · simp [update_of_ne hj]
  · exact List.Subset.refl _

theorem mem_readIds_record (w : World n) (i : Fin n) (id : ℕ) (now : Millis) (y : Output n) :
    id ∈ (w.record i (.read id now) y).readIds i := by
  cases y <;> simp [record]

/-! ### Lives -/

section
variable {w w' : World n} {e : Event n} (h : w.step e = some w')
include h

theorem life_le (i : Fin n) : w.life i ≤ w'.life i := by
  rcases step_cases h with ⟨k, cfg, now, o, d, -, -, -, rfl⟩ | ⟨k, x, o, s, -, -, -, rfl⟩ |
    ⟨k, s, -, -, rfl⟩
  · by_cases hk : i = k
    · subst hk; simp
    · simp [hk]
  · rw [record_life]; exact le_rfl
  · exact le_rfl

/-- A step within one life of a running replica: it is not concerned, or it got an input. -/
theorem same_life_cases {i : Fin n} {s' : Raft n} (hm : w'.machine i = .up s') (hl : w'.life i = w.life i) :
    w.machine i = .up s' ∨ ∃ x o s, e = .input i x o ∧ w.machine i = .up s ∧ w.admits i x ∧
      s' = (s.input x o).1 := by
  rcases step_cases h with ⟨k, cfg, now, o, d, -, -, -, rfl⟩ | ⟨k, x, o, s, rfl, hk, ha, rfl⟩ |
    ⟨k, s, -, -, rfl⟩
  · rcases up_of_setMachine hm with ⟨rfl, -⟩ | ⟨-, hm⟩
    · simp at hl
    · exact .inl hm
  · rw [record_machine] at hm
    rcases up_of_setMachine hm with ⟨rfl, ⟨⟩⟩ | ⟨-, hm⟩
    · exact .inr ⟨x, o, s, rfl, hk, ha, rfl⟩
    · exact .inl hm
  · rcases up_of_setMachine hm with ⟨-, ⟨⟩⟩ | ⟨-, hm⟩
    exact .inl hm

theorem readIds_subset {i : Fin n} (hl : w'.life i = w.life i) : w.readIds i ⊆ w'.readIds i := by
  rcases step_cases h with ⟨k, cfg, now, o, d, -, -, -, rfl⟩ | ⟨k, x, o, s, -, -, -, rfl⟩ |
    ⟨k, s, -, -, rfl⟩
  · by_cases hki : i = k
    · subst hki; simp at hl
    · simp [update_of_ne hki]
  · exact readIds_subset_record (w.setMachine k _) k i x _
  · exact List.Subset.refl _

end

theorem life_induction {R : World n → World n → Prop} (hR : ∀ {w w'}, R w w' → ∃ e, w.step e = some w')
    {Q : World n → Raft n → Prop} (hrun : Relation.ReflTransGen R w w')
    (hbase : ∀ s, w.machine i = .up s → Q w s)
    (hstep : ∀ {w₁ w₂ s₁ s₂}, Relation.ReflTransGen R w w₁ → R w₁ w₂ → w₁.machine i = .up s₁ →
      w₂.machine i = .up s₂ → w₂.life i = w₁.life i → Q w₁ s₁ → Q w₂ s₂)
    (hl : w'.life i = w.life i) {s' : Raft n} (hm : w'.machine i = .up s') : Q w' s' := by
  have hall : w.life i ≤ w'.life i ∧
      (w'.life i = w.life i → ∀ s', w'.machine i = .up s' → Q w' s') := by
    clear hl hm
    induction hrun with
    | refl => exact ⟨le_rfl, fun _ => hbase⟩
    | @tail w₁ w₂ hrun hst ih =>
      obtain ⟨e, he⟩ := hR hst
      have hle := life_le he i
      refine ⟨ih.1.trans hle, fun hl s' hm => ?_⟩
      have hl₁ : w₁.life i = w.life i := le_antisymm (hl ▸ hle) ih.1
      have hl₂ : w₂.life i = w₁.life i := hl.trans hl₁.symm
      rcases same_life_cases he hm hl₂ with h1 | ⟨x, o, s, -, h1, -, -⟩
      · exact hstep hrun hst h1 hm hl₂ (ih.2 hl₁ _ h1)
      · exact hstep hrun hst h1 hm hl₂ (ih.2 hl₁ _ h1)
  exact hall.2 hl s' hm

theorem core_step (hfresh : ∀ i cfg now o, e = .boot i cfg now o → ∀ d,
      Q ((Raft.fresh cfg d).resetElectionTimer now))
    (heff : ∀ {x : Input n} {s s' : Raft n}, Raft.Effect x s s' → Q s → Q s') (h : w.step e = some w')
    (hw : ∀ {i s}, w.machine i = .up s → Q s) (hm : w'.machine i = .up s) : Q s := by
  have hall : ∀ {x : Input n} {s s' : Raft n}, Raft.Effects x s s' → Q s → Q s' := by
    intro x s s' hs hq
    induction hs with
    | refl => exact hq
    | tail _ he ih => exact heff he ih
  rcases step_cases h with ⟨k, cfg, now, o, d, rfl, -, -, rfl⟩ | ⟨k, x, o, s₁, -, hk, -, rfl⟩ |
    ⟨k, s₁, -, -, rfl⟩
  · rcases up_of_setMachine hm with ⟨-, ⟨⟩⟩ | ⟨-, hm⟩
    · exact hall (Raft.effects_start .takeReads cfg d now o) (hfresh k cfg now o rfl d)
    · exact hw hm
  · rw [record_machine] at hm
    rcases up_of_setMachine hm with ⟨-, ⟨⟩⟩ | ⟨-, hm⟩
    · exact hall (Raft.effects_input s₁ x o) (hw hk)
    · exact hw hm
  · rcases up_of_setMachine hm with ⟨-, ⟨⟩⟩ | ⟨-, hm⟩
    exact hw hm

/-- **What every effect preserves holds of every core of the group.** -/
theorem core_induction (hfresh : ∀ cfg d now, Q ((Raft.fresh cfg d).resetElectionTimer now))
    (heff : ∀ {x : Input n} {s s' : Raft n}, Raft.Effect x s s' → Q s → Q s') (h : Reachable P w)
    (hm : w.machine i = .up s) : Q s := by
  induction h generalizing i s with
  | refl => simp [init] at hm
  | tail _ hst ih =>
    obtain ⟨e, -, hstep⟩ := hst
    exact core_step (fun _ cfg now _ _ d => hfresh cfg d now) heff hstep ih hm

end World

end ChordFs
