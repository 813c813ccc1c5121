import ChordFs.Lib.TermLog
import Mathlib.Algebra.Order.Ring.Int
import Mathlib.Data.Finset.Card
import Mathlib.Logic.Function.Basic
import Mathlib.Logic.Relation

/-! # Leader-based consensus, abstractly

A protocol in the manner of Raft, reduced to the facts its safety rests on.  Nodes keep a term,
a vote and a log; everything that was ever *said* is recorded in relations that only grow:

* `lead t` — the node elected in term `t`, and `ledger t` — the log it leads with, which during
  its term is only appended to;
* `stood c t` — the log with which `c` stood for election in term `t`;
* `ballot u t c l` — `u` voted for `c` in term `t` while holding the log `l`;
* `acked v t m` — `v`, in term `t`, confirmed the first `m` entries of `ledger t`;
* `committed t m` — a quorum has confirmed the first `m` entries of `ledger t`, the last of
  which was created in term `t`.

There are no messages: what a message carries is a fact about these relations, and such facts
are never withdrawn, so losing, repeating, delaying or reordering messages needs no step of its
own.  `Step` lists what a node can do; every step keeps `Inv` (`Inv.step`), hence every
reachable state satisfies it (`Inv.steps`).  `ConsensusSafety.lean` draws the conclusions. -/

namespace Consensus

open TermLog Function

/-- A quorum system: sets of nodes any two of which meet. -/
structure QuorumSystem (ν : Type*) [DecidableEq ν] where
  isQuorum : Finset ν → Prop
  inter : ∀ {A B : Finset ν}, isQuorum A → isQuorum B → (A ∩ B).Nonempty

/-- What a node keeps through a crash. -/
structure Voter (ν κ : Type*) where
  term : ℕ
  vote : Option ν
  log : List (Entry κ)

structure State (ν κ : Type*) where
  node : ν → Voter ν κ
  lead : ℕ → Option ν
  ledger : ℕ → List (Entry κ)
  stood : ν → ℕ → Option (List (Entry κ))
  ballot : ν → ℕ → ν → List (Entry κ) → Prop
  acked : ν → ℕ → ℕ → Prop
  committed : ℕ → ℕ → Prop

variable {ν κ : Type*}

/-- Nobody has said anything yet. -/
def State.init : State ν κ where
  node _ := ⟨0, none, []⟩
  lead _ := none
  ledger _ := []
  stood _ _ := none
  ballot _ _ _ _ := False
  acked _ _ _ := False
  committed _ _ := False

section steps
variable [DecidableEq ν] (Q : QuorumSystem ν) (P : κ → Prop)

/-- One step of the node `v`.  `P` restricts the commands that may be proposed. -/
inductive Step (v : ν) : State ν κ → State ν κ → Prop
  /-- The node learns of a newer term and forgets its vote. -/
  | adopt (s : State ν κ) (t : ℕ) (ht : (s.node v).term < t) :
      Step v s { s with node := Function.update s.node v ⟨t, none, (s.node v).log⟩ }
  /-- The node opens a new term and votes for itself. -/
  | stand (s : State ν κ) :
      Step v s { s with
        node := Function.update s.node v ⟨(s.node v).term + 1, some v, (s.node v).log⟩
        stood := Function.update s.stood v
          (Function.update (s.stood v) ((s.node v).term + 1) (some (s.node v).log))
        ballot := fun u t c l => s.ballot u t c l ∨
          u = v ∧ t = (s.node v).term + 1 ∧ c = v ∧ l = (s.node v).log }
  /-- The node votes for a candidate whose log is at least as up to date as its own. -/
  | grant (s : State ν κ) (c : ν) (l : List (Entry κ))
      (hv : (s.node v).vote = none ∨ (s.node v).vote = some c)
      (hs : s.stood c (s.node v).term = some l) (hl : UpToDate l (s.node v).log) :
      Step v s { s with
        node := Function.update s.node v ⟨(s.node v).term, some c, (s.node v).log⟩
        ballot := fun u t c' l' => s.ballot u t c' l' ∨
          u = v ∧ t = (s.node v).term ∧ c' = c ∧ l' = (s.node v).log }
  /-- A candidate with a quorum of votes leads its term with the log it stood with. -/
  | win (s : State ν κ) (t : ℕ) (l : List (Entry κ)) (V : Finset ν)
      (hs : s.stood v t = some l) (hV : Q.isQuorum V)
      (hb : ∀ u ∈ V, ∃ l', s.ballot u t v l') (hn : s.lead t = none) :
      Step v s { s with
        lead := Function.update s.lead t (some v)
        ledger := Function.update s.ledger t l }
  /-- The leader of a term appends an entry of that term. -/
  | propose (s : State ν κ) (t : ℕ) (e : Entry κ) (hl : s.lead t = some v) (he : e.term = t)
      (hP : P e.command) :
      Step v s { s with ledger := Function.update s.ledger t (s.ledger t ++ [e]) }
  /-- The node rewrites its log from the ledger of its term. -/
  | accept (s : State ν κ) (c k : ℕ) (hl : s.lead (s.node v).term ≠ none)
      (hc : Splice (s.node v).log (s.ledger (s.node v).term) c) (hck : c ≤ k) :
      Step v s { s with
        node := Function.update s.node v
          ⟨(s.node v).term, (s.node v).vote, (s.ledger (s.node v).term).take k⟩ }
  /-- The node confirms what its log shares with the ledger of its term. -/
  | ack (s : State ν κ) (m : ℕ) (hm : m ≤ (s.ledger (s.node v).term).length)
      (hp : (s.ledger (s.node v).term).take m <+: (s.node v).log) :
      Step v s { s with acked := fun u t k => s.acked u t k ∨ u = v ∧ t = (s.node v).term ∧ k = m }
  /-- The leader of a term learns that a quorum has confirmed an entry of the term itself. -/
  | commit (s : State ν κ) (t m : ℕ) (A : Finset ν) (hl : s.lead t = some v)
      (hm : m ≤ (s.ledger t).length) (h0 : 0 < m)
      (ht : termAt (s.ledger t) m = t) (hA : Q.isQuorum A)
      (ha : ∀ u ∈ A, ∃ m', m ≤ m' ∧ s.acked u t m') :
      Step v s { s with committed := fun t' m' => s.committed t' m' ∨ t' = t ∧ m' = m }

/-- Finitely many steps of the node `v`. -/
abbrev Steps (v : ν) : State ν κ → State ν κ → Prop := Relation.ReflTransGen (Step Q P v)

end steps

/-! ### Growth: what every step leaves in place -/

/-- The recorded facts of `s` still stand in `s'`; the ledger of a led term has grown by entries
of that term only. -/
structure Extends (s s' : State ν κ) : Prop where
  term : ∀ v, (s.node v).term ≤ (s'.node v).term
  lead : ∀ {t v}, s.lead t = some v → s'.lead t = some v
  ledger : ∀ t, ∃ r, s'.ledger t = s.ledger t ++ r ∧ (s.lead t ≠ none → ∀ e ∈ r, e.term = t)
  stood : ∀ {v t l}, s.stood v t = some l → s'.stood v t = some l
  ballot : ∀ {u t c l}, s.ballot u t c l → s'.ballot u t c l
  acked : ∀ {u t m}, s.acked u t m → s'.acked u t m
  committed : ∀ {t m}, s.committed t m → s'.committed t m

theorem Extends.refl (s : State ν κ) : Extends s s where
  term _ := le_rfl
  lead h := h
  ledger t := ⟨[], by simp, by simp⟩
  stood h := h
  ballot h := h
  acked h := h
  committed h := h

section
variable {s s' : State ν κ} (h : Extends s s')
include h

theorem Extends.led {t : ℕ} (hl : s.lead t ≠ none) : s'.lead t ≠ none := by
  obtain ⟨v, hv⟩ := Option.ne_none_iff_exists'.mp hl
  rw [h.lead hv]
  exact Option.some_ne_none v

theorem Extends.ledger_prefix (t : ℕ) : s.ledger t <+: s'.ledger t := by
  obtain ⟨r, hr, _⟩ := h.ledger t
  rw [hr]
  exact List.prefix_append _ _

theorem Extends.take_ledger {t i : ℕ}
    (hi : i ≤ (s.ledger t).length) : (s'.ledger t).take i = (s.ledger t).take i := by
  obtain ⟨r, hr, _⟩ := h.ledger t
  rw [hr, List.take_append_of_le_length hi]

end

theorem Extends.trans {s s' s'' : State ν κ} (h : Extends s s') (h' : Extends s' s'') :
    Extends s s'' where
  term v := (h.term v).trans (h'.term v)
  lead hl := h'.lead (h.lead hl)
  ledger t := by
    obtain ⟨r, hr, hr'⟩ := h.ledger t
    obtain ⟨q, hq, hq'⟩ := h'.ledger t
    refine ⟨r ++ q, by rw [hq, hr, List.append_assoc], fun hl e he => ?_⟩
    rcases List.mem_append.mp he with he | he
    · exact hr' hl e he
    · exact hq' (h.led hl) e he
  stood hs := h'.stood (h.stood hs)
  ballot hb := h'.ballot (h.ballot hb)
  acked ha := h'.acked (h.acked ha)
  committed hc := h'.committed (h.committed hc)

/-! ### The invariant -/

/-- The first `m` entries of the ledger of term `t` are kept by the log `l`, unless a leader of a
term between `t` and `b` does not have them. -/
def Kept (s : State ν κ) (l : List (Entry κ)) (t m b : ℕ) : Prop :=
  ∀ i ≤ m, (s.ledger t).take i <+: l ∨
    ∃ t', t < t' ∧ t' < b ∧ s.lead t' ≠ none ∧ ¬ (s.ledger t).take i <+: s.ledger t'

/-- The log `l` with which `u` voted in term `t` keeps what `u` confirmed in earlier terms. -/
def Faithful (s : State ν κ) (u : ν) (t : ℕ) (l : List (Entry κ)) : Prop :=
  ∀ ⦃t' m⦄, s.acked u t' m → t' < t → Kept s l t' m t

/-- The inductive invariant of the protocol. -/
structure Inv [DecidableEq ν] (Q : QuorumSystem ν) (P : κ → Prop) (s : State ν κ) : Prop where
  coherent : ∀ v, Coherent s.ledger (s.node v).log
  logTerm : ∀ v, ∀ e ∈ (s.node v).log, e.term ≤ (s.node v).term
  unled : ∀ {t}, s.lead t = none → s.ledger t = []
  led : ∀ {t c}, s.lead t = some c →
    ∃ l r, s.stood c t = some l ∧ s.ledger t = l ++ r ∧ ∀ e ∈ r, e.term = t
  command : ∀ t, ∀ e ∈ s.ledger t, P e.command
  stood : ∀ {v t l}, s.stood v t = some l →
    t ≤ (s.node v).term ∧ Coherent s.ledger l ∧ ∀ e ∈ l, e.term < t
  ballot : ∀ {u t c l}, s.ballot u t c l →
    t ≤ (s.node u).term ∧ Coherent s.ledger l ∧ ∃ l', s.stood c t = some l' ∧ UpToDate l' l
  vote : ∀ {u c l}, s.ballot u (s.node u).term c l → (s.node u).vote = some c
  once : ∀ {u t c c' l l'}, s.ballot u t c l → s.ballot u t c' l' → c = c'
  acked : ∀ {v t m}, s.acked v t m → t ≤ (s.node v).term ∧ m ≤ (s.ledger t).length ∧
    Kept s (s.node v).log t m ((s.node v).term + 1)
  pending : ∀ {u t c l}, s.lead t = none → s.ballot u t c l → Faithful s u t l
  elected : ∀ {t c}, s.lead t = some c →
    ∃ V, Q.isQuorum V ∧ ∀ u ∈ V, ∃ l, s.ballot u t c l ∧ Faithful s u t l
  committed : ∀ {t m}, s.committed t m → m ≤ (s.ledger t).length ∧ 0 < m ∧
    termAt (s.ledger t) m = t ∧
    ∃ A, Q.isQuorum A ∧ ∀ u ∈ A, ∃ m', m ≤ m' ∧ s.acked u t m'

section inv
variable {s s' : State ν κ}

variable {l : List (Entry κ)} {b m t : ℕ} {u v : ν} {x : Voter ν κ} {s'' : State ν κ}

theorem Kept.mono {b' : ℕ} (h : Kept s l t m b) (hb : b ≤ b') : Kept s l t m b' := by
  intro i hi
  rcases h i hi with h' | ⟨t', h1, h2, h3, h4⟩
  · exact .inl h'
  · exact .inr ⟨t', h1, by omega, h3, h4⟩

theorem propose_extends (s : State ν κ) {e : Entry κ} (he : e.term = t) :
    Extends s { s with ledger := update s.ledger t (s.ledger t ++ [e]) } := by
  refine ⟨fun _ => le_rfl, id, (forall_update_iff s.ledger fun t' l => ∃ r,
    l = s.ledger t' ++ r ∧ (s.lead t' ≠ none → ∀ e ∈ r, e.term = t')).mpr ⟨?_, ?_⟩, id, id, id, id⟩
  · exact ⟨[e], rfl, fun _ f hf => by rw [List.mem_singleton.mp hf, he]⟩
  · exact fun t' _ => ⟨[], by simp, by simp⟩

variable [DecidableEq ν] {Q : QuorumSystem ν} {P : κ → Prop}

theorem Inv.init : Inv Q P (State.init : State ν κ) where
  coherent _ := Coherent.nil
  logTerm _ e he := by simp [State.init] at he
  unled _ := rfl
  led h := by simp [State.init] at h
  command _ e he := by simp [State.init] at he
  stood h := by simp [State.init] at h
  ballot h := h.elim
  vote h := h.elim
  once h := h.elim
  acked h := h.elim
  pending _ h := h.elim
  elected h := by simp [State.init] at h
  committed h := h.elim

theorem Inv.ledger_term (h : Inv Q P s) (t : ℕ) : ∀ e ∈ s.ledger t, e.term ≤ t := by
  intro e he
  cases hl : s.lead t with
  | none => rw [h.unled hl] at he; simp at he
  | some c =>
    obtain ⟨l, r, hs, hlr, hr⟩ := h.led hl
    rw [hlr] at he
    rcases List.mem_append.mp he with he | he
    · exact ((h.stood hs).2.2 e he).le
    · exact (hr e he).le

theorem Inv.ledger_coherent (h : Inv Q P s) (t : ℕ) : Coherent s.ledger (s.ledger t) := by
  cases hl : s.lead t with
  | none => rw [h.unled hl]; exact Coherent.nil
  | some c =>
    obtain ⟨l, r, hs, hlr, hr⟩ := h.led hl
    have hc := (h.stood hs).2.1.append hr (by rw [hlr])
    rwa [hlr]

/-- Growth withdraws nothing: a leader that lacked the entries lacks them for good, because its
ledger only gains entries of its own, later, term. -/
theorem Kept.extends (hi : Inv Q P s) (he : Extends s s') (hm : m ≤ (s.ledger t).length)
    (h : Kept s l t m b) : Kept s' l t m b := by
  intro i him
  rw [he.take_ledger (him.trans hm)]
  rcases h i him with h' | ⟨t', h1, h2, h3, h4⟩
  · exact .inl h'
  · refine .inr ⟨t', h1, h2, he.led h3, fun hp => h4 ?_⟩
    obtain ⟨r, hr, hrt⟩ := he.ledger t'
    rw [hr] at hp
    refine prefix_of_prefix_append hp fun e hea her => ?_
    have := hi.ledger_term t e ((List.take_prefix _ _).subset hea)
    have := hrt h3 e her
    omega

/-! ### Every step keeps the invariant -/

theorem Inv.setNode (h : Inv Q P s) (hterm : (s.node v).term ≤ x.term) (hco : Coherent s.ledger x.log)
    (hlog : ∀ e ∈ x.log, e.term ≤ x.term) (hvote : ∀ {c l}, s.ballot v x.term c l → x.vote = some c)
    (hkept : ∀ {t m}, s.acked v t m → Kept s x.log t m (x.term + 1)) :
    Inv Q P { s with node := update s.node v x } := by
  -- what holds of the new node and of all the others
  have hall : ∀ p : ν → Voter ν κ → Prop, p v x → (∀ u, p u (s.node u)) →
      ∀ u, p u (update s.node v x u) :=
    fun p hp hq => (forall_update_iff _ p).mpr ⟨hp, fun u _ => hq u⟩
  have hle := hall (fun u y => (s.node u).term ≤ y.term) hterm fun _ => le_rfl
  refine ⟨hall (fun _ y => Coherent s.ledger y.log) hco h.coherent,
    hall (fun _ y => ∀ e ∈ y.log, e.term ≤ y.term) hlog h.logTerm, h.unled, h.led, h.command, ?_, ?_,
    @hall (fun u y => ∀ {c l}, s.ballot u y.term c l → y.vote = some c) hvote (fun _ => h.vote),
    h.once, ?_, h.pending, h.elected, h.committed⟩
  · intro u t l hs
    exact ⟨(h.stood hs).1.trans (hle u), (h.stood hs).2⟩
  · intro u t c l hb
    exact ⟨(h.ballot hb).1.trans (hle u), (h.ballot hb).2⟩
  · intro u t m ha
    exact ⟨(h.acked ha).1.trans (hle u), (h.acked ha).2.1, hall (fun u y => ∀ {t m}, s.acked u t m →
      Kept s y.log t m (y.term + 1)) hkept (fun _ _ _ ha => (h.acked ha).2.2) u ha⟩

/-- Recording a vote: the voter's current one, for a candidate that stood with a log as up to
date as the voter's. -/
theorem Inv.addBallot (h : Inv Q P s) {c : ν} (hv : (s.node v).vote = some c)
    (hs : s.stood c (s.node v).term = some l) (hl : UpToDate l (s.node v).log) :
    Inv Q P { s with ballot := fun u t c' l' => s.ballot u t c' l' ∨
      u = v ∧ t = (s.node v).term ∧ c' = c ∧ l' = (s.node v).log } := by
  refine ⟨h.coherent, h.logTerm, h.unled, h.led, h.command, h.stood, ?_, ?_, ?_, h.acked, ?_, ?_,
    h.committed⟩
  · rintro u t c' l' (hb | ⟨rfl, rfl, rfl, rfl⟩)
    · exact h.ballot hb
    · exact ⟨le_rfl, h.coherent u, l, hs, hl⟩
  · rintro u c' l' (hb | ⟨rfl, _, rfl, rfl⟩)
    · exact h.vote hb
    · exact hv
  · -- a vote already cast in the current term is the one the voter holds
    have hcur : ∀ {c' l'}, s.ballot v (s.node v).term c' l' → c' = c := by
      intro c' l' hb
      have := h.vote hb
      rw [hv] at this
      exact (Option.some.inj this).symm
    rintro u t c₁ c₂ l₁ l₂ (h₁ | ⟨hu₁, ht₁, hc₁, -⟩) (h₂ | ⟨hu₂, ht₂, hc₂, -⟩)
    · exact h.once h₁ h₂
    · subst hu₂ ht₂; rw [hc₂]; exact hcur h₁
    · subst hu₁ ht₁; rw [hc₁]; exact (hcur h₂).symm
    · rw [hc₁, hc₂]
  · rintro u t c' l' hn (hb | ⟨rfl, rfl, rfl, rfl⟩)
    · exact h.pending hn hb
    · intro t' m ha hlt i hi
      rcases (h.acked ha).2.2 i hi with h' | ⟨t'', h1, h2, h3, h4⟩
      · exact .inl h'
      · refine .inr ⟨t'', h1, ?_, h3, h4⟩
        -- the voter's term itself has no leader yet
        rcases Nat.lt_or_ge t'' (s.node u).term with hlt' | hge
        · exact hlt'
        · have : t'' = (s.node u).term := by omega
          subst this
          exact absurd hn h3
  · intro t c' hl'
    obtain ⟨V, hV, hb⟩ := h.elected hl'
    refine ⟨V, hV, fun u hu => ?_⟩
    obtain ⟨l', h1, h2⟩ := hb u hu
    exact ⟨l', .inl h1, h2⟩

theorem Inv.addStood (h : Inv Q P s) (hn : s.stood v t = none) (ht : t ≤ (s.node v).term)
    (hco : Coherent s.ledger l) (hlt : ∀ e ∈ l, e.term < t) : Inv Q P { s with
      stood := update s.stood v (update (s.stood v) t (some l)) } := by
  have hold : ∀ {u t' l'}, s.stood u t' = some l' →
      update s.stood v (update (s.stood v) t (some l)) u t' = some l' := by
    intro u t' l' hs
    by_cases hu : u = v
    · subst hu
      rw [update_self]
      by_cases ht' : t' = t
      · subst ht'; rw [hn] at hs; cases hs
      · rw [update_of_ne ht']; exact hs
    · rw [update_of_ne hu]; exact hs
  refine ⟨h.coherent, h.logTerm, h.unled, ?_, h.command, ?_, ?_, h.vote, h.once, h.acked, h.pending,
    h.elected, h.committed⟩
  · intro t' c hl
    obtain ⟨l', r, h1, h2⟩ := h.led hl
    exact ⟨l', r, hold h1, h2⟩
  · intro u t' l' hs
    dsimp only at hs
    by_cases hu : u = v
    · subst hu
      rw [update_self] at hs
      by_cases ht' : t' = t
      · subst ht'
        rw [update_self] at hs
        cases hs
        exact ⟨ht, hco, hlt⟩
      · rw [update_of_ne ht'] at hs
        exact h.stood hs
    · rw [update_of_ne hu] at hs
      exact h.stood hs
  · intro u t' c l' hb
    obtain ⟨h1, h2, l'', h3, h4⟩ := h.ballot hb
    exact ⟨h1, h2, l'', hold h3, h4⟩

theorem Inv.adopt (h : Inv Q P s) (v : ν) (ht : (s.node v).term < t) :
    Inv Q P { s with node := update s.node v ⟨t, none, (s.node v).log⟩ } := by
  refine h.setNode ht.le (h.coherent v) (fun e he => (h.logTerm v e he).trans ht.le) ?_ ?_
  · intro c l hb
    have := (h.ballot hb).1
    dsimp only at this
    omega
  · intro t' m ha
    exact (h.acked ha).2.2.mono (by dsimp only; omega)

/-- The state in which the node `v` stands for election. -/
def State.stand (s : State ν κ) (v : ν) : State ν κ :=
  { s with
    node := Function.update s.node v ⟨(s.node v).term + 1, some v, (s.node v).log⟩
    stood := Function.update s.stood v
      (Function.update (s.stood v) ((s.node v).term + 1) (some (s.node v).log))
    ballot := fun u t c l => s.ballot u t c l ∨
      u = v ∧ t = (s.node v).term + 1 ∧ c = v ∧ l = (s.node v).log }

section
variable (h : Inv Q P s)
include h

variable {c v : ν} {l : List (Entry κ)} {m t : ℕ}

theorem Inv.stand (v : ν) : Inv Q P (s.stand v) := by
  have h1 : Inv Q P { s with
      node := update s.node v ⟨(s.node v).term + 1, some v, (s.node v).log⟩ } := by
    refine h.setNode (by dsimp only; omega) (h.coherent v)
      (fun e he => (h.logTerm v e he).trans (by dsimp only; omega)) ?_ ?_
    · intro c l hb
      have := (h.ballot hb).1
      dsimp only at this
      omega
    · intro t m ha
      exact (h.acked ha).2.2.mono (by dsimp only; omega)
  have hn : s.stood v ((s.node v).term + 1) = none := by
    cases hs : s.stood v ((s.node v).term + 1) with
    | none => rfl
    | some l => have := (h.stood hs).1; omega
  have h2 := h1.addStood (v := v) (t := (s.node v).term + 1) (l := (s.node v).log) hn
    (by dsimp only; rw [update_self]) (h.coherent v)
    (fun e he => Nat.lt_succ_of_le (h.logTerm v e he))
  have h3 := h2.addBallot (v := v) (c := v) (l := (s.node v).log)
    (by dsimp only; rw [update_self])
    (by dsimp only; rw [update_self, update_self, update_self])
    (by dsimp only; rw [update_self]; exact UpToDate.refl _)
  dsimp only at h3
  rw [update_self] at h3
  exact h3

theorem Inv.grant (hv : (s.node v).vote = none ∨ (s.node v).vote = some c)
    (hs : s.stood c (s.node v).term = some l) (hl : UpToDate l (s.node v).log) : Inv Q P { s with
      node := update s.node v ⟨(s.node v).term, some c, (s.node v).log⟩
      ballot := fun u t c' l' => s.ballot u t c' l' ∨
        u = v ∧ t = (s.node v).term ∧ c' = c ∧ l' = (s.node v).log } := by
  have h1 : Inv Q P { s with
      node := update s.node v ⟨(s.node v).term, some c, (s.node v).log⟩ } := by
    refine h.setNode le_rfl (h.coherent v) (h.logTerm v) ?_ (fun ha => (h.acked ha).2.2)
    intro c' l' hb
    have hc := h.vote hb
    rcases hv with hv | hv <;> rw [hv] at hc
    · cases hc
    · exact hc
  have h2 := h1.addBallot (v := v) (c := c) (l := l)
    (by dsimp only; rw [update_self])
    (by dsimp only; rw [update_self]; exact hs)
    (by dsimp only; rw [update_self]; exact hl)
  dsimp only at h2
  rw [update_self] at h2
  exact h2

theorem Inv.accept {c k : ℕ} (hl : s.lead (s.node v).term ≠ none)
    (hc : Splice (s.node v).log (s.ledger (s.node v).term) c) (hck : c ≤ k) : Inv Q P { s with
      node := update s.node v
        ⟨(s.node v).term, (s.node v).vote, (s.ledger (s.node v).term).take k⟩ } := by
  refine h.setNode le_rfl ((h.ledger_coherent _).of_isPrefix (List.take_prefix _ _))
    (fun e he => h.ledger_term _ e ((List.take_prefix _ _).subset he)) h.vote ?_
  intro t m ha i hi
  rcases (h.acked ha).2.2 i hi with hp | ⟨t', h1, h2, h3, h4⟩
  · by_cases hq : (s.ledger t).take i <+: s.ledger (s.node v).term
    · exact .inl (hc.prefix_take hck hp hq)
    · -- the new leader lacks the entries: its term is later than theirs
      refine .inr ⟨(s.node v).term, ?_, Nat.lt_succ_self _, hl, hq⟩
      rcases Nat.lt_or_ge t (s.node v).term with hlt | hge
      · exact hlt
      · have := (h.acked ha).1
        have : t = (s.node v).term := by omega
        subst this
        exact absurd (List.take_prefix _ _) hq
  · exact .inr ⟨t', h1, h2, h3, h4⟩

theorem Faithful.extends (he : Extends s s') (ha : s'.acked = s.acked) {u : ν} (hf : Faithful s u t l) :
    Faithful s' u t l := by
  intro t' m hm hlt
  rw [ha] at hm
  exact (hf hm hlt).extends h he (h.acked hm).2.1

theorem Inv.grow (lead' : ℕ → Option ν) {ledger' : ℕ → List (Entry κ)}
    (he : Extends s { s with lead := lead', ledger := ledger' })
    (hun : ∀ {t}, lead' t = none → ledger' t = [])
    (hled : ∀ {t c}, lead' t = some c →
      ∃ l r, s.stood c t = some l ∧ ledger' t = l ++ r ∧ ∀ e ∈ r, e.term = t)
    (hcmd : ∀ t, ∀ e ∈ ledger' t, P e.command)
    (hel : ∀ {t c}, lead' t = some c →
      ∃ V, Q.isQuorum V ∧ ∀ u ∈ V, ∃ l, s.ballot u t c l ∧ Faithful s u t l) :
    Inv Q P { s with lead := lead', ledger := ledger' } := by
  refine ⟨fun v => (h.coherent v).mono he.ledger_prefix, h.logTerm, hun, hled, hcmd, ?_, ?_, h.vote,
    h.once, ?_, ?_, ?_, ?_⟩
  · intro v t l hs
    obtain ⟨h1, h2, h3⟩ := h.stood hs
    exact ⟨h1, h2.mono he.ledger_prefix, h3⟩
  · intro u t c l hb
    obtain ⟨h1, h2, h3⟩ := h.ballot hb
    exact ⟨h1, h2.mono he.ledger_prefix, h3⟩
  · intro v t m ha
    obtain ⟨h1, h2, h3⟩ := h.acked ha
    exact ⟨h1, h2.trans (he.ledger_prefix t).length_le, h3.extends h he h2⟩
  · intro u t c l hn hb
    have hn' : s.lead t = none := by
      by_contra hne
      exact he.led hne hn
    exact (h.pending hn' hb).extends h he rfl
  · intro t c hl
    obtain ⟨V, hV, hb⟩ := hel hl
    refine ⟨V, hV, fun u hu => ?_⟩
    obtain ⟨l, h1, h2⟩ := hb u hu
    exact ⟨l, h1, h2.extends h he rfl⟩
  · intro t m hc
    obtain ⟨h1, h2, h3, h4⟩ := h.committed hc
    refine ⟨h1.trans (he.ledger_prefix t).length_le, h2, ?_, h4⟩
    exact (termAt_of_isPrefix (he.ledger_prefix t) h1).symm.trans h3

theorem Inv.win_extends (hn : s.lead t = none) : Extends s { s with
      lead := update s.lead t (some c)
      ledger := update s.ledger t l } := by
  refine ⟨fun _ => le_rfl, ?_, ?_, id, id, id, id⟩
  · intro t' v hl
    have : t' ≠ t := by rintro rfl; rw [hn] at hl; cases hl
    dsimp only
    rw [update_of_ne this]
    exact hl
  · intro t'
    by_cases ht : t' = t
    · subst ht
      refine ⟨l, by simp [h.unled hn], fun hne => absurd hn hne⟩
    · exact ⟨[], by simp [update_of_ne ht], by simp⟩

theorem Inv.win {V : Finset ν} (hs : s.stood c t = some l) (hV : Q.isQuorum V)
    (hb : ∀ u ∈ V, ∃ l', s.ballot u t c l') (hn : s.lead t = none) : Inv Q P { s with
      lead := update s.lead t (some c)
      ledger := update s.ledger t l } := by
  have hl : ∀ e ∈ l, P e.command := by
    intro e he
    obtain ⟨i, hi⟩ := List.mem_iff_getElem?.mp he
    have hp := (h.stood hs).2.1 i e hi
    exact h.command e.term e (hp.subset (List.mem_of_getElem? (i := i) (by
      rw [List.getElem?_take_of_lt (Nat.lt_succ_self i)]; exact hi)))
  refine h.grow _ (h.win_extends hn) ?_ ?_ ?_ ?_
  · intro t' hn'
    by_cases ht : t' = t
    · subst ht; rw [update_self] at hn'; cases hn'
    · rw [update_of_ne ht] at hn' ⊢; exact h.unled hn'
  · intro t' c' hl'
    by_cases ht : t' = t
    · subst ht
      rw [update_self] at hl' ⊢
      cases hl'
      exact ⟨l, [], hs, by simp, by simp⟩
    · rw [update_of_ne ht] at hl' ⊢
      exact h.led hl'
  · exact (forall_update_iff s.ledger fun _ l => ∀ e ∈ l, P e.command).mpr
      ⟨hl, fun t' _ => h.command t'⟩
  · intro t' c' hl'
    by_cases ht : t' = t
    · subst ht
      rw [update_self] at hl'
      cases hl'
      refine ⟨V, hV, fun u hu => ?_⟩
      obtain ⟨l', hl'⟩ := hb u hu
      exact ⟨l', hl', h.pending hn hl'⟩
    · rw [update_of_ne ht] at hl'
      exact h.elected hl'

theorem Inv.propose {e : Entry κ} (hl : s.lead t ≠ none) (he : e.term = t) (hP : P e.command) :
    Inv Q P { s with ledger := update s.ledger t (s.ledger t ++ [e]) } := by
  refine h.grow s.lead (propose_extends s he) ?_ ?_ ?_ h.elected
  · intro t' hn
    by_cases ht : t' = t
    · subst ht; exact absurd hn hl
    · rw [update_of_ne ht]; exact h.unled hn
  · intro t' c hl'
    obtain ⟨l, r, h1, h2, h3⟩ := h.led hl'
    by_cases ht : t' = t
    · subst ht
      refine ⟨l, r ++ [e], h1, by rw [update_self, h2, List.append_assoc], ?_⟩
      intro f hf
      rcases List.mem_append.mp hf with hf | hf
      · exact h3 f hf
      · rw [List.mem_singleton.mp hf, he]
    · rw [update_of_ne ht]; exact ⟨l, r, h1, h2, h3⟩
  · refine (forall_update_iff s.ledger fun _ l => ∀ e ∈ l, P e.command).mpr
      ⟨fun f hf => ?_, fun t' _ => h.command t'⟩
    rcases List.mem_append.mp hf with hf | hf
    · exact h.command t f hf
    · rw [List.mem_singleton.mp hf]; exact hP

theorem Inv.ack (hm : m ≤ (s.ledger (s.node v).term).length)
    (hp : (s.ledger (s.node v).term).take m <+: (s.node v).log) : Inv Q P { s with
      acked := fun u t k => s.acked u t k ∨ u = v ∧ t = (s.node v).term ∧ k = m } := by
  -- the node's own votes are of its term or older, so a new confirmation concerns none of them
  have hf : ∀ {u t c l}, s.ballot u t c l → Faithful s u t l →
      Faithful { s with
        acked := fun u t k => s.acked u t k ∨ u = v ∧ t = (s.node v).term ∧ k = m } u t l := by
    intro u t c l hb hf t' m' ha hlt
    rcases ha with ha | ⟨rfl, rfl, rfl⟩
    · exact hf ha hlt
    · have := (h.ballot hb).1
      omega
  refine ⟨h.coherent, h.logTerm, h.unled, h.led, h.command, h.stood, h.ballot, h.vote, h.once, ?_,
    ?_, ?_, ?_⟩
  · rintro u t k (ha | ⟨rfl, rfl, rfl⟩)
    · exact h.acked ha
    · refine ⟨le_rfl, hm, fun i hi => .inl ?_⟩
      exact (List.take_prefix_take_left hi).trans hp
  · intro u t c l hn hb
    exact hf hb (h.pending hn hb)
  · intro t c hl
    obtain ⟨V, hV, hb⟩ := h.elected hl
    refine ⟨V, hV, fun u hu => ?_⟩
    obtain ⟨l, h1, h2⟩ := hb u hu
    exact ⟨l, h1, hf h1 h2⟩
  · intro t k hc
    obtain ⟨h1, h2, h3, A, h4, h5⟩ := h.committed hc
    refine ⟨h1, h2, h3, A, h4, fun u hu => ?_⟩
    obtain ⟨m', hm', ha⟩ := h5 u hu
    exact ⟨m', hm', .inl ha⟩

theorem Inv.commit {A : Finset ν} (hm : m ≤ (s.ledger t).length) (h0 : 0 < m)
    (ht : termAt (s.ledger t) m = t) (hA : Q.isQuorum A) (ha : ∀ u ∈ A, ∃ m', m ≤ m' ∧ s.acked u t m') :
    Inv Q P { s with committed := fun t' m' => s.committed t' m' ∨ t' = t ∧ m' = m } := by
  refine ⟨h.coherent, h.logTerm, h.unled, h.led, h.command, h.stood, h.ballot, h.vote, h.once,
    h.acked, h.pending, h.elected, ?_⟩
  rintro t' m' (hc | ⟨rfl, rfl⟩)
  · exact h.committed hc
  · exact ⟨hm, h0, ht, A, hA, ha⟩

/-- **Every step keeps the invariant.** -/
theorem Inv.step (hs : Step Q P v s s') : Inv Q P s' := by
  cases hs with
  | adopt t ht => exact h.adopt v ht
  | stand => exact h.stand v
  | grant c l hv hs hl => exact h.grant hv hs hl
  | win t l V hs hV hb hn => exact h.win hs hV hb hn
  | propose t e hl he hP => exact h.propose (by rw [hl]; exact Option.some_ne_none v) he hP
  | accept c k hl hc hck => exact h.accept hl hc hck
  | ack m hm hp => exact h.ack hm hp
  | commit t m A hl hm h0 ht hA ha => exact h.commit hm h0 ht hA ha

end

theorem extends_setNode (s : State ν κ) (h : (s.node v).term ≤ x.term) :
    Extends s { s with node := update s.node v x } := by
  refine ⟨?_, id, (Extends.refl s).ledger, id, id, id, id⟩
  exact (forall_update_iff s.node fun u y => (s.node u).term ≤ y.term).mpr
    ⟨h, fun _ _ => le_rfl⟩

theorem Inv.stand_extends (h : Inv Q P s) (v : ν) : Extends s (s.stand v) := by
  have h1 := extends_setNode s (v := v) (x := ⟨(s.node v).term + 1, some v, (s.node v).log⟩)
    (Nat.le_succ _)
  refine ⟨h1.term, id, h1.ledger, ?_, .inl, id, id⟩
  intro u t l hs
  by_cases hu : u = v
  · subst hu
    have ht : t ≠ (s.node u).term + 1 := by have := (h.stood hs).1; omega
    dsimp only [State.stand]
    rw [update_self, update_of_ne ht]
    exact hs
  · dsimp only [State.stand]; rw [update_of_ne hu]; exact hs

/-- Every step leaves the recorded facts in place. -/
theorem Inv.step_extends (h : Inv Q P s) (hs : Step Q P v s s') : Extends s s' := by
  cases hs with
  | adopt t ht => exact extends_setNode s ht.le
  | stand => exact h.stand_extends v
  | grant c l hv hs hl =>
    have h1 := extends_setNode s (v := v) (x := ⟨(s.node v).term, some c, (s.node v).log⟩) le_rfl
    exact ⟨h1.term, id, h1.ledger, id, .inl, id, id⟩
  | win t l V hs hV hb hn => exact h.win_extends hn
  | propose t e hl he hP => exact propose_extends s he
  | accept c k hl hc hck => exact extends_setNode s le_rfl
  | ack m hm hp => exact ⟨fun _ => le_rfl, id, (Extends.refl s).ledger, id, id, .inl, id⟩
  | commit t m A hl hm h0 ht hA ha =>
    exact ⟨fun _ => le_rfl, id, (Extends.refl s).ledger, id, id, id, .inl⟩

theorem Inv.steps (h : Inv Q P s) (hs : Steps Q P v s s') : Inv Q P s' ∧ Extends s s' := by
  induction hs with
  | refl => exact ⟨h, Extends.refl s⟩
  | tail _ hst ih => exact ⟨ih.1.step hst, ih.2.trans (ih.1.step_extends hst)⟩

/-! ### Locality: what the steps of other nodes leave alone -/

/-- Between `s` and `s'` the node `v` won, proposed and committed nothing. -/
structure Idle (v : ν) (s s' : State ν κ) : Prop where
  lead : ∀ t, s'.lead t = some v ↔ s.lead t = some v
  ledger : ∀ {t}, s.lead t = some v → s'.ledger t = s.ledger t
  committed : ∀ {t m}, s.lead t = some v → s'.committed t m → s.committed t m

omit [DecidableEq ν] in
theorem Idle.refl (v : ν) (s : State ν κ) : Idle v s s := ⟨fun _ => Iff.rfl, fun _ => rfl, fun _ h => h⟩

omit [DecidableEq ν] in
theorem Idle.trans (h : Idle v s s') (h' : Idle v s' s'') : Idle v s s'' where
  lead t := (h'.lead t).trans (h.lead t)
  ledger hl := (h'.ledger ((h.lead _).mpr hl)).trans (h.ledger hl)
  committed hl hc := h.committed hl (h'.committed ((h.lead _).mpr hl) hc)

/-- Between `s` and `s'` the node `v` did nothing at all. -/
structure Apart (v : ν) (s s' : State ν κ) : Prop extends Idle v s s' where
  node : s'.node v = s.node v

omit [DecidableEq ν] in
theorem Apart.refl (v : ν) (s : State ν κ) : Apart v s s := ⟨Idle.refl v s, rfl⟩

omit [DecidableEq ν] in
theorem Apart.trans (h : Apart v s s') (h' : Apart v s' s'') :
    Apart v s s'' := ⟨h.toIdle.trans h'.toIdle, h'.node.trans h.node⟩

theorem Step.apart (hs : Step Q P u s s') (hv : v ≠ u) : Apart v s s' := by
  have hnode : ∀ x : Voter ν κ, update s.node u x v = s.node v :=
    fun x => by rw [update_of_ne hv]
  cases hs with
  | adopt t ht => exact ⟨⟨fun _ => Iff.rfl, fun _ => rfl, fun _ h => h⟩, hnode _⟩
  | stand => exact ⟨⟨fun _ => Iff.rfl, fun _ => rfl, fun _ h => h⟩, hnode _⟩
  | grant c l _ _ _ => exact ⟨⟨fun _ => Iff.rfl, fun _ => rfl, fun _ h => h⟩, hnode _⟩
  | win t l V _ _ _ hn =>
    refine ⟨⟨fun t' => ?_, fun {t'} hl => ?_, fun _ h => h⟩, rfl⟩
    · by_cases ht : t' = t
      · subst ht
        simp [hn, Ne.symm hv]
      · simp only [update_of_ne ht]
    · have ht : t' ≠ t := by rintro rfl; rw [hn] at hl; cases hl
      exact update_of_ne ht _ _
  | propose t e hl _ _ =>
    refine ⟨⟨fun _ => Iff.rfl, fun {t'} hl' => ?_, fun _ h => h⟩, rfl⟩
    have ht : t' ≠ t := by rintro rfl; rw [hl] at hl'; exact hv (Option.some.inj hl').symm
    exact update_of_ne ht _ _
  | accept c k _ _ _ => exact ⟨⟨fun _ => Iff.rfl, fun _ => rfl, fun _ h => h⟩, hnode _⟩
  | ack m _ _ => exact ⟨⟨fun _ => Iff.rfl, fun _ => rfl, fun _ h => h⟩, rfl⟩
  | commit t m A hl _ _ _ _ _ =>
    refine ⟨⟨fun _ => Iff.rfl, fun _ => rfl, fun {t' m'} hl' hc => ?_⟩, rfl⟩
    rcases hc with hc | ⟨rfl, -⟩
    · exact hc
    · rw [hl] at hl'
      exact absurd (Option.some.inj hl').symm hv

theorem Steps.apart (hs : Steps Q P u s s') (hv : v ≠ u) : Apart v s s' := by
  induction hs with
  | refl => exact Apart.refl v s
  | tail _ hst ih => exact ih.trans (hst.apart hv)

/-- A node moves to a newer term, or stays in its term and keeps the vote it has cast there. -/
theorem Step.vote_kept (hs : Step Q P v s s') :
    (s.node v).term < (s'.node v).term ∨ (s'.node v).term = (s.node v).term ∧
      ∀ c, (s.node v).vote = some c → (s'.node v).vote = some c := by
  cases hs with
  | adopt t ht => exact .inl (by dsimp only; rw [update_self]; exact ht)
  | stand => exact .inl (by dsimp only; rw [update_self]; exact Nat.lt_succ_self _)
  | grant c l hv _ _ =>
    refine .inr ?_
    dsimp only
    rw [update_self]
    refine ⟨rfl, fun c' hc' => ?_⟩
    rcases hv with hv | hv
    · rw [hv] at hc'; cases hc'
    · exact hv.symm.trans hc'
  | accept c k _ _ _ => exact .inr (by simp)
  | win | propose | ack | commit => exact .inr ⟨rfl, fun _ h => h⟩

theorem Steps.vote_kept (hs : Steps Q P v s s') :
    (s.node v).term < (s'.node v).term ∨ (s'.node v).term = (s.node v).term ∧
      ∀ c, (s.node v).vote = some c → (s'.node v).vote = some c := by
  induction hs with
  | refl => exact .inr ⟨rfl, fun _ h => h⟩
  | tail _ hst ih =>
    rcases ih with ih | ⟨ht, hv⟩ <;> rcases hst.vote_kept with h | ⟨ht', hv'⟩
    · exact .inl (ih.trans h)
    · exact .inl (by omega)
    · exact .inl (by omega)
    · exact .inr ⟨ht'.trans ht, fun c hc => hv' c (hv c hc)⟩

end inv

end Consensus
