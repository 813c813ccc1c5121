import ChordFs.RaftRefinement

/-! # A follower takes its leader's entries

The loop of `handle_append` over the entries of a call, against the ledger of the leader's term:
the follower keeps what it already holds, cuts at the first entry of another term, and adds the
rest.  What was committed is never cut, because the leader holds it too; so the branch that would
stop the replica is not reached. -/

namespace ChordFs

open Consensus TermLog

variable {n : ℕ} {s : Raft n} {L : List Entry}

namespace Raft

/-- **The entries of a call, against the ledger.**  The replica's log agrees with the ledger `L` up
to `i`, the call's entries follow there in `L`, and `L` holds what the replica committed.  Then the
replica does not stop, and either held all of it before or now holds `L` up to the call's last
entry, rewritten from the first difference on. -/
theorem appendEntries_ledger (es : List Entry) {i : ℕ} (hs : s.stopped = false)
    (hi : i ≤ s.log.length) (hag : s.log.take i = L.take i) (hes : L.take i ++ es <+: L)
    (hmatch : ∀ p, p ≤ s.log.length → p ≤ L.length → TermLog.termAt s.log p = TermLog.termAt L p → s.log.take p = L.take p)
    (hcommit : s.log.take s.commit <+: L) :
    (s.appendEntries i es).stopped = false ∧
    (s.appendEntries i es = s ∧ L.take (i + es.length) <+: s.log ∨
    ∃ c, Splice s.log L c ∧ c ≤ i + es.length ∧
      (s.appendEntries i es).log = L.take (i + es.length) ∧
      (s.dirtyFrom = 0 → (s.appendEntries i es).dirtyFrom = c + 1)) := by
  obtain ⟨held, rest, rfl, hlen, hterm, hloop⟩ := appendEntries_cases es hs hi
  -- where the call's entries are in the ledger
  have hA : (L.take i).length = i := by rw [← hag, List.length_take, Nat.min_eq_left hi]
  have hLlen : i + (held ++ rest).length ≤ L.length := by
    have := hes.length_le
    rwa [List.length_append, hA] at this
  have hLe : ∀ k e, (held ++ rest)[k]? = some e → L[i + k]? = some e := by
    intro k e he
    have hk := (List.getElem?_eq_some_iff.mp he).1
    rw [← getElem?_of_isPrefix hes (by rw [List.length_append, hA]; omega),
      List.getElem?_append_right (by omega), hA, Nat.add_sub_cancel_left, he]
  have hLtake : L.take (i + (held ++ rest).length) = L.take (i + held.length) ++ rest := by
    have hheld : L.take i ++ held <+: L :=
      (List.prefix_append _ rest).trans ((List.append_assoc ..).symm ▸ hes)
    have h := List.prefix_iff_eq_take.mp hes
    have h' := List.prefix_iff_eq_take.mp hheld
    rw [List.length_append, hA] at h h'
    rw [← h, ← h', List.append_assoc]
  have hag' : s.log.take (i + held.length) = L.take (i + held.length) := by
    rcases held.eq_nil_or_concat' with rfl | ⟨held, e, rfl⟩
    · exact hag
    · have he : (held ++ [e])[held.length]? = some e := by simp
      have hat := termAt_of_getElem? (hLe held.length e (by simp))
      rw [List.length_append, List.length_singleton, ← Nat.add_assoc] at hlen ⊢
      refine hmatch _ hlen ?_ ((hterm held.length e he).trans hat.symm)
      simp only [List.length_append, List.length_singleton] at hLlen
      omega
  rcases hloop with ⟨rfl, h⟩ | ⟨e, es, rfl, ⟨hlt, ht, hc, -⟩ | ⟨hdiff, h⟩⟩
  · rw [h, List.append_nil, ← hag']
    exact ⟨hs, .inl ⟨rfl, List.take_prefix _ _⟩⟩
  · -- a conflict, which a committed entry cannot be in
    refine absurd ?_ ht
    rw [← termAt_of_getElem? (hLe held.length e (by simp)), Raft.termAt,
      ← termAt_of_isPrefix hcommit (by rw [List.length_take]; omega),
      termAt_of_isPrefix (List.take_prefix _ _) (by rw [List.length_take]; omega)]
  · rw [h, hLtake, ← hag']
    rw [List.length_append] at hLlen
    refine ⟨hs, .inr ⟨i + held.length, ⟨by omega, hag', hdiff.imp id ?_⟩, by simp, rfl, ?_⟩⟩
    · rintro ⟨hlt, ht, -⟩
      have hget := List.getElem?_eq_getElem hlt
      refine ⟨_, e, hget, hLe held.length e (by simp), ?_⟩
      rwa [Raft.termAt, termAt_of_getElem? hget] at ht
    · intro hd
      simp [changedFrom, hd]

end Raft

variable {P : Str → Prop} {g : Facts n}

/-- What a committed prefix of the log and the ledger of a later leader have in common survives the
rewriting of the log from that ledger. -/
theorem take_eq_of_splice {l L : List Entry} {c m k : ℕ} (hs : Splice l L c) (hcm : c ≤ m)
    (hk : k ≤ l.length) (hp : l.take k <+: L) : (L.take m).take k = l.take k ∧ k ≤ (L.take m).length := by
  have hkc : k ≤ c := by
    have := hs.length_le (List.take_prefix k l) hp
    rw [List.length_take] at this
    omega
  have hL := hs.le_right
  refine ⟨?_, by rw [List.length_take]; omega⟩
  rw [List.take_take, Nat.min_eq_left (hkc.trans hcm), ← Nat.min_eq_left hkc, ← List.take_take,
    ← hs.agree, List.take_take]

/-- **An append call of the leader of the replica's term** is refused or taken; the replica does
not stop, and what it held committed or applied stays. -/
theorem Volatile.onAppend (hi : RaftInv P g) (h : Volatile g s)
    (hr : s.role = .follower) (hs : s.stopped = false) (hd : s.dirtyFrom = 0) {c : Fin n}
    {req : AppendRequest} (hq : AppendFact g c req) (ht : s.term = req.term) :
    (s.onAppend req).1.stopped = false ∧ Volatile g (s.onAppend req).1 ∧
    ((s.onAppend req).1.dirtyFrom = 0 ∨ ∃ k, k < (s.onAppend req).1.dirtyFrom ∧
      Splice s.log (g.ledger req.term) k ∧ (s.onAppend req).1.log <+: g.ledger req.term) ∧
    ((s.onAppend req).2.success = true →
      (g.ledger req.term).take (req.prevIndex + req.entries.length) <+: (s.onAppend req).1.log) := by
  have hled : g.lead req.term ≠ none := by rw [hq.lead]; exact Option.some_ne_none c
  rcases s.onAppend_cases req with ⟨h1, h2⟩ | ⟨hprev, hterm, h1⟩
  · rw [h1]
    exact ⟨hs, h, .inl hd, fun h3 => by rw [h2] at h3; cases h3⟩
  have hag : s.log.take req.prevIndex = (g.ledger req.term).take req.prevIndex :=
    h.coherent.take_eq_of_termAt (hi.ledger_coherent _) hprev hq.prev_le (hterm.trans hq.prevTerm)
  have hcom : s.log.take s.commit <+: g.ledger req.term := h.committed.prefix_ledger hi ht.le hled
  have happ : s.log.take s.applied <+: g.ledger req.term := h.appliedBy.prefix_ledger hi ht.le hled
  obtain ⟨hst, hloop⟩ := Raft.appendEntries_ledger req.entries hs hprev hag hq.entries
    (fun p h1 h2 h3 => h.coherent.take_eq_of_termAt (hi.ledger_coherent _) h1 h2 h3) hcom
  have ha := Raft.appends_appendEntries req.entries s req.prevIndex
  have hnew : req.prevIndex + req.entries.length ≤ (g.ledger req.term).length := by
    have := hq.entries.length_le
    rw [List.length_append, List.length_take, Nat.min_eq_left hq.prev_le] at this
    exact this
  generalize s.appendEntries req.prevIndex req.entries = s₁ at h1 hst hloop ha
  rcases h1 with ⟨h1, -⟩ | ⟨-, h1⟩
  · rw [hst] at h1; cases h1
  -- in both cases of the loop: the new log extends the ledger's prefix and keeps what it must
  obtain ⟨hco, hpre, hkeep, hwr⟩ : Coherent g.ledger s₁.log ∧
      (g.ledger req.term).take (req.prevIndex + req.entries.length) <+: s₁.log ∧
      (∀ {k}, k ≤ s.log.length → s.log.take k <+: g.ledger req.term →
        s₁.log.take k = s.log.take k ∧ k ≤ s₁.log.length) ∧
      (s₁.dirtyFrom = 0 ∨ ∃ k, k < s₁.dirtyFrom ∧ Splice s.log (g.ledger req.term) k ∧
        s₁.log <+: g.ledger req.term) := by
    rcases hloop with ⟨rfl, hp⟩ | ⟨k, hsp, hk, hlog, hdf⟩
    · exact ⟨h.coherent, hp, fun hk _ => ⟨rfl, hk⟩, .inl hd⟩
    · rw [hlog, hdf hd]
      exact ⟨(hi.ledger_coherent _).of_isPrefix (List.take_prefix _ _), List.prefix_refl _,
        fun hj hp => take_eq_of_splice hsp hk hj hp,
        .inr ⟨k, Nat.lt_succ_self k, hsp, List.take_prefix _ _⟩⟩
  have hkc := hkeep h.commit_le hcom
  have hka := hkeep h.applied_le happ
  have hterm' : s₁.term = req.term := ha.term.trans ht
  have hlen := hpre.length_le
  rw [List.length_take, Nat.min_eq_left hnew] at hlen
  have hne : s₁.role ≠ .leader := by rw [ha.role, hr]; exact Role.noConfusion
  rw [h1]
  refine ⟨hst, ⟨⟨?_, ?_, ?_, ?_, ?_⟩, ⟨hco, fun hr' => absurd hr' hne⟩, fun hr' => ?_,
    fun hr' => absurd hr' hne, ?_, fun hr' => absurd hr' hne⟩, hwr, fun _ => hpre⟩
  · dsimp only
    split
    · omega
    · exact hkc.2
  · dsimp only
    rw [ha.applied]
    exact hka.2
  · dsimp only
    rw [hterm']
    split
    · -- committed no further than this call proved the logs to match
      refine hq.commit.of_isPrefix (List.prefix_take_iff.mpr ⟨?_, ?_⟩)
      · have : s₁.log.take (min req.commit (req.prevIndex + req.entries.length)) <+:
            (g.ledger req.term).take (req.prevIndex + req.entries.length) :=
          List.prefix_of_prefix_length_le (List.take_prefix _ _) hpre
            (by rw [List.length_take, List.length_take]; omega)
        exact this.trans (List.take_prefix _ _)
      · rw [List.length_take]; omega
    · rw [hkc.1, ← ht]; exact h.committed
  · dsimp only
    rw [hterm', ha.applied, hka.1, ← ht]
    exact h.appliedBy
  · dsimp only
    rw [ha.applies, ha.applied, hka.1]
    exact h.applies
  · dsimp only at hr'
    rw [ha.role, hr] at hr'; cases hr'
  · dsimp only
    rw [ha.out, ha.cfg]
    exact h.out

end ChordFs
