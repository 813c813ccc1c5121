import ChordFs.Lib.Consensus

/-! # Safety of leader-based consensus

What the invariant of `Consensus.lean` gives: at most one leader in a term
(`Inv.eq_of_quorum`), every leader of a later term holds what was committed
(`Inv.completeness`), and any two committed prefixes are comparable
(`CommittedBy.comparable`). -/

namespace Consensus

open TermLog

variable {ν κ : Type*} [DecidableEq ν] {Q : QuorumSystem ν} {P : κ → Prop} {s s' : State ν κ}

variable {T T' m t : ℕ} {c : ν} {p q : List (Entry κ)}

/-- **Election safety**: the leader of a term is the only candidate a quorum voted for in it. -/
theorem Inv.eq_of_quorum (h : Inv Q P s) {c' : ν} {V : Finset ν} (hV : Q.isQuorum V)
    (hb : ∀ u ∈ V, ∃ l, s.ballot u t c l) (hl : s.lead t = some c') : c' = c := by
  obtain ⟨V', hV', hb'⟩ := h.elected hl
  obtain ⟨u, hu⟩ := Q.inter hV hV'
  obtain ⟨l, h1⟩ := hb u (Finset.mem_inter.mp hu).1
  obtain ⟨l', h2, _⟩ := hb' u (Finset.mem_inter.mp hu).2
  exact h.once h2 h1

theorem Inv.led_of_ne_nil (h : Inv Q P s) (hne : s.ledger t ≠ []) : s.lead t ≠ none :=
  fun hn => hne (h.unled hn)

/-! ### Leader completeness -/

/-- A log at least as up to date as one that holds a committed prefix holds it too, provided the
leaders of the terms in between do. -/
theorem Inv.upToDate_prefix (h : Inv Q P s) {b : ℕ} {cl vl : List (Entry κ)} (h0 : 0 < m)
    (hm : m ≤ (s.ledger t).length) (htm : termAt (s.ledger t) m = t) (hcc : Coherent s.ledger cl)
    (hcb : ∀ e ∈ cl, e.term < b) (hcv : Coherent s.ledger vl) (hup : UpToDate cl vl)
    (hvl : (s.ledger t).take m <+: vl)
    (ih : ∀ t', t < t' → t' < b → s.lead t' ≠ none → (s.ledger t).take m <+: s.ledger t') :
    (s.ledger t).take m <+: cl := by
  have hlen : ((s.ledger t).take m).length = m := by rw [List.length_take]; omega
  have hmv : m ≤ vl.length := hlen ▸ hvl.length_le
  have htv : termAt vl m = t := by
    rw [← termAt_of_isPrefix hvl hlen.ge, termAt_of_isPrefix (List.take_prefix _ _) hlen.ge, htm]
  have hlv : t ≤ lastTerm vl := htv ▸ hcv.termAt_le h.ledger_term hmv le_rfl
  have hne : cl ≠ [] := by
    rintro rfl
    have h0' : lastTerm ([] : List (Entry κ)) = 0 := by simp [lastTerm]
    rcases hup with hlt | ⟨_, hle⟩
    · omega
    · have : vl.length ≤ 0 := hle
      omega
  have hcl := hcc.prefix_lastTerm hne
  have hlast : ∃ e ∈ cl, e.term = lastTerm cl := by
    obtain ⟨e, he, hte⟩ := exists_getElem?_of_le (l := cl) (i := cl.length)
      (by have := List.length_pos_iff.mpr hne; omega) le_rfl
    exact ⟨e, List.mem_of_getElem? he, hte.symm⟩
  obtain ⟨e, hecl, het⟩ := hlast
  have hge : lastTerm vl ≤ lastTerm cl := by rcases hup with h1 | ⟨h1, _⟩ <;> omega
  rcases Nat.lt_or_ge t (lastTerm cl) with hlt | hle
  · -- the candidate's last entry belongs to a later leader, which holds the prefix
    have hcle : s.ledger (lastTerm cl) ≠ [] := fun hnil => hne (by
      rw [hnil] at hcl; exact List.prefix_nil.mp hcl)
    have hp := ih _ hlt (by rw [← het]; exact hcb e hecl) (h.led_of_ne_nil hcle)
    rcases List.prefix_or_prefix_of_prefix hp hcl with h1 | h1
    · exact h1
    · have := h.ledger_term t e ((List.take_prefix _ _).subset (h1.subset hecl))
      omega
  · -- both logs end in the committing term, and the candidate's is no shorter
    have heq : lastTerm cl = t := by omega
    have hlen' : vl.length ≤ cl.length := by
      rcases hup with h1 | ⟨_, h1⟩
      · omega
      · exact h1
    rw [heq] at hcl
    exact List.prefix_of_prefix_length_le (List.take_prefix _ _) hcl (by omega)

/-- **Leader completeness**: what is committed in a term is in the ledger of every later one. -/
theorem Inv.completeness (h : Inv Q P s) (hc : s.committed t m) :
    ∀ t', t < t' → s.lead t' ≠ none → (s.ledger t).take m <+: s.ledger t' := by
  obtain ⟨hm, h0, htm, A, hA, ha⟩ := h.committed hc
  intro t'
  induction t' using Nat.strong_induction_on with
  | _ t' ih =>
    intro hlt hl
    obtain ⟨c, hl⟩ := Option.ne_none_iff_exists'.mp hl
    obtain ⟨V, hV, hb⟩ := h.elected hl
    -- the quorums that confirmed and that elected share a node
    obtain ⟨u, hu⟩ := Q.inter hA hV
    obtain ⟨m', hm', hack⟩ := ha u (Finset.mem_inter.mp hu).1
    obtain ⟨vl, hball, hf⟩ := hb u (Finset.mem_inter.mp hu).2
    obtain ⟨_, hcv, cl, hs, hup⟩ := h.ballot hball
    obtain ⟨l, r, hs', hlr, _⟩ := h.led hl
    obtain rfl : cl = l := Option.some.inj (hs.symm.trans hs')
    have hvl : (s.ledger t).take m <+: vl := by
      rcases hf hack hlt m hm' with hp | ⟨t'', h1, h2, h3, h4⟩
      · exact hp
      · exact absurd (ih t'' h2 h1 h3) h4
    have hcl := h.upToDate_prefix h0 hm htm (h.stood hs).2.1 (h.stood hs).2.2 hcv hup hvl
      (fun t'' h1 h2 h3 => ih t'' h2 h1 h3)
    rw [hlr]
    exact hcl.trans (List.prefix_append _ _)

/-! ### Committed prefixes -/

/-- The list `p` is part of what was committed in some term up to `T`. -/
def CommittedBy (s : State ν κ) (T : ℕ) (p : List (Entry κ)) : Prop :=
  p = [] ∨ ∃ t m, t ≤ T ∧ s.committed t m ∧ p <+: (s.ledger t).take m

omit [DecidableEq ν] in
theorem CommittedBy.nil (s : State ν κ) (T : ℕ) : CommittedBy s T [] := .inl rfl

omit [DecidableEq ν] in
theorem CommittedBy.mono (h : CommittedBy s T p) (hT : T ≤ T') : CommittedBy s T' p := by
  rcases h with h | ⟨t, m, h1, h2, h3⟩
  · exact .inl h
  · exact .inr ⟨t, m, h1.trans hT, h2, h3⟩

omit [DecidableEq ν] in
theorem CommittedBy.of_isPrefix (h : CommittedBy s T p) (hq : q <+: p) : CommittedBy s T q := by
  rcases h with rfl | ⟨t, m, h1, h2, h3⟩
  · exact .inl (List.prefix_nil.mp hq)
  · exact .inr ⟨t, m, h1, h2, hq.trans h3⟩

section
variable (hi : Inv Q P s)
include hi

theorem CommittedBy.extends (he : Extends s s') (h : CommittedBy s T p) : CommittedBy s' T p := by
  rcases h with h | ⟨t, m, h1, h2, h3⟩
  · exact .inl h
  · refine .inr ⟨t, m, h1, he.committed h2, ?_⟩
    rwa [he.take_ledger (hi.committed h2).1]

/-- A committed prefix is in the ledger of every led term from the committing one on. -/
theorem CommittedBy.prefix_ledger (h : CommittedBy s T p) (hT : T ≤ t)
    (hl : s.lead t ≠ none) : p <+: s.ledger t := by
  rcases h with rfl | ⟨t', m, h1, h2, h3⟩
  · exact List.nil_prefix
  · rcases Nat.lt_or_ge t' t with hlt | hge
    · exact h3.trans (hi.completeness h2 t hlt hl)
    · obtain rfl : t' = t := by omega
      exact h3.trans (List.take_prefix _ _)

/-- A committed prefix is already in the log with which any later leader stood. -/
theorem CommittedBy.prefix_stood {l : List (Entry κ)} (h : CommittedBy s T p) (hT : T < t)
    (hl : s.lead t = some c) (hs : s.stood c t = some l) : p <+: l := by
  have hp := h.prefix_ledger hi hT.le (by rw [hl]; exact Option.some_ne_none c)
  obtain ⟨l', r, hs', hlr, hr⟩ := hi.led hl
  obtain rfl : l = l' := Option.some.inj (hs.symm.trans hs')
  rw [hlr] at hp
  refine prefix_of_prefix_append hp fun e hep her => ?_
  have h2 := hr e her
  rcases h with rfl | ⟨t', m, h1, _, h3⟩
  · simp at hep
  · have := hi.ledger_term t' e ((List.take_prefix _ _).subset (h3.subset hep))
    omega

/-- **State machine safety**: of two committed prefixes one extends the other. -/
theorem CommittedBy.comparable (hp : CommittedBy s T p) (hq : CommittedBy s T' q) :
    p <+: q ∨ q <+: p := by
  rcases hp with rfl | ⟨t, m, _, h2, h3⟩
  · exact .inl List.nil_prefix
  rcases hq with rfl | ⟨t', m', _, h2', h3'⟩
  · exact .inr List.nil_prefix
  have hled : ∀ {t m}, s.committed t m → s.lead t ≠ none := by
    intro t m hc
    obtain ⟨hm, h0, _⟩ := hi.committed hc
    exact hi.led_of_ne_nil (List.ne_nil_of_length_pos (by omega))
  rcases Nat.lt_or_ge t t' with hlt | hge
  · exact List.prefix_or_prefix_of_prefix (h3.trans (hi.completeness h2 t' hlt (hled h2')))
      (h3'.trans (List.take_prefix _ _))
  · rcases Nat.lt_or_ge t' t with hlt' | hge'
    · exact List.prefix_or_prefix_of_prefix (h3.trans (List.take_prefix _ _))
        (h3'.trans (hi.completeness h2' t hlt' (hled h2)))
    · obtain rfl : t = t' := by omega
      exact List.prefix_or_prefix_of_prefix (h3.trans (List.take_prefix _ _))
        (h3'.trans (List.take_prefix _ _))

/-! ### Reading -/

/-- While a quorum is in terms up to `T`, nothing has been committed in a later one. -/
theorem CommittedBy.of_quorum {A : Finset ν} (hA : Q.isQuorum A)
    (ha : ∀ u ∈ A, (s.node u).term ≤ T) (h : CommittedBy s T' p) : CommittedBy s T p := by
  rcases h with rfl | ⟨t, m, _, hc, hp⟩
  · exact CommittedBy.nil s T
  obtain ⟨_, _, _, B, hB, hb⟩ := hi.committed hc
  obtain ⟨u, hu⟩ := Q.inter hA hB
  obtain ⟨m', _, hack⟩ := hb u (Finset.mem_inter.mp hu).2
  have h1 := (hi.acked hack).1
  have h2 := ha u (Finset.mem_inter.mp hu).1
  exact .inr ⟨t, m, by omega, hc, hp⟩

/-- A leader that has committed an entry of its own term knows everything committed up to then. -/
theorem CommittedBy.length_le {k : ℕ} (h : CommittedBy s T p) (hl : s.lead T = some c)
    (h0 : 0 < k) (hk : k ≤ (s.ledger T).length) (ht : termAt (s.ledger T) k = T)
    (hc : ∀ m, s.committed T m → m ≤ k) : p.length ≤ k := by
  rcases h with rfl | ⟨t, m, htT, hcm, hp⟩
  · exact Nat.zero_le k
  rcases Nat.lt_or_ge t T with hlt | hge
  · obtain ⟨l, r, hs, hlr, hr⟩ := hi.led hl
    have hpl : p <+: l := CommittedBy.prefix_stood hi
      (.inr ⟨t, m, le_rfl, hcm, hp⟩) hlt hl hs
    -- the entries of the log the leader stood with are older than its term
    by_contra hcon
    have hkl : k ≤ l.length := by have := hpl.length_le; omega
    obtain ⟨e, he, hte⟩ := exists_getElem?_of_le (l := l) (i := k) h0.ne' hkl
    have hlt' := (hi.stood hs).2.2 e (List.mem_of_getElem? he)
    rw [hlr, ← termAt_of_isPrefix (List.prefix_append l r) hkl, hte] at ht
    omega
  · obtain rfl : t = T := by omega
    have h1 := hp.length_le
    have h2 := hc m hcm
    rw [List.length_take] at h1
    omega

end

end Consensus
