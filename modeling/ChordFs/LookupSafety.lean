import ChordFs.Lookup

/-! # Lookups among liars

What the originator's checks are worth if the nodes answer anything at all.  An answer that passes
them either moves the lookup strictly closer to the key or names an owner whose arc has it
(`judge_next`, `judge_owner`); so along the path the distance falls, and nobody is asked twice.  A
lookup that fails ends at the node that made it fail. -/

namespace ChordFs

open Circle Dialogue

/-- A transport that keeps what was asked and answered. -/
def recorded {ε : Type} (env : Call → ε → Exchanged × ε) (q : Call)
    (x : ε × List (Call × Exchanged)) : Exchanged × ε × List (Call × Exchanged) :=
  ((env q x.1).1, (env q x.1).2, x.2 ++ [(q, (env q x.1).1)])

section checks
variable {current p : Peer} {k : Id} {a : Exchanged}

/-- **A next node is closer to the key**; a node on the key is a whole turn away from it. -/
theorem judge_next (h : judge current k a = .next p) : steps p.id k < steps current.id k := by
  unfold judge at h
  split at h
  · cases h
  split at h
  · cases h
  split at h
  · cases h
  rename_i step _
  split at h
  · split at h <;> cases h
  split at h
  · cases h
  · rename_i hin
    cases h
    have hlt : steps current.id step.peer.id < steps current.id k :=
      inRangeOo_iff.mp (by simpa using hin)
    have hpos := steps_pos current.id step.peer.id
    rw [steps_of_lt hlt]
    omega

/-- **An owner's arc has the key.** -/
theorem judge_owner (h : judge current k a = .owner p) :
    steps current.id k ≤ steps current.id p.id := by
  unfold judge at h
  split at h
  · cases h
  split at h
  · cases h
  split at h
  · cases h
  split at h
  · split at h
    · cases h
    · rename_i hin
      cases h
      exact inRangeOc_iff.mp (by simpa using hin)
  · split at h <;> cases h

end checks

/-- The answer of the last node on the path. -/
def LastSaid (k : Id) (path : List Peer) (said : List (Call × Exchanged)) (last : Peer)
    (a : Exchanged) : Prop :=
  path.getLast? = some last ∧ said.getLast? = some (⟨last, findRequest k⟩, a)

/-- What holds of every lookup from `start` for `k`: its result, and what it asked and heard. -/
structure SafeLookup (start : Peer) (k : Id) (r : LookupResult) (said : List (Call × Exchanged)) :
    Prop where
  asked : said.map Prod.fst = r.path.map fun p => ⟨p, findRequest k⟩
  bounded : said.length ≤ MAX_REQUESTS
  starts : r.path.head? = some start
  closer : r.path.Pairwise fun p q => steps q.id k < steps p.id k
  once : (r.path.map Peer.id).Nodup
  /-- The last node named it, and the key lies between the two. -/
  owner : ∀ o, r.outcome = .ok o → ∃ last a, LastSaid k r.path said last a ∧
    judge last k a = .owner o ∧ steps last.id k ≤ steps last.id o.id
  /-- Its answer failed the checks; or it was one more step, and no request is left. -/
  blamed : ∀ e message, r.outcome = .error (e, message) → ∃ last a, LastSaid k r.path said last a ∧
    (judge last k a = .fail e message ∨
      e = .tooManyRequests ∧ said.length = MAX_REQUESTS ∧ ∃ p, judge last k a = .next p)

/-- A lookup on its way to ask `current`. -/
structure Underway (start : Peer) (k : Id) (left : ℕ) (path : List Peer) (current : Peer)
    (said : List (Call × Exchanged)) : Prop where
  asked : said.map Prod.fst = path.map fun p => ⟨p, findRequest k⟩
  count : said.length + left = MAX_REQUESTS
  starts : (path ++ [current]).head? = some start
  closer : (path ++ [current]).Pairwise fun p q => steps q.id k < steps p.id k
  sent : path ≠ [] → ∃ last a, LastSaid k path said last a ∧ judge last k a = .next current

section lookups
variable {start current p : Peer} {k : Id} {path : List Peer} {said : List (Call × Exchanged)}
  {left : ℕ} {a : Exchanged}

theorem nodup_of_closer (h : path.Pairwise fun p q => steps q.id k < steps p.id k) :
    (path.map Peer.id).Nodup := by
  refine List.pairwise_map.mpr (h.imp fun {p q} hlt he => ?_)
  rw [he] at hlt
  exact absurd hlt (Nat.lt_irrefl _)

theorem lastSaid_concat :
    LastSaid k (path ++ [current]) (said ++ [(⟨current, findRequest k⟩, a)]) current a :=
  ⟨List.getLast?_concat .., List.getLast?_concat ..⟩

theorem Underway.ends (h : Underway start k (left + 1) path current said) {r : LookupResult}
    (hpath : r.path = path ++ [current])
    (howner : ∀ o, r.outcome = .ok o → judge current k a = .owner o)
    (hfail : ∀ e message, r.outcome = .error (e, message) → judge current k a = .fail e message) :
    SafeLookup start k r (said ++ [(⟨current, findRequest k⟩, a)]) where
  asked := by
    rw [List.map_append, h.asked, hpath, List.map_append]
    rfl
  bounded := by
    have := h.count
    rw [List.length_append, List.length_singleton]
    omega
  starts := by rw [hpath, h.starts]
  closer := by rw [hpath]; exact h.closer
  once := by rw [hpath]; exact nodup_of_closer h.closer
  owner := by
    intro o ho
    exact ⟨current, a, hpath ▸ lastSaid_concat, howner o ho, judge_owner (howner o ho)⟩
  blamed := by
    intro e message he
    exact ⟨current, a, hpath ▸ lastSaid_concat, .inl (hfail e message he)⟩

theorem Underway.next (h : Underway start k (left + 1) path current said)
    (hnext : judge current k a = .next p) :
    Underway start k left (path ++ [current]) p (said ++ [(⟨current, findRequest k⟩, a)]) where
  asked := by
    rw [List.map_append, h.asked, List.map_append]
    rfl
  count := by
    have := h.count
    rw [List.length_append, List.length_singleton]
    omega
  starts := by
    rw [List.head?_append, h.starts]
    rfl
  closer := by
    refine List.pairwise_append.mpr ⟨h.closer, List.pairwise_singleton _ _, fun x hx y hy => ?_⟩
    rw [List.mem_singleton.mp hy]
    have hlt := judge_next hnext
    rcases List.mem_append.mp hx with hx | hx
    · have := (List.pairwise_append.mp h.closer).2.2 x hx current (List.mem_singleton_self current)
      omega
    · rw [List.mem_singleton.mp hx]
      exact hlt
  sent := by
    intro _
    exact ⟨current, a, lastSaid_concat, hnext⟩

theorem Underway.safe {ε : Type} (env : Call → ε → Exchanged × ε)
    (h : Underway start k left path current said) (x : ε) :
    let run := (lookupFrom k left path current).run (recorded env) () (x, said)
    SafeLookup start k run.1 run.2.2.2 := by
  induction left generalizing path current said x with
  | zero =>
    intro run
    have hne : path ≠ [] := by
      rintro rfl
      have hcount := h.count
      rw [List.map_eq_nil_iff.mp h.asked] at hcount
      cases hcount
    obtain ⟨last, a, hlast, hnext⟩ := h.sent hne
    have hcloser := h.closer.sublist (List.sublist_append_left path [current])
    refine ⟨h.asked, by have := h.count; exact this.le, ?_, hcloser, nodup_of_closer hcloser, ?_, ?_⟩
    · have hstarts := h.starts
      rwa [List.head?_append_of_ne_nil _ hne] at hstarts
    · intro o ho
      cases ho
    · intro e message he
      cases he
      exact ⟨last, a, hlast, .inr ⟨rfl, h.count, current, hnext⟩⟩
  | succ left ih =>
    rw [lookupFrom, Prog.run]
    simp only [recorded]
    cases hj : judge current k (env ⟨current, findRequest k⟩ x).1 with
    | owner p =>
      refine h.ends rfl (fun o ho => ?_) fun e message he => ?_
      · cases ho
        exact hj
      · cases he
    | next p => exact ih (h.next hj) _
    | fail e message =>
      refine h.ends rfl (fun o ho => ?_) fun e message he => ?_
      · cases ho
      · cases he
        exact hj

end lookups

/-- **Lookups are safe against lying rings.**  Whatever the transport answers, and however it
changes: at most `MAX_REQUESTS` requests are sent; the distance to the key falls along the path, so
that no identifier is asked twice; an owner is accepted only if the last node asked named it and the
key lies between the two; and a lookup that fails ends at the node whose answer, or silence, made it
fail. -/
theorem lookup_safe {ε : Type} (env : Call → ε → Exchanged × ε) (x : ε) (start : Peer) (k : Id) :
    let run := (lookup start k).run (recorded env) () (x, [])
    SafeLookup start k run.1 run.2.2.2 := by
  refine Underway.safe env ⟨rfl, rfl, rfl, List.pairwise_singleton _ _, ?_⟩ x
  intro hne
  exact absurd rfl hne

end ChordFs
