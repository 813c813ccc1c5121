import ChordFs.MemberInvariant

/-! # Strikes

When a peer is evicted on strikes, the last two exchanges the member had with it should both have
failed.  The record of all exchanges is the past of the member; the failure detector sees only those
of `call_peer` and the failures of `fix_next_finger`, each in a critical section some time after the
exchange has ended.  `strikes_consecutive` says when the record and the detector agree: when no
valid answer that is not reported comes from a peer with a strike, and no two exchanges with one
peer of which one failed and one did not wait for their reports at the same time.
`strikes_not_consecutive` is a run in which a valid answer to a lookup between two failed calls is
forgotten. -/

namespace ChordFs

open Dialogue

/-- Whether an answer is valid for the request. -/
def validAnswer (q : Call) (a : Exchanged) : Bool :=
  match blankWords q.line with
  | [verb, word] =>
    if verb = "FIND_SUCCESSOR".toList then
      match idFromHex word with
      | none => false
      | some k =>
        match judge q.node k a with
        | .fail _ _ => false
        | _ => true
    else answers q.line a
  | _ => answers q.line a

/-- The exchanges with a peer, newest first: whether each ended with a valid answer. -/
def exchangesWith (x : Peer) (past : List MemberEvent) : List Bool :=
  past.filterMap fun
    | .turn _ (.said q a) => if q.node = x then some (validAnswer q a) else none
    | _ => none

/-- The section evicts a peer on strikes: by the counter of such evictions, and it was in the tables
and is not any more. -/
def EvictedOnStrikes (s s' : NodeState) (x : Peer) : Prop :=
  s'.counters.evictedStrikes = s.counters.evictedStrikes + 1 ∧ s.holds x = true ∧ s'.holds x = false

instance (s s' : NodeState) (x : Peer) : Decidable (EvictedOnStrikes s s' x) :=
  inferInstanceAs (Decidable (_ ∧ _ ∧ _))

/-! ### Valid answers -/

variable {me x : Peer} {α : Type} {i r : ℕ} {s : NodeState}

theorem validAnswer_find (n : Peer) (k : Id) (a : Exchanged) :
    validAnswer ⟨n, findRequest k⟩ a = true ↔ ∀ e m, judge n k a ≠ .fail e m := by
  rw [validAnswer, blankWords_findRequest]
  dsimp only
  rw [if_pos rfl, idFromHex_idToHex]
  dsimp only
  cases judge n k a <;> simp

theorem validAnswer_reported {line : Str} (h : Reported me line) (n : Peer) (a : Exchanged) :
    validAnswer ⟨n, line⟩ a = answers line a := by
  have hwords : blankWords line = ["PING".toList] ∨ blankWords line = ["NEIGHBOURS".toList] ∨
      blankWords line = ["NOTIFY".toList, idToHex me.id, me.ip, num me.port] := by
    rcases h with rfl | rfl | rfl
    · exact .inl (by decide)
    · exact .inr (.inl (by decide))
    · exact .inr (.inr (blankWords_notifyLine me))
  rw [validAnswer]
  rcases hwords with hw | hw | hw <;> rw [hw]

/-! ### What a section does to the strikes -/

theorem memberKey_injective {p q : Peer} (h : memberKey p = memberKey q) : p = q := by
  have hip : ∀ p : Peer, ':' ∉ p.ip := by
    intro p hc
    rcases mem_ip hc with h | h <;> cases h
  have hport : ∀ p : Peer, '/' ∉ num p.port := fun p => not_mem_num (by decide) p.port
  simp only [memberKey, address, List.append_assoc, List.cons_append] at h
  have h := congrArg (Text.cutFirst ':') h
  rw [Text.cutFirst_append (hip p), Text.cutFirst_append (hip q)] at h
  obtain ⟨hip, h⟩ := Prod.mk.inj (Option.some.inj h)
  have h := congrArg (Text.cutFirst '/') h
  rw [Text.cutFirst_append (hport p), Text.cutFirst_append (hport q)] at h
  obtain ⟨hport, h⟩ := Prod.mk.inj (Option.some.inj h)
  have hid := congrArg idFromHex h
  rw [idFromHex_idToHex, idFromHex_idToHex] at hid
  have hp := parsePeerWords_wire p
  rw [hip, hport, h, parsePeerWords_wire q] at hp
  exact (Except.ok.inj hp).symm

/-- The section records no strike and evicts nobody on strikes. -/
structure Harmless (s s' : NodeState) : Prop where
  strikes : ∀ x, strikesOf s' x ≤ strikesOf s x
  evicted : s'.counters.evictedStrikes = s.counters.evictedStrikes

section harmless
variable {s s' s'' : NodeState}

theorem Harmless.of_eq (hs : s'.strikes = s.strikes) (hc : s'.counters = s.counters) : Harmless s s' :=
  ⟨fun x => by simp [strikesOf, hs], by rw [hc]⟩

theorem Harmless.trans (h : Harmless s s') (h' : Harmless s' s'') : Harmless s s'' :=
  ⟨fun x => (h'.strikes x).trans (h.strikes x), h'.evicted.trans h.evicted⟩

variable (s)

theorem harmless_log (lines : List Str) : Harmless s (s.log lines) := .of_eq rfl rfl

theorem harmless_filterKeys (keep : Str → Bool) :
    Harmless s { s with strikes := s.strikes.filterKeys keep } := by
  refine ⟨fun x => ?_, rfl⟩
  simp only [strikesOf, SortedMap.find?_filterKeys]
  split <;> simp

theorem harmless_erase (key : Str) : Harmless s { s with strikes := s.strikes.erase key } := by
  refine ⟨fun x => ?_, rfl⟩
  simp only [strikesOf, SortedMap.find?_erase]
  split <;> simp

theorem harmless_remember (p : Peer) : Harmless s (s.remember p) := by
  rw [remember_eq]
  exact .of_eq rfl rfl

theorem harmless_rememberAll (ps : List Peer) : Harmless s (s.rememberAll ps) := by
  induction ps generalizing s with
  | nil => exact .of_eq rfl rfl
  | cons p ps ih => exact (harmless_remember s p).trans (ih _)

theorem harmless_takePred (c : Peer) : Harmless s (s.takePred c) := by
  have hset : Harmless s { s with pred := some c } := .of_eq rfl rfl
  exact hset.trans ((harmless_remember _ c).trans (harmless_log _ _))

theorem harmless_evict (dead : Peer) (why : Str) {w b : Bool} (hwb : w = true ∨ b = true) :
    Harmless s (s.evict dead why w b) := by
  unfold NodeState.evict
  split
  · exact .of_eq rfl rfl
  split
  · exact .of_eq rfl rfl
  refine ⟨(harmless_filterKeys s _).strikes, ?_⟩
  dsimp only
  split
  · rcases hwb with rfl | rfl
    · cases b <;> rfl
    · rfl
  · rfl

theorem harmless_notified (c : Peer) : Harmless s (s.notified c).2 := by
  have htake := (harmless_erase s (memberKey c)).trans (harmless_takePred _ c)
  unfold NodeState.notified
  split
  · exact htake
  split
  · exact htake
  split
  · exact .of_eq rfl rfl
  · exact .of_eq rfl rfl

theorem harmless_merge (nb : Neighbours) : Harmless s (s.applyNeighbours s.succ nb).2 := by
  obtain ⟨lines, h, -⟩ := applyNeighbours_eq s nb
  rw [h]
  refine Harmless.trans ?_ ((harmless_rememberAll _ _).trans (harmless_log _ _))
  exact .of_eq rfl rfl

theorem harmless_adopt (c : Peer) : Harmless s (s.adopt s.succ c).2 := by
  rw [NodeState.adopt, if_neg (not_not_intro rfl)]
  refine Harmless.trans ?_ ((harmless_remember _ c).trans (harmless_log _ _))
  exact ⟨fun _ => le_rfl, rfl⟩

theorem harmless_joined (known owner : Peer) (list : Option (List Peer)) :
    Harmless s (s.joined known owner list) := by
  refine Harmless.trans ?_ ((harmless_remember _ known).trans (harmless_rememberAll _ _))
  exact .of_eq rfl rfl

end harmless

/-- The section strikes the node that the last event of its job is about, for an answer that was not
valid. -/
structure Blames (H : Turns) (s s' : NodeState) (node : Peer) : Prop where
  last : ∃ q a H', H = .said q a :: H' ∧ q.node = node ∧ validAnswer q a = false
  struck : ∃ why detail next, s' = { s.strike node why detail with nextFinger := next }

section section_
variable {me : Peer} {T : List Peer} {H : Turns} {s s' : NodeState}

theorem strikes_fixFinger {k : Id} {r : LookupResult} (i : ℕ) (hr : LookupEnds H k r) :
    Harmless s (s.fixFinger i r) ∨ ∃ node, Blames H s (s.fixFinger i r) node := by
  obtain ⟨outcome, path⟩ := r
  cases outcome with
  | ok owner =>
    left
    rcases fixFinger_ok_cases s i owner path with ⟨lines, he⟩ | ⟨j, fingers, -, -, -, -, -, he⟩ <;> rw [he]
    · exact .of_eq rfl rfl
    · refine Harmless.trans ?_ (harmless_remember _ owner)
      exact .of_eq rfl rfl
  | error e =>
    obtain ⟨e, m⟩ := e
    obtain ⟨s₁, he, rfl | ⟨node, why, hlast, hcap, ⟨-, rfl⟩ | ⟨-, rfl⟩⟩⟩ := fixFinger_error s i e m path
    · rw [he]
      exact .inl (.of_eq rfl rfl)
    · rw [he]
      have hev := harmless_evict s node why (w := true) (b := false) (.inl rfl)
      exact .inl ⟨hev.strikes, hev.evicted⟩
    · right
      rcases hr with hr | ⟨n, a, H', hH, hn, hj⟩
      · exact absurd hr hcap
      · refine ⟨n, ⟨_, a, H', hH, rfl, ?_⟩, why, [], afterFinger i, ?_⟩
        · rw [← Bool.not_eq_true, validAnswer_find]
          exact fun hno => hno e m hj
        · rw [he, show node = n from Option.some.inj (hlast.symm.trans hn)]

/-- **Only a failed exchange is held against a node**, in the section right after it. -/
theorem Section.strikes (h : Section me T H s s') : Harmless s s' ∨ ∃ node, Blames H s s' node := by
  cases h with
  | minor h =>
    cases h with
    | idle hi => exact .inl ⟨fun x => by simp [strikesOf, hi.strikes], hi.evictedStrikes⟩
    | clear _ _ _ => exact .inl (harmless_erase s _)
    | @report node line a H' hH hline ha =>
      rcases report_cases s node line a with ⟨-, why, he⟩ | ⟨-, why, he⟩ | ⟨-, -, why, detail, he⟩
      · rw [he]
        exact .inl (harmless_evict _ _ _ (.inr rfl))
      · rw [he]
        exact .inl (harmless_evict _ _ _ (.inl rfl))
      · refine .inr ⟨node, ⟨_, a, H', hH, rfl, ?_⟩, why, detail, _, he⟩
        rw [validAnswer_reported hline, ha]
    | notify _ _ _ => exact .inl (harmless_notified s _)
    | fill _ _ _ _ => exact .inl (harmless_takePred s _)
    | suspect _ _ => exact .inl (harmless_evict _ _ _ (.inl rfl))
  | merge _ _ => exact .inl (harmless_merge s _)
  | adopt _ _ _ _ _ _ => exact .inl (harmless_adopt s _)
  | finger i _ hr => exact strikes_fixFinger i hr
  | joined _ _ _ _ _ => exact .inl (harmless_joined s _ _ _)

theorem strikesOf_struck (s : NodeState) (p x : Peer) (lines : List Str) :
    strikesOf (struck s p lines) x = if x = p then strikesOf s p + 1 else strikesOf s x := by
  simp only [strikesOf, struck, SortedMap.find?_set]
  by_cases hx : x = p
  · subst hx
    simp
  · rw [if_neg hx, if_neg fun h => hx (memberKey_injective h)]

theorem strikesOf_strike_le (s : NodeState) (p x : Peer) (why detail : Str) :
    strikesOf (s.strike p why detail) x ≤ if x = p then strikesOf s x + 1 else strikesOf s x := by
  rcases strike_cases s p why detail with ⟨he, -⟩ | ⟨-, -, lines, hcase⟩
  · rw [he]
    split <;> omega
  have hle : strikesOf (s.strike p why detail) x ≤ strikesOf (struck s p lines) x := by
    rcases hcase with ⟨-, he⟩ | ⟨-, why', he⟩
    · rw [he]
    · rw [he]
      unfold NodeState.evict
      split
      · exact le_rfl
      split
      · exact le_rfl
      · exact (harmless_filterKeys (struck s p lines) _).strikes x
  rw [strikesOf_struck] at hle
  split at hle
  · rename_i hx
    subst hx
    simpa using hle
  · rename_i hx
    simpa [hx] using hle

theorem holds_evict_of_stays (h : TablesSound s) {dead x : Peer} {w : Bool} (why : Str) (b : Bool)
    (hx : s.holds x = true) (hg : NodeState.gone dead w x = false) :
    (s.evict dead why w b).holds x = true := by
  rcases evict_cases s dead why w b with he | ⟨hd, hb, first, rest, hkept⟩
  · rwa [he]
  have hsuccs : x ∈ s.succs → x ∈ first :: rest := by
    intro hmem
    have hfilter : x ∈ s.succs.filter fun p => ¬ NodeState.gone dead w p := by simp [hmem, hg]
    rw [← hkept, NodeState.keptSuccs, if_neg (List.ne_nil_of_mem hfilter)]
    exact hfilter
  rw [evict_eq_of_other hd hb why hkept, holds_iff]
  dsimp only
  rcases holds_iff.mp hx with hp | hmem | hmem
  · exact .inl (by simp [hp, hg])
  · exact .inr (.inl (hsuccs hmem))
  · obtain ⟨i, hi⟩ := List.getElem?_of_mem hmem
    cases i with
    | zero =>
      -- finger 0 is the successor
      rw [h.finger_zero] at hi
      exact .inr (.inl (hsuccs (Option.some.inj hi ▸ h.succ_mem)))
    | succ i =>
      right
      right
      refine List.mem_of_getElem? (i := i + 1) ?_
      rw [List.getElem?_set_ne (by omega), evictedFingers, List.getElem?_map, hi]
      simp [hg]

/-- An eviction on strikes is the second strike of a node whose last exchange failed. -/
theorem Section.evictedOnStrikes (h : Section me T H s s') (ht : TablesSound s) {x : Peer}
    (hx : EvictedOnStrikes s s' x) : Blames H s s' x ∧ strikesOf s x ≠ 0 := by
  obtain ⟨hcount, hheld, hgone⟩ := hx
  rcases h.strikes with hh | ⟨node, hb⟩
  · have := hh.evicted
    omega
  obtain ⟨why, detail, next, rfl⟩ := hb.struck
  have hgone : (s.strike node why detail).holds x = false := hgone
  have hcount : (s.strike node why detail).counters.evictedStrikes =
    s.counters.evictedStrikes + 1 := hcount
  rcases strike_cases s node why detail with ⟨he, -⟩ | ⟨-, -, lines, ⟨-, he⟩ | ⟨hn, why', he⟩⟩
  · rw [he, hheld] at hgone
    cases hgone
  · rw [he, show (struck s node lines).holds x = s.holds x from rfl, hheld] at hgone
    cases hgone
  · have hxn : x = node := by
      by_contra hne
      have htables : TablesSound (struck s node lines) := ht.of_eq rfl rfl rfl rfl rfl rfl
      have hg : NodeState.gone node false x = false := by simp [NodeState.gone, hne]
      have hstay := holds_evict_of_stays htables why' false hheld hg
      rw [← he, hgone] at hstay
      cases hstay
    subst hxn
    exact ⟨hb, hn⟩

theorem strikesOf_clearStrikes (s : NodeState) (p : Peer) : strikesOf (s.clearStrikes p) p = 0 := by
  simp [strikesOf, NodeState.clearStrikes, SortedMap.find?_erase]

end section_

/-! ### Reports on the way -/

/-- The job has had an answer that was not valid and has not reported it. -/
def owesFailure (x : Peer) (j : MemberJob) : Bool :=
  match j.turns, j.code with
  | .said q a :: _, .lock _ _ => q.node = x ∧ validAnswer q a = false
  | _, _ => false

/-- The job is about to clear the strikes of the peer that has just answered it. -/
def OwesClear (x : Peer) (j : MemberJob) : Prop :=
  ∃ (q : Call) (a : Exchanged) (H : Turns) (next : NodeState → Task (Option Handled)),
    j.turns = .said q a :: H ∧ q.node = x ∧ validAnswer q a = true ∧
      j.code = .lock (fun s => s.clearStrikes x) next

/-- The exchanges with a peer and their reports keep in step.  When a peer gives a valid answer, no
failed exchange with it is waiting to be reported, and if it has a strike, the answer is to
`call_peer` and clears it in the next section: not an answer to a lookup, to the probe of SUSPECT or
to the newcomer's request for a list.  When an exchange fails, no valid answer of that peer is
waiting to be reported. -/
def ReportsInStep (P : Member) (pick : MemberPick) : Prop :=
  ∀ (i : ℕ) (a : Exchanged) (tag : Chore) (H : Turns) (q : Call)
    (next : Exchanged → Task (Option Handled)), pick = .answer i a →
    P.jobs[i]? = some ⟨tag, H, .call q next⟩ →
    if validAnswer q a = true then
      (∀ j ∈ P.jobs, owesFailure q.node j = false) ∧ (strikesOf P.state q.node ≠ 0 →
        ∃ next', next a = .lock (fun s => s.clearStrikes q.node) next')
    else ∀ j ∈ P.jobs, ¬ OwesClear q.node j

/-- How many of the last exchanges with a peer failed in a row. -/
def failsInRow (x : Peer) (past : List MemberEvent) : ℕ :=
  ((exchangesWith x past).takeWhile fun ok => !ok).length

/-- Strikes and failures that still have to be reported are failures in a row, unless a valid answer
is about to clear them. -/
structure Ledger (x : Peer) (P : Member) : Prop where
  clear : (∃ j ∈ P.jobs, OwesClear x j) → P.jobs.countP (owesFailure x) = 0
  count : (¬ ∃ j ∈ P.jobs, OwesClear x j) →
    strikesOf P.state x + P.jobs.countP (owesFailure x) ≤ failsInRow x P.past

theorem exists_mem_set_iff {p : α → Prop} {l : List α} {a b : α} (hi : l[i]? = some a) (ha : ¬ p a)
    (hb : ¬ p b) : (∃ j ∈ l.set i b, p j) ↔ ∃ j ∈ l, p j := by
  constructor
  · rintro ⟨j, hj, hp⟩
    rcases List.mem_or_eq_of_mem_set hj with hj | rfl
    · exact ⟨j, hj, hp⟩
    · exact absurd hp hb
  · rintro ⟨j, hj, hp⟩
    obtain ⟨k, hk⟩ := List.getElem?_of_mem hj
    refine ⟨j, List.mem_of_getElem? (i := k) ?_, hp⟩
    rw [List.getElem?_set_ne, hk]
    rintro rfl
    rw [hi] at hk
    cases hk
    exact ha hp

theorem countP_set_of {p : α → Bool} {l : List α} {a : α} (b : α) (hi : l[i]? = some a) :
    (l.set i b).countP p + (if p a then 1 else 0) =
      l.countP p + if p b then 1 else 0 := by
  obtain ⟨hlt, rfl⟩ := List.getElem?_eq_some_iff.mp hi
  have hpos : p l[i] = true → 0 < l.countP p := fun h =>
    List.countP_pos_iff.mpr ⟨_, List.getElem_mem hlt, h⟩
  rw [List.countP_set hlt]
  split
  · have := hpos ‹_›
    omega
  · omega

section ledger
variable {me x : Peer} {P : Member} {i : ℕ}

variable {j : MemberJob} {tag : Chore} {H : Turns} {T : List Peer} {p : Task (Option Handled)}

theorem owesFailure_held (x : Peer) (tag : Chore) (s s' : NodeState) (H : Turns)
    (code : Task (Option Handled)) : owesFailure x ⟨tag, .held s s' :: H, code⟩ = false := rfl

theorem not_owesClear_held (x : Peer) (tag : Chore) (s s' : NodeState) (H : Turns)
    (code : Task (Option Handled)) : ¬ OwesClear x ⟨tag, .held s s' :: H, code⟩ := by
  rintro ⟨q, a, H', next, hH, -⟩
  cases hH

theorem owes_nothing (h : ∀ f next, j.code ≠ .lock f next) : owesFailure x j = false ∧ ¬ OwesClear x j := by
  obtain ⟨tag, H, code⟩ := j
  constructor
  · cases code with
    | lock f next => exact absurd rfl (h f next)
    | done o => cases H with
      | nil => rfl
      | cons e H => cases e <;> rfl
    | call q next => cases H with
      | nil => rfl
      | cons e H => cases e <;> rfl
  · rintro ⟨q, a, H', next, -, -, -, hcode⟩
    exact h _ _ hcode

theorem Ledger.replace (h : Ledger x P) {j' : MemberJob} (hj : P.jobs[i]? = some j)
    (hold : owesFailure x j = false ∧ ¬ OwesClear x j) (hnew : owesFailure x j' = false ∧ ¬ OwesClear x j')
    {past : List MemberEvent} (hpast : failsInRow x P.past ≤ failsInRow x past) :
    Ledger x ⟨P.state, P.jobs.set i j', past⟩ := by
  have hiff := exists_mem_set_iff (p := OwesClear x) hj hold.2 hnew.2
  have hcount := countP_set_of (p := owesFailure x) j' hj
  simp only [hold.1, hnew.1] at hcount
  constructor
  · intro hex
    have := h.clear (hiff.mp hex)
    dsimp only
    omega
  · intro hno
    have := h.count fun hex => hno (hiff.mpr hex)
    dsimp only
    omega

theorem Ledger.start (h : Ledger x P) (tag : Chore) (code : Task (Option Handled)) :
    Ledger x ⟨P.state, P.jobs ++ [⟨tag, [], code⟩], .began P.jobs.length tag :: P.past⟩ := by
  have hclear : ¬ OwesClear x ⟨tag, [], code⟩ := by
    rintro ⟨q, a, H, next, hH, -⟩
    cases hH
  have hfail : owesFailure x ⟨tag, [], code⟩ = false := rfl
  have hiff : (∃ j ∈ P.jobs ++ [⟨tag, [], code⟩], OwesClear x j) ↔ ∃ j ∈ P.jobs, OwesClear x j := by
    simp [or_and_right, exists_or, hclear]
  have hcount : (P.jobs ++ [(⟨tag, [], code⟩ : MemberJob)]).countP (owesFailure x) =
      P.jobs.countP (owesFailure x) := by
    simp [List.countP_append, hfail]
  have hpast : failsInRow x (.began P.jobs.length tag :: P.past) = failsInRow x P.past := rfl
  constructor
  · intro hex
    rw [hcount]
    exact h.clear (hiff.mp hex)
  · intro hno
    rw [hcount, hpast]
    exact h.count fun hex => hno (hiff.mpr hex)

theorem Ledger.lock (h : Ledger x P) {f : NodeState → NodeState} {next : NodeState → Task (Option Handled)}
    (hj : P.jobs[i]? = some ⟨tag, H, .lock f next⟩) (hsec : Section me T H P.state (f P.state)) :
    Ledger x ⟨f P.state, P.jobs.set i ⟨tag, .held P.state (f P.state) :: H, next P.state⟩,
      .turn i (.held P.state (f P.state)) :: P.past⟩ := by
  have hcount := countP_set_of (p := owesFailure x)
    (⟨tag, .held P.state (f P.state) :: H, next P.state⟩ : MemberJob) hj
  have hpast : failsInRow x (.turn i (.held P.state (f P.state)) :: P.past) = failsInRow x P.past := rfl
  rw [owesFailure_held] at hcount
  simp only [Bool.false_eq_true, if_false] at hcount
  by_cases hc : OwesClear x ⟨tag, H, .lock f next⟩
  · -- the strikes are cleared, and no failure was waiting
    have hzero := h.clear ⟨_, List.mem_of_getElem? hj, hc⟩
    obtain ⟨q, a, H', next', -, -, -, hcode⟩ := hc
    have hf : f = fun s => s.clearStrikes x := by
      injection hcode
    have hstrikes : strikesOf (f P.state) x = 0 := by
      rw [hf]
      exact strikesOf_clearStrikes _ _
    constructor <;> intro _ <;> dsimp only <;> omega
  · have hiff := exists_mem_set_iff (p := OwesClear x) hj hc
      (not_owesClear_held x tag P.state (f P.state) H (next P.state))
    constructor
    · intro hex
      have := h.clear (hiff.mp hex)
      dsimp only
      omega
    · intro hno
      have hle := h.count fun hex => hno (hiff.mpr hex)
      dsimp only
      rw [hpast]
      rcases hsec.strikes with hh | ⟨node, hb⟩
      · have := hh.strikes x
        omega
      · obtain ⟨why, detail, nf, he⟩ := hb.struck
        have hs : strikesOf (f P.state) x = strikesOf (P.state.strike node why detail) x := by
          rw [he]
          rfl
        have hstrike := strikesOf_strike_le P.state node x why detail
        rw [← hs] at hstrike
        by_cases hx : x = node
        · obtain ⟨q, a, H', hH, hq, hv⟩ := hb.last
          have howes : owesFailure x ⟨tag, H, .lock f next⟩ = true := by
            rw [hH]
            simp [owesFailure, hq, hv, hx]
          rw [howes] at hcount
          rw [if_pos hx] at hstrike
          simp only [if_true] at hcount
          omega
        · rw [if_neg hx] at hstrike
          omega

theorem exchangesWith_said (x : Peer) (i : ℕ) (q : Call) (a : Exchanged) (past : List MemberEvent) :
    exchangesWith x (.turn i (.said q a) :: past) =
      if q.node = x then validAnswer q a :: exchangesWith x past else exchangesWith x past := by
  simp only [exchangesWith, List.filterMap_cons]
  split <;> split <;> simp_all

theorem Ledger.answer (h : Ledger x P) {q : Call} {next : Exchanged → Task (Option Handled)} {a : Exchanged}
    (hj : P.jobs[i]? = some ⟨tag, H, .call q next⟩) (hc : ReportsInStep P (.answer i a)) :
    Ledger x ⟨P.state, P.jobs.set i ⟨tag, .said q a :: H, next a⟩, .turn i (.said q a) :: P.past⟩ := by
  have hold : owesFailure x (⟨tag, H, .call q next⟩ : MemberJob) = false ∧
      ¬ OwesClear x (⟨tag, H, .call q next⟩ : MemberJob) := owes_nothing fun f n hcode => by cases hcode
  have hin := hc i a tag H q next rfl hj
  by_cases hq : q.node = x
  · subst hq
    have hcount := countP_set_of (p := owesFailure q.node)
      (⟨tag, .said q a :: H, next a⟩ : MemberJob) hj
    rw [hold.1] at hcount
    simp only [Bool.false_eq_true, if_false] at hcount
    have hpast := exchangesWith_said q.node i q a P.past
    rw [if_pos rfl] at hpast
    by_cases hv : validAnswer q a = true
    · -- nothing that failed is waiting, and a strike is cleared by this job
      rw [if_pos hv] at hin
      have hzero : P.jobs.countP (owesFailure q.node) = 0 :=
        List.countP_eq_zero.mpr fun j hj => by simp [hin.1 j hj]
      have hnew : owesFailure q.node (⟨tag, .said q a :: H, next a⟩ : MemberJob) = false := by
        cases next a <;> simp [owesFailure, hv]
      rw [hnew] at hcount
      simp only [Bool.false_eq_true, if_false] at hcount
      refine ⟨fun _ => by dsimp only; omega, fun hno => ?_⟩
      have hstrikes : strikesOf P.state q.node = 0 := by
        by_contra hs
        obtain ⟨next', hnext⟩ := hin.2 hs
        refine hno ⟨_, List.mem_set (List.getElem?_eq_some_iff.mp hj).1 _, q, a, H, next', rfl, rfl, hv, ?_⟩
        rw [hnext]
      dsimp only
      omega
    · -- one more failure in a row
      rw [if_neg hv] at hin
      have hno : ¬ ∃ j ∈ P.jobs, OwesClear q.node j := fun ⟨j, hj, hc⟩ => hin j hj hc
      have hle := h.count hno
      have hv' : validAnswer q a = false := by simpa using hv
      have hfails : failsInRow q.node (.turn i (.said q a) :: P.past) = failsInRow q.node P.past + 1 := by
        simp [failsInRow, hpast, hv']
      constructor
      · rintro ⟨j, hmem, hc⟩
        rcases List.mem_or_eq_of_mem_set hmem with hmem | rfl
        · exact absurd hc (hin j hmem)
        · obtain ⟨q', a', H', next', hH, -, hv'', -⟩ := hc
          cases hH
          exact absurd hv'' hv
      · intro _
        dsimp only
        rw [hfails]
        split at hcount <;> omega
  · refine h.replace hj hold ⟨?_, ?_⟩ ?_
    · cases next a <;> simp [owesFailure, hq]
    · rintro ⟨q', a', H', next', hH, hq', -, -⟩
      cases hH
      exact hq hq'
    · simp [failsInRow, exchangesWith_said, hq]

/-- A job that goes on after its reply owes nothing before or after. -/
theorem Ledger.finish (h : Ledger x P) {b : Option Handled} (hj : P.jobs[i]? = some ⟨tag, H, .done b⟩)
    (hp : ∀ f next, p ≠ .lock f next) :
    Ledger x ⟨P.state, P.jobs.set i ⟨tag, H, p⟩, .ended i b :: P.past⟩ :=
  h.replace hj (owes_nothing fun f n hcode => by cases hcode) (owes_nothing hp) (le_rfl)

theorem resume_not_lock {hd : Handled} (hd' : Defers me T H hd)
    (hp : (memberScheme me).resume (some hd) = some p) (f : NodeState → NodeState)
    (next : NodeState → Task (Option Handled)) : p ≠ .lock f next := by
  cases hp
  intro hlock
  rcases hd'.probe with ha | ⟨old, c, ha⟩ <;> rw [ha] at hlock <;> cases hlock

end ledger

/-- **One step keeps the ledger**, if the reports keep in step. -/
theorem ledger_moves {P P' : Member} {pick : MemberPick} (hm : (memberScheme me).Moves P pick P')
    (hc : ReportsInStep P pick) (hlaw : Member.Lawful me P) (h : Ledger x P) : Ledger x P' := by
  cases hm with
  | start tag => exact h.start tag _
  | lock hj => exact h.lock hj ((obeys_member me).change hlaw hj)
  | answer a hj => exact h.answer hj hc
  | @finish i tag H b p hj hp =>
    refine h.finish hj ?_
    cases b with
    | none => cases hp
    | some hd =>
      have hend := hlaw.2 _ (List.mem_of_getElem? hj) hd rfl
      exact fun f next => resume_not_lock hend hp f next

theorem Started.strikesOf_eq (h : Started me r s) : strikesOf s x = 0 := by
  simp [strikesOf, h.fresh.2.2]

theorem ledger_serving (h : Started me r s) (x : Peer) : Ledger x (Member.serving s) := by
  constructor
  · rintro ⟨j, hj, -⟩
    cases hj
  · intro _
    simp [Member.serving, h.strikesOf_eq]

theorem two_in_row {past : List MemberEvent} (h : 2 ≤ failsInRow x past) :
    ∃ rest, exchangesWith x past = false :: false :: rest := by
  unfold failsInRow at h
  match hl : exchangesWith x past with
  | [] => simp [hl] at h
  | true :: _ => simp [hl] at h
  | [false] => simp [hl] at h
  | false :: true :: _ => simp [hl] at h
  | false :: false :: rest => exact ⟨rest, rfl⟩

/-- **Strikes are consecutive.**  In every run in which the reports keep in step with the exchanges,
a peer is evicted on strikes only if the last two exchanges the member had with it both failed. -/
theorem strikes_consecutive (me : Peer) (r : ℕ) (hr : 1 ≤ r) (s : NodeState) (hs : Started me r s)
    (picks : List MemberPick) (P P' : Member) (pick : MemberPick) (x : Peer)
    (h : (memberScheme me).exec (Member.serving s) picks = some P)
    (hmeets : (memberScheme me).Meets ReportsInStep (Member.serving s) picks)
    (hstep : (memberScheme me).step? P pick = some P') (hx : EvictedOnStrikes P.state P'.state x) :
    ∃ rest, exchangesWith x P.past = false :: false :: rest := by
  have hlaw := (obeys_member me).exec h (lawful_serving hs.self)
  have hledger : Ledger x P := by
    have hboth := hmeets.induction (I := fun P => Member.Lawful me P ∧ Ledger x P)
      (fun P pick P' hm hc hI => ⟨(obeys_member me).moves hm hI.1, ledger_moves hm hc hI.1 hI.2⟩) h
      ⟨lawful_serving hs.self, ledger_serving hs x⟩
    exact hboth.2
  have hsame : P'.state = P.state → False := by
    intro he
    have hcount := hx.1
    rw [he] at hcount
    omega
  cases Scheme.moves_of_step? hstep with
  | start tag => exact (hsame rfl).elim
  | answer a hj => exact (hsame rfl).elim
  | finish hj hp => exact (hsame rfl).elim
  | @lock i tag H f next hj =>
    have hsec := (obeys_member me).change hlaw hj
    obtain ⟨hb, hn⟩ := hsec.evictedOnStrikes (member_routingSound hr hs h).1.tables hx
    obtain ⟨q, a, H', hH, hq, hv⟩ := hb.last
    have howes : owesFailure x ⟨tag, H, .lock f next⟩ = true := by
      rw [hH]
      simp [owesFailure, hq, hv]
    have hpos : 0 < P.jobs.countP (owesFailure x) :=
      List.countP_pos_iff.mpr ⟨_, List.mem_of_getElem? hj, howes⟩
    have hno : ¬ ∃ j ∈ P.jobs, OwesClear x j := fun hex => by
      have := hledger.clear hex
      omega
    exact two_in_row (by have := hledger.count hno; omega)

/-- Three members; the second is the successor of the first and lies right behind it. -/
def nearMembers : Members where
  list := [hostPeer 5 1, hostPeer 6 2, hostPeer 0xf000000000000000 3]
  ne_nil := by decide
  sorted := by decide

def nearMembers.first : Peer := hostPeer 5 1

def nearMembers.second : Peer := hostPeer 6 2

def nearMembers.third : Peer := hostPeer 0xf000000000000000 3

/-- Nothing came back in time. -/
def timedOut : Exchanged := ⟨.timeout, [], 500⟩

/-- A round in which the successor does not answer; then the predecessor's answer, and what the
lookup for a finger is told. -/
def silentSuccessor (job : ℕ) (fromPred : Exchanged) (fromLookup : List Exchanged) : List MemberPick :=
  [.start .round, .lock job, .lock job, .lock job, .answer job timedOut, .lock job, .lock job,
    .lock job, .answer job fromPred, .lock job, .lock job] ++
  fromLookup.map (.answer job) ++ [.lock job]

/-- The first sections of another round, in which the successor does not answer again. -/
def silentAgain : List MemberPick := [.start .round, .lock 1, .lock 1, .lock 1, .answer 1 timedOut]

theorem validAnswer_timedOut (q : Call) : validAnswer q timedOut = false := by
  have hgood : ∀ {β : Type} (valid : Str → Option β), goodReply timedOut valid = none := fun valid =>
    if_neg fun h => by cases h.1
  have hans : ∀ line, answers line timedOut = false := by
    intro line
    simp only [answers, hgood, Option.isSome_none, ite_self]
  have hjudge : ∀ k, judge q.node k timedOut =
      .fail (errorOf .timeout) (transportMessage .timeout q.node) := fun k => if_pos (by decide)
  unfold validAnswer
  split
  · simp only [hans, hjudge, ite_eq_right_iff]
    intro _
    split <;> rfl
  · exact hans _

/-- Every answer is missing, and none before it waits to be reported. -/
def allTimedOut (P : Member) : MemberPick → Bool
  | .answer _ a => a = timedOut ∧ P.jobs.all fun j => match j.turns with
      | .said _ _ :: _ => false
      | _ => true
  | _ => true

theorem reportsInStep_of_allTimedOut (P : Member) (pick : MemberPick) (h : allTimedOut P pick = true) :
    ReportsInStep P pick := by
  rintro i a tag H q next rfl hj
  simp only [allTimedOut, decide_eq_true_eq, List.all_eq_true] at h
  obtain ⟨rfl, hall⟩ := h
  rw [if_neg (by simp [validAnswer_timedOut])]
  rintro j hmem ⟨q', a', H', next', hH, -⟩
  have := hall j hmem
  simp [hH] at this

/-- The successor times out twice in two rounds, and nobody else answers either. -/
theorem strikes_consecutive_silent : ∃ P P', (memberScheme nearMembers.first).exec
    (Member.serving (wired nearMembers 1 nearMembers.first))
      (silentSuccessor 0 timedOut [timedOut] ++ silentAgain) = some P ∧
    (memberScheme nearMembers.first).step? P (.lock 1) = some P' ∧
    EvictedOnStrikes P.state P'.state nearMembers.second ∧
    ∃ rest, exchangesWith nearMembers.second P.past = false :: false :: rest := by
  simp only [exists_and_left]
  refine Runs.exists_of_any (fun P => ((memberScheme nearMembers.first).step? P (.lock 1)).any
    fun P' => EvictedOnStrikes P.state P'.state nearMembers.second) (fun P hP h => ?_)
    (by decide +kernel)
  refine Runs.exists_of_any _ (fun P' hP' hx => ⟨of_decide_eq_true hx, ?_⟩) h
  refine strikes_consecutive nearMembers.first 1 (by decide) _ (.wired nearMembers (by decide)) _ P
    P' (.lock 1) _ hP ?_ hP' (of_decide_eq_true hx)
  exact Runs.meets_of_checks reportsInStep_of_allTimedOut (by decide +kernel)

/-- **A valid answer between two strikes is forgotten.**  The successor does not answer in time,
then answers the lookup for a finger, then does not answer in time again, and is evicted on its
second strike. -/
theorem strikes_not_consecutive : ∃ P P', (memberScheme nearMembers.first).exec
    (Member.serving (wired nearMembers 1 nearMembers.first))
      (silentSuccessor 0 ⟨.ok, "PONG f000000000000000".toList, 1⟩
        [⟨.ok, renderStep ⟨false, nearMembers.second⟩, 1⟩,
          ⟨.ok, renderStep ⟨true, nearMembers.third⟩, 1⟩] ++ silentAgain) = some P ∧
    (memberScheme nearMembers.first).step? P (.lock 1) = some P' ∧
    EvictedOnStrikes P.state P'.state nearMembers.second ∧
    exchangesWith nearMembers.second P.past = [false, true, false] := by
  simp only [exists_and_left]
  exact Runs.exists_of_any (fun P => ((memberScheme nearMembers.first).step? P (.lock 1)).any
    fun P' => EvictedOnStrikes P.state P'.state nearMembers.second ∧
      exchangesWith nearMembers.second P.past = [false, true, false])
    (fun P _ h => Runs.exists_of_any _ (fun P' _ hx => of_decide_eq_true hx) h) (by decide +kernel)

end ChordFs
