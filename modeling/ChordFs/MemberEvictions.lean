import ChordFs.MemberStrikes

/-! # What is evicted, and how it comes back

After the member has evicted a peer, that peer should not be in its tables again before it has
answered a request of the member or announced itself.  Five sections put peers into the tables: they
take over the list of the successor, a candidate that answered a PING, the owner of a finger's
start, what a newcomer was told, and the sender of a NOTIFY (`Offers`).  `evicted_stays_out` says
that the evicted stay out as long as none of them is offered; `stale_list_brings_back` is a run in
which the list of a neighbour that has not noticed yet brings one back. -/

namespace ChordFs

open Dialogue

/-- All evictions so far. -/
def evictions (s : NodeState) : ℕ :=
  s.counters.evictedRefused + s.counters.evictedStrikes + s.counters.evictedOrphan

/-- The section evicts a peer: an eviction is counted, and the peer was in the tables and is not any
more. -/
def Evicts (s s' : NodeState) (x : Peer) : Prop :=
  evictions s' = evictions s + 1 ∧ s.holds x = true ∧ s'.holds x = false

instance (s s' : NodeState) (x : Peer) : Decidable (Evicts s s' x) :=
  inferInstanceAs (Decidable (_ ∧ _ ∧ _))

/-- The peer answered a request of the member, or sent it a NOTIFY. -/
def spokeUp (me x : Peer) : MemberEvent → Bool
  | .turn _ (.said q a) => q.node = x ∧ a.delivery = .ok
  | .began _ t => x ∈ t.announces me
  | _ => false

/-- The peer has been evicted, and has not been heard of since.  The events are newest first. -/
def silentSince (me x : Peer) : List MemberEvent → Bool
  | [] => false
  | .turn _ (.held s s') :: past => Evicts s s' x || silentSince me x past
  | e :: past => silentSince me x past && !spokeUp me x e

/-- The peers that the next section of a job can put into the tables of the state, by what the job
has been told. -/
inductive Offers (me : Peer) (s : NodeState) (j : MemberJob) : Peer → Prop
  /-- The list of the successor. -/
  | listed {x : Peer} {a : Exchanged} {nb : Neighbours} {s₀ s₁ : NodeState} {H : Turns} :
      j.turns = .held s₀ s₁ :: asked s.succ "NEIGHBOURS".toList a :: H →
      goodReply a parsedNeighbours = some nb → x ∈ nb.succs → Offers me s j x
  /-- The predecessor of the successor, after it has answered a PING. -/
  | candidate {x : Peer} {a a' : Exchanged} {nb : Neighbours} {s₀ s₁ s₂ s₃ s₄ s₅ : NodeState}
      {H : Turns} : j.turns = .held s₀ s₁ :: asked x "PING".toList a :: .held s₂ s₃ ::
        .held s₄ s₅ :: asked s.succ "NEIGHBOURS".toList a' :: H →
      answers "PING".toList a = true → goodReply a' parsedNeighbours = some nb → nb.pred = some x →
      Offers me s j x
  /-- The owner of the start of a finger. -/
  | owner {x n : Peer} {k : Id} {a : Exchanged} {H : Turns} :
      j.turns = asked n (findRequest k) a :: H → judge n k a = .owner x → Offers me s j x
  /-- The successor of a newcomer. -/
  | successor {x n : Peer} {a a' : Exchanged} {H : Turns} :
      j.turns = asked x "NEIGHBOURS".toList a' ::
        asked n (findRequest me.id) a :: H →
      judge n me.id a = .owner x → Offers me s j x
  /-- The list of a newcomer's successor. -/
  | taken {x n owner : Peer} {l : List Peer} {a a' : Exchanged} {H : Turns} :
      j.turns = asked owner "NEIGHBOURS".toList a' ::
        asked n (findRequest me.id) a :: H →
      joinList a' = some l → x ∈ l → Offers me s j x
  /-- The sender of a NOTIFY, once the request has passed the check for orphans. -/
  | announced {x : Peer} {s₀ s₁ : NodeState} {H : Turns} : x ∈ j.tag.announces me →
      j.turns = .held s₀ s₁ :: H → Offers me s j x

/-- No section is offered a peer that has been evicted and not heard of since. -/
def NothingStale (me : Peer) (P : Member) (pick : MemberPick) : Prop :=
  ∀ i j x, pick = .lock i → P.jobs[i]? = some j → Offers me P.state j x → silentSince me x P.past = false

/-! ### Where the entries of the tables come from -/

section holds
variable {s : NodeState} {x : Peer}

variable {s' : NodeState} {why : Str} {c owner : Peer} {i : ℕ} {path : List Peer}

theorem succ_cases (s : NodeState) : s.succ = s.self ∨ s.holds s.succ = true := by
  cases hl : s.succs with
  | nil => exact .inl (by simp [NodeState.succ, hl])
  | cons q l => exact .inr (holds_iff.mpr (.inr (.inl (by simp [NodeState.succ, hl]))))

theorem holds_congr (hp : s'.pred = s.pred) (hs : s'.succs = s.succs) (hf : s'.fingers = s.fingers) :
    s'.holds x = s.holds x := by
  simp [NodeState.holds, hp, hs, hf]

theorem SameRouting.holds_eq (h : SameRouting s s') : s'.holds x = s.holds x :=
  holds_congr h.pred h.succs h.fingers

theorem holds_of_evict {dead : Peer} {w b : Bool} (h : (s.evict dead why w b).holds x = true) :
    x = s.self ∨ s.holds x = true := by
  rcases evict_cases s dead why w b with he | ⟨hd, hb, -⟩
  · rw [he] at h
    exact .inr h
  · exact (holds_evict hd hb h).imp_right And.left

theorem holds_of_strike {p : Peer} {detail : Str} (h : (s.strike p why detail).holds x = true) :
    x = s.self ∨ s.holds x = true := by
  rcases strike_cases s p why detail with ⟨he, -⟩ | ⟨-, -, lines, ⟨-, he⟩ | ⟨-, why', he⟩⟩ <;>
    rw [he] at h
  · exact .inr h
  · exact .inr h
  · have hs : x = (struck s p lines).self ∨ (struck s p lines).holds x = true := holds_of_evict h
    exact hs

theorem holds_of_report {node : Peer} {line : Str} {a : Exchanged}
    (h : (s.report node line a).holds x = true) : x = s.self ∨ s.holds x = true :=
  report_rule s (P := fun s' => s'.holds x = true → x = s.self ∨ s.holds x = true)
    (fun _ _ _ => holds_of_evict) (fun _ _ => holds_of_strike) line a h

theorem holds_of_takePred (h : (s.takePred c).holds x = true) : x = c ∨ s.holds x = true := by
  rw [(sameRouting_takePred s c).holds_eq] at h
  rcases holds_iff.mp h with h | h
  · exact .inl (Option.some.inj h).symm
  · exact .inr (holds_iff.mpr (.inr h))

theorem holds_of_notified (h : (s.notified c).2.holds x = true) : x = c ∨ s.holds x = true := by
  rcases notified_cases s c with ⟨he, -⟩ | ⟨p, -, -, -, he⟩ | ⟨-, -, hr⟩
  · rw [he] at h
    exact .inr h
  · rw [he] at h
    exact .inr h
  · rw [hr.holds_eq] at h
    rcases holds_iff.mp h with h | h
    · exact .inl (Option.some.inj h).symm
    · exact .inr (holds_iff.mpr (.inr h))

theorem holds_of_lists {first : Peer} {rest : List Peer}
    (h : NodeState.holds { s with succs := first :: rest, fingers := s.fingers.set 0 first } x = true) :
    x ∈ first :: rest ∨ s.holds x = true := by
  rcases holds_iff.mp h with h | h | h
  · exact .inr (holds_iff.mpr (.inl h))
  · exact .inl h
  · rcases List.mem_or_eq_of_mem_set h with h | rfl
    · exact .inr (holds_iff.mpr (.inr (.inr h)))
    · exact .inl List.mem_cons_self

theorem holds_of_merge {nb : Neighbours} (h : (s.applyNeighbours s.succ nb).2.holds x = true) :
    x ∈ nb.succs ∨ x = s.self ∨ s.holds x = true := by
  obtain ⟨rest, hmerge, hrest⟩ := mergeFrom_eq_append s.self s.r [s.succ] nb.succs
  rw [(sameRouting_applyNeighbours s nb).holds_eq, NodeState.withMerged, mergeSuccessors, hmerge] at h
  rcases holds_of_lists h with h | h
  · rcases List.mem_cons.mp h with rfl | h
    · exact .inr (succ_cases s)
    · exact .inl (hrest x h).1
  · exact .inr (.inr h)

theorem holds_of_adopt (h : (s.adopt s.succ c).2.holds x = true) : x = c ∨ s.holds x = true := by
  rw [(sameRouting_adopt s c).holds_eq] at h
  obtain ⟨m, hm⟩ : ∃ m, max s.r 1 = m + 1 := ⟨max s.r 1 - 1, by omega⟩
  rw [hm, List.take_succ_cons] at h
  rcases holds_of_lists h with h | h
  · rcases List.mem_cons.mp h with rfl | h
    · exact .inl rfl
    · exact .inr (holds_iff.mpr (.inr (.inl (List.mem_filter.mp (List.mem_of_mem_take h)).1)))
  · exact .inr h

theorem holds_of_joined {known : Peer} {list : Option (List Peer)}
    (h : (s.joined known owner list).holds x = true) : x = owner ∨ ∃ l, list = some l ∧ x ∈ l := by
  rw [(sameRouting_joined s known owner list).holds_eq] at h
  rcases holds_iff.mp h with h | h | h
  · cases h
  · cases list with
    | none => exact .inl (List.mem_singleton.mp h)
    | some l =>
      obtain ⟨rest, hmerge, hrest⟩ := mergeFrom_eq_append s.self s.r [owner] l
      dsimp only at h
      rw [mergeSuccessors, hmerge] at h
      rcases List.mem_cons.mp h with rfl | h
      · exact .inl rfl
      · exact .inr ⟨l, rfl, (hrest x h).1⟩
  · exact .inl (List.eq_of_mem_replicate h)

theorem holds_of_fixFinger_ok (h : (s.fixFinger i ⟨.ok owner, path⟩).holds x = true) :
    x = owner ∨ x = s.self ∨ s.holds x = true := by
  rcases fixFinger_ok_cases s i owner path with ⟨lines, he⟩ | ⟨j, fingers, -, -, -, -, hmem, he⟩ <;>
    rw [he] at h
  · exact .inr (.inr h)
  · rw [(sameRouting_remember _ owner).holds_eq] at h
    rcases holds_iff.mp h with h | h | h
    · exact .inr (.inr (holds_iff.mpr (.inl h)))
    · exact .inr (.inr (holds_iff.mpr (.inr (.inl h))))
    · rcases List.mem_or_eq_of_mem_set h with h | rfl
      · exact (hmem x h).imp_right fun h => .inr (holds_iff.mpr (.inr (.inr h)))
      · exact .inr (succ_cases s)

theorem holds_of_fixFinger_error {e : LookupError × Str}
    (h : (s.fixFinger i ⟨.error e, path⟩).holds x = true) : x = s.self ∨ s.holds x = true :=
  fixFinger_rule s (P := fun s' => s'.holds x = true → x = s.self ∨ s.holds x = true) .inr
    (fun _ _ => holds_of_evict) (fun _ _ => holds_of_strike) (fun _ h => h) e path h

end holds

/-- **A section puts nobody into the tables but those it is offered.** -/
theorem Section.holds {me : Peer} {t : Chore} {H : Turns} {s s' : NodeState} {x : Peer}
    (code : Task (Option Handled)) (h : Section me (t.announces me) H s s')
    (hx : s'.holds x = true) : x = s.self ∨ s.holds x = true ∨ Offers me s ⟨t, H, code⟩ x := by
  have hold : x = s.self ∨ s.holds x = true → x = s.self ∨ s.holds x = true ∨
      Offers me s ⟨t, H, code⟩ x := fun h => h.imp_right .inl
  cases h with
  | minor h =>
    cases h with
    | idle hi =>
      rw [holds_congr hi.pred hi.succs hi.fingers] at hx
      exact .inr (.inl hx)
    | clear _ _ _ => exact .inr (.inl hx)
    | report _ _ _ => exact hold (holds_of_report hx)
    | notify hH hc _ =>
      rcases holds_of_notified hx with rfl | hx
      · exact .inr (.inr (.announced hc hH))
      · exact .inr (.inl hx)
    | fill hH hc _ _ =>
      rcases holds_of_takePred hx with rfl | hx
      · exact .inr (.inr (.announced hc hH))
      · exact .inr (.inl hx)
    | suspect _ _ => exact hold (holds_of_evict hx)
  | merge hH hnb =>
    rcases holds_of_merge hx with hx | hx
    · exact .inr (.inr (.listed hH hnb hx))
    · exact hold hx
  | adopt hH hpong hnb hpred _ _ =>
    rcases holds_of_adopt hx with rfl | hx
    · exact .inr (.inr (.candidate hH hpong hnb hpred))
    · exact .inr (.inl hx)
  | @finger k r i _ hr =>
    obtain ⟨outcome, path⟩ := r
    cases outcome with
    | error e => exact hold (holds_of_fixFinger_error hx)
    | ok owner =>
      obtain ⟨n, a, H', hH, hj⟩ := hr
      rcases holds_of_fixFinger_ok hx with rfl | hx
      · exact .inr (.inr (.owner hH hj))
      · exact hold hx
  | joined _ _ hH hj _ =>
    rcases holds_of_joined hx with rfl | ⟨l, hl, hx⟩
    · exact .inr (.inr (.successor hH hj))
    · exact .inr (.inr (.taken hH hl hx))

/-! ### Runs -/

theorem stays_out_moves {me x : Peer} {P P' : Member} {pick : MemberPick} (hx : x ≠ me)
    (hm : (memberScheme me).Moves P pick P') (hc : NothingStale me P pick)
    (hlaw : Member.Lawful me P) (h : silentSince me x P.past = true → P.state.holds x = false)
    (hsilent : silentSince me x P'.past = true) : P'.state.holds x = false := by
  cases hm with
  | start tag =>
    simp only [silentSince, Bool.and_eq_true] at hsilent
    exact h hsilent.1
  | answer a hj =>
    simp only [silentSince, Bool.and_eq_true] at hsilent
    exact h hsilent.1
  | finish hj hp =>
    simp only [silentSince, Bool.and_eq_true] at hsilent
    exact h hsilent.1
  | @lock i tag H f next hj =>
    simp only [silentSince, Bool.or_eq_true, decide_eq_true_eq] at hsilent
    rcases hsilent with hev | hsilent
    · exact hev.2.2
    · by_contra hheld
      have hsec := (obeys_member me).change hlaw hj
      have hself : P.state.self = me := hlaw.1
      have hin := Section.holds (.lock f next) hsec (Bool.not_eq_false _ ▸ hheld)
      rcases hin with hin | hin | hin
      · exact hx (hin.trans hself)
      · rw [h hsilent] at hin
        cases hin
      · rw [hc i _ x rfl hj hin] at hsilent
        cases hsilent

/-- **Nothing evicted comes back unverified.**  In every run in which no section is offered a peer
that has been evicted and not heard of since, such a peer is in none of the tables. -/
theorem evicted_stays_out (me : Peer) (r : ℕ) (s : NodeState) (hs : Started me r s)
    (picks : List MemberPick) (P : Member)
    (h : (memberScheme me).exec (Member.serving s) picks = some P)
    (hmeets : (memberScheme me).Meets (NothingStale me) (Member.serving s) picks) (x : Peer)
    (hx : x ≠ me) (hsilent : silentSince me x P.past = true) : P.state.holds x = false := by
  have hboth := hmeets.induction (I := fun P => Member.Lawful me P ∧
      (silentSince me x P.past = true → P.state.holds x = false))
    (fun P pick P' hm hc hI => ⟨(obeys_member me).moves hm hI.1, stays_out_moves hx hm hc hI.1 hI.2⟩) h
    ⟨lawful_serving hs.self, fun hsil => by cases hsil⟩
  exact hboth.2 hsilent

/-- No eviction yet. -/
def noEviction (past : List MemberEvent) : Bool :=
  past.all fun
    | .turn _ (.held s s') => evictions s' = evictions s
    | _ => true

theorem silentSince_of_noEviction {me x : Peer} {past : List MemberEvent}
    (h : noEviction past = true) : silentSince me x past = false := by
  induction past with
  | nil => rfl
  | cons e past ih =>
    simp only [noEviction, List.all_cons, Bool.and_eq_true] at h
    have hrest := ih h.2
    cases e with
    | began i t => simp [silentSince, hrest]
    | ended i b => simp [silentSince, hrest]
    | turn i e =>
      cases e with
      | said q a => simp [silentSince, hrest]
      | held s s' =>
        have hsame : evictions s' = evictions s := by simpa using h.1
        have hno : ¬ Evicts s s' x := fun hev => by
          have := hev.1
          omega
        simp [silentSince, hrest, hno]

/-- A client reports the third member, and it refuses the connection. -/
def thirdSuspected : List MemberPick :=
  [.start (.request "SUSPECT 10.0.0.3 9000".toList), .lock 0, .answer 0 ⟨.refused, [], 0⟩, .lock 0]

/-- The third member has been evicted and is in none of the tables. -/
theorem evicted_stays_out_suspected : ∃ P, (memberScheme nearMembers.first).exec
    (Member.serving (wired nearMembers 2 nearMembers.first)) thirdSuspected = some P ∧
    silentSince nearMembers.first nearMembers.third P.past = true ∧
    P.state.holds nearMembers.third = false := by
  refine Runs.exists_of_any (fun P => silentSince nearMembers.first nearMembers.third P.past)
    (fun P hP hsilent => ⟨hsilent, ?_⟩) (by decide +kernel)
  refine evicted_stays_out nearMembers.first 2 _ (.wired nearMembers (by decide)) thirdSuspected P hP ?_ _
    (by decide) hsilent
  refine Runs.meets_of_checks (c := fun P _ => noEviction P.past) ?_ (by decide +kernel)
  intro P pick hno i j x _ _ _
  exact silentSince_of_noEviction hno

/-- The next round of the first member, in which its successor answers with the tables it was wired
with: it has not noticed yet that the third member is gone. -/
def staleList : List MemberPick :=
  [.start .round, .lock 1, .lock 1, .lock 1,
    .answer 1 ⟨.ok, renderNeighbours ⟨(wired nearMembers 2 nearMembers.second).pred,
      (wired nearMembers 2 nearMembers.second).succs⟩, 1⟩, .lock 1, .lock 1]

/-- **A neighbour's stale list brings an evicted peer back.**  The third member has refused a
connection and is evicted; the list of the second still names it, and it is in the tables of the
first again without having said anything. -/
theorem stale_list_brings_back : ∃ P, (memberScheme nearMembers.first).exec
    (Member.serving (wired nearMembers 2 nearMembers.first)) (thirdSuspected ++ staleList) = some P ∧
    silentSince nearMembers.first nearMembers.third P.past = true ∧
    P.state.holds nearMembers.third = true := by
  exact Runs.exists_of_any (fun P => silentSince nearMembers.first nearMembers.third P.past &&
    P.state.holds nearMembers.third) (fun P _ hboth => Bool.and_eq_true_iff.mp hboth) (by decide +kernel)

end ChordFs
