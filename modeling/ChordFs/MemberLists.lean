import ChordFs.MemberStrikes

/-! # The successor list of a member

A section leaves the list, takes entries out of it, falls back on one node, merges the list of a
successor, or puts a candidate in front (`Section.succs_cases`).  All but the last keep it free of
repeats.  A candidate is compared with the successor and with the member itself, not with the rest
of the list; so nobody is in the list twice as long as no candidate is put in front of a list that
names it already (`no_member_twice`), which is what a neighbour can bring about that names one node
as its predecessor and in its list (`candidate_listed_twice`). -/

namespace ChordFs

open Dialogue

/-- The candidate that the next section of a job puts in front of the list while this is the
successor: the predecessor that the successor has named, after it has answered. -/
def MemberJob.candidate (succ : Peer) (j : MemberJob) : Option Peer :=
  match j.turns with
  | .held _ _ :: .said q a :: .held _ _ :: .held _ _ :: .said q' a' :: _ =>
    if q.line = "PING".toList ∧ answers q.line a ∧ q'.node = succ ∧ q'.line = "NEIGHBOURS".toList ∧
      (goodReply a' parsedNeighbours).any (fun nb => nb.pred = some q.node) then
        some q.node else none
  | _ => none

/-- The list behind a candidate that is put in front. -/
def NodeState.behind (s : NodeState) : List Peer :=
  (s.succs.filter fun p => p ≠ s.self).take (max s.r 1 - 1)

/-- No candidate is put in front of a list that names it already. -/
def newInFront (P : Member) : MemberPick → Bool
  | .lock i => (P.jobs[i]?.bind (MemberJob.candidate P.state.succ)).all fun c => c ∉ P.state.behind
  | _ => true

/-! ### What a section does to the list -/

section lists
variable {s : NodeState}

/-- Entries are taken out, or at most one is left. -/
def Shortens (s s' : NodeState) : Prop := s'.succs.Sublist s.succs ∨ s'.succs.length ≤ 1

theorem Shortens.of_eq {s' : NodeState} (h : s'.succs = s.succs) : Shortens s s' := .inl (by rw [h])

theorem shortens_evict (s : NodeState) (dead : Peer) (why : Str) (w b : Bool) :
    Shortens s (s.evict dead why w b) := by
  unfold NodeState.evict
  split
  · exact .of_eq rfl
  split
  · exact .of_eq rfl
  · unfold Shortens NodeState.keptSuccs
    dsimp only
    split
    · exact .inr (Nat.le_refl 1)
    · exact .inl List.filter_sublist

theorem shortens_strike (s : NodeState) (p : Peer) (why detail : Str) :
    Shortens s (s.strike p why detail) := by
  rcases strike_cases s p why detail with ⟨h, -⟩ | ⟨-, -, lines, ⟨-, h⟩ | ⟨-, why', h⟩⟩ <;> rw [h]
  · exact .of_eq rfl
  · exact .of_eq rfl
  · exact shortens_evict (struck s p lines) p why' false false

theorem shortens_report (s : NodeState) (node : Peer) (line : Str) (a : Exchanged) :
    Shortens s (s.report node line a) :=
  report_rule s (shortens_evict s node) (shortens_strike s node) line a

theorem shortens_fixFinger (s : NodeState) (i : ℕ) (r : LookupResult) :
    Shortens s (s.fixFinger i r) := by
  obtain ⟨outcome, path⟩ := r
  cases outcome with
  | ok owner =>
    rcases fixFinger_ok s i owner path with h | ⟨fingers, -, h⟩
    · exact .of_eq h.succs
    · exact .of_eq h.succs
  | error e =>
    exact fixFinger_rule s (P := Shortens s) (.of_eq rfl) (fun _ _ => shortens_evict ..)
      (fun _ _ => shortens_strike ..) (fun _ h => h) e path

/-- **Everything a section can do to the list.** -/
theorem Section.succs_cases {me : Peer} {T : List Peer} {H : Turns} {s' : NodeState}
    (h : Section me T H s s') (tag : Chore) (code : Task (Option Handled)) : Shortens s s' ∨
    (∃ self succ l r, s'.succs = mergeSuccessors self succ l r) ∨
    ∃ c, MemberJob.candidate s.succ ⟨tag, H, code⟩ = some c ∧ s'.succs = c :: s.behind := by
  cases h with
  | minor h =>
    left
    cases h with
    | idle hi => exact .of_eq hi.succs
    | clear _ _ _ => exact .of_eq rfl
    | report _ _ _ => exact shortens_report ..
    | @notify c _ _ _ _ _ _ =>
      rcases notified_cases s c with ⟨h, -⟩ | ⟨p, -, -, -, h⟩ | ⟨-, -, h⟩
      · exact .of_eq (by rw [h])
      · exact .of_eq (by rw [h])
      · exact .of_eq h.succs
    | fill _ _ _ _ => exact .of_eq (sameRouting_takePred _ _).succs
    | suspect _ _ => exact shortens_evict ..
  | merge _ _ => exact .inr (.inl ⟨_, _, _, _, (sameRouting_applyNeighbours _ _).succs⟩)
  | @adopt c _ _ _ _ _ _ _ _ _ hH ha hnb hpred _ _ =>
    refine .inr (.inr ⟨c, ?_, ?_⟩)
    · simp only [MemberJob.candidate, hH, ha, hnb, Option.any_some, hpred, decide_true,
        and_self, if_true]
    · obtain ⟨m, hm⟩ : ∃ m, max s.r 1 = m + 1 := ⟨max s.r 1 - 1, by omega⟩
      rw [(sameRouting_adopt _ _).succs, NodeState.behind, hm]
      rfl
  | finger i _ _ => exact .inl (shortens_fixFinger ..)
  | @joined known n owner a a' _ _ _ _ _ _ _ =>
    have hr := (sameRouting_joined s known owner (joinList a')).succs
    cases hl : joinList a' with
    | none =>
      rw [hl] at hr
      exact .inl (.inr (by rw [hr]; exact Nat.le_refl 1))
    | some l =>
      rw [hl] at hr
      exact .inr (.inl ⟨_, _, _, _, hr⟩)

theorem nodup_mergeFrom (self : Peer) (r : ℕ) {out : List Peer} (l : List Peer) (h : out.Nodup) :
    (mergeFrom self r out l).Nodup := by
  induction l generalizing out with
  | nil => exact h
  | cons p l ih =>
    rw [mergeFrom]
    split
    · exact h
    split
    · exact h
    split
    · exact ih h
    split
    · exact ih h
    · rename_i hnew
      refine ih (List.nodup_append.mpr ⟨h, List.nodup_singleton p, fun x hx y hy => ?_⟩)
      rw [List.mem_singleton.mp hy]
      exact fun he => hnew (he ▸ hx)

theorem nodup_mergeSuccessors (self succ : Peer) (l : List Peer) (r : ℕ) :
    (mergeSuccessors self succ l r).Nodup :=
  nodup_mergeFrom self r l (List.nodup_singleton succ)

theorem Shortens.nodup {s' : NodeState} (h : Shortens s s') (hs : s.succs.Nodup) :
    s'.succs.Nodup := by
  rcases h with h | h
  · exact hs.sublist h
  · rcases hl : s'.succs with _ | ⟨p, _ | ⟨q, l⟩⟩
    · exact List.nodup_nil
    · exact List.nodup_singleton p
    · simp [hl] at h

end lists

theorem Started.nodup_succs {me : Peer} {r : ℕ} {s : NodeState} (h : Started me r s) :
    s.succs.Nodup := by
  cases h with
  | alone => exact List.nodup_singleton me
  | wired R hme =>
    refine (sameRouting_wired R r me).succs ▸ ?_
    dsimp only [succList]
    split
    · exact List.nodup_singleton me
    · rw [nextMembers_eq hme]
      exact (List.nodup_cons.mp (nodup_others R.nodup hme)).2.sublist (List.take_sublist _ _)
  | joined h =>
    obtain ⟨known, owner, list, -, rfl⟩ := joined_eq h
    rw [(sameRouting_joined _ known owner list).succs]
    cases list with
    | none => exact List.nodup_singleton owner
    | some l => exact nodup_mergeSuccessors ..

/-- **Nobody is in a successor list twice**, from every state a member can begin to serve in, with
lists of any length and any interleaving and replies, as long as no candidate is put in front of a
list that names it already. -/
theorem no_member_twice (me : Peer) (r : ℕ) (s : NodeState) (hs : Started me r s)
    (picks : List MemberPick) (P : Member)
    (h : (memberScheme me).exec (Member.serving s) picks = some P)
    (hnew : (memberScheme me).checks newInFront (Member.serving s) picks = true) :
    P.state.succs.Nodup := by
  have hmeets : (memberScheme me).Meets (fun P pick => newInFront P pick = true)
    (Member.serving s) picks :=
    Runs.meets_of_checks (fun _ _ h => h) hnew
  have hboth := hmeets.induction (I := fun P => Member.Lawful me P ∧ P.state.succs.Nodup) ?_ h
    ⟨lawful_serving hs.self, hs.nodup_succs⟩
  · exact hboth.2
  · rintro P pick P' hm hc ⟨hlaw, hnodup⟩
    refine ⟨(obeys_member me).moves hm hlaw, ?_⟩
    cases hm with
    | start tag => exact hnodup
    | answer a hj => exact hnodup
    | finish hj hp => exact hnodup
    | @lock i tag H f next hj =>
      rcases ((obeys_member me).change hlaw hj).succs_cases tag (.lock f next) with hshort |
        ⟨_, _, _, _, hmerge⟩ |
        ⟨c, hcand, hadopt⟩
      · exact hshort.nodup hnodup
      · rw [hmerge]
        exact nodup_mergeSuccessors ..
      · have hfresh : c ∉ P.state.behind := by simpa [newInFront, hj, hcand] using hc
        rw [hadopt]
        exact List.nodup_cons.mpr ⟨hfresh, (hnodup.filter _).sublist (List.take_sublist _ _)⟩

/-- The second member's own list: the candidate comes first, and the others follow. -/
theorem no_member_twice_three : ∃ P, (memberScheme (successorOf 0 threeMembers)).exec
    (Member.serving (wired threeMembers 3 (successorOf 0 threeMembers)))
      (candidateAnswers [successorOf 0xfffffffffffffff0 threeMembers]) = some P ∧
    P.state.succs.head? = some threeMembers.between ∧ P.state.succs.Nodup := by
  refine Runs.exists_of_any (fun P => P.state.succs.head? = some threeMembers.between) ?_
    (by decide +kernel)
  intro P hP hhead
  exact ⟨of_decide_eq_true hhead, no_member_twice _ 3 _ (.wired threeMembers (by decide)) _ P hP
    (by decide +kernel)⟩

/-- **A candidate that the successor also lists is in the list twice.**  The second member names the
node between as its predecessor and as its successor. -/
theorem candidate_listed_twice : ∃ P, (memberScheme (successorOf 0 threeMembers)).exec
    (Member.serving (wired threeMembers 3 (successorOf 0 threeMembers)))
      (candidateAnswers [threeMembers.between]) = some P ∧
    P.state.succs = [threeMembers.between, successorOf 6 threeMembers, threeMembers.between] := by
  exact Runs.exists_of_any (fun P => P.state.succs =
    [threeMembers.between, successorOf 6 threeMembers, threeMembers.between])
    (fun P _ hlist => of_decide_eq_true hlist) (by decide +kernel)

end ChordFs
