import ChordFs.MemberStrikes
import Mathlib.Algebra.Order.Ring.Int
import Mathlib.Data.List.TakeWhile

/-! # What an eviction leaves behind

`evict_locked` takes the evicted out of the successor list, the predecessor, the fingers and the
strikes, and touches nothing else (`evict_exact`).  Every finger that pointed at one of them gets
the same replacement: the first entry that stays behind the first evicted one in the list.  On a
wired ring that is the owner of the finger's start among those that are left exactly if nobody who
stays stands between the two in the list (`evict_fingers_exact_iff`), which can fail only when a
process with several members goes. -/

namespace ChordFs

open Circle

/-! ### The evicted, and those who stay -/

section evict
variable {s : NodeState} {dead p : Peer} {why : Str} {whole said : Bool}

theorem ne_of_stays (h : NodeState.gone dead whole s.self = false) : dead ≠ s.self := by
  rintro rfl
  simp [NodeState.gone, sameProcess_self] at h

theorem forgets_memberKey (h : NodeState.gone dead whole p = true) :
    NodeState.forgets dead whole (memberKey p) = true := by
  cases whole with
  | false =>
    have hp : p = dead := by simpa [NodeState.gone] using h
    simp [NodeState.forgets, hp]
  | true =>
    have haddr : address p = address dead := by
      simp only [NodeState.gone, sameProcess, if_true, decide_eq_true_eq] at h
      rw [address, address, h.1, h.2]
    simp [NodeState.forgets, memberKey, haddr]

theorem nearestKnown_eq_self_iff (s : NodeState) (gone : Peer → Bool) :
    s.nearestKnown gone = s.self ↔ ∀ p, ¬ Spare s gone p := by
  rcases nearestKnown_cases s gone with ⟨h, hnone⟩ | ⟨h, -⟩
  · exact ⟨fun _ => hnone, fun _ => h⟩
  · exact ⟨fun he => absurd he h.ne_self, fun hnone => absurd h (hnone _)⟩

theorem getElem?_fingers_evict (hself : NodeState.gone dead whole s.self = false)
    (hsaid : sameProcess dead s.self = true → said = true) {first f : Peer} {rest : List Peer}
    (hkept : s.keptSuccs (NodeState.gone dead whole) = first :: rest) {i : ℕ}
    (hf : s.fingers[i]? = some f) :
    (s.evict dead why whole said).fingers[i]? = some (if i = 0 then first
      else if NodeState.gone dead whole f then
        (s.replacement (NodeState.gone dead whole)).getD first else f) := by
  rw [evict_eq_of_other (ne_of_stays hself) (fun h => h.2 (hsaid h.1)) why hkept]
  by_cases h0 : i = 0
  · subst h0
    have hlen := (List.getElem?_eq_some_iff.mp hf).1
    simp [evictedFingers, hlen]
  · rw [if_neg h0, List.getElem?_set_ne (Ne.symm h0), evictedFingers, List.getElem?_map, hf,
      Option.map_some]

theorem filter_eq_nil_iff_all (l : List Peer) (gone : Peer → Bool) :
    l.filter (fun p => ¬ gone p) = [] ↔ l.all gone = true := by
  simp

end evict

/-- **An eviction is complete and minimal.**  Unless it is the member itself that goes, none of the
evicted is left in the list, the predecessor, the fingers or the strikes.  The list keeps those who
stay, in their order; if there is none, it is the nearest node that is left among the fingers and
the predecessor, and without such a node the member has itself for a successor and is an orphan, if
it had another one.  The predecessor and the fingers that stay are as they were, except that finger
0 follows the successor. -/
theorem evict_exact (s : NodeState) (hs : RoutingSound s) (dead : Peer) (why : Str)
    (whole said : Bool) (hself : NodeState.gone dead whole s.self = false)
    (hsaid : sameProcess dead s.self = true → said = true) : let gone := NodeState.gone dead whole
    let left := s.succs.filter fun p => ¬ gone p
    let spare := fun p => (p ∈ s.fingers ∨ s.pred = some p) ∧ p ≠ s.self ∧ gone p = false
    let s' := s.evict dead why whole said
    (∀ p, gone p = true →
      p ∉ s'.succs ∧ s'.pred ≠ some p ∧ p ∉ s'.fingers ∧ s'.strikes.find? (memberKey p) = none) ∧
    (left ≠ [] → s'.succs = left) ∧
    (left = [] → (∃ p, s'.succs = [p] ∧ spare p ∧ ∀ q, spare q →
      dist s.self.id p.id ≤ dist s.self.id q.id) ∨ (s'.succs = [s.self] ∧ ∀ q, ¬ spare q)) ∧
    (s'.orphaned = true ↔ s.orphaned = true ∨ (left = [] ∧ (∀ q, ¬ spare q) ∧ s.succ ≠ s.self)) ∧
    (∀ p, gone p = false → (s'.pred = some p ↔ s.pred = some p)) ∧
    s'.fingers.length = s.fingers.length ∧ s'.fingers[0]? = some s'.succ ∧
    ∀ i p, i ≠ 0 → s.fingers[i]? = some p → gone p = false → s'.fingers[i]? = some p := by
  intro gone left spare s'
  have hd : dead ≠ s.self := ne_of_stays hself
  have hb : ¬ (sameProcess dead s.self = true ∧ ¬ said = true) := fun h => h.2 (hsaid h.1)
  have hspare : ∀ p, spare p ↔ Spare s gone p := by
    intro p
    constructor
    · rintro ⟨hknown, hne, hstays⟩
      refine ⟨by simpa using hknown, hne, hstays, fun hid => hne (hs.tables.own_id p ?_ hid)⟩
      exact holds_iff.mpr (hknown.elim (fun h => .inr (.inr h)) .inl)
    · intro h
      exact ⟨by simpa using h.known, h.ne_self, h.stays⟩
  obtain ⟨first, rest, hkept⟩ := List.exists_cons_of_ne_nil (keptSuccs_ne_nil s gone)
  have heq := evict_eq_of_other hd hb why hkept
  have hsuccs : s'.succs = s.keptSuccs gone := by simp only [s', heq, hkept]
  have hnobody : (∀ q, ¬ spare q) ↔ s.nearestKnown gone = s.self := by
    simp only [hspare, nearestKnown_eq_self_iff]
  refine ⟨fun p hp => ?_, fun h => ?_, fun h => ?_, ?_, fun p hp => ?_, ?_, ?_,
    fun i p hi hf hp => ?_⟩
  · have hno : ¬ s'.holds p = true := by
      intro hheld
      rcases holds_evict hd hb hheld with rfl | ⟨-, hstays⟩
      · exact Bool.false_ne_true (hself.symm.trans hp)
      · exact Bool.false_ne_true (hstays.symm.trans hp)
    rw [holds_iff, not_or, not_or] at hno
    refine ⟨hno.2.1, hno.1, hno.2.2, ?_⟩
    simp only [s', heq, SortedMap.find?_filterKeys, forgets_memberKey hp]
    rfl
  · rw [hsuccs, NodeState.keptSuccs, if_neg h]
  · rw [hsuccs, NodeState.keptSuccs, if_pos h]
    rcases nearestKnown_cases s gone with ⟨hnear, hnone⟩ | ⟨hnear, hle⟩
    · exact .inr ⟨by rw [hnear], fun q hq => hnone q ((hspare q).mp hq)⟩
    · exact .inl ⟨_, rfl, (hspare _).mpr hnear, fun q hq => hle q ((hspare q).mp hq)⟩
  · rw [hnobody, filter_eq_nil_iff_all]
    simp only [s', heq, NodeState.becomesOrphan, Bool.or_eq_true, decide_eq_true_eq]
    exact Iff.rfl
  · simp [s', heq, Option.filter_eq_some_iff, hp, gone]
  · simp [s', heq, evictedFingers]
  · rw [getElem?_fingers_evict hself hsaid hkept hs.tables.finger_zero, if_pos rfl, NodeState.succ,
      hsuccs, hkept]
    rfl
  · rw [getElem?_fingers_evict hself hsaid hkept hf, if_neg hi, if_neg]
    exact fun hg => Bool.false_ne_true (hp.symm.trans hg)

/-- The successor of the first member refuses a connection. -/
theorem evict_exact_second :
    ((wired nearMembers 2 nearMembers.first).evict nearMembers.second
      "refused".toList true false).succs = [nearMembers.third] := by
  have h := evict_exact (wired nearMembers 2 nearMembers.first)
    (routingSound_wired (by decide) (by decide))
    nearMembers.second "refused".toList true false (by decide) (by decide)
  exact (h.2.1 (by decide +kernel)).trans (by decide +kernel)

/-! ### Fingers on a wired ring -/

/-- The ring without those who are gone; `p` stays. -/
def Members.without (R : Members) (gone : Peer → Bool) {p : Peer} (hp : p ∈ R)
    (hg : gone p = false) : Members where
  list := R.list.filter fun q => ¬ gone q
  ne_nil := List.ne_nil_of_mem (List.mem_filter.mpr ⟨hp, by simp [hg]⟩)
  sorted := R.sorted.filter _

section fingers
variable {R : Members} {gone : Peer → Bool} {me f q : Peer} {front back between behind : List Peer}
  {i : ℕ}

theorem Members.mem_without {hme : me ∈ R} {hg : gone me = false} :
    q ∈ R.without gone hme hg ↔ q ∈ R ∧ gone q = false := by
  simp [Members.mem_def, Members.without]

/-- The owner of a finger's start goes with everyone up to `q`: then `q` is the owner. -/
theorem successorOf_without (hme : me ∈ R) (hg : gone me = false) (hi : i < ID_BITS)
    (hothers : others me R.list = front ++ f :: (between ++ q :: behind))
    (hf : f = successorOf (fingerStart me.id i) R) (hgone : gone f = true)
    (hbetween : ∀ x ∈ between, gone x = true) (hq : gone q = false) :
    successorOf (fingerStart me.id i) (R.without gone hme hg) = q := by
  have hme' : me ∈ R.without gone hme hg := Members.mem_without.mpr ⟨hme, hg⟩
  obtain ⟨hlow, hmin⟩ := steps_successorOf_fingerStart hme hi
  obtain ⟨hlow', hmin'⟩ := steps_successorOf_fingerStart hme' hi
  have ho := Members.mem_without.mp (successorOf_mem (fingerStart me.id i) (R.without gone hme hg))
  rw [← hf] at hlow hmin
  generalize successorOf (fingerStart me.id i) (R.without gone hme hg) = o at hlow' hmin' ho ⊢
  have hpw := pairwise_others hme
  simp only [hothers, List.pairwise_append, List.pairwise_cons, List.mem_append,
    List.mem_cons] at hpw
  obtain ⟨-, ⟨hafter, -, ⟨hbehind, -⟩, -⟩, hbefore⟩ := hpw
  have hmem : q ∈ others me R.list := by simp [hothers]
  obtain ⟨hqR, hqme⟩ := (mem_others R.nodup hme).mp hmem
  have hfq := hafter q (.inr (.inl rfl))
  have hoq := hmin' q.id (Members.id_mem (Members.mem_without.mpr ⟨hqR, hq⟩)) (by omega)
  have hfo := hmin o.id (Members.id_mem ho.1) hlow'
  have hne : o ≠ me := by
    rintro rfl
    have hlt := dist_lt o.id q.id
    rw [dist_eq_steps fun he => hqme (Members.eq_of_id hqR hme he.symm)] at hlt
    rw [steps_self] at hoq
    omega
  have hin : o ∈ others me R.list := (mem_others R.nodup hme).mpr ⟨ho.1, hne⟩
  simp only [hothers, List.mem_append, List.mem_cons] at hin
  rcases hin with hin | rfl | hin | rfl | hin
  · have := hbefore o hin f (.inl rfl)
    omega
  · exact absurd (hgone.symm.trans ho.2) (by decide)
  · exact absurd ((hbetween o hin).symm.trans ho.2) (by decide)
  · rfl
  · have := hbehind o hin
    omega

theorem replacement_eq {s : NodeState} (hlist : s.succs = front ++ f :: back)
    (hgone : gone f = true) :
    s.replacement gone = ((front.dropWhile fun p => ¬ gone p) ++ back).find? fun p => ¬ gone p := by
  have hdrop : (s.succs.dropWhile fun p => ¬ gone p) =
      (front.dropWhile fun p => ¬ gone p) ++ f :: back := by
    rw [hlist, List.dropWhile_append, List.dropWhile_cons_of_neg (by simp [hgone])]
    split
    · rename_i hnil
      rw [List.isEmpty_iff.mp hnil, List.nil_append]
    · rfl
  rw [NodeState.replacement, hdrop, List.find?_append, List.find?_append,
    List.find?_cons_of_neg (by simp [hgone])]

theorem others_of_succList {r : ℕ} (hme : me ∈ R) (hg : gone me = false) (hgone : gone f = true)
    (hlist : succList R r me = front ++ f :: back) :
    (front ++ f :: back).Nodup ∧ ∃ rest, others me R.list = front ++ f :: back ++ rest := by
  have htake : (others me R.list).take r = front ++ f :: back := by
    rw [← nextMembers_eq hme, ← hlist, succList, if_neg]
    intro hnil
    rw [succList, if_pos hnil] at hlist
    have hfme : f = me := List.mem_singleton.mp (by rw [hlist]; simp)
    rw [hfme, hg] at hgone
    cases hgone
  rw [← htake]
  refine ⟨(List.nodup_cons.mp (nodup_others R.nodup hme)).2.sublist (List.take_sublist _ _), _,
    (List.take_append_drop _ _).symm⟩

theorem front_eq_nil {r : ℕ} (hr : 1 ≤ r) (hme : me ∈ R) (hnodup : (front ++ f :: back).Nodup)
    (hlist : succList R r me = front ++ f :: back) (hf : f = successorOf (fingerStart me.id 0) R) :
    front = [] := by
  have hhead := headD_succList hr hme
  rw [hlist] at hhead
  cases front with
  | nil => rfl
  | cons x l =>
    have hxf : x = f := hhead.trans hf.symm
    rw [hxf] at hnodup
    exact absurd (by simp) (List.nodup_cons.mp hnodup).1

theorem keptSuccs_head {s : NodeState} {first : Peer} {kept : List Peer}
    (hlist : s.succs = f :: back) (hgone : gone f = true)
    (hq : back.find? (fun x => ¬ gone x) = some q) (hkept : s.keptSuccs gone = first :: kept) :
    first = q := by
  have hfilter : s.succs.filter (fun x => ¬ gone x) = back.filter fun x => ¬ gone x := by
    rw [hlist, List.filter_cons_of_neg (by simp [hgone])]
  have hhead := @List.head?_filter _ (fun x => decide ¬ gone x = true) back
  rw [hq] at hhead
  have hne : back.filter (fun x => ¬ gone x) ≠ [] := fun hnil => by
    rw [hnil] at hhead
    cases hhead
  rw [NodeState.keptSuccs, hfilter, if_neg hne] at hkept
  rw [hkept] at hhead
  exact Option.some.inj hhead

/-- Who is found from the first evicted entry on is the one found behind `f`, unless somebody stays
in between. -/
theorem find?_behind_iff (hnodup : (front ++ f :: back).Nodup)
    (hq : back.find? (fun x => ¬ gone x) = some q) (first : Peer) :
    (((front.dropWhile fun x => ¬ gone x) ++ back).find? fun x => ¬ gone x).getD first = q ↔
      ∀ x ∈ front.dropWhile fun x => ¬ gone x, gone x = true := by
  rw [List.find?_append, hq]
  cases hfind : (front.dropWhile fun x => ¬ gone x).find? fun x => ¬ gone x with
  | none =>
    have hall := List.find?_eq_none.mp hfind
    exact ⟨fun _ x hx => by simpa using hall x hx, fun _ => rfl⟩
  | some y =>
    have hy := List.mem_of_find?_eq_some hfind
    have hstays : gone y = false := by simpa using List.find?_some hfind
    constructor
    · intro h
      have hyq : y = q := h
      exact absurd hyq ((List.nodup_append.mp hnodup).2.2 y ((List.dropWhile_sublist _).subset hy) q
        (List.mem_cons_of_mem _ (List.mem_of_find?_eq_some hq)))
    · intro hall
      exact absurd (hstays.symm.trans (hall y hy)) Bool.false_ne_true

end fingers

/-- **The fingers of the evicted get their exact owner, unless a process goes whose members stand
apart.**  On a ring wired by `init_wired`, a finger at an evicted member with somebody left behind
it in the list becomes the owner of its start among those who are left exactly if nobody who stays
stands between the first evicted entry and that member; it always does if a single member is
evicted. -/
theorem evict_fingers_exact_iff (R : Members) (s : NodeState) (hme : s.self ∈ R) (hr : 1 ≤ s.r)
    (hsuccs : s.succs = (wired R s.r s.self).succs)
    (hfingers : s.fingers = (wired R s.r s.self).fingers) (dead : Peer) (why : Str)
    (whole said : Bool) (hself : NodeState.gone dead whole s.self = false)
    (hsaid : sameProcess dead s.self = true → said = true) (i : ℕ) (f : Peer)
    (front back : List Peer) (hf : s.fingers[i]? = some f)
    (hgone : NodeState.gone dead whole f = true) (hlist : s.succs = front ++ f :: back)
    (hback : ∃ q ∈ back, NodeState.gone dead whole q = false) :
    let gone := NodeState.gone dead whole
    let exact := (s.evict dead why whole said).fingers[i]? =
      some (successorOf (fingerStart s.self.id i) (R.without gone hme hself))
    (exact ↔ ∀ x ∈ front.dropWhile fun x => ¬ gone x, gone x = true) ∧ (whole = false → exact) := by
  intro gone exact
  have hfl := hfingers.trans (wired_fingers hr hme)
  have hi : i < ID_BITS := by
    have := (List.getElem?_eq_some_iff.mp hf).1
    rwa [hfl, length_buildFingers] at this
  have howner : f = successorOf (fingerStart s.self.id i) R := by
    rw [hfl, getElem?_buildFingers _ _ hi] at hf
    exact (Option.some.inj hf).symm
  have hwired : succList R s.r s.self = front ++ f :: back :=
    (hsuccs.trans (sameRouting_wired R s.r s.self).succs).symm.trans hlist
  obtain ⟨hnodup, rest, hothers⟩ := others_of_succList hme hself hgone hwired
  -- the first of those who stay behind `f`
  obtain ⟨q, hq⟩ : ∃ q, back.find? (fun x => ¬ gone x) = some q := by
    rw [← Option.isSome_iff_exists, List.find?_isSome]
    obtain ⟨q, hmem, hstays⟩ := hback
    exact ⟨q, hmem, by simpa using hstays⟩
  have hleft : successorOf (fingerStart s.self.id i) (R.without gone hme hself) = q := by
    obtain ⟨hstays, between, behind, hsplit, hbetween⟩ := List.find?_eq_some_iff_append.mp hq
    have hothers' : others s.self R.list = front ++ f :: (between ++ q :: (behind ++ rest)) := by
      rw [hothers, hsplit]
      simp
    exact successorOf_without hme hself hi hothers' howner hgone
      (fun x hx => by simpa using hbetween x hx)
      (by simpa using hstays)
  obtain ⟨first, kept, hkept⟩ := List.exists_cons_of_ne_nil (keptSuccs_ne_nil s gone)
  have hiff : exact ↔ ∀ x ∈ front.dropWhile fun x => ¬ gone x, gone x = true := by
    simp only [exact, hleft]
    rw [getElem?_fingers_evict hself hsaid hkept hf, Option.some_inj, if_pos hgone]
    by_cases h0 : i = 0
    · have hfront : front = [] := front_eq_nil hr hme hnodup hwired (h0 ▸ howner)
      rw [hfront, List.nil_append] at hlist
      simp [h0, hfront, keptSuccs_head hlist hgone hq hkept]
    · rw [if_neg h0, replacement_eq hlist hgone, find?_behind_iff hnodup hq]
  refine ⟨hiff, fun hone => hiff.mpr fun x hx => ?_⟩
  -- nobody else is evicted, and `f` is in the list once
  subst hone
  have hfd : f = dead := by simpa [NodeState.gone] using hgone
  have hnil : (front.dropWhile fun x => ¬ gone x) = [] := by
    rw [List.dropWhile_eq_nil_iff]
    intro y hy
    have hyf := (List.nodup_append.mp hnodup).2.2 y hy f List.mem_cons_self
    simpa [gone, NodeState.gone, ← hfd] using hyf
  rw [hnil] at hx
  cases hx

/-- Five members, of which the second and the fourth run in one process. -/
def apartMembers : Members where
  list := [hostPeer 0 1, hostPeer 1 2, hostPeer 2 3, hostPeer 4 2, hostPeer 8 4]
  ne_nil := by decide
  sorted := by decide

/-- The fourth member is evicted on strikes: finger 2 of the first goes to the fifth. -/
theorem evict_fingers_exact_one : let me := successorOf 0 apartMembers
    let dead := successorOf 4 apartMembers
    ((wired apartMembers 4 me).evict dead "timeout".toList false false).fingers[2]? =
      some (successorOf (fingerStart me.id 2) (apartMembers.without (NodeState.gone dead false)
        (successorOf_mem 0 apartMembers) (by decide))) :=
  (evict_fingers_exact_iff apartMembers (wired apartMembers 4 (successorOf 0 apartMembers))
    (by decide) (by decide) rfl rfl (successorOf 4 apartMembers) "timeout".toList false false
      (by decide) (by decide) 2 (successorOf 4 apartMembers)
    [successorOf 1 apartMembers, successorOf 2 apartMembers] [successorOf 8 apartMembers]
      (by decide +kernel)
    (by decide) (by decide +kernel) ⟨_, List.mem_singleton_self _, by decide⟩).2 rfl

/-- **One replacement does not fit both members of a process.**  The process of the second and the
fourth member refuses a connection.  The finger at the fourth, with the fifth behind it in the list,
goes to the third, which stands before it; the owner of its start is now the fifth. -/
theorem evict_fingers_apart : let me := successorOf 0 apartMembers
    let dead := successorOf 1 apartMembers
    let s := wired apartMembers 4 me
    s.succs = [1, 2, 4, 8].map (successorOf · apartMembers) ∧
    s.fingers[2]? = some (successorOf 4 apartMembers) ∧
    NodeState.gone dead true (successorOf 4 apartMembers) = true ∧
    NodeState.gone dead true (successorOf 8 apartMembers) = false ∧
    (s.evict dead "refused".toList true false).fingers[2]? = some (successorOf 2 apartMembers) ∧
    successorOf (fingerStart me.id 2) (apartMembers.without (NodeState.gone dead true)
      (successorOf_mem 0 apartMembers) (by decide)) = successorOf 8 apartMembers := by
  decide +kernel

end ChordFs
