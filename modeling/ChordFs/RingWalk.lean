import ChordFs.Collect
import ChordFs.Replicas

/-! # Finding every process

The collector's walk round the ring (`walk_ring` of `collect.cpp`): it asks a member for its
successors and goes on from the farthest of them, until `start` is among them again.

Seen from `start`, the members of a correct ring are one list.  The walk has got to a place in it,
and what it is told there is what follows and, behind the end, the list from its front
(`succList_split`).  So it misses nobody and closes after at most `⌈n / r⌉` questions, or two
(`WiredRing.run_walkRing`). -/

namespace ChordFs

open Dialogue Collect

/-- The process, unless it was found before. -/
def addProcess (processes : List Peer) (p : Peer) : List Peer :=
  if processes.any (sameProcess p) then processes else processes ++ [p]

/-- What a member says of its neighbours, or why nothing can be made of it. -/
def walkAnswer (a : Exchanged) : Except Str Neighbours :=
  if a.delivery ≠ .ok then .error [] else parseNeighbours a.reply

def walkFault (current : Peer) (why : Str) : Str :=
  "could not ask ".toList ++ address current ++ " for its successors".toList ++
    (if why = [] then [] else ": ".toList ++ why)

def openWalk (maxSteps : ℕ) : Str :=
  "the ring walk did not close after ".toList ++ num maxSteps ++ " steps".toList

section
variable {σ : Type}

/-- `walk_ring` with `left` steps left. -/
def walkFrom (start : Peer) (maxSteps : ℕ) :
    ℕ → Peer → List Peer → Prog σ Call (fun _ => Exchanged) Found
  | 0, _, processes => .done ⟨processes, some (openWalk maxSteps)⟩
  | left + 1, current, processes =>
    .call ⟨current, "NEIGHBOURS".toList⟩ fun a =>
      match walkAnswer a with
      | .error why => .done ⟨processes, some (walkFault current why)⟩
      | .ok nb =>
        let processes := nb.succs.foldl addProcess processes
        match nb.succs.getLast? with
        | none => .done ⟨processes, none⟩
        | some last =>
          -- the list runs clockwise without gaps: a walk that has gone round has `start` in it
          if start ∈ nb.succs ∨ last = current then .done ⟨processes, none⟩
          else walkFrom start maxSteps left last processes

def walkRing (start : Peer) (maxSteps : ℕ) : Prog σ Call (fun _ => Exchanged) Found :=
  walkFrom start maxSteps maxSteps start [start]

end

/-! ### What has been found -/

/-- Distinct processes of the ring, and among them that of everybody seen. -/
structure Covering (R : Members) (seen processes : List Peer) : Prop where
  mem : ∀ p ∈ processes, p ∈ R
  distinct : processes.Pairwise fun p q => sameProcess q p = false
  covers : ∀ p ∈ seen, ∃ q ∈ processes, sameProcess p q = true

section covering
variable {R : Members} {seen processes l : List Peer} {p : Peer}

theorem Covering.add (h : Covering R seen processes) (hp : p ∈ R) :
    Covering R (seen ++ [p]) (addProcess processes p) := by
  have hcovers : ∀ q ∈ seen ++ [p], q ∈ seen ∨ q = p := by simp
  unfold addProcess
  split
  · rename_i hold
    refine ⟨h.mem, h.distinct, fun q hq => ?_⟩
    rcases hcovers q hq with hq | rfl
    · exact h.covers q hq
    · exact List.any_eq_true.mp hold
  · rename_i hnew
    simp only [List.any_eq_true, not_exists, not_and, Bool.not_eq_true] at hnew
    refine ⟨?_, ?_, fun q hq => ?_⟩
    · intro q hq
      rcases List.mem_append.mp hq with hq | hq
      · exact h.mem q hq
      · rw [List.mem_singleton.mp hq]
        exact hp
    · refine List.pairwise_append.mpr ⟨h.distinct, List.pairwise_singleton _ _, fun a ha b hb => ?_⟩
      rw [List.mem_singleton.mp hb]
      exact hnew a ha
    · rcases hcovers q hq with hq | rfl
      · obtain ⟨q', hq', hsame⟩ := h.covers q hq
        exact ⟨q', List.mem_append_left _ hq', hsame⟩
      · exact ⟨q, by simp, sameProcess_self q⟩

theorem Covering.addAll (h : Covering R seen processes) (hl : ∀ p ∈ l, p ∈ R) :
    Covering R (seen ++ l) (l.foldl addProcess processes) := by
  induction l generalizing seen processes with
  | nil => rwa [List.append_nil]
  | cons p l ih =>
    have hrest := ih (h.add (hl p List.mem_cons_self)) fun q hq => hl q (List.mem_cons_of_mem p hq)
    rwa [List.append_assoc] at hrest

theorem Covering.mono {seen' : List Peer} (h : Covering R seen processes)
    (hsub : ∀ p ∈ seen', p ∈ seen) :
    Covering R seen' processes := ⟨h.mem, h.distinct, fun p hp => h.covers p (hsub p hp)⟩

theorem Covering.once (h : Covering R seen processes) (hp : p ∈ seen) :
    (processes.filter fun q => sameProcess p q).length = 1 := by
  have hdistinct := h.distinct.sublist (List.filter_sublist (p := fun q => sameProcess p q))
  have hsame : ∀ q ∈ processes.filter fun q => sameProcess p q, p.ip = q.ip ∧ p.port = q.port :=
    fun q hq => by
    simpa [sameProcess] using (List.mem_filter.mp hq).2
  cases hl : processes.filter fun q => sameProcess p q with
  | nil =>
    obtain ⟨q, hq, hpq⟩ := h.covers p hp
    have hmem : q ∈ processes.filter fun q => sameProcess p q := List.mem_filter.mpr ⟨hq, hpq⟩
    rw [hl] at hmem
    cases hmem
  | cons a rest =>
    cases rest with
    | nil => rfl
    | cons b rest =>
      -- two of them would be one process
      rw [hl] at hdistinct hsame
      have hab := (List.pairwise_cons.mp hdistinct).1 b List.mem_cons_self
      obtain ⟨ha, ha'⟩ := hsame a List.mem_cons_self
      obtain ⟨hb, hb'⟩ := hsame b (by simp)
      simp [sameProcess, ← ha, ← ha', ← hb, ← hb'] at hab

end covering

/-! ### The walk on a correct ring -/

/-- The ring answers, and it is kept who was asked. -/
def Ring.overheard (depth : ℕ) (c : Call) (x : Ring × List Peer) : Exchanged × Ring × List Peer :=
  ((Ring.deliver depth c x.1).1, (Ring.deliver depth c x.1).2, x.2 ++ [c.node])

section walk
variable {R : Members} {r depth : ℕ} {ρ : Ring} {start current : Peer}
  {front back processes asked : List Peer} {σ : Type} {s : σ}

/-- **From any place in the list the successors are what follows, and then the list from its
front.** -/
theorem succList_split (hstart : start ∈ R)
    (hsplit : start :: others start R.list = front ++ current :: back) (hr : 1 ≤ r)
    (hmore : back ++ front ≠ []) : succList R r current = (back ++ front).take r := by
  have hcurrent : current ∈ R.list := by
    refine (others_perm hstart).subset ?_
    rw [hsplit]
    simp
  rw [succList, nextMembers_eq hcurrent, others_split R.nodup hstart hsplit, if_neg]
  intro hnil
  rcases List.take_eq_nil_iff.mp hnil with h | h
  · omega
  · exact hmore h

/-- A list that ends before `start` does not close the walk, and its last entry lies further on. -/
theorem walk_goes_on {last : Peer} (hstart : start ∈ R)
    (hsplit : start :: others start R.list = front ++ current :: back)
    (hahead : succList R r current = back.take r)
    (hlast : (succList R r current).getLast? = some last) :
    ∃ near, back.take r = near ++ [last] ∧
      start :: others start R.list = front ++ current :: near ++ last :: back.drop r ∧
      ¬ (start ∈ succList R r current ∨ last = current) := by
  rw [hahead] at hlast ⊢
  obtain ⟨near, hnear⟩ := List.getLast?_eq_some_iff.mp hlast
  have hsplit' : start :: others start R.list =
      front ++ [current] ++ (near ++ last :: back.drop r) := by
    conv_lhs => rw [hsplit, ← List.take_append_drop r back, hnear]
    simp
  have hapart := List.disjoint_of_nodup_append (hsplit' ▸ nodup_others R.nodup hstart)
  have hfront : start ∈ front ++ [current] := by
    cases front with
    | nil => simp [(List.cons.inj hsplit).1]
    | cons a l => simp [(List.cons.inj hsplit).1]
  refine ⟨near, hnear, by simpa using hsplit', ?_⟩
  rintro (hbad | rfl)
  · rw [hnear, List.mem_append, List.mem_singleton] at hbad
    exact hapart hfront (by simp only [List.mem_append, List.mem_cons]; tauto)
  · exact @hapart last (by simp) (by simp)

variable (h : WiredRing R r ρ) (hr : 1 ≤ r ∧ r ≤ MAX_SUCCESSORS)
include h hr

theorem WiredRing.run_walkFrom_succ (hc : current ∈ R) (maxSteps left : ℕ) {last : Peer}
    (hlast : (succList R r current).getLast? = some last) :
    (walkFrom start maxSteps (left + 1) current processes).run
        (Ring.overheard (depth + 1)) s (ρ, asked) =
      if start ∈ succList R r current ∨ last = current then
        (⟨(succList R r current).foldl addProcess processes, none⟩, s, ρ, asked ++ [current])
      else (walkFrom start maxSteps left last
        ((succList R r current).foldl addProcess processes)).run
        (Ring.overheard (depth + 1)) s (ρ, asked ++ [current]) := by
  obtain ⟨a, pred, hdeliver, hok, hparse⟩ := @WiredRing.neighbours R r depth ρ h hr current hc
  have hanswer : walkAnswer a = .ok ⟨pred, succList R r current⟩ := by
    rw [walkAnswer, if_neg (not_not_intro hok), hparse]
  rw [walkFrom, Prog.run, Ring.overheard]
  simp only [hdeliver, hanswer, hlast]
  split <;> rfl

/-- Everybody on the circle is in one of the lists that were read. -/
def ListsCover (R : Members) (r : ℕ) (asked : List Peer) : Prop :=
  ∀ p ∈ R, ∃ q ∈ asked, p ∈ succList R r q

/-- How a walk ends: if it closes it has found everybody. -/
structure WalkEnds (R : Members) (r : ℕ) (found : Found) (asked : List Peer) : Prop where
  covering : found.err = none → Covering R R.list found.processes
  lists : found.err = none → ListsCover R r asked

theorem WiredRing.run_walkFrom (hstart : start ∈ R)
    (maxSteps left : ℕ) (hsplit : start :: others start R.list = start :: front ++ current :: back)
    (hfound : Covering R (start :: front ++ [current]) processes)
    (hlists : ∀ p ∈ front ++ [current], ∃ q ∈ asked, p ∈ succList R r q) :
    ∃ found asked', (walkFrom start maxSteps left current processes).run
      (Ring.overheard (depth + 1)) s (ρ, asked) =
      (found, s, ρ, asked') ∧ WalkEnds R r found asked' ∧
      (back.length < left * r → found.err = none) := by
  induction left generalizing front current back processes asked with
  | zero =>
    refine ⟨_, asked, rfl, ⟨?_, ?_⟩, by omega⟩
    · intro he
      cases he
    · intro he
      cases he
  | succ left ih =>
    have hall : ∀ p, p ∈ R ↔ p ∈ start :: front ++ current :: back := fun p => by
      rw [← hsplit, (others_perm hstart).mem_iff]
      rfl
    have hc : current ∈ R := (hall current).mpr (by simp)
    have hlist := succList_split hstart hsplit hr.1 (by simp)
    obtain ⟨last, hlast⟩ : ∃ last, (succList R r current).getLast? = some last :=
      ⟨_, List.getLast?_eq_some_getLast (List.ne_nil_of_length_pos (length_succList hr.1 hc).1)⟩
    rw [h.run_walkFrom_succ hr hc maxSteps left hlast]
    have hadd := hfound.addAll fun p (hp : p ∈ succList R r current) => mem_of_mem_succList hc hp
    have hasked : ∀ p ∈ front ++ [current], ∃ q ∈ asked ++ [current], p ∈ succList R r q :=
      fun p hp => by
      obtain ⟨q, hq, hpq⟩ := hlists p hp
      exact ⟨q, List.mem_append_left _ hq, hpq⟩
    rcases Nat.lt_or_ge back.length r with hnear | hfar
    · -- the list comes round to `start` and has everybody who lay ahead
      have hround : succList R r current = back ++ (start :: front).take (r - back.length) := by
        rw [hlist, List.take_append, List.take_of_length_le (Nat.le_of_lt hnear)]
      have hback : ∀ p ∈ back, p ∈ succList R r current := fun p hp => by
        rw [hround]
        exact List.mem_append_left _ hp
      have hstartIn : start ∈ succList R r current := by
        obtain ⟨n, hn⟩ : ∃ n, r - back.length = n + 1 := ⟨r - back.length - 1, by omega⟩
        rw [hround, hn, List.take_succ_cons]
        simp
      rw [if_pos (.inl hstartIn)]
      refine ⟨_, _, rfl, ⟨fun _ => hadd.mono fun p hp => ?_, fun _ p hp => ?_⟩, fun _ => rfl⟩
      · have hp := (hall p).mp hp
        simp only [List.mem_append, List.mem_cons] at hp ⊢
        have := hback p
        tauto
      · have hp := (hall p).mp hp
        simp only [List.mem_append, List.mem_cons] at hp
        rcases hp with (rfl | hp) | rfl | hp
        · exact ⟨current, by simp, hstartIn⟩
        · exact hasked p (by simp [hp])
        · exact hasked p (by simp)
        · exact ⟨current, by simp, hback p hp⟩
    · -- the walk goes on from the last of what it was told
      have hahead : succList R r current = back.take r := by
        rw [hlist, List.take_append_of_le_length hfar]
      obtain ⟨near, hnear, hsplit', hnot⟩ := walk_goes_on hstart hsplit hahead hlast
      rw [if_neg hnot]
      rw [hahead, hnear] at hadd ⊢
      obtain ⟨found, asked', hrun, hends, hcloses⟩ :=
        @ih _ (front ++ current :: near) _ _ (asked ++ [current]) hsplit'
        (hadd.mono fun p hp => by simpa using hp) fun p hp => by
          have hcases : p ∈ front ++ [current] ∨ p ∈ near ++ [last] := by
            simp only [List.mem_append, List.mem_cons, List.not_mem_nil, or_false] at hp ⊢
            tauto
          rcases hcases with hp | hp
          · exact hasked p hp
          · exact ⟨current, by simp, by rwa [hahead, hnear]⟩
      refine ⟨found, asked', hrun, hends, fun hleft => hcloses ?_⟩
      rw [List.length_drop]
      rw [Nat.succ_mul] at hleft
      omega

/-- **The walk on a correct ring** ends with everybody found if it closes, and closes if `r` members
a step are enough to get round. -/
theorem WiredRing.run_walkRing (hstart : start ∈ R) (maxSteps : ℕ) :
    ∃ found asked, (walkRing start maxSteps).run (Ring.overheard (depth + 1)) s (ρ, []) = (found,
      s, ρ, asked) ∧
      WalkEnds R r found asked ∧
      (min 2 R.list.length ≤ maxSteps → R.list.length ≤ maxSteps * r → found.err = none) := by
  have hnew : Covering R [start] [start] :=
    ⟨by simpa using hstart, List.pairwise_singleton _ _, by simpa using sameProcess_self start⟩
  have hlen := length_others hstart
  unfold walkRing
  cases maxSteps with
  | zero =>
    refine ⟨_, [], rfl, ⟨?_, ?_⟩, ?_⟩
    · intro he
      cases he
    · intro he
      cases he
    · omega
  | succ left =>
    obtain ⟨last, hlast⟩ : ∃ last, (succList R r start).getLast? = some last :=
      ⟨_, List.getLast?_eq_some_getLast (List.ne_nil_of_length_pos (length_succList hr.1 hstart).1)⟩
    rw [h.run_walkFrom_succ hr hstart _ left hlast]
    have hadd := hnew.addAll fun p (hp : p ∈ succList R r start) => mem_of_mem_succList hstart hp
    cases ho : others start R.list with
    | nil =>
      -- a member alone is its own successor
      have halone : ∀ p ∈ R, p = start := fun p hp => by
        have hp := (others_perm hstart).mem_iff.mpr hp
        simpa [ho] using hp
      have hin : start ∈ succList R r start := by
        rw [succList_alone hstart ho]
        simp
      rw [if_pos (.inl hin)]
      refine ⟨_, _, rfl, ⟨fun _ => hadd.mono fun p hp => ?_, fun _ p hp => ?_⟩, fun _ _ => rfl⟩
      · rw [halone p hp]
        simp
      · rw [halone p hp]
        exact ⟨start, by simp, hin⟩
    | cons q rest =>
      -- the first list does not come back to `start`
      have hlist : succList R r start = (others start R.list).take r := by
        have := @succList_split R r start start [] _ hstart rfl hr.1 (by simp [ho])
        simpa using this
      obtain ⟨near, hnear, hsplit, hnot⟩ :=
        @walk_goes_on R r start start [] _ last hstart rfl hlist hlast
      rw [if_neg hnot]
      rw [hlist, hnear] at hadd ⊢
      obtain ⟨found, asked, hrun, hends, hcloses⟩ :=
        @WiredRing.run_walkFrom R r depth ρ start last near _ _
        [start] _ s h hr hstart (left + 1) left hsplit hadd fun p hp =>
          ⟨start, by simp, by rwa [hlist, hnear]⟩
      refine ⟨found, asked, hrun, hends, fun htwo hsize => hcloses ?_⟩
      have hmany : 2 ≤ R.list.length := by
        rw [ho, List.length_cons] at hlen
        omega
      have hleft : 1 * r ≤ left * r := Nat.mul_le_mul_right r (by omega)
      rw [List.length_drop]
      rw [Nat.succ_mul] at hsize
      omega

end walk

/-- **The ring walk finds everyone.**  On a ring wired by `init_wired`, from any member and with as
many steps as members, the walk closes with every process of the ring once; and with whatever number
of steps, it does not close before the lists it has read cover the circle. -/
theorem walk_finds_everyone (R : Members) (r : ℕ) (hr : 1 ≤ r ∧ r ≤ MAX_SUCCESSORS) (start : Peer)
    (hstart : start ∈ R) (maxSteps depth : ℕ) :
    ∃ found asked, (walkRing start maxSteps).run (Ring.overheard (depth + 1)) ()
      ((wiredNet R r).ring, []) =
        (found, (), (wiredNet R r).ring, asked) ∧
      (R.list.length ≤ maxSteps → found.err = none ∧ (∀ p ∈ found.processes, p ∈ R) ∧
        ∀ p ∈ R, (found.processes.filter fun q => sameProcess p q).length = 1) ∧
      (found.err = none → ∀ p ∈ R, ∃ q ∈ asked, p ∈ succList R r q) := by
  have hwired : WiredRing R r (wiredNet R r).ring := ⟨rfl, fun _ _ => rfl⟩
  obtain ⟨found, asked, hrun, hends, hcloses⟩ :=
    @WiredRing.run_walkRing R r depth _ start _ () hwired hr
    hstart maxSteps
  refine ⟨found, asked, hrun, fun hn => ?_, hends.lists⟩
  have hround : R.list.length * 1 ≤ maxSteps * r := Nat.mul_le_mul hn hr.1
  have hok := hcloses (by omega) (by omega)
  have hcovering := hends.covering hok
  exact ⟨hok, hcovering.mem, fun p hp => hcovering.once hp⟩

/-- Three members, a successor each. -/
theorem walk_finds_everyone_three : ∃ found asked,
    (walkRing (predecessorOf 6 threeMembers) 3).run (Ring.overheard 1) ()
      ((wiredNet threeMembers 1).ring, []) =
      (found, (), (wiredNet threeMembers 1).ring, asked) ∧ found.err = none ∧
    ∀ p ∈ threeMembers, (found.processes.filter fun q => sameProcess p q).length = 1 := by
  obtain ⟨found, asked, hrun, hall, -⟩ :=
    walk_finds_everyone threeMembers 1 (by decide) (predecessorOf 6 threeMembers)
    (predecessorOf_mem 6 threeMembers) 3 0
  exact ⟨found, asked, hrun, (hall (by decide)).1, (hall (by decide)).2.2⟩

end ChordFs
