import ChordFs.RingNet
import Mathlib.Algebra.Order.Ring.Int
import Mathlib.Data.List.Rotate

/-! # Wired rings

The state `init_wired` gives a member of a ring, and what an honest member with such a state
replies.  The other members, in the order in which they follow a member, are its list rotated
(`others`); the successor list is a first piece of it, and the list of the successor is the same
order shifted by one (`others_next`), which is why merging it changes nothing (`merge_succList`). -/

namespace ChordFs

open Circle Dialogue

/-! ### The order of the others -/

/-- The other members, in the order in which they follow `p`. -/
def others (p : Peer) (l : List Peer) : List Peer := (l.rotate (l.idxOf p)).tail

section others
variable {p q : Peer} {l rest : List Peer} {R : Members}

theorem rotate_idxOf (hp : p ∈ l) : l.rotate (l.idxOf p) = p :: others p l := by
  have hlt := List.idxOf_lt_length_of_mem hp
  rw [others, List.rotate_eq_drop_append_take (Nat.le_of_lt hlt), List.drop_eq_getElem_cons hlt]
  simp

theorem nextMembers_eq (hp : p ∈ l) (r : ℕ) : nextMembers p l r = (others p l).take r := by
  have hlt := List.idxOf_lt_length_of_mem hp
  rw [nextMembers, others, List.rotate_eq_drop_append_take (Nat.le_of_lt hlt),
    List.drop_eq_getElem_cons hlt]
  rfl

theorem others_perm (hp : p ∈ l) : (p :: others p l).Perm l := by
  rw [← rotate_idxOf hp]
  exact List.rotate_perm l _

theorem length_others (hp : p ∈ l) : (others p l).length + 1 = l.length := by
  rw [← (others_perm hp).length_eq, List.length_cons]

section
variable (hn : l.Nodup) (hp : p ∈ l)
include hn hp

theorem nodup_others : (p :: others p l).Nodup :=
  (others_perm hp).nodup_iff.mpr hn

theorem mem_others : q ∈ others p l ↔ q ∈ l ∧ q ≠ p := by
  have hnodup := List.nodup_cons.mp (nodup_others hn hp)
  rw [← (others_perm hp).mem_iff]
  constructor
  · intro hq
    refine ⟨List.mem_cons_of_mem _ hq, ?_⟩
    rintro rfl
    exact hnodup.1 hq
  · rintro ⟨hq, hne⟩
    exact (List.mem_cons.mp hq).resolve_left hne

/-- **Everybody sees the same order**, from another place. -/
theorem others_split {front back : List Peer}
    (h : p :: others p l = front ++ q :: back) : others q l = back ++ front := by
  have hrot : l.rotate (l.idxOf p + front.length) = q :: (back ++ front) := by
    rw [← List.rotate_rotate, rotate_idxOf hp, h, List.rotate_append_length_eq, List.cons_append]
  have hpos : 0 < l.length := List.length_pos_of_mem hp
  have hmod : (l.idxOf p + front.length) % l.length < l.length := Nat.mod_lt _ hpos
  have hq : l[(l.idxOf p + front.length) % l.length] = q := by
    have hget := List.getElem_rotate l (l.idxOf p + front.length) 0 (by rw [List.length_rotate]; exact hpos)
    simpa [hrot] using hget.symm
  have hidx : l.idxOf q = (l.idxOf p + front.length) % l.length := by
    rw [← hq]
    exact hn.idxOf_getElem _ hmod
  rw [others, hidx, List.rotate_mod, hrot, List.tail_cons]

theorem others_next (h : others p l = q :: rest) : others q l = rest ++ [p] :=
  others_split hn hp (congrArg (p :: ·) h)

end

theorem Members.nodup (R : Members) : R.list.Nodup :=
  R.sorted.imp fun h he => BitVec.ne_of_lt h (congrArg Peer.id he)

theorem pairwise_others (hp : p ∈ R) :
    (others p R.list).Pairwise fun x y => steps p.id x.id < steps p.id y.id := by
  have hlt := List.idxOf_lt_length_of_mem hp
  have hsplit : R.list = R.list.take (R.list.idxOf p) ++ p :: R.list.drop (R.list.idxOf p + 1) := by
    conv_lhs => rw [← List.take_append_drop (R.list.idxOf p) R.list, List.drop_eq_getElem_cons hlt]
    simp
  have hothers : others p R.list = R.list.drop (R.list.idxOf p + 1) ++ R.list.take (R.list.idxOf p) := by
    rw [others, List.rotate_eq_drop_append_take (Nat.le_of_lt hlt), List.drop_eq_getElem_cons hlt]
    rfl
  generalize R.list.take (R.list.idxOf p) = before at hsplit hothers
  generalize R.list.drop (R.list.idxOf p + 1) = behind at hsplit hothers
  have hs := R.sorted
  rw [hsplit] at hs
  obtain ⟨hbefore, hrest, hcross⟩ := List.pairwise_append.mp hs
  obtain ⟨hp', hbehind⟩ := List.pairwise_cons.mp hrest
  rw [hothers]
  refine List.pairwise_append.mpr ⟨?_, ?_, ?_⟩
  · refine hbehind.imp_of_mem fun {x y} hx hy hxy => ?_
    have hx := hp' x hx
    have hy := hp' y hy
    simp only [BitVec.lt_def, steps_eq] at *
    rw [if_pos hx, if_pos hy]
    omega
  · refine hbefore.imp_of_mem fun {x y} hx hy hxy => ?_
    have hx := hcross x hx p List.mem_cons_self
    have hy := hcross y hy p List.mem_cons_self
    simp only [BitVec.lt_def, steps_eq] at *
    rw [if_neg (by omega), if_neg (by omega)]
    omega
  · intro x hx y hy
    have hx := hp' x hx
    have hy := hcross y hy p List.mem_cons_self
    have := x.id.isLt
    simp only [BitVec.lt_def, steps_eq] at *
    rw [if_pos hx, if_neg (by omega)]
    omega

theorem successorOf_eq_head (hp : p ∈ R) : successorOf (p.id + 1) R = (others p R.list).headD p := by
  have hfirst := first_successorOf hp
  cases ho : others p R.list with
  | nil =>
    have hlen := length_others hp
    rw [ho] at hlen
    obtain ⟨x, hx⟩ := List.length_eq_one_iff.mp hlen.symm
    have h₁ : successorOf (p.id + 1) R ∈ R.list := successorOf_mem _ R
    have h₂ : p ∈ R.list := hp
    rw [hx] at h₁ h₂
    rw [List.mem_singleton.mp h₁, List.mem_singleton.mp h₂]
    rfl
  | cons q rest =>
    have hq : q ∈ R ∧ q ≠ p := (mem_others R.nodup hp).mp (by rw [ho]; exact List.mem_cons_self)
    have hpair := pairwise_others hp
    rw [ho] at hpair
    refine Members.eq_of_id (successorOf_mem _ R) hq.1 (hfirst.unique ⟨Members.id_mem hq.1, ?_⟩)
    rintro _ ⟨m, hm, rfl⟩
    by_cases hmp : m = p
    · rw [hmp, steps_self]
      exact steps_le _ _
    · have hm' : m ∈ others p R.list := (mem_others R.nodup hp).mpr ⟨hm, hmp⟩
      rw [ho] at hm'
      rcases List.mem_cons.mp hm' with rfl | hm'
      · exact le_rfl
      · exact Nat.le_of_lt ((List.pairwise_cons.mp hpair).1 m hm')

theorem predecessorOf_eq {c : Peer} (hp : p ∈ R) (hc : c ∈ R) (hne : c ≠ p)
    (hs : successorOf (c.id + 1) R = p) : R.list.length > 1 ∧ predecessorOf p.id R = c := by
  refine ⟨?_, ?_⟩
  · have hlen := length_others hp
    have hmem : c ∈ others p R.list := (mem_others R.nodup hp).mpr ⟨hc, hne⟩
    have := List.length_pos_of_mem hmem
    omega
  · have hfirst := first_successorOf hc
    rw [hs] at hfirst
    have hlast := hfirst.last (Members.id_mem hc)
    exact Members.eq_of_id (predecessorOf_mem _ R) hc ((last_predecessorOf p.id R).unique hlast)

section
variable (hp : p ∈ R) (h : R.list.length > 1)
include hp h

theorem exists_other : ∃ q ∈ R, q ≠ p := by
  have hlen := length_others hp
  obtain ⟨q, hq⟩ := @List.exists_mem_of_length_pos _ (others p R.list) (by omega)
  exact ⟨q, (mem_others R.nodup hp).mp hq⟩

theorem successorOf_ne : successorOf (p.id + 1) R ≠ p := by
  intro he
  obtain ⟨q, hq, hqp⟩ := exists_other hp h
  have hle := (first_successorOf hp).le q.id (Members.id_mem hq)
  rw [he, steps_self] at hle
  have := steps_lt fun hid : p.id = q.id => hqp (Members.eq_of_id hq hp hid.symm)
  omega

theorem predecessorOf_ne : predecessorOf p.id R ≠ p := by
  intro he
  obtain ⟨q, hq, hqp⟩ := exists_other hp h
  have hle := (last_predecessorOf p.id R).le q.id (Members.id_mem hq)
  rw [he, steps_self] at hle
  have := steps_lt fun hid : q.id = p.id => hqp (Members.eq_of_id hq hp hid)
  omega

end

theorem successorOf_predecessorOf_key (k : Id) (R : Members) :
    successorOf ((predecessorOf k R).id + 1) R = successorOf k R := by
  have hfirst := (last_predecessorOf k R).first_of_owner (owner_successorOf k R)
  have hid := (first_successorOf (predecessorOf_mem k R)).unique hfirst
  exact Members.eq_of_id (successorOf_mem _ R) (successorOf_mem k R) hid

theorem successorOf_predecessorOf (hp : p ∈ R) : successorOf ((predecessorOf p.id R).id + 1) R = p :=
  Members.eq_of_id (successorOf_mem _ R) hp ((first_successorOf (predecessorOf_mem _ R)).unique
    ((last_predecessorOf p.id R).first (Members.id_mem hp)))

end others

/-! ### The reply to NEIGHBOURS -/

theorem parseCount_num {n : ℕ} (h1 : 1 ≤ n) (h2 : n ≤ MAX_SUCCESSORS) : parseCount (num n) = some n := by
  have hall : ∀ n < 17, 1 ≤ n → parseCount (num n) = some n := by decide
  exact hall n (Nat.lt_succ_of_le h2) h1

theorem parsePeers_wire (out : Neighbours) (why : Str) (ps : List Peer) (parsed : Neighbours) :
    parsePeers out why (ps.flatMap Peer.wire) parsed =
      (true, { parsed with succs := parsed.succs ++ ps }, why) := by
  induction ps generalizing parsed with
  | nil => simp [parsePeers]
  | cons p ps ih =>
    rw [List.flatMap_cons, Peer.wire]
    simp only [List.cons_append, List.nil_append, parsePeers, parsePeerWords_wire, ih, List.append_assoc]

theorem length_flatMap_wire (ps : List Peer) : (ps.flatMap Peer.wire).length = 3 * ps.length := by
  induction ps with
  | nil => rfl
  | cons p ps ih =>
    rw [List.flatMap_cons, List.length_append, ih, List.length_cons, Peer.wire]
    simp only [List.length_cons, List.length_nil]
    omega

theorem idToHex_ne_none (id : Id) : idToHex id ≠ "NONE".toList := by
  intro h
  have := congrArg List.length h
  rw [length_idToHex] at this
  revert this
  decide

theorem parseSuccessors_wire {out : Neighbours} {why : Str} (pred : Option Peer) {succs : List Peer}
    (h1 : 1 ≤ succs.length) (h2 : succs.length ≤ MAX_SUCCESSORS) :
    parseSuccessors out why (num succs.length) (succs.flatMap Peer.wire) ⟨pred, []⟩ =
      (true, ⟨pred, succs⟩, why) := by
  rw [parseSuccessors, parseCount_num h1 h2]
  dsimp only
  rw [if_neg (by rw [length_flatMap_wire]; simp), parsePeers_wire]
  rfl

theorem parseNeighboursInto_renderNeighbours (out : Neighbours) (why : Str) {nb : Neighbours}
    (h1 : 1 ≤ nb.succs.length) (h2 : nb.succs.length ≤ MAX_SUCCESSORS) :
    parseNeighboursInto out why (renderNeighbours nb) = (true, nb, why) := by
  obtain ⟨pred, succs⟩ := nb
  have hwires : ∀ w ∈ succs.flatMap Peer.wire, ' ' ∉ w := by
    intro w hw
    obtain ⟨p, _, hp⟩ := List.mem_flatMap.mp hw
    exact space_not_mem_wire hp
  have hverb : ¬ ("NEIGHBOURS".toList ≠ "NEIGHBOURS".toList) := fun h => h rfl
  have hsplit : ∀ pw : List Str, (∀ w ∈ pw, ' ' ∉ w) → splitSingleSpaces (words ("NEIGHBOURS".toList ::
      pw ++ num succs.length :: succs.flatMap Peer.wire)) = "NEIGHBOURS".toList ::
      pw ++ num succs.length :: succs.flatMap Peer.wire := by
    intro pw hpw
    apply splitSingleSpaces_words _ (by simp)
    intro w hw
    simp only [List.cons_append, List.mem_cons, List.mem_append] at hw
    rcases hw with hw | hw | hw | hw
    · rw [hw]
      decide
    · exact hpw w hw
    · rw [hw]
      exact space_not_mem_num _
    · exact hwires w hw
  cases pred with
  | none =>
    rw [parseNeighboursInto, renderNeighbours]
    dsimp only
    rw [hsplit ["NONE".toList] (by decide)]
    dsimp only [List.cons_append, List.nil_append]
    rw [if_neg hverb, if_pos rfl]
    exact parseSuccessors_wire none h1 h2
  | some p =>
    rw [parseNeighboursInto, renderNeighbours]
    dsimp only
    rw [hsplit p.wire fun w hw => space_not_mem_wire hw]
    dsimp only [Peer.wire, List.cons_append, List.nil_append]
    rw [if_neg hverb, if_neg (idToHex_ne_none p.id), parsePeerWords_wire]
    exact parseSuccessors_wire (some p) h1 h2

theorem parseNeighbours_renderNeighbours {nb : Neighbours} (h1 : 1 ≤ nb.succs.length)
    (h2 : nb.succs.length ≤ MAX_SUCCESSORS) : parseNeighbours (renderNeighbours nb) = .ok nb := by
  rw [parseNeighbours, parseNeighboursInto_renderNeighbours _ _ h1 h2]

theorem take_renderNeighbours (nb : Neighbours) : (renderNeighbours nb).take 3 = "NEI".toList := by
  have h : ∃ rest, renderNeighbours nb = "NEIGHBOURS".toList ++ rest := by
    rw [renderNeighbours]
    cases nb.pred with
    | none => exact ⟨_, words_cons_cons ..⟩
    | some p => exact ⟨_, words_cons_cons ..⟩
  obtain ⟨rest, h⟩ := h
  rw [h]
  rfl

/-! ### Honest answers -/

/-- An answer as a member gives it whose state is like `S`. -/
structure Honest (S : NodeState → Prop) (q : Call) (a : Exchanged) : Prop where
  ok : a.delivery = .ok
  checked : q.line = "PING".toList ∨ q.line = "NEIGHBOURS".toList ∨ (∃ c, q.line = notifyLine c) →
    answers q.line a = true
  neighbours : q.line = "NEIGHBOURS".toList →
    ∃ s, S s ∧ parseNeighbours a.reply = .ok ⟨s.pred, s.succs⟩
  find (k : Id) : q.line = findRequest k → ∃ s, S s ∧
    judge q.node k a = if (routeStep q.node s.succ s.fingers k).owner
      then .owner (routeStep q.node s.succ s.fingers k).peer
      else .next (routeStep q.node s.succ s.fingers k).peer

section honest
variable {S S' : NodeState → Prop} {q : Call} {a : Exchanged}

variable {s : NodeState} {M : Peer → Prop} {k : Id} {x : Peer} {H : Turns}

theorem Honest.mono (h : Honest S q a) (hS : ∀ s, S s → S' s) : Honest S' q a where
  ok := h.ok
  checked := h.checked
  neighbours hq := by
    obtain ⟨s, hs, hp⟩ := h.neighbours hq
    exact ⟨s, hS s hs, hp⟩
  find k hq := by
    obtain ⟨s, hs, hj⟩ := h.find k hq
    exact ⟨s, hS s hs, hj⟩

theorem goodReply_parsed {a : Exchanged} {nb nb' : Neighbours}
    (h : goodReply a parsedNeighbours = some nb) (hp : parseNeighbours a.reply = .ok nb') : nb = nb' := by
  unfold goodReply at h
  split at h
  · rw [parsedNeighbours, hp] at h
    exact (Option.some.inj h).symm
  · cases h

theorem succs_eq_cons (h : s.succs ≠ []) : ∃ rest, s.succs = s.succ :: rest := by
  obtain ⟨q, rest, hl⟩ := List.exists_cons_of_ne_nil h
  rw [NodeState.succ, hl]
  exact ⟨rest, rfl⟩

/-- Whom a state names. -/
structure Within (M : Peer → Prop) (s : NodeState) : Prop where
  succ : M s.succ
  holds : ∀ q, s.holds q = true → M q

theorem Within.of_tables (hne : s.succs ≠ []) (hpred : ∀ q, s.pred = some q → M q)
    (hsuccs : ∀ q ∈ s.succs, M q) (hfingers : ∀ q ∈ s.fingers, M q) : Within M s where
  succ := by
    obtain ⟨rest, hs⟩ := succs_eq_cons hne
    exact hsuccs _ (by rw [hs]; exact List.mem_cons_self)
  holds q hq := by
    simp only [NodeState.holds, decide_eq_true_eq] at hq
    rcases hq with hq | hq | hq
    · exact hpred q hq
    · exact hsuccs q hq
    · exact hfingers q hq

/-- An answer that names nobody. -/
structure Useless (a : Exchanged) : Prop where
  judged (n : Peer) (k : Id) (x : Peer) : judge n k a ≠ .next x ∧ judge n k a ≠ .owner x
  parsed (nb : Neighbours) : a.delivery = .ok → parseNeighbours a.reply ≠ .ok nb

theorem useless_refused {a : Exchanged} (h : a.delivery = .refused) : Useless a where
  judged n k x := by
    rw [judge, h, if_pos (by simp)]
    simp
  parsed nb hok := by
    rw [h] at hok
    cases hok

theorem Honest.named (h : Honest (Within M) q a) (hq : q.line = findRequest k)
    (hj : judge q.node k a = .next x ∨ judge q.node k a = .owner x) : M x := by
  obtain ⟨s, hs, hjudge⟩ := h.find k hq
  have hpeer : M (routeStep q.node s.succ s.fingers k).peer := by
    rcases routeStep_peer q.node s.succ s.fingers k with he | hmem
    · rw [he]
      exact hs.succ
    · exact hs.holds _ (by simp [NodeState.holds, hmem])
  rw [hjudge] at hj
  split at hj
  · rcases hj with hj | hj
    · cases hj
    · cases hj
      exact hpeer
  · rcases hj with hj | hj
    · cases hj
      exact hpeer
    · cases hj

theorem Honest.not_fail (h : Honest S q a) (hq : q.line = findRequest k) (e : LookupError) (m : Str) :
    judge q.node k a ≠ .fail e m := by
  obtain ⟨s, _, hjudge⟩ := h.find k hq
  rw [hjudge]
  split <;> simp

/-- **Nobody else is ever named** where every state and every answer names members only. -/
theorem knows_mem {p : Peer} {T : List Peer} (hme : M p) (htold : ∀ c ∈ T, M c)
    (hsaw : ∀ s, Saw H s → s.orphaned = false ∧ Within M s)
    (hheard : ∀ (q : Call) (a : Exchanged), Turn.said q a ∈ H → Honest (Within M) q a ∨ Useless a)
    (hk : Knows p T H x) : M x := by
  cases hk with
  | me => exact hme
  | told ht => exact htold x ht
  | @saw s _ hs hx =>
    rcases hx with rfl | hx
    · exact (hsaw s hs).2.succ
    · exact (hsaw s hs).2.holds x hx
  | @contact s _ hs ho _ =>
    rw [(hsaw s hs).1] at ho
    cases ho
  | @pred n _ a nb hn hgood hx =>
    rcases hheard _ a hn with honest | huseless
    · obtain ⟨s, hs, hparse⟩ := honest.neighbours rfl
      rw [goodReply_parsed hgood hparse] at hx
      exact hs.holds x (by simpa [NodeState.holds] using .inl hx)
    · unfold goodReply at hgood
      split at hgood
      · rename_i hok
        cases hparse : parseNeighbours a.reply with
        | ok nb' => exact absurd hparse (huseless.parsed nb' hok.1)
        | error why =>
          rw [parsedNeighbours, hparse] at hgood
          cases hgood
      · cases hgood
  | @named n k a _ hn hj =>
    rcases hheard _ a hn with honest | huseless
    · exact honest.named rfl hj
    · obtain ⟨hnext, howner⟩ := huseless.judged n k x
      rcases hj with hj | hj
      · exact absurd hj hnext
      · exact absurd hj howner

theorem findRequest_ne (k : Id) : findRequest k ≠ "PING".toList ∧
    findRequest k ≠ "NEIGHBOURS".toList ∧ ∀ c, findRequest k ≠ notifyLine c := by
  have hf := blankWords_findRequest k
  have hping : (blankWords "PING".toList).length = 1 := by decide
  have hneighbours : (blankWords "NEIGHBOURS".toList).length = 1 := by decide
  refine ⟨fun h => ?_, fun h => ?_, fun c h => ?_⟩
  · rw [← h, hf] at hping
    cases hping
  · rw [← h, hf] at hneighbours
    cases hneighbours
  · rw [h, blankWords_notifyLine] at hf
    simp at hf

theorem findRequest_injective {k' : Id} (h : findRequest k = findRequest k') : k = k' := by
  have hw := congrArg blankWords h
  rw [blankWords_findRequest, blankWords_findRequest] at hw
  simp only [List.cons.injEq, and_true, true_and] at hw
  have hk := idFromHex_idToHex k
  rw [hw, idFromHex_idToHex] at hk
  exact (Option.some.inj hk).symm

/-- **A member answers honestly** from the states it finds. -/
theorem Served.honest {h : Handled} (took : ℕ) (hs : Served q.node H q.line h)
    (hS : ∀ s, Saw H s → S s ∧ s.orphaned = false ∧ s.self = q.node ∧ 1 ≤ s.succs.length ∧ s.succs.length ≤ MAX_SUCCESSORS) :
    Honest S q ⟨.ok, h.reply, took⟩ := by
  obtain ⟨node, line⟩ := q
  dsimp only at hs hS
  cases hs with
  | @orphan _ s hsaw ho =>
    rw [(hS s hsaw).2.1] at ho
    cases ho
  | ping =>
    refine ⟨rfl, fun _ => ?_, fun hq => ?_, fun k hq => ?_⟩
    · dsimp only
      rw [answers_ping, goodReply, Handled.just, words_cons_cons, if_pos ⟨rfl, by simp⟩, isPong,
        if_pos (by rfl)]
      rfl
    · dsimp only at hq
      exact absurd hq (by decide)
    · exact absurd hq.symm (findRequest_ne k).1
  | @neighbours s hsaw =>
    obtain ⟨hs, _, _, h1, h2⟩ := hS s hsaw
    have hparse := @parseNeighbours_renderNeighbours ⟨s.pred, s.succs⟩ h1 h2
    refine ⟨rfl, fun _ => ?_, fun _ => ⟨s, hs, hparse⟩, fun k hq => ?_⟩
    · dsimp only
      rw [answers_neighbours, goodReply, Handled.just,
        if_pos ⟨rfl, by rw [take_renderNeighbours]; decide⟩, parsedNeighbours, hparse]
      rfl
    · exact absurd hq.symm (findRequest_ne k).2.1
  | @find s k hsaw =>
    obtain ⟨hs, _, hself, _, _⟩ := hS s hsaw
    refine ⟨rfl, fun hq => ?_, fun hq => ?_, fun k' hq => ⟨s, hs, ?_⟩⟩
    · obtain ⟨h1, h2, h3⟩ := findRequest_ne k
      rcases hq with hq | hq | ⟨c, hq⟩
      · exact absurd hq h1
      · exact absurd hq h2
      · exact absurd hq (h3 c)
    · exact absurd hq (findRequest_ne k).2.1
    · rw [← findRequest_injective hq, hself, Handled.just]
      exact judge_renderStep took (routeStep_covers node s.succ s.fingers k)
  | @twin c _ | @notify c s _ _ =>
    refine ⟨rfl, fun _ => ?_, fun hq => ?_, fun k hq => ?_⟩
    · dsimp only
      rw [answers_notify]
      rfl
    · exact absurd hq (notifyLine_ne c).2
    · exact absurd hq.symm ((findRequest_ne k).2.2 c)

end honest

/-! ### Wired states -/

theorem set_eq_self {l : List Peer} {i : ℕ} {x : Peer} (h : l[i]? = some x) : l.set i x = l := by
  obtain ⟨hi, rfl⟩ := List.getElem?_eq_some_iff.mp h
  exact List.set_getElem_self hi

/-- A member as `init_wired` leaves it. -/
def wired (R : Members) (r : ℕ) (p : Peer) : NodeState := (NodeState.fresh p r).initWired R

/-- The successor list of a wired member. -/
def succList (R : Members) (r : ℕ) (p : Peer) : List Peer :=
  if nextMembers p R.list r = [] then [p] else nextMembers p R.list r

section wired
variable {R : Members} {r : ℕ} {p q : Peer}

theorem sameRouting_wired (R : Members) (r : ℕ) (p : Peer) : SameRouting
    { NodeState.fresh p r with
      pred := if R.list.length > 1 then some (predecessorOf p.id R) else none
      succs := succList R r p
      fingers := (buildFingers p.id R).set 0 ((succList R r p).headD p) } (wired R r p) := by
  refine SameRouting.trans ?_ (sameRouting_rememberAll _ _)
  exact .refl _

theorem succList_alone (hp : p ∈ R) (h : others p R.list = []) : succList R r p = [p] := by
  rw [succList, nextMembers_eq hp, h]
  simp

theorem succList_cons (hr : 1 ≤ r) (hp : p ∈ R) {rest : List Peer} (h : others p R.list = q :: rest) :
    succList R r p = q :: rest.take (r - 1) := by
  obtain ⟨r, rfl⟩ : ∃ r', r = r' + 1 := ⟨r - 1, by omega⟩
  rw [succList, nextMembers_eq hp, h]
  simp

theorem headD_succList (hr : 1 ≤ r) (hp : p ∈ R) : (succList R r p).headD p = successorOf (p.id + 1) R := by
  rw [successorOf_eq_head hp]
  cases ho : others p R.list with
  | nil => rw [succList_alone hp ho]; rfl
  | cons q rest => rw [succList_cons hr hp ho]; rfl

theorem mem_of_mem_succList (hp : p ∈ R) (h : q ∈ succList R r p) : q ∈ R := by
  unfold succList at h
  split at h
  · rw [List.mem_singleton.mp h]
    exact hp
  · rw [nextMembers_eq hp] at h
    exact ((mem_others R.nodup hp).mp (List.mem_of_mem_take h)).1

theorem wired_succ (hr : 1 ≤ r) (hp : p ∈ R) : (wired R r p).succ = successorOf (p.id + 1) R := by
  have h := sameRouting_wired R r p
  rw [NodeState.succ, h.succs, h.self]
  exact headD_succList hr hp

theorem wired_fingers (hr : 1 ≤ r) (hp : p ∈ R) : (wired R r p).fingers = buildFingers p.id R := by
  have hzero : (buildFingers p.id R)[0]? = some (successorOf (p.id + 1) R) :=
    getElem?_buildFingers p.id R (by decide)
  rw [(sameRouting_wired R r p).fingers]
  dsimp only
  rw [headD_succList hr hp, set_eq_self hzero]

theorem length_succList (hr : 1 ≤ r) (hp : p ∈ R) :
    1 ≤ (succList R r p).length ∧ (succList R r p).length ≤ r := by
  cases ho : others p R.list with
  | nil =>
    rw [succList_alone hp ho]
    exact ⟨Nat.le_refl 1, hr⟩
  | cons q rest =>
    rw [succList_cons hr hp ho, List.length_cons, List.length_take]
    omega

end wired

/-! ### Merging -/

section merge
variable {self p : Peer} {r : ℕ} {out l : List Peer}

theorem mergeFrom_append (h : ∀ x ∈ l, x.id ≠ self.id) (hn : (out ++ l).Nodup) {rest : List Peer}
    (hrest : rest = [] ∨ ∃ more, rest = self :: more) :
    mergeFrom self r out (l ++ rest) = out ++ l.take (r - out.length) := by
  induction l generalizing out with
  | nil =>
    rcases hrest with rfl | ⟨more, rfl⟩
    · simp [mergeFrom]
    · rw [List.nil_append, mergeFrom]
      split <;> simp
  | cons x l ih =>
    have hid := h x List.mem_cons_self
    have hself : x ≠ self := fun he => hid (congrArg Peer.id he)
    rw [List.cons_append, mergeFrom]
    split
    · rename_i hfull
      rw [Nat.sub_eq_zero_of_le hfull]
      simp
    · rename_i hroom
      have hnot : x ∉ out := fun hmem =>
        (List.nodup_append.mp hn).2.2 x hmem x List.mem_cons_self rfl
      rw [if_neg hnot, ih (fun y hy => h y (List.mem_cons_of_mem _ hy)) (by simpa using hn)]
      obtain ⟨d, hd⟩ : ∃ d, r - out.length = d + 1 := ⟨r - out.length - 1, by omega⟩
      rw [hd, List.take_succ_cons, List.length_append, List.length_singleton,
        show r - (out.length + 1) = d by omega]
      simp

theorem prefix_mergeFrom (out l : List Peer) : out <+: mergeFrom self r out l := by
  induction l generalizing out with
  | nil => exact List.prefix_rfl
  | cons x l ih =>
    rw [mergeFrom]
    split
    · exact List.prefix_rfl
    split
    · exact List.prefix_rfl
    split
    · exact ih out
    split
    · exact ih out
    · exact (List.prefix_append out [x]).trans (ih _)

theorem mem_of_mem_mergeFrom {x : Peer} (h : x ∈ mergeFrom self r out l) : x ∈ out ∨ x ∈ l := by
  induction l generalizing out with
  | nil => exact .inl h
  | cons y l ih =>
    rw [mergeFrom] at h
    split at h
    · exact .inl h
    split at h
    · exact .inl h
    split at h
    · exact (ih h).imp_right (List.mem_cons_of_mem _)
    split at h
    · exact (ih h).imp_right (List.mem_cons_of_mem _)
    · rcases ih h with h | h
      · rcases List.mem_append.mp h with h | h
        · exact .inl h
        · exact .inr (List.mem_cons.mpr (.inl (List.mem_singleton.mp h)))
      · exact .inr (List.mem_cons_of_mem _ h)

theorem length_mergeFrom (h : out.length ≤ r) : (mergeFrom self r out l).length ≤ r := by
  induction l generalizing out with
  | nil => exact h
  | cons x l ih =>
    rw [mergeFrom]
    split
    · exact h
    split
    · exact h
    split
    · exact ih h
    split
    · exact ih h
    · exact ih (by rw [List.length_append, List.length_singleton]; omega)

theorem mem_fillForward {self owner x : Peer} {left j : ℕ} {fingers : List Peer}
    (h : x ∈ (fillForward self owner left j fingers).2) : x = owner ∨ x ∈ fingers := by
  induction left generalizing j fingers with
  | zero => exact .inr h
  | succ left ih =>
    rw [fillForward] at h
    split at h
    · rcases ih h with h | h
      · exact .inl h
      · exact (List.mem_or_eq_of_mem_set h).symm
    · exact .inr h

theorem fixFinger_ok_mem (s : NodeState) (i : ℕ) (owner : Peer) (path : List Peer) :
    ∃ fingers, (∀ q ∈ fingers, q = owner ∨ q = s.succ ∨ q ∈ s.fingers) ∧
      SameRouting { s with fingers := fingers } (s.fixFinger i ⟨.ok owner, path⟩) := by
  rcases fixFinger_ok s i owner path with hsame | ⟨fingers, hf, hsame⟩
  · exact ⟨s.fingers, fun q hq => .inr (.inr hq), hsame⟩
  · refine ⟨_, fun q hq => ?_, hsame⟩
    rcases List.mem_or_eq_of_mem_set hq with hq | hq
    · have hfill : q = owner ∨ q ∈ (fillForward s.self owner (ID_BITS - i) i s.fingers).2 := by
        rcases hf with rfl | rfl
        · exact .inr hq
        · exact (List.mem_or_eq_of_mem_set hq).symm
      rcases hfill with rfl | hq
      · exact .inl rfl
      · exact (mem_fillForward hq).imp_right .inr
    · exact .inr (.inl hq)

theorem mem_mergeSuccessors {self succ x : Peer} (h : x ∈ mergeSuccessors self succ l r) :
    x = succ ∨ x ∈ l :=
  (mem_of_mem_mergeFrom h).imp_left List.mem_singleton.mp

theorem mergeSuccessors_eq_cons (self succ : Peer) (l : List Peer) (r : ℕ) :
    ∃ rest, mergeSuccessors self succ l r = succ :: rest := by
  obtain ⟨rest, h⟩ := @prefix_mergeFrom self r [succ] l
  exact ⟨rest, h.symm⟩

theorem next_of_others {R : Members} {q : Peer} {rest : List Peer} (hp : p ∈ R) (ho : others p R.list = q :: rest) :
    q ∈ R ∧ (q :: rest).Nodup ∧ ∀ x ∈ rest, x.id ≠ p.id := by
  have hmem : ∀ x ∈ q :: rest, x ∈ R ∧ x ≠ p := fun x hx => (mem_others R.nodup hp).mp (ho ▸ hx)
  have hnodup := (List.nodup_cons.mp (nodup_others R.nodup hp)).2
  rw [ho] at hnodup
  refine ⟨(hmem q List.mem_cons_self).1, hnodup, fun x hx he => ?_⟩
  obtain ⟨hxR, hne⟩ := hmem x (List.mem_cons_of_mem _ hx)
  exact hne (Members.eq_of_id hxR hp he)

/-- **The list of the successor, merged, is the list the member has.** -/
theorem merge_succList {R : Members} (hr : 1 ≤ r) (hp : p ∈ R) :
    mergeSuccessors p (successorOf (p.id + 1) R) (succList R r (successorOf (p.id + 1) R)) r =
      succList R r p := by
  rw [successorOf_eq_head hp, mergeSuccessors]
  cases ho : others p R.list with
  | nil =>
    have h : mergeFrom p r [p] ([] ++ [p]) = [p] ++ ([] : List Peer).take (r - 1) :=
      mergeFrom_append (by simp) (by simp) (.inr ⟨[], rfl⟩)
    simpa [succList_alone hp ho] using h
  | cons q rest =>
    obtain ⟨hq, hnodup, hrest⟩ := next_of_others hp ho
    have hlist : succList R r q = rest.take r ++ [p].take (r - rest.length) := by
      rw [succList, nextMembers_eq hq, others_next R.nodup hp ho, List.take_append, if_neg]
      rw [← List.take_append, List.take_eq_nil_iff]
      simp only [List.append_eq_nil_iff, List.cons_ne_self, and_false, or_false]
      omega
    rw [List.headD_cons, hlist, succList_cons hr hp ho, mergeFrom_append]
    · simp [List.take_take]
    · exact fun x hx => hrest x (List.mem_of_mem_take hx)
    · exact hnodup.sublist (List.Sublist.cons_cons q (List.take_sublist r rest))
    · cases hd : r - rest.length with
      | zero => exact .inl rfl
      | succ d => exact .inr ⟨[], by simp⟩

theorem prefix_mergeFrom_append (h : ∀ x ∈ l, x.id ≠ self.id) (hn : (out ++ l).Nodup)
    (hr : out.length + l.length ≤ r) (more : List Peer) :
    out ++ l <+: mergeFrom self r out (l ++ more) := by
  induction l generalizing out with
  | nil =>
    rw [List.append_nil, List.nil_append]
    exact prefix_mergeFrom out more
  | cons x l ih =>
    have hid := h x List.mem_cons_self
    have hself : x ≠ self := fun he => hid (congrArg Peer.id he)
    have hnot : x ∉ out := fun hmem =>
      (List.nodup_append.mp hn).2.2 x hmem x List.mem_cons_self rfl
    rw [List.length_cons] at hr
    rw [List.cons_append, mergeFrom, if_neg (by omega), if_neg hself, if_neg hid, if_neg hnot]
    have := @ih (out ++ [x]) (fun y hy => h y (List.mem_cons_of_mem _ hy)) (by simpa using hn)
      (by rw [List.length_append, List.length_singleton]; omega)
    simpa using this

/-- **One more entry is right**: the successor's list, right in its first `j` entries, gives a list
that is right in its first `j + 1`. -/
theorem take_merge {R : Members} {j : ℕ} (hj : 1 ≤ j) (hjr : j < r) (hp : p ∈ R) {l : List Peer}
    (hl : l.take j = (succList R r (successorOf (p.id + 1) R)).take j) :
    (mergeSuccessors p (successorOf (p.id + 1) R) l r).take (j + 1) = (succList R r p).take (j + 1) := by
  rw [successorOf_eq_head hp] at hl ⊢
  rw [mergeSuccessors]
  have hsplit : l = l.take j ++ l.drop j := (List.take_append_drop j l).symm
  obtain ⟨d, rfl⟩ : ∃ d, j = d + 1 := ⟨j - 1, by omega⟩
  cases ho : others p R.list with
  | nil =>
    rw [ho, List.headD_nil, succList_alone hp ho] at hl
    rw [List.headD_nil, succList_alone hp ho, hsplit, hl]
    simp [mergeFrom]
  | cons q rest =>
    obtain ⟨hq, hnodup, hrest⟩ := next_of_others hp ho
    have hlist : (succList R r q).take (d + 1) = (rest ++ [p]).take (d + 1) := by
      rw [succList, nextMembers_eq hq, others_next R.nodup hp ho, if_neg, List.take_take,
        Nat.min_eq_left (Nat.le_of_lt hjr)]
      rw [List.take_eq_nil_iff]
      simp only [List.append_eq_nil_iff, List.cons_ne_self, and_false, or_false]
      omega
    rw [ho, List.headD_cons, hlist] at hl
    have hgoal : (succList R r p).take (d + 1 + 1) = q :: rest.take (d + 1) := by
      rw [succList_cons (by omega) hp ho, List.take_succ_cons, List.take_take,
        Nat.min_eq_left (by omega)]
    rw [List.headD_cons, hgoal, hsplit, hl]
    rcases Nat.lt_or_ge rest.length (d + 1) with hlt | hge
    · -- the ring ends within these entries
      have hfull : (rest ++ [p]).take (d + 1) = rest ++ [p] :=
        List.take_of_length_le (by rw [List.length_append, List.length_singleton]; omega)
      rw [hfull, List.append_assoc, List.singleton_append, mergeFrom_append hrest hnodup (.inr ⟨_, rfl⟩)]
      have hall : ∀ m ≥ d + 1, rest.take m = rest := fun m hm => List.take_of_length_le (by omega)
      rw [List.length_singleton, hall (r - 1) (by omega), hall (d + 1) (le_rfl)]
      exact List.take_of_length_le (by rw [List.length_append, List.length_singleton]; omega)
    · rw [List.take_append_of_le_length hge]
      have hprefix := @prefix_mergeFrom_append p r [q] (rest.take (d + 1))
        (fun x hx => hrest x (List.mem_of_mem_take hx))
        (hnodup.sublist (List.Sublist.cons_cons q (List.take_sublist (d + 1) rest)))
        (by rw [List.length_singleton, List.length_take]; omega) (l.drop (d + 1))
      obtain ⟨more, hmore⟩ := hprefix
      rw [← hmore, List.take_left']
      · rfl
      · rw [List.length_append, List.length_singleton, List.length_take]
        omega

end merge

end ChordFs
