import ChordFs.Member
import ChordFs.RingWired

/-! # The routing state of a member

What holds of a member's tables whenever the lock is free, whatever the other nodes answer and
however its jobs interleave (`member_sound`), and why it never takes the whole ring for its own arc:
a member that has known another node has itself as its successor only while it is an orphan
(`loneOrphaned_of_other`). -/

namespace ChordFs

open Circle Dialogue

/-- The successor list, the predecessor and the fingers. -/
structure TablesSound (s : NodeState) : Prop where
  succs_pos : 1 ≤ s.succs.length
  succs_le : s.succs.length ≤ s.r
  fingers_length : s.fingers.length = ID_BITS
  finger_zero : s.fingers[0]? = some s.succ
  nextFinger_pos : 1 ≤ s.nextFinger
  nextFinger_lt : s.nextFinger < ID_BITS
  /-- No other node carries the member's identifier. -/
  own_id : ∀ p, s.holds p = true → p.id = s.self.id → p = s.self
  pred_ne : s.pred ≠ some s.self
  /-- The member itself is in its list at most as the first entry. -/
  behind : s.self ∉ s.succs.tail

structure ContactsSound (s : NodeState) : Prop where
  length_le : s.contacts.length ≤ MAX_CONTACTS
  nodup : s.contacts.Nodup
  process : ∀ p ∈ s.contacts, sameProcess p s.self = false

structure RoutingSound (s : NodeState) : Prop where
  tables : TablesSound s
  contacts : ContactsSound s
  /-- The second strike evicts, and an eviction forgets the strikes. -/
  strikes : ∀ e ∈ s.strikes.entries, e.2 = 1

/-- With itself as its successor, the member is an orphan. -/
def LoneOrphaned (s : NodeState) : Prop := s.succ = s.self → s.orphaned = true

/-! ### What is in the tables -/

section tables
variable {s : NodeState} {p : Peer}

theorem holds_iff : s.holds p = true ↔ s.pred = some p ∨ p ∈ s.succs ∨ p ∈ s.fingers := by
  simp [NodeState.holds]

theorem TablesSound.succs_ne_nil (h : TablesSound s) : s.succs ≠ [] :=
  List.ne_nil_of_length_pos h.succs_pos

theorem TablesSound.succ_mem (h : TablesSound s) : s.succ ∈ s.succs := by
  obtain ⟨q, l, hl⟩ := List.exists_cons_of_ne_nil h.succs_ne_nil
  simp [NodeState.succ, hl]

/-- If the member is in its list at all, it is its own successor. -/
theorem TablesSound.succ_of_mem (h : TablesSound s) (hs : s.self ∈ s.succs) : s.succ = s.self := by
  have htail := h.behind
  obtain ⟨q, l, hl⟩ := List.exists_cons_of_ne_nil h.succs_ne_nil
  rw [hl] at hs htail
  rcases List.mem_cons.mp hs with hq | hq
  · simp [NodeState.succ, hl, hq]
  · exact absurd hq htail

theorem TablesSound.of_eq {s' : NodeState} (h : TablesSound s) (hself : s'.self = s.self)
    (hr : s'.r = s.r) (hpred : s'.pred = s.pred) (hsuccs : s'.succs = s.succs)
    (hfingers : s'.fingers = s.fingers) (hnext : s'.nextFinger = s.nextFinger) :
    TablesSound s' := by
  constructor
  · simpa [hsuccs] using h.succs_pos
  · simpa [hsuccs, hr] using h.succs_le
  · simpa [hfingers] using h.fingers_length
  · simpa [hfingers, NodeState.succ, hsuccs, hself] using h.finger_zero
  · simpa [hnext] using h.nextFinger_pos
  · simpa [hnext] using h.nextFinger_lt
  · simpa only [holds_iff, hpred, hsuccs, hfingers, hself] using h.own_id
  · simpa [hpred, hself] using h.pred_ne
  · simpa [hsuccs, hself] using h.behind

theorem TablesSound.lists (h : TablesSound s) {first : Peer} {rest fingers : List Peer}
    (hlen : (first :: rest).length ≤ s.r) (hfl : fingers.length = ID_BITS)
    (hids : ∀ p ∈ first :: rest, p.id = s.self.id → p = s.self)
    (hfids : ∀ p ∈ fingers, p.id = s.self.id → p = s.self) (hbehind : s.self ∉ rest) :
    TablesSound { s with succs := first :: rest, fingers := fingers.set 0 first } where
  succs_pos := by simp
  succs_le := hlen
  fingers_length := by simpa using hfl
  finger_zero := by
    have : 0 < fingers.length := by rw [hfl]; decide
    simp [NodeState.succ, this]
  nextFinger_pos := h.nextFinger_pos
  nextFinger_lt := h.nextFinger_lt
  own_id p hp hid := by
    rcases holds_iff.mp hp with hp | hp | hp
    · exact h.own_id p (holds_iff.mpr (.inl hp)) hid
    · exact hids p hp hid
    · rcases List.mem_or_eq_of_mem_set hp with hp | rfl
      · exact hfids p hp hid
      · exact hids p List.mem_cons_self hid
  pred_ne := h.pred_ne
  behind := hbehind

end tables

/-! ### Contacts -/

section contacts
variable {s : NodeState}

theorem ContactsSound.of_eq {s' : NodeState} (h : ContactsSound s) (hself : s'.self = s.self)
    (hc : s'.contacts = s.contacts) : ContactsSound s' where
  length_le := by simpa [hc] using h.length_le
  nodup := by simpa [hc] using h.nodup
  process := by simpa [hc, hself] using h.process

theorem ContactsSound.remember (h : ContactsSound s) (p : Peer) : ContactsSound (s.remember p) := by
  unfold NodeState.remember
  split
  · exact h
  rename_i hp
  have hnodup : (p :: s.contacts.erase p).Nodup :=
    List.nodup_cons.mpr ⟨fun hmem => ((h.nodup.mem_erase_iff).mp hmem).1 rfl, h.nodup.erase p⟩
  have hprocess : ∀ q ∈ p :: s.contacts.erase p, sameProcess q s.self = false := by
    intro q hq
    rcases List.mem_cons.mp hq with rfl | hq
    · simpa using hp
    · exact h.process q (List.mem_of_mem_erase hq)
  have hlen : (s.contacts.erase p).length ≤ MAX_CONTACTS :=
    Nat.le_trans (s.contacts.length_erase_le) h.length_le
  dsimp only
  split
  · refine ⟨?_, hnodup.sublist (List.dropLast_sublist _),
      fun q hq => hprocess q ((List.dropLast_sublist _).subset hq)⟩
    simpa using hlen
  · rename_i hfew
    exact ⟨Nat.not_lt.mp hfew, hnodup, hprocess⟩

end contacts

/-! ### Small changes -/

section small
variable {s s' : NodeState}

theorem RoutingSound.idle (h : RoutingSound s) (hi : Idle s s') : RoutingSound s' where
  tables := h.tables.of_eq hi.self hi.r hi.pred hi.succs hi.fingers hi.nextFinger
  contacts := h.contacts.of_eq hi.self hi.contacts
  strikes := by simpa [hi.strikes] using h.strikes

theorem remember_eq (s : NodeState) (p : Peer) :
    s.remember p = { s with contacts := (s.remember p).contacts } := by
  unfold NodeState.remember
  split <;> rfl

section
variable (h : RoutingSound s)
include h

theorem RoutingSound.remember (p : Peer) : RoutingSound (s.remember p) where
  tables := by
    rw [remember_eq]
    exact h.tables.of_eq rfl rfl rfl rfl rfl rfl
  contacts := h.contacts.remember p
  strikes := by
    rw [remember_eq]
    exact h.strikes

theorem RoutingSound.rememberAll (ps : List Peer) : RoutingSound (s.rememberAll ps) := by
  induction ps generalizing s with
  | nil => exact h
  | cons p ps ih => exact ih (h.remember p)

theorem RoutingSound.log (lines : List Str) : RoutingSound (s.log lines) where
  tables := h.tables.of_eq rfl rfl rfl rfl rfl rfl
  contacts := h.contacts.of_eq rfl rfl
  strikes := h.strikes

theorem RoutingSound.eraseStrikes (key : Str) :
    RoutingSound { s with strikes := s.strikes.erase key } where
  tables := h.tables.of_eq rfl rfl rfl rfl rfl rfl
  contacts := h.contacts.of_eq rfl rfl
  strikes e he := h.strikes e (List.mem_filter.mp he).1

theorem RoutingSound.nextFinger {i : ℕ} (h1 : 1 ≤ i) (h2 : i < ID_BITS) :
    RoutingSound { s with nextFinger := i } where
  tables := { h.tables with nextFinger_pos := h1, nextFinger_lt := h2 }
  contacts := h.contacts.of_eq rfl rfl
  strikes := h.strikes

end

theorem afterFinger_bounds (i : ℕ) : 1 ≤ afterFinger i ∧ afterFinger i < ID_BITS := by
  unfold afterFinger
  split
  · decide
  · omega

theorem RoutingSound.takePred (h : RoutingSound s) {c : Peer} (hid : c.id ≠ s.self.id) :
    RoutingSound (s.takePred c) := by
  suffices hpred : RoutingSound { s with pred := some c } from (hpred.remember c).log _
  refine ⟨{ h.tables with own_id := ?_, pred_ne := ?_ }, h.contacts.of_eq rfl rfl, h.strikes⟩
  · intro p hp hp'
    rcases holds_iff.mp hp with hp | hp | hp
    · cases hp
      exact absurd hp' hid
    · exact h.tables.own_id p (holds_iff.mpr (.inr (.inl hp))) hp'
    · exact h.tables.own_id p (holds_iff.mpr (.inr (.inr hp))) hp'
  · intro he
    exact hid (congrArg Peer.id (Option.some.inj he))

theorem RoutingSound.notified (h : RoutingSound s) {c : Peer} (hid : c.id ≠ s.self.id) :
    RoutingSound (s.notified c).2 := by
  have htake := (h.eraseStrikes (memberKey c)).takePred hid
  unfold NodeState.notified
  split
  · exact htake
  split
  · exact htake
  split
  · exact h
  · exact h

end small

/-! ### Eviction -/

section evict
variable {s : NodeState} {gone : Peer → Bool} {p : Peer}

/-- A node that can take the place of the successors: known from the fingers or as the predecessor,
not gone, and with an identifier of its own. -/
structure Spare (s : NodeState) (gone : Peer → Bool) (p : Peer) : Prop where
  known : p ∈ s.fingers ++ s.pred.toList
  ne_self : p ≠ s.self
  stays : gone p = false
  id_ne : p.id ≠ s.self.id

variable {dead first : Peer} {b w : Bool} {why : Str}

theorem Spare.holds (h : Spare s gone p) : s.holds p = true := by
  rw [holds_iff]
  rcases List.mem_append.mp h.known with hp | hp
  · exact .inr (.inr hp)
  · exact .inl (by simpa using hp)

theorem foldl_nearest (self : Peer) (fits : Peer → Prop) [DecidablePred fits]
    (hfits : ∀ p, fits p → p.id ≠ self.id) (l : List Peer) :
    let best := l.foldl (fun (best : Peer × Id) (p : Peer) =>
        if ¬ fits p then best
        else if best.2 = 0 ∨ p.id - self.id < best.2 then (p, p.id - self.id) else best) (self, 0)
    (best = (self, 0) ∧ ∀ p ∈ l, ¬ fits p) ∨
    (best.1 ∈ l ∧ fits best.1 ∧ best.2 = best.1.id - self.id ∧
      ∀ p ∈ l, fits p → dist self.id best.1.id ≤ dist self.id p.id) := by
  induction l using List.reverseRecOn with
  | nil => exact .inl ⟨rfl, by simp⟩
  | append_singleton l q ih =>
    rw [List.foldl_append, List.foldl_cons, List.foldl_nil]
    dsimp only at ih ⊢
    generalize l.foldl _ _ = best at ih ⊢
    by_cases hq : fits q
    · rw [if_neg (not_not_intro hq)]
      right
      rcases ih with ⟨rfl, hnone⟩ | ⟨hmem, hbest, hdist, hle⟩
      · rw [if_pos (.inl rfl)]
        refine ⟨by simp, hq, rfl, fun p hp hp' => ?_⟩
        rcases List.mem_append.mp hp with hp | hp
        · exact absurd hp' (hnone p hp)
        · rw [List.mem_singleton.mp hp]
      · have hpos : best.2 ≠ 0 := by
          intro h0
          refine hfits _ hbest (dist_injective (a := self.id) ?_)
          rw [dist_self, Circle.dist, ← hdist, h0]
          rfl
        have hcloser : (best.2 = 0 ∨ q.id - self.id < best.2) ↔
            dist self.id q.id < dist self.id best.1.id := by
          rw [or_iff_right hpos, hdist, BitVec.lt_def]
          rfl
        by_cases hlt : dist self.id q.id < dist self.id best.1.id
        · rw [if_pos (hcloser.mpr hlt)]
          refine ⟨by simp, hq, rfl, fun p hp hp' => ?_⟩
          rcases List.mem_append.mp hp with hp | hp
          · exact (hlt.trans_le (hle p hp hp')).le
          · rw [List.mem_singleton.mp hp]
        · rw [if_neg fun h => hlt (hcloser.mp h)]
          refine ⟨List.mem_append_left _ hmem, hbest, hdist, fun p hp hp' => ?_⟩
          rcases List.mem_append.mp hp with hp | hp
          · exact hle p hp hp'
          · rw [List.mem_singleton.mp hp]
            exact Nat.not_lt.mp hlt
    · rw [if_pos hq]
      have hsame : ∀ p ∈ l ++ [q], fits p → p ∈ l := by
        intro p hp hp'
        rcases List.mem_append.mp hp with hp | hp
        · exact hp
        · rw [List.mem_singleton.mp hp] at hp'
          exact absurd hp' hq
      rcases ih with ⟨hbest, hnone⟩ | ⟨hmem, hbest, hdist, hle⟩
      · exact .inl ⟨hbest, fun p hp hp' => hnone p (hsame p hp hp') hp'⟩
      · exact .inr ⟨List.mem_append_left _ hmem, hbest, hdist,
          fun p hp hp' => hle p (hsame p hp hp') hp'⟩

/-- **The fallback is the nearest of the spare nodes**, or the member itself if there is none. -/
theorem nearestKnown_cases (s : NodeState) (gone : Peer → Bool) :
    (s.nearestKnown gone = s.self ∧ ∀ p, ¬ Spare s gone p) ∨
    (Spare s gone (s.nearestKnown gone) ∧
      ∀ p, Spare s gone p → dist s.self.id (s.nearestKnown gone).id ≤ dist s.self.id p.id) := by
  let fits := fun p => ¬ (p = s.self ∨ gone p = true ∨ p.id = s.self.id)
  have hspare : ∀ p, Spare s gone p ↔ p ∈ s.fingers ++ s.pred.toList ∧ fits p := by
    intro p
    constructor
    · intro h
      exact ⟨h.known, by simp [fits, h.ne_self, h.stays, h.id_ne]⟩
    · rintro ⟨hknown, hfits⟩
      simp only [fits, not_or, Bool.not_eq_true] at hfits
      exact ⟨hknown, hfits.1, hfits.2.1, hfits.2.2⟩
  have hnear : s.nearestKnown gone =
      ((s.fingers ++ s.pred.toList).foldl (fun (best : Peer × Id) (p : Peer) =>
      if ¬ fits p then best
      else if best.2 = 0 ∨ p.id - s.self.id < best.2 then (p, p.id - s.self.id) else best)
        (s.self, 0)).1 := by
    simp only [NodeState.nearestKnown, fits, not_not]
  simp only [hspare]
  rcases foldl_nearest s.self fits (fun p hp hid => hp (.inr (.inr hid)))
    (s.fingers ++ s.pred.toList) with
    ⟨h, hnone⟩ | ⟨hmem, hfits, -, hle⟩
  · exact .inl ⟨by rw [hnear, h], fun p hp => hnone p hp.1 hp.2⟩
  · rw [hnear]
    exact .inr ⟨⟨hmem, hfits⟩, fun p hp => hle p hp.1 hp.2⟩

theorem mem_keptSuccs (h : p ∈ s.keptSuccs gone) :
    p = s.self ∨ s.holds p = true ∧ gone p = false := by
  unfold NodeState.keptSuccs at h
  dsimp only at h
  split at h
  · rw [List.mem_singleton.mp h]
    exact (nearestKnown_cases s gone).imp And.left fun h => ⟨h.1.holds, h.1.stays⟩
  · obtain ⟨hmem, hg⟩ := List.mem_filter.mp h
    exact .inr ⟨holds_iff.mpr (.inr (.inl hmem)), by simpa using hg⟩

theorem keptSuccs_ne_nil (s : NodeState) (gone : Peer → Bool) : s.keptSuccs gone ≠ [] := by
  unfold NodeState.keptSuccs
  dsimp only
  split
  · simp
  · assumption

theorem TablesSound.length_keptSuccs (h : TablesSound s) : (s.keptSuccs gone).length ≤ s.r := by
  have h1 := h.succs_pos
  have h2 := h.succs_le
  unfold NodeState.keptSuccs
  dsimp only
  split
  · rw [List.length_singleton]
    omega
  · exact Nat.le_trans (List.length_filter_le _ _) h2

theorem TablesSound.keptSuccs_behind (h : TablesSound s) : s.self ∉ (s.keptSuccs gone).tail := by
  unfold NodeState.keptSuccs
  dsimp only
  split
  · simp
  · intro hmem
    refine h.behind ?_
    cases hl : s.succs with
    | nil => simp [hl] at hmem
    | cons q l =>
      rw [hl, List.filter_cons] at hmem
      split at hmem
      · exact (List.mem_filter.mp hmem).1
      · exact (List.mem_filter.mp (List.mem_of_mem_tail hmem)).1

theorem mem_replacement (h : s.replacement gone = some p) : s.holds p = true ∧ gone p = false := by
  have hmem := List.mem_of_find?_eq_some h
  refine ⟨holds_iff.mpr (.inr (.inl ((List.dropWhile_sublist _).subset hmem))), ?_⟩
  simpa using List.find?_some h

/-- The fingers after an eviction. -/
def evictedFingers (s : NodeState) (gone : Peer → Bool) (first : Peer) : List Peer :=
  s.fingers.map fun f => if gone f then (s.replacement gone).getD first else f

theorem evict_eq_of_other (h : dead ≠ s.self) (hb : ¬ (sameProcess dead s.self = true ∧ ¬ b = true))
    (why : Str) {rest : List Peer} (hkept : s.keptSuccs (NodeState.gone dead w) = first :: rest) :
    s.evict dead why w b =
      { s with
        succs := first :: rest
        orphaned := s.orphaned || s.becomesOrphan (NodeState.gone dead w)
        pred := s.pred.filter fun p => ¬ NodeState.gone dead w p
        fingers := (evictedFingers s (NodeState.gone dead w) first).set 0 first
        strikes := s.strikes.filterKeys fun key => ¬ NodeState.forgets dead w key
        counters := if s.isKnown (NodeState.gone dead w) then NodeState.countEviction s.counters w b
          else s.counters
        events := s.events ++ s.evictLines dead why w } := by
  rw [NodeState.evict, if_neg h, if_neg hb]
  dsimp only
  rw [hkept]
  rfl

theorem evict_cases (s : NodeState) (dead : Peer) (why : Str) (w b : Bool) :
    s.evict dead why w b = s ∨
    dead ≠ s.self ∧ ¬ (sameProcess dead s.self = true ∧ ¬ b = true) ∧
      ∃ first rest, s.keptSuccs (NodeState.gone dead w) = first :: rest := by
  by_cases hd : dead = s.self
  · exact .inl (by rw [NodeState.evict, if_pos hd])
  by_cases hb : sameProcess dead s.self = true ∧ ¬ b = true
  · exact .inl (by rw [NodeState.evict, if_neg hd, if_pos hb])
  · exact .inr ⟨hd, hb, List.exists_cons_of_ne_nil (keptSuccs_ne_nil _ _)⟩

theorem mem_evictedFingers (hfirst : first = s.self ∨ s.holds first = true ∧ gone first = false)
    (h : p ∈ evictedFingers s gone first) : p = s.self ∨ s.holds p = true ∧ gone p = false := by
  obtain ⟨f, hf, rfl⟩ := List.mem_map.mp h
  split
  · cases hrep : s.replacement gone with
    | none => exact hfirst
    | some q => exact .inr (mem_replacement hrep)
  · rename_i hg
    exact .inr ⟨holds_iff.mpr (.inr (.inr hf)), by simpa using hg⟩

/-- **An eviction brings nobody in**, and leaves none of those it removes. -/
theorem holds_evict (hd : dead ≠ s.self) (hb : ¬ (sameProcess dead s.self = true ∧ ¬ b = true))
    (h : (s.evict dead why w b).holds p = true) :
    p = s.self ∨ s.holds p = true ∧ NodeState.gone dead w p = false := by
  obtain ⟨first, rest, hkept⟩ :=
    List.exists_cons_of_ne_nil (keptSuccs_ne_nil s (NodeState.gone dead w))
  have hmem : ∀ q ∈ first :: rest, q = s.self ∨ s.holds q = true ∧
      NodeState.gone dead w q = false := by
    intro q hq
    exact mem_keptSuccs (by rw [hkept]; exact hq)
  rw [evict_eq_of_other hd hb why hkept, holds_iff] at h
  rcases h with h | h | h
  · obtain ⟨hp, hg⟩ := Option.filter_eq_some_iff.mp h
    exact .inr ⟨holds_iff.mpr (.inl hp), by simpa using hg⟩
  · exact hmem p h
  · rcases List.mem_or_eq_of_mem_set h with h | rfl
    · exact mem_evictedFingers (hmem first List.mem_cons_self) h
    · exact hmem p List.mem_cons_self

theorem TablesSound.evict (h : TablesSound s) (dead : Peer) (why : Str) (w b : Bool) :
    TablesSound (s.evict dead why w b) := by
  rcases evict_cases s dead why w b with he | ⟨hd, hb, first, rest, hkept⟩
  · rwa [he]
  have hholds : ∀ p, (s.evict dead why w b).holds p = true → p.id = s.self.id → p = s.self := by
    intro p hp hid
    rcases holds_evict hd hb hp with rfl | ⟨hp, -⟩
    · rfl
    · exact h.own_id p hp hid
  have hlen := @TablesSound.length_keptSuccs s (NodeState.gone dead w) h
  have hbehind := @TablesSound.keptSuccs_behind s (NodeState.gone dead w) h
  have hfl : (evictedFingers s (NodeState.gone dead w) first).length = ID_BITS := by
    rw [evictedFingers, List.length_map, h.fingers_length]
  rw [hkept] at hlen hbehind
  rw [evict_eq_of_other hd hb why hkept] at hholds ⊢
  refine ⟨by simp,
    hlen, by simpa using hfl, ?_, h.nextFinger_pos, h.nextFinger_lt, hholds, ?_, hbehind⟩
  · have : 0 < (evictedFingers s (NodeState.gone dead w) first).length := by rw [hfl]; decide
    simp [NodeState.succ, this]
  · intro hp
    exact h.pred_ne (Option.filter_eq_some_iff.mp hp).1

theorem contacts_evict (s : NodeState) (dead : Peer) (why : Str) (w b : Bool) :
    (s.evict dead why w b).contacts = s.contacts := by
  unfold NodeState.evict
  split
  · rfl
  split <;> rfl

theorem mem_strikes_evict {e : Str × ℕ} (h : e ∈ (s.evict dead why w b).strikes.entries) :
    e ∈ s.strikes.entries := by
  unfold NodeState.evict at h
  split at h
  · exact h
  split at h
  · exact h
  · exact (List.mem_filter.mp h).1

theorem RoutingSound.evict (h : RoutingSound s) (dead : Peer) (why : Str) (w b : Bool) :
    RoutingSound (s.evict dead why w b) where
  tables := h.tables.evict dead why w b
  contacts := h.contacts.of_eq (kin_evict ..).self (contacts_evict ..)
  strikes e he := h.strikes e (mem_strikes_evict he)

/-- A strike that does not evict is the first; one that evicts is forgotten. -/
theorem RoutingSound.strike (h : RoutingSound s) (p : Peer) (why detail : Str) :
    RoutingSound (s.strike p why detail) := by
  rcases strike_cases s p why detail with ⟨he, -⟩ | ⟨hproc, -, lines, hcase⟩
  · rwa [he]
  have htables : TablesSound (struck s p lines) := h.tables.of_eq rfl rfl rfl rfl rfl rfl
  have hold : ∀ e ∈ (struck s p lines).strikes.entries,
      e = (memberKey p, strikesOf s p + 1) ∨ e.2 = 1 := fun e he =>
    (SortedMap.mem_insertEntry he).imp_right fun he => h.strikes e (List.mem_filter.mp he).1
  rcases hcase with ⟨hn, he⟩ | ⟨-, why', he⟩
  · rw [he]
    refine ⟨htables, h.contacts.of_eq rfl rfl, fun e he => ?_⟩
    rcases hold e he with rfl | h1
    · simp [hn]
    · exact h1
  · rw [he]
    refine ⟨htables.evict .., h.contacts.of_eq (kin_evict ..).self (contacts_evict ..),
      fun e he => ?_⟩
    have hself : p ≠ (struck s p lines).self := by
      intro hp
      have hsame : sameProcess p s.self = true := by
        rw [show p = s.self from hp]
        exact sameProcess_self _
      simp [hproc] at hsame
    rw [NodeState.evict, if_neg hself, if_neg (by simp [struck, hproc])] at he
    obtain ⟨he, hkey⟩ := List.mem_filter.mp he
    rcases hold e he with rfl | h1
    · simp [NodeState.forgets] at hkey
    · exact h1

theorem RoutingSound.report (h : RoutingSound s) (node : Peer) (line : Str) (a : Exchanged) :
    RoutingSound (s.report node line a) :=
  report_rule s (h.evict node) (h.strike node) line a

end evict

/-! ### What is learned of the ring -/

section learned
variable {s : NodeState}

theorem mergeFrom_eq_append (self : Peer) (r : ℕ) (out l : List Peer) :
    ∃ added, mergeFrom self r out l = out ++ added ∧ ∀ p ∈ added, p ∈ l ∧ p.id ≠ self.id := by
  induction l generalizing out with
  | nil => exact ⟨[], by simp [mergeFrom], by simp⟩
  | cons q l ih =>
    have hskip : ∃ added, mergeFrom self r out l = out ++ added ∧
        ∀ p ∈ added, p ∈ q :: l ∧ p.id ≠ self.id := by
      obtain ⟨added, h, hadded⟩ := ih out
      exact ⟨added, h, fun p hp => ⟨List.mem_cons_of_mem _ (hadded p hp).1, (hadded p hp).2⟩⟩
    rw [mergeFrom]
    split
    · exact ⟨[], by simp, by simp⟩
    split
    · exact ⟨[], by simp, by simp⟩
    split
    · exact hskip
    rename_i hid
    split
    · exact hskip
    · obtain ⟨added, h, hadded⟩ := ih (out ++ [q])
      refine ⟨q :: added, by simp [h], fun p hp => ?_⟩
      rcases List.mem_cons.mp hp with rfl | hp
      · exact ⟨List.mem_cons_self, hid⟩
      · exact ⟨List.mem_cons_of_mem _ (hadded p hp).1, (hadded p hp).2⟩

theorem mergeSuccessors_sound {self succ : Peer} {l : List Peer} {r : ℕ} (hr : 1 ≤ r) :
    ∃ rest, mergeSuccessors self succ l r = succ :: rest ∧ (succ :: rest).length ≤ r ∧
      ∀ p ∈ rest, p ∈ l ∧ p.id ≠ self.id := by
  obtain ⟨rest, h, hrest⟩ := mergeFrom_eq_append self r [succ] l
  refine ⟨rest, h, ?_, hrest⟩
  have hlen := @length_mergeFrom self r [succ] l hr
  rwa [h] at hlen

theorem RoutingSound.merge (h : RoutingSound s) (nb : Neighbours) :
    RoutingSound (s.applyNeighbours s.succ nb).2 := by
  have hr : 1 ≤ s.r := h.tables.succs_pos.trans h.tables.succs_le
  obtain ⟨rest, hmerge, hlen, hrest⟩ := @mergeSuccessors_sound s.self s.succ nb.succs s.r hr
  obtain ⟨lines, heq, -⟩ := applyNeighbours_eq s nb
  rw [heq, NodeState.withMerged, hmerge]
  refine RoutingSound.log (RoutingSound.rememberAll ?_ _) lines
  refine ⟨?_, h.contacts.of_eq rfl rfl, h.strikes⟩
  refine h.tables.lists hlen h.tables.fingers_length (fun p hp hid => ?_) (fun p hp hid => ?_) ?_
  · rcases List.mem_cons.mp hp with rfl | hp
    · exact h.tables.own_id _ (holds_iff.mpr (.inr (.inl h.tables.succ_mem))) hid
    · exact absurd hid (hrest p hp).2
  · exact h.tables.own_id p (holds_iff.mpr (.inr (.inr hp))) hid
  · exact fun hmem => (hrest _ hmem).2 rfl

theorem RoutingSound.adopt (h : RoutingSound s) {c : Peer} (hid : c.id ≠ s.self.id) :
    RoutingSound (s.adopt s.succ c).2 := by
  rw [NodeState.adopt, if_neg (not_not_intro rfl)]
  have hr : 1 ≤ s.r := h.tables.succs_pos.trans h.tables.succs_le
  obtain ⟨m, hm⟩ : ∃ m, max s.r 1 = m + 1 := ⟨s.r - 1, by omega⟩
  have hrest : ∀ p ∈ (s.succs.filter fun p => p ≠ s.self).take m, p ∈ s.succs ∧ p ≠ s.self := by
    intro p hp
    simpa using List.mem_filter.mp (List.mem_of_mem_take hp)
  dsimp only
  rw [hm, List.take_succ_cons]
  refine RoutingSound.log (RoutingSound.remember ?_ c) _
  refine ⟨?_, h.contacts.of_eq rfl rfl, h.strikes⟩
  refine TablesSound.of_eq (s := { s with
    succs := c :: (s.succs.filter fun p => p ≠ s.self).take m, fingers := s.fingers.set 0 c })
    (h.tables.lists ?_ h.tables.fingers_length (fun p hp hp' => ?_) (fun p hp hp' => ?_) ?_)
    rfl rfl rfl rfl rfl rfl
  · have := h.tables.succs_le
    simp only [List.length_cons, List.length_take]
    omega
  · rcases List.mem_cons.mp hp with rfl | hp
    · exact absurd hp' hid
    · exact h.tables.own_id p (holds_iff.mpr (.inr (.inl (hrest p hp).1))) hp'
  · exact h.tables.own_id p (holds_iff.mpr (.inr (.inr hp))) hp'
  · exact fun hmem => (hrest _ hmem).2 rfl

theorem RoutingSound.joined (hr : 1 ≤ s.r) (hc : ContactsSound s)
    (hs : ∀ e ∈ s.strikes.entries, e.2 = 1) (known : Peer) {owner : Peer}
    (hid : owner.id ≠ s.self.id) (list : Option (List Peer)) :
    RoutingSound (s.joined known owner list) := by
  have hnew : ∀ rest : List Peer, (owner :: rest).length ≤ s.r → (∀ p ∈ rest, p.id ≠ s.self.id) →
      RoutingSound (({ s with
        pred := none
        succs := owner :: rest
        fingers := List.replicate ID_BITS owner
        nextFinger := 1
        orphaned := false : NodeState }.remember known).rememberAll (owner :: rest).reverse) := by
    intro rest hlen hrest
    refine RoutingSound.rememberAll (RoutingSound.remember ?_ _) _
    refine ⟨⟨by simp,
      hlen, by simp, by simp [NodeState.succ, ID_BITS], by simp, by simp [ID_BITS], ?_,
      by simp, fun hmem => hrest _ hmem rfl⟩, hc.of_eq rfl rfl, hs⟩
    intro p hp hp'
    rcases holds_iff.mp hp with hp | hp | hp
    · cases hp
    · rcases List.mem_cons.mp hp with rfl | hp
      · exact absurd hp' hid
      · exact absurd hp' (hrest p hp)
    · rw [List.eq_of_mem_replicate hp] at hp'
      exact absurd hp' hid
  cases list with
  | none => exact hnew [] hr (by simp)
  | some l =>
    obtain ⟨rest, hmerge, hlen, hrest⟩ := @mergeSuccessors_sound s.self owner l s.r hr
    have h := hnew rest hlen fun p hp => (hrest p hp).2
    rw [← hmerge] at h
    exact h

theorem le_fillForward (self owner : Peer) (left j : ℕ) (fingers : List Peer) :
    j ≤ (fillForward self owner left j fingers).1 := by
  induction left generalizing j fingers with
  | zero => exact Nat.le_refl j
  | succ left ih =>
    rw [fillForward]
    split
    · exact Nat.le_of_succ_le (ih (j + 1) _)
    · exact Nat.le_refl j

theorem length_fillForward (self owner : Peer) (left j : ℕ) (fingers : List Peer) :
    (fillForward self owner left j fingers).2.length = fingers.length := by
  induction left generalizing j fingers with
  | zero => rfl
  | succ left ih =>
    rw [fillForward]
    split
    · rw [ih, List.length_set]
    · rfl

theorem fixFinger_ok_cases (s : NodeState) (i : ℕ) (owner : Peer) (path : List Peer) :
    (∃ lines, s.fixFinger i ⟨.ok owner, path⟩ = { s.log lines with nextFinger := afterFinger i }) ∨
    ∃ (j : ℕ) (fingers : List Peer), ¬ (owner.id = s.self.id ∧ owner ≠ s.self) ∧ 1 ≤ j ∧
      j < ID_BITS ∧ fingers.length = s.fingers.length ∧ (∀ p ∈ fingers, p = owner ∨ p ∈ s.fingers) ∧
      s.fixFinger i ⟨.ok owner, path⟩ =
        { s with fingers := fingers.set 0 s.succ, nextFinger := j : NodeState }.remember owner := by
  have hle := le_fillForward s.self owner (ID_BITS - i) i s.fingers
  have hlen := length_fillForward s.self owner (ID_BITS - i) i s.fingers
  have hmem : ∀ p ∈ (fillForward s.self owner (ID_BITS - i) i s.fingers).2, p = owner ∨
      p ∈ s.fingers :=
    fun p hp => mem_fillForward hp
  have hwrap : ∀ j : ℕ, 1 ≤ j → 1 ≤ (if j ≥ ID_BITS then 1 else j) ∧
      (if j ≥ ID_BITS then 1 else j) < ID_BITS := by
    intro j hj
    split
    · decide
    · omega
  rw [NodeState.fixFinger]
  dsimp only
  split
  · exact .inl ⟨_, rfl⟩
  rename_i hid
  right
  split
  · have hj := hwrap (i + 1) (by omega)
    refine ⟨_, _, hid, hj.1, hj.2, by rw [List.length_set, hlen], fun p hp => ?_, rfl⟩
    rcases List.mem_or_eq_of_mem_set hp with hp | rfl
    · exact hmem p hp
    · exact .inl rfl
  · rename_i hne
    have hj := hwrap (fillForward s.self owner (ID_BITS - i) i s.fingers).1 (by omega)
    exact ⟨_, _, hid, hj.1, hj.2, hlen, hmem, rfl⟩

theorem RoutingSound.fixFinger (h : RoutingSound s) (i : ℕ) (r : LookupResult) :
    RoutingSound (s.fixFinger i r) := by
  obtain ⟨outcome, path⟩ := r
  have hafter := afterFinger_bounds i
  cases outcome with
  | error e =>
    exact fixFinger_rule s h (fun _ _ => h.evict ..) (fun _ _ => h.strike ..)
      (fun _ h => h.nextFinger hafter.1 hafter.2) e path
  | ok owner =>
    rcases fixFinger_ok_cases s i owner path with ⟨lines, heq⟩ |
      ⟨j, fingers, hid, h1, h2, hlen, hmem, heq⟩
    · rw [heq]
      exact (h.log lines).nextFinger hafter.1 hafter.2
    · rw [heq]
      refine RoutingSound.remember ?_ owner
      refine ⟨?_, h.contacts.of_eq rfl rfl, h.strikes⟩
      have hids : ∀ p ∈ fingers, p.id = s.self.id → p = s.self := by
        intro p hp hp'
        rcases hmem p hp with rfl | hp
        · by_contra hne
          exact hid ⟨hp', hne⟩
        · exact h.tables.own_id p (holds_iff.mpr (.inr (.inr hp))) hp'
      obtain ⟨q, l, hl⟩ := List.exists_cons_of_ne_nil h.tables.succs_ne_nil
      have hsucc : s.succ = q := by simp [NodeState.succ, hl]
      have hlists := @TablesSound.lists _ h.tables q l _ (by rw [← hl]; exact h.tables.succs_le)
        (hlen.trans h.tables.fingers_length)
        (fun p hp => h.tables.own_id p (holds_iff.mpr (.inr (.inl (by rw [hl]; exact hp)))))
        hids (by have := h.tables.behind; rwa [hl] at this)
      rw [← hl, ← hsucc] at hlists
      exact { hlists with nextFinger_pos := h1, nextFinger_lt := h2 }

end learned

/-! ### Every section -/

section step
variable {me : Peer} {T : List Peer} {H : Turns} {s s' : NodeState}

/-- **One section keeps the invariant**, whatever its job has been told. -/
theorem RoutingSound.section (h : RoutingSound s) (hs : s.self = me) (hsec : Section me T H s s') :
    RoutingSound s' := by
  subst hs
  cases hsec with
  | minor hm =>
    cases hm with
    | idle hi => exact h.idle hi
    | clear _ _ _ => exact h.eraseStrikes _
    | report _ _ _ => exact h.report ..
    | notify _ _ hid => exact h.notified hid
    | fill _ _ hid _ => exact h.takePred hid
    | suspect _ _ => exact h.evict ..
  | merge _ _ => exact h.merge _
  | adopt _ _ _ _ hid _ => exact h.adopt hid
  | finger i _ _ => exact h.fixFinger i _
  | joined _ _ _ _ hid =>
    exact .joined (h.tables.succs_pos.trans h.tables.succs_le) h.contacts h.strikes _ hid _

section
variable (h : LoneOrphaned s)
include h

theorem LoneOrphaned.evict (ht : TablesSound s) (dead : Peer) (why : Str)
    (w b : Bool) : LoneOrphaned (s.evict dead why w b) := by
  rcases evict_cases s dead why w b with he | ⟨hd, hb, first, rest, hkept⟩
  · rwa [he]
  rw [evict_eq_of_other hd hb why hkept]
  intro hfirst
  have hfirst : first = s.self := hfirst
  have hor : s.orphaned = true ∨ s.becomesOrphan (NodeState.gone dead w) = true := by
    by_cases hsucc : s.succ = s.self
    · exact .inl (h hsucc)
    right
    unfold NodeState.keptSuccs at hkept
    dsimp only at hkept
    split at hkept
    · -- nobody is left in the list
      rename_i hnone
      have hall : s.succs.all (NodeState.gone dead w) = true := by
        simpa [List.filter_eq_nil_iff] using hnone
      have hnear : s.nearestKnown (NodeState.gone dead w) = s.self := by
        rw [← hfirst]
        exact (List.cons.inj hkept).1
      simp [NodeState.becomesOrphan, hnear, hsucc]
      simpa using hall
    · have hmem : first ∈ s.succs.filter fun p => ¬ NodeState.gone dead w p := by
        rw [hkept]
        exact List.mem_cons_self
      rw [hfirst] at hmem
      exact absurd (ht.succ_of_mem (List.mem_filter.mp hmem).1) hsucc
  simpa using hor

theorem LoneOrphaned.of_eq (hself : s'.self = s.self)
    (hsuccs : s'.succs = s.succs) (ho : s'.orphaned = s.orphaned) : LoneOrphaned s' := by
  simpa [LoneOrphaned, NodeState.succ, hself, hsuccs, ho] using h

theorem LoneOrphaned.strike (ht : TablesSound s) (p : Peer) (why detail : Str) :
    LoneOrphaned (s.strike p why detail) := by
  rcases strike_cases s p why detail with ⟨he, -⟩ | ⟨-, -, lines, ⟨-, he⟩ | ⟨-, why', he⟩⟩ <;>
    rw [he]
  · exact h
  · exact h.of_eq rfl rfl rfl
  · have hstruck : LoneOrphaned (struck s p lines) := h.of_eq rfl rfl rfl
    exact hstruck.evict (ht.of_eq rfl rfl rfl rfl rfl rfl) _ _ _ _

theorem LoneOrphaned.fixFinger (ht : TablesSound s) (i : ℕ) (r : LookupResult) :
    LoneOrphaned (s.fixFinger i r) := by
  obtain ⟨outcome, path⟩ := r
  cases outcome with
  | ok owner =>
    rcases fixFinger_ok s i owner path with hr | ⟨fingers, -, hr⟩
    · exact h.of_eq hr.self hr.succs hr.orphaned
    · exact h.of_eq hr.self hr.succs hr.orphaned
  | error e =>
    exact fixFinger_rule s h (fun _ _ => h.evict ht _ _ _ _) (fun _ _ => h.strike ht _ _ _)
      (fun _ h => h.of_eq rfl rfl rfl) e path

/-- **One section keeps it that only an orphan has nobody but itself.** -/
theorem LoneOrphaned.section (ht : TablesSound s) (hs : s.self = me)
    (hsec : Section me T H s s') : LoneOrphaned s' := by
  subst hs
  cases hsec with
  | minor hm =>
    cases hm with
    | idle hi => exact h.of_eq hi.self hi.succs hi.orphaned
    | clear _ _ _ => exact h.of_eq rfl rfl rfl
    | report _ _ _ => exact report_rule s (h.evict ht _) (h.strike ht _) _ _
    | @notify c _ _ _ _ _ _ =>
      rcases notified_cases s c with ⟨he, -⟩ | ⟨p, -, -, -, he⟩ | ⟨-, -, hr⟩
      · rwa [he]
      · rwa [he]
      · exact h.of_eq hr.self hr.succs hr.orphaned
    | @fill c _ _ _ _ _ _ _ =>
      have hr := sameRouting_takePred s c
      exact h.of_eq hr.self hr.succs hr.orphaned
    | suspect _ _ => exact h.evict ht _ _ _ _
  | @merge a nb _ _ _ _ =>
    have hr := sameRouting_applyNeighbours s nb
    obtain ⟨rest, hmerge⟩ := mergeSuccessors_eq_cons s.self s.succ nb.succs s.r
    intro hsucc
    rw [NodeState.succ, hr.succs, hr.self, NodeState.withMerged, hmerge] at hsucc
    rw [hr.orphaned]
    exact h hsucc
  | @adopt c _ _ _ _ _ _ _ _ _ _ _ _ _ hid _ =>
    have hr := sameRouting_adopt s c
    intro hsucc
    obtain ⟨m, hm⟩ : ∃ m, max s.r 1 = m + 1 := ⟨max s.r 1 - 1, by omega⟩
    rw [NodeState.succ, hr.succs, hr.self, hm] at hsucc
    exact absurd (congrArg Peer.id hsucc) hid
  | @finger _ r i _ _ => exact h.fixFinger ht i r
  | @joined known n owner a a' _ _ _ _ _ _ hid =>
    have hr := sameRouting_joined s known owner (joinList a')
    intro hsucc
    rw [NodeState.succ, hr.succs, hr.self] at hsucc
    cases hl : joinList a' with
    | none =>
      rw [hl] at hsucc
      exact absurd (congrArg Peer.id hsucc) hid
    | some l =>
      obtain ⟨rest, hmerge⟩ := mergeSuccessors_eq_cons s.self owner l s.r
      rw [hl] at hsucc
      dsimp only at hsucc
      rw [hmerge] at hsucc
      exact absurd (congrArg Peer.id hsucc) hid

end

end step

/-! ### Every run -/

section run
variable {me : Peer} {r : ℕ} {s : NodeState}

variable {R : Members} {P P' : Member} {picks : List MemberPick}

theorem routingSound_alone (me : Peer) (hr : 1 ≤ r) :
    RoutingSound (NodeState.fresh me r).initAlone where
  tables := ⟨by simp [NodeState.initAlone], hr, by simp [NodeState.initAlone],
    by simp [NodeState.initAlone, NodeState.succ, ID_BITS], Nat.le_refl 1,
    by simp [NodeState.initAlone, ID_BITS],
    fun p hp _ => by
      simpa [NodeState.holds, NodeState.initAlone, NodeState.fresh, ID_BITS] using hp,
    by simp [NodeState.initAlone], by simp [NodeState.initAlone]⟩
  contacts := ⟨Nat.zero_le _, List.nodup_nil, by simp [NodeState.initAlone, NodeState.fresh]⟩
  strikes := by simp [NodeState.initAlone, NodeState.fresh, SortedMap.empty]

theorem tablesSound_wired (hr : 1 ≤ r) (hme : me ∈ R) : TablesSound { NodeState.fresh me r with
      pred := if R.list.length > 1 then some (predecessorOf me.id R) else none
      succs := succList R r me
      fingers := (buildFingers me.id R).set 0 ((succList R r me).headD me) } := by
  obtain ⟨hpos, hle⟩ := length_succList hr hme
  have hfl := length_buildFingers me.id R
  have hmem : ∀ p ∈ succList R r me, p ∈ R := fun p hp => mem_of_mem_succList hme hp
  have hhead : (succList R r me).headD me ∈ R := by
    rw [headD_succList hr hme]
    exact successorOf_mem _ R
  refine ⟨hpos, hle, by simpa using hfl, ?_, Nat.le_refl 1, by simp [NodeState.fresh, ID_BITS], ?_, ?_, ?_⟩
  · have : 0 < (buildFingers me.id R).length := by rw [hfl]; decide
    simp [NodeState.succ, NodeState.fresh, this]
  · intro p hp hid
    refine Members.eq_of_id (R := R) ?_ hme hid
    rcases holds_iff.mp hp with hp | hp | hp
    · dsimp only at hp
      split at hp
      · cases hp
        exact predecessorOf_mem _ R
      · cases hp
    · exact hmem p hp
    · rcases List.mem_or_eq_of_mem_set hp with hp | rfl
      · exact mem_of_mem_buildFingers hp
      · exact hhead
  · dsimp only
    split
    · rename_i hlen
      exact fun he => predecessorOf_ne hme hlen (Option.some.inj he)
    · simp
  · cases ho : others me R.list with
    | nil => simp [succList_alone hme ho]
    | cons q rest =>
      dsimp only
      rw [succList_cons hr hme ho]
      intro hin
      have : me ∈ others me R.list := by
        rw [ho]
        exact List.mem_cons_of_mem _ (List.mem_of_mem_take hin)
      exact ((mem_others R.nodup hme).mp this).2 rfl

theorem routingSound_wired (hr : 1 ≤ r) (hme : me ∈ R) :
    RoutingSound ((NodeState.fresh me r).initWired R) := by
  refine RoutingSound.rememberAll ?_ _
  refine ⟨(tablesSound_wired hr hme).of_eq rfl rfl rfl rfl rfl rfl, ?_, ?_⟩
  · exact ⟨Nat.zero_le _, List.nodup_nil, by simp [NodeState.fresh]⟩
  · simp [NodeState.fresh, SortedMap.empty]

theorem Started.joined_eq {known : Peer} {H : Turns} (h : (join me known).Run
    (.held (NodeState.fresh me r) s :: H) (.done (.joined, []))) :
    ∃ known owner list, owner.id ≠ me.id ∧ s = (NodeState.fresh me r).joined known owner list := by
  let R : TurnRules :=
    { newcomerRules me [known] with assume := fun _ _ => True }
  have hsat : Sat R anyEnd [] (join me known) :=
    sat_join (fun _ _ => And.intro) (.told (List.mem_singleton.mpr rfl))
      (fun _ _ owner _ _ _ _ hj hid => ⟨known, owner, _, joins_of_said hj hid, rfl⟩)
        fun _ _ _ _ => trivial
  have hfree : ∀ H, Assumed R H := by
    intro H
    induction H with
    | nil => trivial
    | cons e H ih => exact ⟨trivial, ih⟩
  cases h with
  | cons hr hs =>
    obtain ⟨known, owner, list, hj, he⟩ := (hsat.of_run hr (hfree _)).changed hs trivial
    exact ⟨known, owner, list, hj.id_ne, he⟩

theorem Started.fresh (h : Started me r s) : s.self = me ∧ s.r = r ∧ s.strikes = .empty := by
  cases h with
  | alone => exact ⟨rfl, rfl, rfl⟩
  | wired R _ =>
    have hsame := sameRouting_wired R r me
    exact ⟨hsame.self, hsame.r, hsame.strikes⟩
  | joined h =>
    obtain ⟨known, owner, list, -, rfl⟩ := joined_eq h
    have hsame := sameRouting_joined (NodeState.fresh me r) known owner list
    exact ⟨hsame.self, hsame.r, hsame.strikes⟩

theorem Started.self (h : Started me r s) : s.self = me := h.fresh.1

theorem Started.r_eq (h : Started me r s) : s.r = r := h.fresh.2.1

theorem Started.routingSound (h : Started me r s) (hr : 1 ≤ r) : RoutingSound s := by
  cases h with
  | alone => exact routingSound_alone me hr
  | wired R hme => exact routingSound_wired hr hme
  | joined h =>
    obtain ⟨known, owner, list, hid, rfl⟩ := joined_eq h
    have hfresh := routingSound_alone me hr
    exact .joined hr (hfresh.contacts.of_eq rfl rfl) hfresh.strikes known hid list

/-- What a run of a member keeps, from what its sections keep. -/
theorem member_run {I : NodeState → Prop} (hP : Member.Lawful me P) (hI : I P.state)
    (hstep : ∀ T H s s', s.self = me → Section me T H s s' → I s → I s')
    (h : (memberScheme me).exec P picks = some P') : I P'.state := by
  have hboth := Scheme.exec_induction (K := memberScheme me) (I := fun P => Member.Lawful me P ∧
    I P.state)
    ?_ h ⟨hP, hI⟩
  · exact hboth.2
  · rintro P pick P' hm ⟨hlaw, hI⟩
    refine ⟨(obeys_member me).moves hm hlaw, ?_⟩
    cases hm with
    | start tag => exact hI
    | lock hj => exact hstep _ _ _ _ hlaw.1 ((obeys_member me).change hlaw hj) hI
    | answer a hj => exact hI
    | finish hj hp => exact hI

theorem member_routingSound (hr : 1 ≤ r) (hs : Started me r s)
    (h : (memberScheme me).exec (Member.serving s) picks = some P) :
    RoutingSound P.state ∧ P.state.r = r ∧ P.state.self = me := by
  have hlaw := lawful_serving hs.self
  have hsound := member_run (I := fun s => RoutingSound s ∧ s.r = r) hlaw
    ⟨hs.routingSound hr, hs.r_eq⟩
    (fun T H s s' hself hsec hI => ⟨hI.1.section hself hsec, hsec.kin.r.trans hI.2⟩) h
  exact ⟨hsound.1, hsound.2, ((obeys_member me).exec h hlaw).1⟩

theorem loneOrphaned_of_other (hr : 1 ≤ r) (hs : Started me r s) {later : List MemberPick}
    (h : (memberScheme me).exec (Member.serving s) picks = some P)
    (h' : (memberScheme me).exec P later = some P') (hother : P.state.succ ≠ me) :
    LoneOrphaned P'.state := by
  obtain ⟨hsound, -, hself⟩ := member_routingSound hr hs h
  have hlone := member_run (I := fun s => RoutingSound s ∧ LoneOrphaned s)
    ((obeys_member me).exec h (lawful_serving hs.self))
    ⟨hsound, fun he => absurd (he.trans hself) hother⟩
    (fun T H s s' hself hsec hI => ⟨hI.1.section hself hsec, hI.2.section hI.1.tables hself hsec⟩)
      h'
  exact hlone.2

end run

/-- **The routing state of a member is sound whenever the lock is free.**  From every state it can
begin to serve in, after any interleaving of requests, deferred work and maintenance rounds, with
any replies, its tables, contacts and strikes satisfy `RoutingSound`; and if it has had another node
as its first successor at some time, it is its own first successor only while it is orphaned. -/
theorem member_sound (me : Peer) (r : ℕ) (hr : 1 ≤ r) (s : NodeState)
    (hs : Started me r s) (picks later : List MemberPick) (P P' : Member)
    (h : (memberScheme me).exec (Member.serving s) picks = some P)
    (h' : (memberScheme me).exec P later = some P') :
    RoutingSound P'.state ∧ P'.state.r = r ∧ P'.state.self = me ∧
      (P.state.succ ≠ me → P'.state.succ = me → P'.state.orphaned = true) := by
  have hall : (memberScheme me).exec (Member.serving s) (picks ++ later) = some P' := by
    rw [Scheme.exec_append, h]
    exact h'
  obtain ⟨hsound, hlen, hself⟩ := member_routingSound hr hs hall
  refine ⟨hsound, hlen, hself, fun hother hlone => ?_⟩
  exact loneOrphaned_of_other hr hs h h' hother (hlone.trans hself.symm)

/-- A node between the first and the second of `threeMembers`. -/
def threeMembers.between : Peer := hostPeer 7 4

/-- A round in which the second member names the node between as its predecessor, with this list,
and the node answers. -/
def candidateAnswers (list : List Peer) : List MemberPick :=
  [.start .round, .lock 0, .lock 0, .lock 0,
    .answer 0 ⟨.ok, renderNeighbours ⟨some threeMembers.between, list⟩, 1⟩, .lock 0, .lock 0,
    .answer 0 ⟨.ok, "PONG 0000000000000007".toList, 1⟩, .lock 0, .lock 0]

/-- Another round: whichever successor is asked refuses. -/
def successorsRefuse : List MemberPick :=
  .start .round :: .lock 1 ::
    (List.replicate 3 [.lock 1, .lock 1, .answer 1 ⟨.refused, [], 1⟩, .lock 1]).flatten

/-- The first of three members takes the node between for its successor; then it loses everybody and
is an orphan. -/
theorem member_sound_three : let me := successorOf 0 threeMembers
    ∃ P P', (memberScheme me).exec (Member.serving (wired threeMembers 1 me))
        (candidateAnswers [successorOf 0xfffffffffffffff0 threeMembers]) = some P ∧
      (memberScheme me).exec P successorsRefuse = some P' ∧
      P.state.succs = [threeMembers.between] ∧ P'.state.succs = [me] ∧
      RoutingSound P'.state ∧ P'.state.orphaned = true := by
  intro me
  have hrun : ((memberScheme me).exec (Member.serving (wired threeMembers 1 me))
      (candidateAnswers [successorOf 0xfffffffffffffff0 threeMembers])).any (fun P =>
        decide (P.state.succs = [threeMembers.between]) && decide (P.state.succ ≠ me) &&
        ((memberScheme me).exec P successorsRefuse).any fun P' =>
          decide (P'.state.succs = [me]) && decide (P'.state.succ = me)) = true := by decide +kernel
  obtain ⟨P, hP, h⟩ := (Option.any_eq_true ..).mp hrun
  simp only [Bool.and_eq_true, decide_eq_true_eq] at h
  obtain ⟨⟨hbetween, hother⟩, h⟩ := h
  obtain ⟨P', hP', h⟩ := (Option.any_eq_true ..).mp h
  simp only [Bool.and_eq_true, decide_eq_true_eq] at h
  obtain ⟨hsound, -, -, horphan⟩ :=
    member_sound me 1 (by decide) _ (.wired threeMembers (by decide)) _ _ P P' hP hP'
  exact ⟨P, P', hP, hP', hbetween, h.1, hsound, horphan hother h.2⟩

end ChordFs
