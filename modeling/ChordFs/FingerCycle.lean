import ChordFs.MemberInvariant
import ChordFs.RingFixed

/-! # One cycle of the fingers

`fix_next_finger` looks up the owner of one start and fills it in as far as it covers the starts
that follow.  If every lookup finds the true owner, each call moves on by at least one finger and
leaves all fingers below the next one right (`Refreshed.fixFinger`); so one cycle of at most 63
calls repairs the whole table, whatever was in it (`finger_cycle`). -/

namespace ChordFs

open Circle Dialogue

/-- The fingers from 1 up to `i` are those of the ring, and the successor is right. -/
structure Refreshed (R : Members) (i : ℕ) (s : NodeState) : Prop where
  mem : s.self ∈ R
  succ : s.succ = successorOf (s.self.id + 1) R
  length : s.fingers.length = ID_BITS
  right : ∀ m, 1 ≤ m → m < i → s.fingers[m]? = (buildFingers s.self.id R)[m]?

section cycle
variable {R : Members} {i : ℕ} {s : NodeState}

theorem lt_fillForward (hme : s.self ∈ R) (hi : i < ID_BITS) :
    i < (fillForward s.self (successorOf (fingerStart s.self.id i) R)
      (ID_BITS - i) i s.fingers).1 := by
  obtain ⟨left, hleft⟩ : ∃ left, ID_BITS - i = left + 1 := ⟨ID_BITS - i - 1, by omega⟩
  have hin : inRangeOc (fingerStart s.self.id i) s.self.id
    (successorOf (fingerStart s.self.id i) R).id = true := by
    rw [inRangeOc_iff, steps_fingerStart _ hi]
    exact (steps_successorOf_fingerStart hme hi).1
  rw [hleft, fillForward, if_pos hin]
  exact le_fillForward ..

theorem fillForward_le (self owner : Peer) (left j : ℕ) (fingers : List Peer) :
    (fillForward self owner left j fingers).1 ≤ j + left := by
  induction left generalizing j fingers with
  | zero => exact Nat.le_refl j
  | succ left ih =>
    rw [fillForward]
    split
    · have := ih (j + 1) (fingers.set j owner)
      omega
    · exact Nat.le_add_right ..

/-- **A call with the true owner moves on, and leaves everything before right.** -/
theorem Refreshed.fixFinger (h : Refreshed R i s) (hi : i < ID_BITS) {r : LookupResult}
    (hr : r.outcome = .ok (successorOf (fingerStart s.self.id i) R)) :
    ∃ j, i < j ∧ j ≤ ID_BITS ∧ (s.fixFinger i r).nextFinger = (if j ≥ ID_BITS then 1 else j) ∧
      Refreshed R j (s.fixFinger i r) ∧ (s.fixFinger i r).self = s.self ∧
      (s.fixFinger i r).fingers[0]? = (buildFingers s.self.id R)[0]? := by
  obtain ⟨outcome, path⟩ := r
  cases hr
  let out := fillForward s.self (successorOf (fingerStart s.self.id i) R) (ID_BITS - i) i s.fingers
  have hlt : i < out.1 := lt_fillForward h.mem hi
  have hle : out.1 ≤ ID_BITS := (fillForward_le ..).trans (by omega)
  have hlen : out.2.length = ID_BITS := (length_fillForward ..).trans h.length
  have howner : ¬ ((successorOf (fingerStart s.self.id i) R).id = s.self.id ∧
      successorOf (fingerStart s.self.id i) R ≠ s.self) :=
    fun hid => hid.2 (Members.eq_of_id (successorOf_mem _ R) h.mem hid.1)
  have hfix : s.fixFinger i ⟨.ok (successorOf (fingerStart s.self.id i) R), path⟩ =
      { s with fingers := out.2.set 0 s.succ, nextFinger := if out.1 ≥ ID_BITS then 1 else out.1 :
        NodeState }.remember (successorOf (fingerStart s.self.id i) R) := by
    rw [NodeState.fixFinger]
    dsimp only
    rw [if_neg howner, if_neg (Nat.ne_of_gt hlt)]
  rw [hfix, remember_eq]
  refine ⟨out.1, hlt, hle, rfl, ⟨h.mem, h.succ, by simpa using hlen, fun m hm hmj => ?_⟩, rfl, ?_⟩
  · dsimp only
    rw [List.getElem?_set_ne (by omega)]
    refine fillForward_right h.mem _ i (Nat.le_refl i) (by omega) h.length m ?_
    rcases Nat.lt_or_ge m i with hmi | hmi
    · exact .inl (h.right m hm hmi)
    · exact .inr ⟨hmi, hmj⟩
  · dsimp only
    rw [List.getElem?_set_self (by rw [hlen]; decide), h.succ,
      getElem?_buildFingers _ _ (by decide)]
    rfl

theorem state_lookupFrom {σ ε : Type} (env : Call → ε → Exchanged × ε) (k : Id) (left : ℕ)
    (path : List Peer) (start : Peer) (s : σ) (e : ε) :
    ((lookupFrom k left path start).run env s e).2.1 = s := by
  induction left generalizing path start e with
  | zero => rfl
  | succ left ih =>
    rw [lookupFrom, Prog.run]
    cases judge start k (env ⟨start, findRequest k⟩ e).1 with
    | owner p => rfl
    | next p => exact ih ..
    | fail e m => rfl

end cycle

/-- One call of `fix_next_finger` by a member against an environment. -/
def fingerCall {ε : Type} (env : Call → ε → Exchanged × ε) (x : NodeState × ε) : NodeState × ε :=
  ((fixNextFinger x.1.self).run env x.1 x.2).2

/-- What the lookup of the next call finds. -/
def fingerLookup {ε : Type} (env : Call → ε → Exchanged × ε) (x : NodeState × ε) : LookupResult :=
  ((lookup x.1.self (fingerStart x.1.self.id x.1.nextFinger)).run env x.1 x.2).1

theorem fingerCall_state {ε : Type} (env : Call → ε → Exchanged × ε) (x : NodeState × ε) :
    (fingerCall env x).1 = x.1.fixFinger x.1.nextFinger (fingerLookup env x) := by
  rw [fingerCall, fixNextFinger, Prog.run_bind, Prog.sect, Prog.run, Prog.run, Prog.run_bind]
  dsimp only
  rw [Prog.sect, Prog.run, Prog.run]
  dsimp only
  rw [lookup, state_lookupFrom]
  rfl

theorem Refreshed.cycle {ε : Type} {R : Members} {env : Call → ε → Exchanged × ε}
    {x : ℕ → NodeState × ε} (hx : ∀ n, x (n + 1) = fingerCall env (x n))
    (hlookup : ∀ n, (fingerLookup env (x n)).outcome =
      .ok (successorOf (fingerStart (x n).1.self.id (x n).1.nextFinger) R))
    {i n : ℕ} (h : Refreshed R i (x n).1) (h1 : 1 ≤ i) (hi : i < ID_BITS)
    (hnext : (x n).1.nextFinger = i) :
    ∃ m, n < m ∧ m ≤ n + (ID_BITS - i) ∧ (x m).1.nextFinger = 1 ∧
    (∀ t, n < t → t < m → (x t).1.nextFinger ≠ 1) ∧
      (x m).1.fingers = buildFingers (x n).1.self.id R := by
  -- on the fingers that are left
  induction hleft : ID_BITS - i using Nat.strong_induction_on generalizing i n with
  | _ left ih =>
    have hstate : (x (n + 1)).1 = (x n).1.fixFinger i (fingerLookup env (x n)) := by
      rw [hx, fingerCall_state, hnext]
    obtain ⟨j, hij, hj, hnext', h', hself, hzero⟩ := h.fixFinger hi (hnext ▸ hlookup n)
    rw [← hstate] at hnext' h' hself hzero
    rcases Nat.lt_or_ge j ID_BITS with hlt | hge
    · rw [if_neg (Nat.not_le.mpr hlt)] at hnext'
      obtain ⟨m, hm, hmle, hdone, hbefore, hall⟩ :=
        ih (ID_BITS - j) (by omega) h' (by omega) hlt hnext' rfl
      refine ⟨m, by omega, by omega, hdone, fun t ht htm => ?_, hself ▸ hall⟩
      rcases Nat.eq_or_lt_of_le (Nat.succ_le_of_lt ht) with rfl | ht
      · rw [hnext']
        omega
      · exact hbefore t ht htm
    · rw [if_pos hge] at hnext'
      refine ⟨n + 1, Nat.lt_succ_self
        n, by omega, hnext', fun t ht htm => by omega, List.ext_getElem? fun m => ?_⟩
      rcases Nat.eq_zero_or_pos m with rfl | hm
      · exact hzero
      rcases Nat.lt_or_ge m ID_BITS with hmlt | hmge
      · exact hself ▸ h'.right m hm (by omega)
      · rw [List.getElem?_eq_none (by rw [h'.length]; exact hmge),
          List.getElem?_eq_none (by rw [length_buildFingers]; exact hmge)]

/-- **One finger cycle repairs the whole table.**  A member whose first successor is right and whose
other fingers are anything calls `fix_next_finger` from finger 1 on, and every lookup it makes finds
the true owner.  Then finger 1 is next again for the first time after at most 63 calls, and all
fingers are those of the ring. -/
theorem finger_cycle {ε : Type} (R : Members) (env : Call → ε → Exchanged × ε) (s : NodeState)
    (e : ε) (hme : s.self ∈ R) (hsucc : s.succ = successorOf (s.self.id + 1) R)
    (hlen : s.fingers.length = ID_BITS) (hnext : s.nextFinger = 1)
    (hlookup : ∀ n, let x := (fingerCall env)^[n] (s, e)
      (fingerLookup env x).outcome = .ok (successorOf (fingerStart x.1.self.id x.1.nextFinger) R)) :
    ∃ n, 1 ≤ n ∧ n ≤ 63 ∧ ((fingerCall env)^[n] (s, e)).1.nextFinger = 1 ∧
      (∀ m, 1 ≤ m → m < n → ((fingerCall env)^[m] (s, e)).1.nextFinger ≠ 1) ∧
      ((fingerCall env)^[n] (s, e)).1.fingers = buildFingers s.self.id R := by
  have h0 : Refreshed R 1 s := ⟨hme, hsucc, hlen, fun m h1 h2 => by omega⟩
  exact Refreshed.cycle (x := fun n => (fingerCall env)^[n] (s, e)) (n := 0)
    (fun n => Function.iterate_succ_apply' ..) hlookup h0 (Nat.le_refl 1) (by decide) hnext

theorem self_iterate {ε : Type} (env : Call → ε → Exchanged × ε) (x : NodeState × ε) (n : ℕ) :
    ((fingerCall env)^[n] x).1.self = x.1.self := by
  induction n with
  | zero => rfl
  | succ n ih =>
    rw [Function.iterate_succ_apply', fingerCall_state, (kin_fixFinger ..).self]
    exact ih

/-- A table full of the member itself, on a ring of three that answers. -/
theorem finger_cycle_three : let me := successorOf 0 threeMembers
    let env := logged (ringAnswer threeMembers (fun p => successorOf (p.id + 1) threeMembers)
      fun p => buildFingers p.id threeMembers)
    let s := { wired threeMembers 2 me with fingers := List.replicate 64 me }
    s.fingers ≠ buildFingers me.id threeMembers ∧
    ∃ n ≤ 63, ((fingerCall env)^[n] (s, [])).1.fingers = buildFingers me.id threeMembers := by
  intro me env s
  refine ⟨by decide +kernel, ?_⟩
  obtain ⟨n, -, hn, -, -, hall⟩ := finger_cycle threeMembers env s [] (by decide) (by decide)
    (by decide) (by decide)
    fun n => by
      have hself : ((fingerCall env)^[n] (s, [])).1.self ∈ threeMembers := by
        rw [self_iterate]
        decide
      exact (lookupFrom_finds_owner 64 [] hself (dist_lt _ _) _ _).1
  exact ⟨n, hn, hall⟩

end ChordFs
