import ChordFs.Lib.Circle
import ChordFs.Peers

/-! # The ring

Arcs, fingers and one routing step (`chord.h`, `chord.cpp`).  The comparisons of the source are
arcs of the circle of identifiers (`inRangeOc_iff`, `inRangeOo_iff`), the member `successor_of`
finds is the owner of the key (`owner_successorOf`), and a routing step always names the owner or a
member strictly closer to the key (`routeStep_covers`). -/

namespace ChordFs

open Circle

/-! ### Arcs -/

/-- `(a, b]`, clockwise; the whole ring if `a = b`. -/
def inRangeOc (k a b : Id) : Bool := if a < b then a < k ∧ k ≤ b else a < k ∨ k ≤ b

/-- `(a, b)`, clockwise; everything but `a` if `a = b`. -/
def inRangeOo (k a b : Id) : Bool := if a < b then a < k ∧ k < b else a < k ∨ k < b

variable {a b k : Id} {i : ℕ} {R : Members} {p : Peer}

theorem inRangeOc_iff : inRangeOc k a b = true ↔ steps a k ≤ steps a b := by
  rw [← arc_closed_iff, inRangeOc]
  split <;> simp

theorem inRangeOo_iff : inRangeOo k a b = true ↔ steps a k < steps a b := by
  rw [← arc_open_iff, inRangeOo]
  split <;> simp

theorem inRangeOc_eq_false : inRangeOc k a b = false ↔ steps a b < steps a k := by
  rw [← Bool.not_eq_true, inRangeOc_iff, Nat.not_le]

theorem inRangeOo_eq_false : inRangeOo k a b = false ↔ steps a b ≤ steps a k := by
  rw [← Bool.not_eq_true, inRangeOo_iff, Nat.not_lt]

theorem ne_of_inRangeOo (h : inRangeOo k a b = true) : k ≠ a := by
  rintro rfl
  rw [inRangeOo_iff, steps_self] at h
  have := steps_le k b
  omega

theorem ne_end_of_inRangeOo (h : inRangeOo k a b = true) : k ≠ b := by
  rw [inRangeOo_iff] at h
  rintro rfl
  exact Nat.lt_irrefl _ h

/-- Where finger `i` of `n` starts: `n + 2 ^ i`, wrapping. -/
def fingerStart (n : Id) (i : ℕ) : Id := n + (1 <<< i)

theorem fingerStart_eq (n : Id) (hi : i < ID_BITS) : fingerStart n i = n + BitVec.ofNat 64 (2 ^ i) := by
  have h64 : 2 ^ i < 2 ^ 64 := Nat.pow_lt_pow_right (by decide) hi
  have hshift : (1 <<< i : Id) = BitVec.ofNat 64 (2 ^ i) := by
    apply BitVec.eq_of_toNat_eq
    simp [Nat.shiftLeft_eq]
  rw [fingerStart, hshift]

theorem steps_fingerStart (n : Id) (hi : i < ID_BITS) : steps n (fingerStart n i) = 2 ^ i := by
  rw [fingerStart_eq n hi]
  exact steps_add n (Nat.two_pow_pos i) (Nat.pow_lt_pow_right (by decide) hi)

/-! ### Members -/

/-- The members sorted by `by_id`. -/
def sortById (members : List Peer) : List Peer := members.mergeSort fun p q => p.id ≤ q.id

/-- What `validate_ring` says of two members that share an identifier. -/
def sharedId (a b : Peer) : Str :=
  if address a = address b then "duplicate member ".toList ++ address a
  else "identifier collision between ".toList ++ address a ++ " and ".toList ++ address b

/-- The adjacent scan of `validate_ring`. -/
def scanIds : List Peer → Except Str Unit
  | a :: b :: rest => if a.id ≠ b.id then scanIds (b :: rest) else .error (sharedId a b)
  | _ => .ok ()

/-- `validate_ring`: the list as it leaves it, or why it refuses. -/
def validateRing (members : List Peer) : Except Str (List Peer) :=
  if members = [] then .error "membership list is empty".toList
  else (scanIds (sortById members)).map fun _ => sortById members

theorem sortById_sorted (l : List Peer) : (sortById l).Pairwise fun p q => p.id ≤ q.id := by
  have h := @List.pairwise_mergeSort Peer (fun p q => p.id ≤ q.id) (fun _ _ _ => by simpa using BitVec.le_trans)
    (fun p q => by simpa using BitVec.le_total p.id q.id) l
  exact h.imp of_decide_eq_true

/-- In a sorted list equal identifiers stand side by side, so the scan misses none. -/
theorem scanIds_eq_ok {l : List Peer} (h : l.Pairwise fun p q => p.id ≤ q.id) :
    scanIds l = .ok () ↔ l.Pairwise fun p q => p.id < q.id := by
  induction l using scanIds.induct with
  | case1 a b rest hne ih =>
    obtain ⟨ha, hb⟩ := List.pairwise_cons.mp h
    have hab : a.id < b.id := by
      have hle := ha b List.mem_cons_self
      have hne : a.id.toNat ≠ b.id.toNat := fun he => hne (BitVec.eq_of_toNat_eq he)
      rw [BitVec.le_def] at hle
      rw [BitVec.lt_def]
      omega
    rw [scanIds, if_pos hne, ih hb, @List.pairwise_cons _ _ a, iff_and_self]
    rintro - q hq
    rcases List.mem_cons.mp hq with rfl | hq
    · exact hab
    · exact Nat.lt_of_lt_of_le hab ((List.pairwise_cons.mp hb).1 q hq)
  | case2 a b rest he =>
    rw [scanIds, if_neg he]
    refine iff_of_false (fun h => by cases h) fun hlt => ?_
    exact BitVec.ne_of_lt ((List.pairwise_cons.mp hlt).1 b List.mem_cons_self) (not_not.mp he)
  | case3 l hl =>
    rcases l with - | ⟨a, - | ⟨b, rest⟩⟩
    · exact iff_of_true rfl List.Pairwise.nil
    · exact iff_of_true rfl (List.pairwise_singleton _ a)
    · exact absurd rfl (hl a b rest)

/-- What `validate_ring` lets through: at least one member, in the order of the identifiers, each
identifier once. -/
structure Members where
  list : List Peer
  ne_nil : list ≠ []
  sorted : list.Pairwise fun p q => p.id < q.id

namespace Members

variable {R : Members} {p q : Peer} {k : Id}

instance : Membership Peer Members := ⟨fun R p => p ∈ R.list⟩

instance (p : Peer) (R : Members) : Decidable (p ∈ R) := inferInstanceAs (Decidable (p ∈ R.list))

theorem mem_def : p ∈ R ↔ p ∈ R.list := Iff.rfl

/-- The identifiers in use. -/
def ids (R : Members) : Set Id := { i | ∃ p ∈ R, p.id = i }

theorem id_mem (h : p ∈ R) : p.id ∈ R.ids := ⟨p, h, rfl⟩

theorem eq_of_id (hp : p ∈ R) (hq : q ∈ R) (h : p.id = q.id) : p = q := by
  have hirr : ∀ x y : Peer, x.id < y.id → x.id ≠ y.id := fun x y hlt => BitVec.ne_of_lt hlt
  rcases List.pairwise_iff_getElem.mp R.sorted with hs
  obtain ⟨i, hi, rfl⟩ := List.getElem_of_mem hp
  obtain ⟨j, hj, rfl⟩ := List.getElem_of_mem hq
  rcases Nat.lt_trichotomy i j with hij | rfl | hij
  · exact absurd h (hirr _ _ (hs i j hi hj hij))
  · rfl
  · exact absurd h.symm (hirr _ _ (hs j i hj hi hij))

end Members

/-- **`validate_ring` accepts exactly the rings**, in whatever order their members are given. -/
theorem validateRing_eq_ok {l out : List Peer} :
    validateRing l = .ok out ↔ ∃ R : Members, R.list = out ∧ out.Perm l := by
  have hperm : (sortById l).Perm l := List.mergeSort_perm _ _
  rw [validateRing]
  constructor
  · intro h
    split at h
    · cases h
    · next hne =>
      cases hs : scanIds (sortById l) with
      | error err =>
        rw [hs] at h
        cases h
      | ok =>
        rw [hs] at h
        cases h
        exact ⟨⟨_, fun hnil => hne (hnil ▸ hperm).symm.eq_nil, (scanIds_eq_ok (sortById_sorted l)).mp hs⟩,
          rfl, hperm⟩
  · rintro ⟨R, rfl, hR⟩
    have hle : R.list.Pairwise fun p q => p.id ≤ q.id := R.sorted.imp BitVec.le_of_lt
    have hsort : sortById l = R.list := by
      refine (hperm.trans hR.symm).eq_of_pairwise (fun p q hp hq hpq hqp => ?_) (sortById_sorted l) hle
      exact R.eq_of_id ((hperm.trans hR.symm).mem_iff.mp hp) hq (BitVec.le_antisymm hpq hqp)
    rw [if_neg fun hl => R.ne_nil (hl ▸ hR).eq_nil, hsort, (scanIds_eq_ok hle).mpr R.sorted]
    rfl

/-- `successor_of`: the first member at or after `k`, or the smallest. -/
def successorOf (k : Id) (R : Members) : Peer :=
  (R.list.find? fun p => ¬ p.id < k).getD (R.list.head R.ne_nil)

/-- `predecessor_of`: the last member before `k`, or the largest. -/
def predecessorOf (k : Id) (R : Members) : Peer :=
  (R.list.takeWhile fun p => p.id < k).getLast?.getD (R.list.getLast R.ne_nil)

/-- `build_fingers`. -/
def buildFingers (myId : Id) (R : Members) : List Peer :=
  (List.range ID_BITS).map fun i => successorOf (fingerStart myId i) R

theorem successorOf_mem (k : Id) (R : Members) : successorOf k R ∈ R := by
  rw [successorOf, Members.mem_def]
  cases h : R.list.find? fun p => ¬ p.id < k with
  | none => exact List.head_mem R.ne_nil
  | some p => exact List.mem_of_find?_eq_some h

/-- **The member that `successor_of` finds is the owner of the key**: no other is closer to it
clockwise. -/
theorem owner_successorOf (k : Id) (R : Members) : Owner R.ids k (successorOf k R).id := by
  refine ⟨Members.id_mem (successorOf_mem k R), ?_⟩
  rintro _ ⟨q, hq, rfl⟩
  rw [successorOf]
  cases h : R.list.find? fun p => ¬ p.id < k with
  | none =>
    -- every identifier is below the key: the way leads round to the smallest
    have hlt : ∀ p ∈ R.list, p.id < k := by simpa using List.find?_eq_none.mp h
    have hhead := hlt _ (List.head_mem R.ne_nil)
    have hle : (R.list.head R.ne_nil).id ≤ q.id := by
      obtain ⟨p, l, hl⟩ := List.exists_cons_of_ne_nil R.ne_nil
      have hs := R.sorted
      rw [Members.mem_def, hl] at hq
      rw [hl] at hs
      simp only [hl, List.head_cons]
      rcases List.mem_cons.mp hq with rfl | hq
      · exact BitVec.le_refl _
      · exact BitVec.le_of_lt ((List.pairwise_cons.mp hs).1 q hq)
    have hq' := hlt q hq
    simp only [Option.getD_none, BitVec.lt_def, BitVec.le_def, dist_eq] at *
    split <;> split <;> omega
  | some p =>
    obtain ⟨hp, as, bs, hl, has⟩ := List.find?_eq_some_iff_append.mp h
    have hkp : k ≤ p.id := by simpa using hp
    have hs := R.sorted
    rw [hl] at hs
    rw [Members.mem_def, hl] at hq
    have hge : q.id < k ∨ p.id ≤ q.id := by
      rcases List.mem_append.mp hq with hq | hq
      · exact .inl (by simpa using has q hq)
      rcases List.mem_cons.mp hq with rfl | hq
      · exact .inr (BitVec.le_refl _)
      · exact .inr (BitVec.le_of_lt ((List.pairwise_cons.mp (List.pairwise_append.mp hs).2.1).1 q hq))
    have := q.id.isLt
    have := p.id.isLt
    simp only [Option.getD_some, BitVec.lt_def, BitVec.le_def, dist_eq] at *
    split <;> split <;> omega

theorem predecessorOf_mem (k : Id) (R : Members) : predecessorOf k R ∈ R := by
  rw [predecessorOf, Members.mem_def]
  cases h : (R.list.takeWhile fun p => p.id < k).getLast? with
  | none => exact List.getLast_mem R.ne_nil
  | some p => exact (List.takeWhile_prefix _).subset (List.mem_of_getLast? h)

/-- **The member that `predecessor_of` finds is the last one before the key.** -/
theorem last_predecessorOf (k : Id) (R : Members) : Last R.ids k (predecessorOf k R).id := by
  refine ⟨Members.id_mem (predecessorOf_mem k R), ?_⟩
  rintro _ ⟨q, hq, rfl⟩
  have hs := R.sorted
  have hsplit := List.takeWhile_append_dropWhile (p := fun p : Peer => decide (p.id < k)) (l := R.list)
  have hdrop : ∀ x ∈ R.list.dropWhile fun p => p.id < k, ¬ x.id < k := by
    cases hd : R.list.dropWhile fun p => p.id < k with
    | nil => simp
    | cons y l =>
      have hy : ¬ y.id < k := by
        have := List.head_dropWhile_not (fun p : Peer => decide (p.id < k)) (l := R.list)
          (by rw [hd]; simp)
        simpa [hd] using this
      rw [← hsplit, hd] at hs
      have hl := (List.pairwise_cons.mp (List.pairwise_append.mp hs).2.1).1
      intro x hx
      rcases List.mem_cons.mp hx with rfl | hx
      · exact hy
      · have := hl x hx
        simp only [BitVec.lt_def] at *
        omega
  have hq' : q ∈ R.list := hq
  rw [← hsplit] at hq'
  rw [predecessorOf]
  cases h : (R.list.takeWhile fun p => p.id < k).getLast? with
  | none =>
    -- no identifier is below the key: the way leads back round to the largest
    rw [List.getLast?_eq_none_iff.mp h, List.nil_append] at hq'
    have hge := hdrop q hq'
    have hle : q.id ≤ (R.list.getLast R.ne_nil).id := by
      rw [← List.dropLast_concat_getLast R.ne_nil] at hs
      rw [Members.mem_def, ← List.dropLast_concat_getLast R.ne_nil] at hq
      rcases List.mem_append.mp hq with hq | hq
      · exact BitVec.le_of_lt ((List.pairwise_append.mp hs).2.2 q hq _ (by simp))
      · rw [List.mem_singleton.mp hq]
        exact BitVec.le_refl _
    have := (R.list.getLast R.ne_nil).id.isLt
    simp only [Option.getD_none, BitVec.lt_def, BitVec.le_def, steps_eq] at hge hle ⊢
    rw [if_neg hge]
    split <;> omega
  | some p =>
    obtain ⟨l, hl⟩ := List.getLast?_eq_some_iff.mp h
    have hp : p.id < k := by
      have hall := List.all_takeWhile (p := fun p : Peer => decide (p.id < k)) (l := R.list)
      simpa using List.all_eq_true.mp hall p (List.mem_of_getLast? h)
    have hcase : ¬ q.id < k ∨ q.id ≤ p.id := by
      rcases List.mem_append.mp hq' with hq | hq
      · rw [hl] at hq
        rw [← hsplit, hl] at hs
        rcases List.mem_append.mp hq with hq | hq
        · exact .inr (BitVec.le_of_lt ((List.pairwise_append.mp (List.pairwise_append.mp hs).1).2.2 q hq
            p (by simp)))
        · rw [List.mem_singleton.mp hq]
          exact .inr (BitVec.le_refl _)
      · exact .inl (hdrop q hq)
    have := q.id.isLt
    simp only [Option.getD_some, BitVec.lt_def, BitVec.le_def, steps_eq] at hp hcase ⊢
    rw [if_pos hp]
    split <;> omega

theorem successorOf_unique (hp : p ∈ R) (h : Owner R.ids k p.id) : p = successorOf k R :=
  Members.eq_of_id hp (successorOf_mem k R) (h.unique (owner_successorOf k R))

theorem first_successorOf (hp : p ∈ R) : First R.ids p.id (successorOf (p.id + 1) R).id := by
  have h := owner_successorOf (p.id + BitVec.ofNat 64 1) R
  refine ⟨h.mem, fun m hm => ?_⟩
  exact (h.steps_of_add (by decide) (by decide) (Members.id_mem hp)).2 m hm (steps_pos _ _)

theorem steps_successorOf_fingerStart (hp : p ∈ R) (hi : i < ID_BITS) :
    2 ^ i ≤ steps p.id (successorOf (fingerStart p.id i) R).id ∧
      ∀ m ∈ R.ids, 2 ^ i ≤ steps p.id m →
        steps p.id (successorOf (fingerStart p.id i) R).id ≤ steps p.id m := by
  have h := owner_successorOf (fingerStart p.id i) R
  rw [fingerStart_eq p.id hi] at h ⊢
  exact h.steps_of_add (Nat.two_pow_pos i) (Nat.pow_lt_pow_right (by decide) hi) (Members.id_mem hp)

theorem getElem?_buildFingers (myId : Id) (R : Members) (hi : i < ID_BITS) :
    (buildFingers myId R)[i]? = some (successorOf (fingerStart myId i) R) := by
  simp [buildFingers, hi]

theorem length_buildFingers (myId : Id) (R : Members) : (buildFingers myId R).length = ID_BITS := by
  simp [buildFingers]

theorem mem_of_mem_buildFingers {myId : Id} {f : Peer} (h : f ∈ buildFingers myId R) : f ∈ R := by
  obtain ⟨i, -, rfl⟩ := List.mem_map.mp h
  exact successorOf_mem _ R

/-! ### A routing step -/

/-- `closest_preceding_finger`: the highest finger strictly between `self` and `k`, or `self`. -/
def closestPrecedingFinger (self : Peer) (fingers : List Peer) (k : Id) : Peer :=
  (fingers.reverse.find? fun f => inRangeOo f.id self.id k).getD self

/-- What a node decides about a key: who owns it, or whom to ask next. -/
structure RouteStep where
  owner : Bool
  peer : Peer
deriving DecidableEq

def routeStep (self successor : Peer) (fingers : List Peer) (k : Id) : RouteStep :=
  if inRangeOc k self.id successor.id then ⟨true, successor⟩
  else
    let next := closestPrecedingFinger self fingers k
    -- self by address and identifier: another member of the process is a good hop
    if next = self then ⟨false, successor⟩ else ⟨false, next⟩

section step
variable {self successor : Peer} {fingers : List Peer} {k : Id}

theorem closestPrecedingFinger_cases (self : Peer) (fingers : List Peer) (k : Id) :
    (closestPrecedingFinger self fingers k = self ∧
      ∀ f ∈ fingers, inRangeOo f.id self.id k = false) ∨
    (closestPrecedingFinger self fingers k ∈ fingers ∧
      inRangeOo (closestPrecedingFinger self fingers k).id self.id k = true) := by
  rw [closestPrecedingFinger]
  cases h : fingers.reverse.find? fun f => inRangeOo f.id self.id k with
  | none =>
    left
    exact ⟨rfl, by simpa using List.find?_eq_none.mp h⟩
  | some f =>
    right
    exact ⟨by simpa using List.mem_of_find?_eq_some h, by simpa using List.find?_some h⟩

theorem closestPrecedingFinger_getElem? (self : Peer) {i : ℕ} {f : Peer} (hf : fingers[i]? = some f)
    (hin : inRangeOo f.id self.id k = true) :
    ∃ j ≥ i, fingers[j]? = some (closestPrecedingFinger self fingers k) := by
  rw [closestPrecedingFinger]
  cases h : fingers.reverse.find? fun f => inRangeOo f.id self.id k with
  | none =>
    have := List.find?_eq_none.mp h f (by simpa using List.mem_of_getElem? hf)
    exact absurd hin this
  | some g =>
    obtain ⟨-, as, bs, hl, has⟩ := List.find?_eq_some_iff_append.mp h
    have hfingers : fingers = bs.reverse ++ g :: as.reverse := by
      rw [← fingers.reverse_reverse, hl]
      simp
    refine ⟨bs.length, ?_, by simp [hfingers]⟩
    by_contra hlt
    -- a finger above the one found is not between `self` and `k`
    obtain ⟨d, rfl⟩ : ∃ d, i = bs.reverse.length + (d + 1) := ⟨i - bs.length - 1, by simp; omega⟩
    rw [hfingers, List.getElem?_append_right (by omega), Nat.add_sub_cancel_left,
      List.getElem?_cons_succ] at hf
    have hmem : f ∈ as := by simpa using List.mem_of_getElem? hf
    have := has f hmem
    simp [hin] at this

/-- **A node names the owner by its arc, and otherwise a peer strictly between itself and the key**,
whatever its fingers are. -/
theorem routeStep_covers (self successor : Peer) (fingers : List Peer) (k : Id) :
    if (routeStep self successor fingers k).owner
    then inRangeOc k self.id (routeStep self successor fingers k).peer.id = true
    else inRangeOo (routeStep self successor fingers k).peer.id self.id k = true := by
  by_cases hown : inRangeOc k self.id successor.id = true
  · simp [routeStep, hown]
  · have hsucc : inRangeOo successor.id self.id k = true := by
      rw [inRangeOo_iff, ← inRangeOc_eq_false]
      simpa using hown
    rcases closestPrecedingFinger_cases self fingers k with ⟨hself, -⟩ | ⟨-, hin⟩
    · simp [routeStep, hown, hself, hsucc]
    · have hne : closestPrecedingFinger self fingers k ≠ self := fun he =>
        ne_of_inRangeOo hin (by rw [he])
      simp [routeStep, hown, hne, hin]

theorem routeStep_owner_iff :
    (routeStep self successor fingers k).owner = true ↔ inRangeOc k self.id successor.id = true := by
  by_cases hown : inRangeOc k self.id successor.id = true
  · simp [routeStep, hown]
  · rw [routeStep, if_neg hown]
    dsimp only
    split <;> simp [hown]

theorem routeStep_owner_peer (h : (routeStep self successor fingers k).owner = true) :
    (routeStep self successor fingers k).peer = successor := by
  simp [routeStep, routeStep_owner_iff.mp h]

theorem routeStep_peer (self successor : Peer) (fingers : List Peer) (k : Id) :
    (routeStep self successor fingers k).peer = successor ∨
      (routeStep self successor fingers k).peer ∈ fingers := by
  by_cases hown : inRangeOc k self.id successor.id = true
  · simp [routeStep, hown]
  · rcases closestPrecedingFinger_cases self fingers k with ⟨hself, -⟩ | ⟨hmem, hin⟩
    · simp [routeStep, hown, hself]
    · have hne : closestPrecedingFinger self fingers k ≠ self := fun he =>
        ne_of_inRangeOo hin (by rw [he])
      simp [routeStep, hown, hne, hmem]

end step

end ChordFs
