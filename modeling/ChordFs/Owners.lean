import ChordFs.Cluster
import ChordFs.StoreGrace
import Mathlib.Data.List.TakeWhile

/-! # Owners

Which member a chunk belongs to, and where its copies are.  Every identifier lies in the arc of one
member, the one `successor_of` finds (`arc_iff`), so the listings of all arcs of a store are its
listing, parted (`arcs_partition_keys`).  A process that runs the owner hands a write to it, and the
copies go to the processes that are met first on the way round from the owner
(`right_member_coordinates`). -/

namespace ChordFs

open Circle Text

/-- The owner of a chunk. -/
def ownerOf (R : Members) (key : Str) : Peer := successorOf (keyId key) R

/-- The replica set of a chunk's owner, on a wired ring. -/
def replicasOf (R : Members) (r : ℕ) (key : Str) : List Peer :=
  replicaSet (wired R r (ownerOf R key)) RF

section owners
variable {R : Members} {r : ℕ} {key : Str} {k : Id} {p m q : Peer}

theorem ownerOf_mem : ownerOf R key ∈ R := successorOf_mem _ R

theorem replicasOf_eq : replicasOf R r key = ownerOf R key :: (replicasOf R r key).tail := by
  have hset := (replicaSet_eq (wired R r (ownerOf R key))).1
  rwa [(sameRouting_wired R r (ownerOf R key)).self] at hset

theorem host_ne_of_mem_tail (h : q ∈ (replicasOf R r key).tail) :
    q.host ≠ (ownerOf R key).host := by
  have hpairwise : (replicasOf R r key).Pairwise fun a b => sameProcess b a = false :=
    Distinct.pairwise_firsts
  rw [replicasOf_eq, List.pairwise_cons] at hpairwise
  intro he
  have hfalse := hpairwise.1 q h
  rw [sameProcess_iff.mpr he] at hfalse
  cases hfalse

theorem mem_of_mem_replicaSet (hm : m ∈ R) (h : q ∈ replicaSet (wired R r m) RF) : q ∈ R := by
  have hsame := sameRouting_wired R r m
  rcases Distinct.mem_of_mem_firstsFrom h with hnil | hlist
  · cases hnil
  · rw [hsame.self, hsame.succs] at hlist
    rcases List.mem_cons.mp hlist with rfl | hsucc
    · exact hm
    · exact mem_of_mem_succList hm hsucc

theorem mem_of_mem_replicasOf (h : q ∈ replicasOf R r key) :
    q ∈ R := mem_of_mem_replicaSet ownerOf_mem h

theorem keyInArc_eq (h : validKey key = true) (start stop : Id) :
    keyInArc start stop key = inRangeOc (keyId key) start stop := by
  obtain ⟨k, hk⟩ := exists_idFromKey h
  rw [keyInArc, keyId, hk]
  rfl

theorem successorOf_of_arc (hp : p ∈ R)
    (h : inRangeOc k p.id (successorOf (p.id + 1) R).id = true) :
    successorOf k R = successorOf (p.id + 1) R :=
  (successorOf_unique (successorOf_mem _ R)
    ((first_successorOf hp).owner (inRangeOc_iff.mp h))).symm

theorem arc_of_key : inRangeOc k (predecessorOf k R).id (successorOf k R).id = true := by
  have hle := (last_predecessorOf k R).first_le (first_successorOf (predecessorOf_mem k R))
  rw [successorOf_predecessorOf_key] at hle
  exact inRangeOc_iff.mpr hle

/-- **An identifier lies in the arc of its owner and in no other.** -/
theorem arc_iff (hm : m ∈ R) :
    inRangeOc k (predecessorOf m.id R).id m.id = true ↔ m = successorOf k R := by
  have hsucc := successorOf_predecessorOf hm
  constructor
  · intro h
    have hown := successorOf_of_arc (predecessorOf_mem m.id R) (k := k) (by rw [hsucc]; exact h)
    rw [hown, hsucc]
  · rintro rfl
    have hpred : (predecessorOf (successorOf k R).id R).id = (predecessorOf k R).id := by
      refine (last_predecessorOf _ R).unique ?_
      have hlast := (first_successorOf (predecessorOf_mem k R)).last
        (Members.id_mem (predecessorOf_mem _ R))
      rwa [successorOf_predecessorOf_key] at hlast
    rw [hpred]
    exact arc_of_key

theorem ownerOf_of_arc (hm : m ∈ R)
    (h : inRangeOc (keyId key) (predecessorOf m.id R).id m.id = true) : ownerOf R key = m :=
  ((arc_iff hm).mp h).symm

theorem arc_of_ownerOf : inRangeOc (keyId key) (predecessorOf (ownerOf R key).id R).id
    (ownerOf R key).id = true :=
  (arc_iff ownerOf_mem).mpr rfl

theorem owner_of_batch {rest : List Str} {key' : Str}
    (h : key' ∈ key :: rest.takeWhile fun k => inRangeOc (keyId k) (predecessorOf (keyId key) R).id
      (ownerOf R key).id) :
    ownerOf R key' = ownerOf R key ∧
      inRangeOc (keyId key') (predecessorOf (keyId key) R).id (ownerOf R key).id = true := by
  rcases List.mem_cons.mp h with rfl | h
  · exact ⟨rfl, arc_of_key⟩
  · have harc := List.mem_takeWhile_imp h
    refine ⟨?_, harc⟩
    have hsucc : successorOf ((predecessorOf (keyId key) R).id + 1) R = ownerOf R key :=
      successorOf_predecessorOf_key _ R
    rw [← hsucc] at harc ⊢
    exact successorOf_of_arc (predecessorOf_mem _ R) harc

theorem tail_replicasOf_alone (h : ¬ R.list.length > 1) : (replicasOf R r key).tail = [] := by
  rw [List.eq_nil_iff_forall_not_mem]
  intro q hq
  have hmem : q ∈ R := mem_of_mem_replicasOf (List.mem_of_mem_tail hq)
  by_cases he : q = ownerOf R key
  · exact host_ne_of_mem_tail hq (congrArg Peer.host he)
  · have hothers : q ∈ others (ownerOf R key) R.list :=
      (mem_others R.nodup ownerOf_mem).mpr ⟨hmem, he⟩
    have hlen : (others (ownerOf R key) R.list).length + 1 = R.list.length :=
      length_others ownerOf_mem
    have := List.length_pos_of_mem hothers
    omega

theorem memberFor_spec {members : List NodeState} (h : members ≠ []) (k : Id) :
    memberFor members h k ∈ members ∧
      ∀ m ∈ members, dist k (memberFor members h k).self.id ≤ dist k m.self.id := by
  have hfold : ∀ (ms : List NodeState) (best : NodeState),
      let least := ms.foldl (fun best m => if m.self.id - k < best.self.id - k then m
        else best) best
      (least = best ∨ least ∈ ms) ∧ dist k least.self.id ≤ dist k best.self.id ∧
        ∀ m ∈ ms, dist k least.self.id ≤ dist k m.self.id := by
    intro ms
    induction ms with
    | nil => exact fun best => ⟨.inl rfl, le_rfl, by simp⟩
    | cons m ms ih =>
      intro best
      rw [List.foldl_cons]
      by_cases hlt : m.self.id - k < best.self.id - k
      · obtain ⟨hmem, hle, hall⟩ := ih m
        rw [if_pos hlt]
        refine ⟨.inr ?_, hle.trans (Nat.le_of_lt hlt), ?_⟩
        · rcases hmem with he | hmem
          · rw [he]
            exact List.mem_cons_self
          · exact List.mem_cons_of_mem m hmem
        · exact List.forall_mem_cons.mpr ⟨hle, hall⟩
      · obtain ⟨hmem, hle, hall⟩ := ih best
        rw [if_neg hlt]
        refine ⟨hmem.imp_right (List.mem_cons_of_mem m), hle, List.forall_mem_cons.mpr ⟨?_, hall⟩⟩
        exact hle.trans (Nat.not_lt.mp hlt)
  obtain ⟨hmem, -, hall⟩ := hfold members (members.head h)
  refine ⟨?_, hall⟩
  rcases hmem with he | hmem
  · rw [memberFor, he]
    exact List.head_mem h
  · exact hmem

/-- **A process that runs the owner of `k` finds it**, whichever other members it runs. -/
theorem memberFor_successorOf {L : List Peer} {node : Peer → NodeState} (hne : L.map node ≠ [])
    (hL : ∀ p ∈ L, p ∈ R ∧ (node p).self = p) (hk : successorOf k R ∈ L) :
    memberFor (L.map node) hne k = node (successorOf k R) := by
  obtain ⟨hmem, hle⟩ := memberFor_spec hne k
  obtain ⟨p, hp, hnode⟩ := List.mem_map.mp hmem
  have hle := hle _ (List.mem_map_of_mem hk)
  rw [← hnode, (hL p hp).2, (hL _ hk).2] at hle
  have heq : dist k p.id = dist k (successorOf k R).id :=
    Nat.le_antisymm hle ((owner_successorOf k R).le p.id (Members.id_mem (hL p hp).1))
  rw [← hnode, Members.eq_of_id (hL p hp).1 (successorOf_mem k R) (dist_injective heq)]

end owners

/-! ### Arcs -/

section arcs
variable {R : Members} {s : ChunkStore} {key : Str} {m m' : Peer}

theorem mem_arc (hvalid : ∀ key ∈ s.keys, validKey key = true) (hm : m ∈ R) :
    key ∈ storeKeysInArc s (predecessorOf m.id R).id m.id ↔ key ∈ s.keys ∧ m = ownerOf R key := by
  rw [mem_storeKeysInArc, and_congr_right_iff]
  intro hkey
  rw [keyInArc_eq (hvalid key hkey), arc_iff hm]
  exact Iff.rfl

/-- **The arcs part the keys.**  Every identifier lies in one arc, and so does every key of a store,
however the store came about. -/
theorem arcs_partition_keys (sha : Sha1) (grace now : ℤ) (R : Members) :
    (∀ k, successorOf k R ∈ R ∧
      ∀ m ∈ R, inRangeOc k (predecessorOf m.id R).id m.id = true ↔ m = successorOf k R) ∧
    ∀ (d : Disk) (ops : List (ℤ × StoreOp)),
      let s := ((StoreRun.opened now d).exec sha grace ops).store
      (R.list.Pairwise fun m m' => (storeKeysInArc s (predecessorOf m.id R).id m.id).Disjoint
        (storeKeysInArc s (predecessorOf m'.id R).id m'.id)) ∧
      let listed := R.list.flatMap fun m => storeKeysInArc s (predecessorOf m.id R).id m.id
      listed.Nodup ∧ (∀ key, key ∈ listed ↔ key ∈ s.keys) ∧ listed.Perm (storeKeys s) := by
  refine ⟨fun k => ⟨successorOf_mem k R, fun m hm => arc_iff hm⟩, fun d ops => ?_⟩
  intro s
  have hvalid : ∀ key ∈ s.keys, validKey key = true :=
    StoreRun.validKey_exec ops fun key hkey => validKey_storeOpen hkey
  have hdisjoint :
      R.list.Pairwise fun m m' => (storeKeysInArc s (predecessorOf m.id R).id m.id).Disjoint
      (storeKeysInArc s (predecessorOf m'.id R).id m'.id) := by
    refine R.nodup.imp_of_mem fun hm hm' hne key h h' => hne ?_
    rw [((mem_arc hvalid hm).mp h).2, ((mem_arc hvalid hm').mp h').2]
  have hnodup : (storeKeys s).Nodup := Finset.sort_nodup _ _
  refine ⟨hdisjoint, ?_⟩
  intro listed
  have hlisted : listed.Nodup := List.nodup_flatMap.mpr ⟨fun m _ => hnodup.filter _, hdisjoint⟩
  have hmem : ∀ key, key ∈ listed ↔ key ∈ s.keys := by
    intro key
    rw [List.mem_flatMap]
    constructor
    · rintro ⟨m, hm, h⟩
      exact ((mem_arc hvalid hm).mp h).1
    · exact fun h => ⟨ownerOf R key, ownerOf_mem, (mem_arc hvalid ownerOf_mem).mpr ⟨h, rfl⟩⟩
  exact ⟨hlisted, hmem,
    (List.perm_ext_iff_of_nodup hlisted hnodup).mpr fun key => (hmem key).trans mem_storeKeys.symm⟩

end arcs

/-! ### The coordinator of a write -/

/-- The first processes of a wired member's list are those met first on the way round. -/
theorem replicaSet_wired {R : Members} {p : Peer} (hp : p ∈ R) (r rf : ℕ) :
    replicaSet (wired R r p) rf =
    (((R.list.rotate (R.list.idxOf p)).take (r + 1)).eraseDupsBy sameProcess).take rf := by
  have hsame := sameRouting_wired R r p
  rw [replicaSet, distinctProcesses, Distinct.firsts_eq, hsame.self, hsame.succs, rotate_idxOf hp,
    List.take_succ_cons]
  dsimp only
  rw [succList, nextMembers_eq hp]
  split
  · rename_i hnil
    -- a member that knows no other is its own successor
    rw [hnil]
    simp [List.eraseDupsBy, List.eraseDupsBy.loop, NodeState.fresh, sameProcess_self]
  · rfl

/-- **The right member coordinates.**  A process that runs the owner, among other members and in any
order, hands a write to the owner; and on a correct ring the copies are for the first `RF` distinct
processes of the owner and the members in its list, in the order in which they are met clockwise. -/
theorem right_member_coordinates {R : Members} {L : List Peer} {node : Peer → NodeState}
    (hne : L.map node ≠ []) (hL : ∀ p ∈ L, p ∈ R ∧ (node p).self = p) {k : Id}
    (hk : successorOf k R ∈ L) :
    memberFor (L.map node) hne k = node (successorOf k R) ∧
    ∀ r, (∀ p ∈ L, node p = wired R r p) →
      let walk := (R.list.rotate (R.list.idxOf (successorOf k R))).take (r + 1)
      let set := (walk.eraseDupsBy sameProcess).take RF
      replicaSet (memberFor (L.map node) hne k) RF = set ∧
      ∀ sha key body io now s d, keyId key = k →
        coordinate sha key body (L.map node) hne io now s d =
        .begin (storePut sha io now key body s d).1 (successorOf k R) set.tail := by
  have hmember := memberFor_successorOf hne hL hk
  refine ⟨hmember, fun r hwired => ?_⟩
  intro walk set
  have hset : replicaSet (memberFor (L.map node) hne k) RF = set := by
    rw [hmember, hwired _ hk]
    exact replicaSet_wired (successorOf_mem k R) r RF
  refine ⟨hset, ?_⟩
  rintro sha key body io now s d rfl
  have hself : (memberFor (L.map node) hne (keyId key)).self = successorOf (keyId key) R := by
    rw [hmember]
    exact (hL _ hk).2
  rw [coordinate, ← hset, ← hself]
  rfl

/-- Four members of three processes: the first and the last share one. -/
def sharingMembers : Members where
  list := [hostPeer 1 1, hostPeer 3 2, hostPeer 5 3, hostPeer 0xfffffffffffffff0 1]
  ne_nil := by decide
  sorted := by decide

/-- The process that runs two of the four members hands the write to the right one; the copies go on
past the wrap and leave out its other member. -/
theorem right_member_coordinates_four :
    (memberFor ([hostPeer 1 1, hostPeer 0xfffffffffffffff0 1].map (wired sharingMembers 8))
      (by decide)
      0xda39a3ee5e6b4b0d).self.id = 0xfffffffffffffff0 ∧
    (replicaSet (memberFor
      ([hostPeer 1 1, hostPeer 0xfffffffffffffff0 1].map (wired sharingMembers 8)) (by decide)
      0xda39a3ee5e6b4b0d) RF).map Peer.id = [0xfffffffffffffff0, 3, 5] := by
  have h := @right_member_coordinates sharingMembers [hostPeer 1 1, hostPeer 0xfffffffffffffff0 1]
    (wired sharingMembers 8) (by decide)
    (fun p hp => ⟨by revert p; decide, (sameRouting_wired sharingMembers 8 p).self⟩)
    0xda39a3ee5e6b4b0d (by decide +kernel)
  rw [(h.2 8 fun _ _ => rfl).1, h.1]
  decide +kernel

end ChordFs
