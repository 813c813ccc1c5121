import ChordFs.ClusterGrowth

/-! # A full scan restores replication

The rounds of the processes of a wired ring, followed part by part in a cluster that only grows
(`Setting.Leads`).  What a process offers is held by the other then, whether the digests agree
(`Setting.holds_of_digest`) or the keys are listed; so the owner of an arc brings its chunks to its
replicas (`Setting.leads_offerArc`), and everybody else brings them to the owner
(`Setting.leads_handOffFrom`).  An owner that gets a chunk after its own round has got it by a
write, which goes to all replicas. -/

namespace ChordFs

open Circle Dialogue Paging Text

namespace Cluster

/-! ### Requests -/

section requests
variable {sha : Sha1} {R : Members} {r : ℕ} {sites : Sites R} {w₀ w : Cluster} {clock : ℕ → ℤ}
  {lands : Copy → Bool} {dest : Peer} {key body line : Str} {start stop : Id}

theorem members_ne_nil (hd : dest ∈ R) : sites.members dest.host ≠ [] :=
  List.ne_nil_of_mem (sites.mem_members.mpr ⟨hd, rfl⟩)

theorem setStore_self (w : Cluster) (h : Host) : w.setStore h (w.store h, w.disk h) = w := by
  simp [setStore]

theorem request_answer {f : ChunkFrame} (hd : dest ∈ R)
    (h : ∀ hne, handleChunkRequest sha {} clock false (w.chunkNode sites dest.host hne) line body =
      (.answer f, w.chunkNode sites dest.host hne)) :
    w.request sha sites clock lands dest line body = ((.ok, f), w) := by
  rw [request, dif_pos (members_ne_nil hd), h]
  dsimp only
  rw [chunkNode, setStore_self]

theorem request_digest (hd : dest ∈ R) :
    w.request sha sites clock lands dest (digestLine start stop) [] =
    ((.ok, ⟨words ["DIGEST".toList, keysDigest sha (storeKeysInArc (w.store dest.host) start stop)],
      []⟩), w) := by
  exact request_answer hd fun hne => handleChunkRequest_digest rfl

theorem request_have {keys : List Str} (hd : dest ∈ R) (hne : keys ≠ [])
    (hlen : keys.length ≤ MAX_HAVE_KEYS) (hvalid : ∀ key ∈ keys, validKey key = true) :
    w.request sha sites clock lands dest (words ("HAVE".toList :: keys)) [] =
      ((.ok, ⟨words ["HAVE".toList, keys.map fun key => if storeHas (w.store dest.host) key then '1'
        else '0'], []⟩), w) := by
  exact request_answer hd fun hmembers => handleChunkRequest_have rfl hne hlen hvalid

theorem request_store (hd : dest ∈ R) (hput : putRefusal sha key body = none) :
    w.request sha sites clock lands dest (offerLine false key body) body =
      ((.ok, ⟨storeReply (storePut sha {} (clock 0) key body (w.store dest.host)
        (w.disk dest.host)).1, []⟩),
        w.stores sha (clock 0) dest.host key body) := by
  rw [request, dif_pos (members_ne_nil hd), handleChunkRequest_store rfl (putRefusal_none hput).1]
  rfl

theorem memberFor_owner (hring : WiredRing R r w.ring) (hd : dest.host = (ownerOf R key).host)
    (hne : (sites.members dest.host).map w.ring.node ≠ []) :
    memberFor ((sites.members dest.host).map w.ring.node) hne (keyId key) =
      wired R r (ownerOf R key) := by
  have hself : ∀ p ∈ sites.members dest.host, p ∈ R ∧ (w.ring.node p).self = p := by
    intro p hp
    have hpR := (sites.mem_members.mp hp).1
    rw [hring.2 p hpR]
    exact ⟨hpR, (sameRouting_wired R r p).self⟩
  rw [memberFor_successorOf hne hself (sites.mem_members.mpr ⟨ownerOf_mem, hd.symm⟩)]
  exact hring.2 _ ownerOf_mem

theorem request_put (hring : WiredRing R r w.ring)
    (hintact : Intact sha (w.store dest.host) (w.disk dest.host)) (hd : dest ∈ R)
    (hown : dest.host = (ownerOf R key).host) (hput : putRefusal sha key body = none) :
    ∃ m : PutMachine, m.coord.isAnswered = false ∧
    m.copies.map Prod.fst = (replicasOf R r key).tail ∧
      (w.request sha sites clock lands dest (offerLine true key body) body).2 =
        ((w.stores sha (clock 0) dest.host key body).write sha (clock 0) lands key body 1 m).2 := by
  obtain ⟨hheld, -, -⟩ := @Intact.storePut _ _ _ _ _ (clock 0) hintact hput
  have hne := @members_ne_nil R sites dest hd
  refine ⟨coordinate sha key body _ (w.chunkNode sites dest.host hne).members_ne {} (clock 0)
    (w.store dest.host) (w.disk dest.host), ?_, ?_, ?_⟩
  · rw [coordinate, PutMachine.begin, if_neg]
    · simp only [PutMachine.startFrom]
      split <;> rfl
    · rintro (h | h | h) <;> rw [h] at hheld <;> cases hheld
  · have hmember : memberFor (w.chunkNode sites dest.host hne).members
      (w.chunkNode sites dest.host hne).members_ne
        ((idFromKey key).getD 0) = wired R r (ownerOf R key) := memberFor_owner hring hown _
    rw [coordinate, hmember, PutMachine.begin, if_neg]
    · simp only [PutMachine.startFrom, List.map_map]
      exact List.map_id _
    · rintro (h | h | h) <;> rw [h] at hheld <;> cases hheld
  · rw [request, dif_pos hne, handleChunkRequest_put rfl (putRefusal_none hput).1]
    rfl

end requests

end Cluster

/-! ### Following a round -/

open Cluster

/-- A wired ring whose processes run rounds: what the clocks and the network do, and how it began.
No two lists of keys it began with have the same digest. -/
structure Setting where
  sha : Sha1
  R : Members
  r : ℕ
  r_ok : 1 ≤ r ∧ r ≤ MAX_SUCCESSORS
  sites : Sites R
  depth : ℕ
  T : Timing
  w₀ : Cluster
  no_collision : ∀ s t : Finset Str, (∀ key ∈ s ∪ t, ∃ h, w₀.Holds h key) →
    keysDigest sha (s.sort (· ≤ ·)) = keysDigest sha (t.sort (· ≤ ·)) → s = t

namespace Setting

variable (S : Setting)

def Grown (w : Cluster) : Prop := Cluster.Grown S.sha S.R S.r S.w₀ w

def Covered (w : Cluster) (key : Str) : Prop := Cluster.Covered S.R S.r w key

/-- A part of a round of the process `self` ends with `post`, and no chunk is lost. -/
def Leads {α : Type} (self : Host) (p : Repair α) (w : Cluster) (post : α → Cluster → Prop) :
    Prop :=
  Reaches (growth S.sha S.R S.r S.w₀) (answer S.sha S.sites (S.depth + 1) S.T self) p w post

variable {S} {self : Host} {w : Cluster} {dest start : Peer} {key : Str}

variable {α : Type} {q : RepairAsk} {asPut ok : Bool} {rep : RepairReport} {keys : List Str}
  {arc : Id × Id} {m : Peer} {owned : List (Id × Id)} {st : RepairState} {k : Id} {left : ℕ}
  {rs : List Round}

theorem leads_pure {post : α → Cluster → Prop} {a : α} (hw : S.Grown w) (h : post a w) :
    S.Leads self (pure a) w post :=
  reaches_pure hw h

theorem Leads.bind {β : Type} {p : Repair α} {k : α → Repair β} {post : β → Cluster → Prop}
    (mid : α → Cluster → Prop) (h : S.Leads self p w mid)
    (hk : ∀ a w', S.Grown w' → Le w w' → mid a w' → S.Leads self (k a) w' post) :
    S.Leads self (p >>= k) w post :=
  Reaches.bind h hk

theorem leads_ask {post : q.Reply → Cluster → Prop} (hw : S.Grown w)
    (h : ∀ w', S.Grown w' → Le w w' → let out := reply S.sha S.sites (S.depth + 1) S.T self q w'
      S.Grown out.2 ∧ Le w' out.2 ∧ post out.1 out.2) :
    S.Leads self (.call q .done) w post := by
  obtain ⟨hland, hle⟩ := @Cluster.Grown.land S.sha S.R S.r S.w₀ w (S.T.now w.calls)
    (S.T.lands w.calls) hw
  obtain ⟨hnext, hleNext⟩ := @Cluster.Grown.reorder S.sha S.R S.r S.w₀ _
    { w.land S.sha (S.T.now w.calls) (S.T.lands w.calls) with calls := w.calls + 1 } hland rfl rfl
      rfl fun _ => Iff.rfl
  obtain ⟨hgrown, hleOut, hpost⟩ := h _ hnext (hle.trans hleNext)
  exact ⟨hgrown, (hle.trans hleNext).trans hleOut, hpost⟩

theorem leads_read {post : q.Reply → Cluster → Prop} (hw : S.Grown w)
    (hread : ∀ w', (reply S.sha S.sites (S.depth + 1) S.T self q w').2 = w')
    (h : ∀ w', S.Grown w' → Le w w' → post (reply S.sha S.sites (S.depth + 1) S.T self q w').1 w') :
    S.Leads self (.call q .done) w post := by
  refine leads_ask hw fun w' hw' hle => ?_
  dsimp only
  rw [hread w']
  exact ⟨hw', Le.refl w', h w' hw' hle⟩

/-! ### Offers -/

/-- The process may be sent the chunk: by STORE as a replica, or by PUT as its owner. -/
def Fits (S : Setting) (asPut : Bool) (dest : Peer) (key : Str) : Prop :=
  dest ∈ S.R ∧ if asPut then dest.host = (ownerOf S.R key).host
    else dest ∈ (replicasOf S.R S.r key).tail

/-- **A chunk that is offered is held then.** -/
theorem leads_offerKey (hw : S.Grown w) (hself : w.Holds self key) (hfits : S.Fits asPut dest key) :
    S.Leads self (offerKey S.sha start dest asPut key rep) w fun _ w' =>
      w'.Holds dest.host key := by
  refine Leads.bind (fun a _ => ∃ body, a = .found body ∧ putRefusal S.sha key body = none)
    (leads_read hw (fun _ => rfl) fun w' hw' hle => ?_) fun a w' hw' hle hfound => ?_
  · obtain ⟨body, hget, hkey⟩ := ((hw'.intact self).mem_keys key).mp (hle.holds hself)
    exact ⟨body, hget, putRefusal_of_found hget hkey⟩
  obtain ⟨body, rfl, hput⟩ := hfound
  have hkey := (putRefusal_none hput).2
  dsimp only
  rw [if_neg (not_not_intro hkey)]
  refine Leads.bind (fun _ w' => w'.Holds dest.host key) (leads_ask hw' fun w'' hw'' hle' => ?_)
    fun a w'' hw'' hle' hheld => ?_
  · have hknown : ∃ h, S.w₀.Holds h key := hw''.known (.inl (hle'.holds (hle.holds hself)))
    cases asPut with
    | true =>
      obtain ⟨m, hm, hcopies, hrequest⟩ :=
        @request_put S.sha S.R S.r S.sites w'' (fun _ => S.T.now w''.calls)
        (S.T.lands w''.calls) dest key body hw''.wired (hw''.intact _) hfits.1 hfits.2 hput
      have hwrite := @Cluster.Grown.write S.sha S.R S.r S.w₀ w'' dest.host key body
        (S.T.now w''.calls)
        (S.T.lands w''.calls) 1 m hw'' hput hknown hm hcopies
      rw [← hrequest] at hwrite
      exact hwrite
    | false =>
      have hrequest := @request_store S.sha S.R S.sites w'' (fun _ => S.T.now w''.calls)
        (S.T.lands w''.calls) dest key body hfits.1 hput
      have hstores := @Cluster.Grown.stores S.sha S.R S.r S.w₀ w'' dest.host key body
        (S.T.now w''.calls) hw'' hput
        hknown fun he => absurd he (host_ne_of_mem_tail hfits.2)
      dsimp only [reply]
      rw [hrequest]
      exact hstores
  · split <;> exact leads_pure hw'' hheld

theorem leads_offerListed {listed : List (Str × Char)} (hw : S.Grown w)
    (h : ∀ e ∈ listed, w.Holds self e.1 ∧ S.Fits asPut dest e.1 ∧
      (e.2 ≠ '0' → w.Holds dest.host e.1)) :
    S.Leads self (offerListed S.sha start dest asPut listed rep ok) w
      fun _ w' => ∀ e ∈ listed, w'.Holds dest.host e.1 := by
  induction listed generalizing w rep ok with
  | nil => exact leads_pure hw (by simp)
  | cons e rest ih =>
    obtain ⟨key, bit⟩ := e
    obtain ⟨⟨hself, hfits, hbit⟩, hrest⟩ := List.forall_mem_cons.mp h
    unfold offerListed
    split
    · rename_i hne
      refine Reaches.mono (ih hw hrest) fun _ w' _ hle hheld => ?_
      exact List.forall_mem_cons.mpr ⟨hle.holds (hbit hne), hheld⟩
    · refine Leads.bind (fun _ w' => w'.Holds dest.host key) (leads_offerKey hw hself hfits)
        fun out w' hw' hle hheld => ?_
      refine Reaches.mono (ih hw' fun e he => ?_) fun _ w'' _ hle' hall => ?_
      · obtain ⟨hself', hfits', hbit'⟩ := hrest e he
        exact ⟨hle.holds hself', hfits', fun hne => hle.holds (hbit' hne)⟩
      · exact List.forall_mem_cons.mpr ⟨hle'.holds hheld, hall⟩

/-- **Listings of the keys.** -/
theorem leads_offerBatches {bs : List (List Str)} (hw : S.Grown w)
    (hbs : ∀ b ∈ bs, b ≠ [] ∧ b.length ≤ MAX_HAVE_KEYS)
    (h : ∀ b ∈ bs, ∀ key ∈ b, w.Holds self key ∧ S.Fits asPut dest key) :
    S.Leads self (offerBatches S.sha start dest asPut bs rep ok) w
      fun _ w' => ∀ b ∈ bs, ∀ key ∈ b, w'.Holds dest.host key := by
  induction bs generalizing w rep ok with
  | nil => exact leads_pure hw (by simp)
  | cons b bs ih =>
    obtain ⟨⟨hne, hlen⟩, hbs⟩ := List.forall_mem_cons.mp hbs
    obtain ⟨hkeys, hrest⟩ := List.forall_mem_cons.mp h
    have hd : dest ∈ S.R := by
      obtain ⟨key, hkey⟩ := List.exists_mem_of_ne_nil b hne
      exact (hkeys key hkey).2.1
    unfold offerBatches
    refine Leads.bind (fun a w' => ∃ bit : Str → Char,
      a = (.ok, ⟨words ["HAVE".toList, b.map bit], []⟩) ∧
      ∀ key ∈ b, bit key ≠ '0' → w'.Holds dest.host key) (leads_ask hw fun w' hw' hle => ?_)
      fun a w' hw' hle hanswer => ?_
    · have hvalid : ∀ key ∈ b, validKey key = true := by
        intro key hkey
        obtain ⟨body, hget, -⟩ := ((hw'.intact self).mem_keys key).mp (hle.holds (hkeys key hkey).1)
        exact (storeGet_found_iff.mp hget).1
      have hrequest := @request_have S.sha S.R S.sites w' (fun _ => S.T.now w'.calls)
        (S.T.lands w'.calls) dest b hd hne hlen hvalid
      dsimp only [reply]
      rw [hrequest]
      refine ⟨hw', Le.refl w', _, rfl, fun key _ hbit => ?_⟩
      by_contra hnot
      refine hbit ?_
      rw [if_neg]
      rw [storeHas, decide_eq_true_eq]
      exact hnot
    · obtain ⟨bit, rfl, hbit⟩ := hanswer
      obtain ⟨htake, hlength, hdrop⟩ := haveReply_spec b bit
      have hzip : b.zip (b.map bit) = b.map fun key => (key, bit key) := by
        have hmap : (b.map id).zip (b.map bit) = b.map fun key => (id key, bit key) := List.zip_map'
        rwa [List.map_id] at hmap
      dsimp only
      rw [if_neg (not_or.mpr ⟨not_not_intro rfl,
        not_or.mpr ⟨not_not_intro htake, not_not_intro hlength⟩⟩), hdrop, hzip]
      refine Leads.bind (fun _ w' => ∀ e ∈ b.map fun key => (key, bit key), w'.Holds dest.host e.1)
        (leads_offerListed hw' ?_) fun out w'' hw'' hle' hheld => ?_
      · rw [List.forall_mem_map]
        intro key hkey
        obtain ⟨hself, hfits⟩ := hkeys key hkey
        exact ⟨hle.holds hself, hfits, hbit key hkey⟩
      · refine Reaches.mono (ih hw'' hbs fun b' hb' key hkey => ?_) fun _ w''' _ hle'' hall => ?_
        · obtain ⟨hself, hfits⟩ := hrest b' hb' key hkey
          exact ⟨hle'.holds (hle.holds hself), hfits⟩
        · rw [List.forall_mem_map] at hheld
          exact List.forall_mem_cons.mpr ⟨fun key hkey => hle''.holds (hheld key hkey), hall⟩

/-- **Equal digests of an arc mean equal chunks there.** -/
theorem holds_of_digest {h h' : Host} {start stop : Id} {w' : Cluster} (hw : S.Grown w)
    (hw' : S.Grown w')
    (hdigest : keysDigest S.sha (storeKeysInArc (w.store h) start stop) =
      keysDigest S.sha (storeKeysInArc (w'.store h') start stop))
    (hheld : w.Holds h key) (harc : keyInArc start stop key = true) : w'.Holds h' key := by
  rw [storeKeysInArc_eq, storeKeysInArc_eq] at hdigest
  have hsame := S.no_collision _ _ ?_ hdigest
  · have hin : key ∈ (w.store h).keys.filter fun key => keyInArc start stop key = true :=
      Finset.mem_filter.mpr ⟨hheld, harc⟩
    rw [hsame] at hin
    exact (Finset.mem_filter.mp hin).1
  · intro key hkey
    rcases Finset.mem_union.mp hkey with hkey | hkey
    · exact hw.known (.inl (Finset.mem_filter.mp hkey).1)
    · exact hw'.known (.inl (Finset.mem_filter.mp hkey).1)

/-- **What is offered is held then**, whether the digests agree or the keys are listed. -/
theorem leads_offer (hw : S.Grown w) (hd : dest ∈ S.R)
    (harc : ∀ key ∈ keys, keyInArc arc.1 arc.2 key = true)
    (h : ∀ key ∈ keys, w.Holds self key ∧ S.Fits asPut dest key) :
    S.Leads self (offer S.sha start dest keys rep asPut arc) w fun _ w' =>
      ∀ key ∈ keys, w'.Holds dest.host key := by
  refine Leads.bind (fun held w' => S.Grown w' ∧ held = storeKeysInArc (w'.store self) arc.1 arc.2)
    (leads_read hw (fun _ => rfl) fun w' hw' hle => ⟨hw', rfl⟩) fun held w₁ hw₁ hle₁ hheld => ?_
  obtain ⟨-, rfl⟩ := hheld
  refine Leads.bind (fun a w' => a = (.ok, ⟨words ["DIGEST".toList,
    keysDigest S.sha (storeKeysInArc (w'.store dest.host) arc.1 arc.2)], []⟩))
      (leads_ask hw₁ fun w' hw' hle => ?_)
    fun a w₂ hw₂ hle₂ hanswer => ?_
  · have hrequest := @request_digest S.sha S.R S.sites w' (fun _ => S.T.now w'.calls)
      (S.T.lands w'.calls) dest arc.1 arc.2 hd
    dsimp only [reply]
    rw [hrequest]
    exact ⟨hw', Le.refl w', rfl⟩
  · subst hanswer
    dsimp only
    split
    · rename_i hmatch
      refine leads_pure hw₂ fun key hkey => ?_
      exact holds_of_digest hw₁ hw₂ (words_digest_injective hmatch.2).symm
        (hle₁.holds (h key hkey).1) (harc key hkey)
    · have hpos : 0 < MAX_HAVE_KEYS := by decide
      refine Reaches.mono (leads_offerBatches hw₂ (fun b hb => ?_) fun b hb key hkey => ?_)
        fun _ w' _ hle hall key hkey => ?_
      · exact ⟨ne_nil_of_mem_batches hpos hb, length_le_of_mem_batches hb⟩
      · obtain ⟨hself, hfits⟩ := h key (mem_of_mem_batches hb hkey)
        exact ⟨hle₂.holds (hle₁.holds hself), hfits⟩
      · rw [← flatten_batches hpos keys] at hkey
        obtain ⟨b, hb, hkey⟩ := List.mem_flatten.mp hkey
        exact hall b hb key hkey

theorem leads_offerAll {dests : List Peer} (hw : S.Grown w)
    (harc : ∀ key ∈ keys, keyInArc arc.1 arc.2 key = true) (hself : ∀ key ∈ keys, w.Holds self key)
    (hd : ∀ dest ∈ dests, dest ∈ S.R ∧ ∀ key ∈ keys, S.Fits false dest key) :
    S.Leads self (offerAll S.sha start keys arc dests rep ok) w
      fun _ w' => ∀ dest ∈ dests, ∀ key ∈ keys, w'.Holds dest.host key := by
  induction dests generalizing w rep ok with
  | nil => exact leads_pure hw (by simp)
  | cons dest dests ih =>
    obtain ⟨⟨hdest, hfits⟩, hrest⟩ := List.forall_mem_cons.mp hd
    unfold offerAll
    refine Leads.bind (fun _ w' => ∀ key ∈ keys, w'.Holds dest.host key)
      (leads_offer hw hdest harc fun key hkey => ⟨hself key hkey, hfits key hkey⟩)
        fun out w' hw' hle hheld => ?_
    refine Reaches.mono (ih hw' (fun key hkey => hle.holds (hself key hkey)) hrest)
      fun _ w'' _ hle' hall => ?_
    exact List.forall_mem_cons.mpr ⟨fun key hkey => hle'.holds (hheld key hkey), hall⟩

/-! ### The parts of a round -/

theorem leads_scrubFrom (hw : S.Grown w) (hkeys : ∀ key ∈ keys, w.Holds self key) :
    S.Leads self (scrubFrom S.sha start keys rep) w fun _ _ => True := by
  induction keys generalizing w rep with
  | nil => exact leads_pure hw trivial
  | cons key keys ih =>
    obtain ⟨hkey, hrest⟩ := List.forall_mem_cons.mp hkeys
    unfold scrubFrom
    refine Leads.bind (fun a _ => soundCopy S.sha key a = true)
      (leads_read hw (fun _ => rfl) fun w' hw' hle => ?_)
      fun a w' hw' hle hsound => ?_
    · obtain ⟨body, hget, hchunk⟩ := ((hw'.intact self).mem_keys key).mp (hle.holds hkey)
      dsimp only [reply]
      rw [hget]
      exact decide_eq_true hchunk
    · rw [if_pos hsound]
      exact ih hw' fun key hkey => hle.holds (hrest key hkey)

theorem leads_scrub (hw : S.Grown w) : S.Leads self (scrub S.sha start rep) w fun _ _ => True := by
  refine Leads.bind (fun keys w' => ∀ key ∈ keys, w'.Holds self key)
    (leads_read hw (fun _ => rfl) fun w' _ _ key hkey => mem_storeKeys.mp hkey)
      fun keys w' hw' _ hkeys => ?_
  exact leads_scrubFrom hw' hkeys

theorem Grown.validKey (hw : S.Grown w) (hh : w.Holds self key) : ChordFs.validKey key = true := by
  obtain ⟨body, hget, -⟩ := ((hw.intact self).mem_keys key).mp hh
  exact (storeGet_found_iff.mp hget).1

theorem leads_member (hw : S.Grown w) (hm : m ∈ S.R) :
    S.Leads self (Repair.member m) w fun s _ => s = wired S.R S.r m :=
  leads_read hw (fun _ => rfl) fun _ hw' _ => hw'.wired.2 m hm

/-- The chunks of an arc, offered to the replicas of the member that owns it. -/
theorem leads_offerArc (hw : S.Grown w) (hm : m ∈ S.R) (hhost : m.host = self) :
    S.Leads self (offerArc S.sha start ((predecessorOf m.id S.R).id, m.id)
      (replicaSet (wired S.R S.r m) RF).tail rep) w
      fun _ w' => ∀ key, w.Holds self key → ownerOf S.R key = m → S.Covered w' key := by
  refine Leads.bind (fun keys w' => ∀ key, key ∈ keys ↔ w'.Holds self key ∧
    keyInArc (predecessorOf m.id S.R).id m.id key = true)
    (leads_read hw (fun _ => rfl) fun w' _ _ key => mem_storeKeysInArc)
      fun keys w₁ hw₁ hle₁ hkeys => ?_
  have hset : ∀ key, ownerOf S.R key = m →
      replicaSet (wired S.R S.r m) RF = replicasOf S.R S.r key := by
    intro key he
    rw [replicasOf, he]
  refine Reaches.mono (leads_offerAll hw₁ (fun key hkey => ((hkeys key).mp hkey).2)
    (fun key hkey => ((hkeys key).mp hkey).1) fun dest hdest => ?_)
      fun _ w' hw' hle hall key hheld he => ?_
  · have hmem : dest ∈ S.R := mem_of_mem_replicaSet hm (List.mem_of_mem_tail hdest)
    refine ⟨hmem, fun key hkey => ⟨hmem, ?_⟩⟩
    obtain ⟨hheld, harc⟩ := (hkeys key).mp hkey
    rw [keyInArc_eq (Grown.validKey hw₁ hheld)] at harc
    rwa [hset key (ownerOf_of_arc hm harc)] at hdest
  · have hself := hle₁.holds hheld
    have hin : key ∈ keys := by
      refine (hkeys key).mpr ⟨hself, ?_⟩
      rw [keyInArc_eq (Grown.validKey hw₁ hself), ← he]
      exact arc_of_ownerOf
    intro q hq
    rw [replicasOf_eq] at hq
    rcases List.mem_cons.mp hq with rfl | hq
    · rw [he, hhost]
      exact .inl (hle.holds hself)
    · exact .inl (hall q (by rwa [hset key he]) key hin)

theorem covered_alone (hlen : ¬ S.R.list.length > 1) (hheld : w.Holds (ownerOf S.R key).host key) :
    S.Covered w key := by
  intro q hq
  rw [replicasOf_eq, tail_replicasOf_alone hlen, List.mem_singleton] at hq
  rw [hq]
  exact .inl hheld

/-- **Every member's arc.**  The arcs that are said to be owned are those of members, and in a full
scan every chunk of such an arc is brought to its replicas. -/
theorem leads_checkArcs {full : Bool} {ms : List Peer} (hw : S.Grown w)
    (hms : ∀ m ∈ ms, m ∈ S.R ∧ m.host = self) :
    S.Leads self (checkArcs S.sha start full ms owned st rep) w fun out w' =>
      (∀ arc ∈ out.1, arc ∈ owned ∨ ∃ m ∈ ms, arc = ((predecessorOf m.id S.R).id, m.id)) ∧
      (full = true → ∀ m ∈ ms, ∀ key, w.Holds self key → ownerOf S.R key = m →
        S.Covered w' key) := by
  induction ms generalizing w owned st rep with
  | nil => exact leads_pure hw ⟨fun arc harc => .inl harc, by simp⟩
  | cons m ms ih =>
    obtain ⟨⟨hm, hhost⟩, hms⟩ := List.forall_mem_cons.mp hms
    have hsame := sameRouting_wired S.R S.r m
    unfold checkArcs
    refine Leads.bind _ (leads_member hw hm) fun s w₁ hw₁ hle₁ hs => ?_
    subst hs
    rw [hsame.orphaned, hsame.pred]
    by_cases hlen : S.R.list.length > 1
    · -- the arc is known
      simp only [hlen, if_true]
      refine Leads.bind _ (leads_member hw₁ hm) fun s w₂ hw₂ hle₂ hs => ?_
      subst hs
      have harcs : ∀ {out : List (Id × Id)} {owned' : List (Id × Id)},
          owned' = owned ++ [((predecessorOf m.id S.R).id, m.id)] →
          (∀ arc ∈ out, arc ∈ owned' ∨ ∃ m ∈ ms, arc = ((predecessorOf m.id S.R).id, m.id)) →
          ∀ arc ∈ out, arc ∈ owned ∨
            ∃ m' ∈ m :: ms, arc = ((predecessorOf m'.id S.R).id, m'.id) := by
        rintro out owned' rfl hout arc harc
        rcases hout arc harc with hold | ⟨m', hm', he⟩
        · rcases List.mem_append.mp hold with hold | hnew
          · exact .inl hold
          · exact .inr ⟨m, List.mem_cons_self, List.mem_singleton.mp hnew⟩
        · exact .inr ⟨m', List.mem_cons_of_mem m hm', he⟩
      split
      · rename_i hskip
        refine Reaches.mono (ih hw₂ hms) fun out w' _ _ hout => ⟨harcs rfl hout.1,
          fun hfull => absurd hfull hskip.2⟩
      · refine Leads.bind _ (leads_offerArc hw₂ hm hhost) fun out w₃ hw₃ hle₃ hcovered => ?_
        refine Reaches.mono (ih hw₃ hms) fun out w' _ hle hout => ⟨harcs rfl hout.1,
          fun hfull => ?_⟩
        refine List.forall_mem_cons.mpr ⟨fun key hheld he => ?_, fun m' hm' key hheld he => ?_⟩
        · exact Covered.mono (hcovered key (hle₂.holds (hle₁.holds hheld)) he) hle
        · exact hout.2 hfull m' hm' key (hle₃.holds (hle₂.holds (hle₁.holds hheld))) he
    · simp only [hlen, if_false]
      refine Reaches.mono (ih hw₁ hms) fun out w' _ hle hout => ⟨fun arc harc => ?_,
        fun hfull => ?_⟩
      · rcases hout.1 arc harc with hold | ⟨m', hm', he⟩
        · exact .inl hold
        · exact .inr ⟨m', List.mem_cons_of_mem m hm', he⟩
      · refine List.forall_mem_cons.mpr ⟨fun key hheld he => ?_, fun m' hm' key hheld he => ?_⟩
        · refine covered_alone hlen ?_
          rw [he, hhost]
          exact hle.holds (hle₁.holds hheld)
        · exact hout.2 hfull m' hm' key (hle₁.holds hheld) he

/-- A lookup finds the owner, and the member that names it is the one before the key. -/
theorem leads_lookupFrom {path : List Peer} {current : Peer} {sent : List Call} (hw : S.Grown w)
    (hc : current ∈ S.R) : S.Leads self (Repair.route (lookupFrom k left path current)) w fun r _ =>
      r = ((lookupFrom k left path current).run
        (logged (ringAnswer S.R (fun p => successorOf (p.id + 1) S.R)
        fun p => buildFingers p.id S.R)) () sent).1 := by
  induction left generalizing w path current sent with
  | zero => exact leads_pure hw rfl
  | succ left ih =>
    have hcovers := routeStep_covers current (successorOf (current.id + 1) S.R)
      (buildFingers current.id S.R) k
    rw [run_lookupFrom_succ left path hc]
    refine @Leads.bind S self w _ _ (Prog.call (.route ⟨current, findRequest k⟩) .done) _ _
      (fun a _ => a = ⟨.ok, renderStep (routeStep current (successorOf (current.id + 1) S.R)
        (buildFingers current.id S.R) k), 0⟩) (leads_ask hw fun w' hw' hle => ?_)
          fun a w' hw' hle ha => ?_
    · have hfind := @WiredRing.find S.R S.r S.depth _ k hw'.wired S.r_ok current hc
      dsimp only [reply]
      rw [hfind]
      exact ⟨hw', Le.refl w', rfl⟩
    · subst ha
      dsimp only
      rw [judge_renderStep 0 hcovers]
      by_cases hown : (routeStep current (successorOf (current.id + 1) S.R)
          (buildFingers current.id S.R) k).owner = true
      · simp only [if_pos hown]
        exact leads_pure hw' rfl
      · simp only [if_neg hown]
        exact ih hw' (routeStep_peer_mem (successorOf_mem _ S.R) fun f hf =>
          mem_of_mem_buildFingers hf)

section
variable (hw : S.Grown w) (hstart : start ∈ S.R)
include hw hstart

theorem leads_lookup :
    S.Leads self (Repair.route (lookup start k)) w fun r _ =>
      ∃ path, r = ⟨.ok (successorOf k S.R), path⟩ ∧ path.getLast? = some (predecessorOf k S.R) := by
  refine Reaches.mono (@leads_lookupFrom S self w k MAX_REQUESTS [] start [] hw hstart)
    fun r _ _ _ hr => ?_
  have hok := outcome_lookup (k := k) hstart ()
  have hnamer := lookupFrom_namer MAX_REQUESTS [] hstart () [] hok
  refine ⟨r.path, ?_, ?_⟩
  · rw [← hok, hr]
    rfl
  · rw [hr]
    exact hnamer

/-- **Chunks are handed over to their owners.** -/
theorem leads_handOffFrom (hhost : start.host = self)
    (hleft : keys.length ≤ left) (hkeys : ∀ key ∈ keys, w.Holds self key) :
    S.Leads self (handOffFrom S.sha start left keys rep) w
      fun _ w' => ∀ key ∈ keys, w'.Holds (ownerOf S.R key).host key := by
  induction left generalizing w keys rep with
  | zero =>
    rw [List.length_eq_zero_iff.mp (Nat.le_zero.mp hleft)]
    exact leads_pure hw (by simp)
  | succ left ih =>
    cases keys with
    | nil => exact leads_pure hw (by simp)
    | cons key rest =>
      unfold handOffFrom
      refine Leads.bind _ (leads_lookup hw hstart) fun r w₁ hw₁ hle₁ hr => ?_
      obtain ⟨path, rfl, hnamer⟩ := hr
      dsimp only
      rw [hnamer]
      dsimp only
      change S.Leads self (if sameProcess (ownerOf S.R key) start = true then _ else _) w₁ _
      set near : Str → Bool := fun k =>
        inRangeOc (keyId k) (predecessorOf (keyId key) S.R).id (ownerOf S.R key).id with hnear
      have hself : ∀ k ∈ key :: rest, w₁.Holds self k := fun k hk => hle₁.holds (hkeys k hk)
      have hbatch : ∀ k ∈ key :: rest.takeWhile near, k ∈ key :: rest :=
        fun k hk => List.cons_subset_cons key (List.takeWhile_subset near) hk
      have hbehind : ∀ k ∈ rest.dropWhile near, w₁.Holds self k :=
        fun k hk => hself k (List.mem_cons_of_mem key ((List.dropWhile_suffix near).subset hk))
      have hlen : (rest.dropWhile near).length ≤ left :=
        Nat.le_trans (List.length_dropWhile_le near rest) (Nat.le_of_succ_le_succ hleft)
      have hall : ∀ {w' : Cluster},
        (∀ k ∈ key :: rest.takeWhile near, w'.Holds (ownerOf S.R key).host k) →
          (∀ k ∈ rest.dropWhile near, w'.Holds (ownerOf S.R k).host k) →
          ∀ k ∈ key :: rest, w'.Holds (ownerOf S.R k).host k := by
        intro w' hhead htail k hk
        rw [← List.takeWhile_append_dropWhile (p := near) (l := rest), ← List.cons_append] at hk
        rcases List.mem_append.mp hk with hk | hk
        · rw [(owner_of_batch hk).1]
          exact hhead k hk
        · exact htail k hk
      split
      · rename_i hsame
        refine Reaches.mono (ih hw₁ hlen hbehind) fun _ w' _ hle hrest => hall
          (fun k hk => ?_) hrest
        rw [sameProcess_iff.mp hsame, hhost]
        exact hle.holds (hself k (hbatch k hk))
      · refine Leads.bind _ (leads_offer hw₁ ownerOf_mem (fun k hk => ?_) fun k hk => ?_)
          fun out w₂ hw₂ hle₂ hheld => ?_
        · rw [keyInArc_eq (Grown.validKey hw₁ (hself k (hbatch k hk)))]
          exact (owner_of_batch hk).2
        · exact ⟨hself k (hbatch k hk), ownerOf_mem, congrArg Peer.host (owner_of_batch hk).1.symm⟩
        · refine Reaches.mono (ih hw₂ hlen fun k hk => hle₂.holds (hbehind k hk))
            fun _ w' _ hle hrest => ?_
          exact hall (fun k hk => hle.holds (hheld k hk)) hrest

theorem leads_handOff (hhost : start.host = self) :
    S.Leads self (handOff S.sha start owned rep) w fun _ w' =>
      ∀ key ∈ foreignKeys owned (storeKeys (w.store self)),
        w'.Holds (ownerOf S.R key).host key := by
  refine Leads.bind (fun keys w' => ∀ key, key ∈ keys ↔ w'.Holds self key)
    (leads_read hw (fun _ => rfl) fun w' _ _ key => mem_storeKeys) fun keys w₁ hw₁ hle₁ hkeys => ?_
  refine Reaches.mono (leads_handOffFrom hw₁ hstart hhost le_rfl fun key hkey => ?_)
    fun _ w' _ _ hall key hkey => ?_
  · exact (hkeys key).mp (List.mem_filter.mp hkey).1
  · obtain ⟨hin, hforeign⟩ := List.mem_filter.mp hkey
    exact hall key (List.mem_filter.mpr ⟨(hkeys key).mpr (hle₁.holds (mem_storeKeys.mp hin)),
      hforeign⟩)

end

/-- **A full scan.**  What the process holds is held by its owner then; and if that is the process
itself, by the other replicas or soon. -/
theorem leads_repairRound {scanEvery : ℤ} (hw : S.Grown w) :
    S.Leads self (repairRound S.sha true (S.sites.members self) scanEvery st) w fun _ w' =>
      S.sites.members self ≠ [] → scanEvery > 0 ∧ ((st.round + 1 : ℕ) : ℤ) % scanEvery = 0 →
        ∀ key, w.Holds self key → w'.Holds (ownerOf S.R key).host key ∧
          ((ownerOf S.R key).host = self → S.Covered w' key) := by
  cases hms : S.sites.members self with
  | nil => exact leads_pure hw fun h => absurd rfl h
  | cons start more =>
    have hmembers : ∀ m ∈ start :: more, m ∈ S.R ∧ m.host = self := by
      intro m hm
      rw [← hms] at hm
      exact S.sites.mem_members.mp hm
    obtain ⟨hstart, hhost⟩ := hmembers start List.mem_cons_self
    unfold repairRound
    dsimp only
    rw [if_neg (by simp)]
    refine Leads.bind (fun _ _ => True) ?_ fun rep w₁ hw₁ hle₁ _ => ?_
    · split
      · exact leads_scrub hw
      · exact leads_pure hw trivial
    refine Leads.bind _ (leads_checkArcs hw₁ hmembers) fun out w₂ hw₂ hle₂ harcs => ?_
    refine Leads.bind (fun _ w' => scanEvery > 0 ∧ ((st.round + 1 : ℕ) : ℤ) % scanEvery = 0 →
      ∀ key ∈ foreignKeys out.1 (storeKeys (w₂.store self)), w'.Holds (ownerOf S.R key).host key) ?_
      fun rep w₃ hw₃ hle₃ hforeign => leads_pure hw₃ fun _ hfull key hheld => ?_
    · split
      · exact Reaches.mono (leads_handOff hw₂ hstart hhost) fun _ _ _ _ h _ => h
      · rename_i hpartial
        exact leads_pure hw₂ fun hfull => absurd (decide_eq_true hfull) hpartial
    have hheld₂ := hle₂.holds (hle₁.holds hheld)
    by_cases hown : (ownerOf S.R key).host = self
    · have hmem : ownerOf S.R key ∈ start :: more := by
        rw [← hms]
        exact S.sites.mem_members.mpr ⟨ownerOf_mem, hown⟩
      refine ⟨?_, fun _ => Covered.mono ?_ hle₃⟩
      · rw [hown]
        exact hle₃.holds hheld₂
      · exact harcs.2 (decide_eq_true hfull) _ hmem key (hle₁.holds hheld) rfl
    · refine ⟨hforeign hfull key (List.mem_filter.mpr ⟨mem_storeKeys.mpr hheld₂, ?_⟩),
        fun h => absurd h hown⟩
      -- an arc that has the key is its owner's
      rw [decide_eq_true_eq, List.any_eq_true]
      rintro ⟨arc, harc, hin⟩
      rcases harcs.1 arc harc with hnil | ⟨m, hm, rfl⟩
      · cases hnil
      · obtain ⟨hmR, hmhost⟩ := hmembers m hm
        exact hown (by rw [ownerOf_of_arc hmR hin, hmhost])

/-! ### All rounds -/

theorem Grown.rounds (hw : S.Grown w) : let w' := rs.foldl (round S.sha S.sites (S.depth + 1) S.T) w
    S.Grown w' ∧ Le w w' ∧ ∀ rd ∈ rs, S.sites.members rd.host ≠ [] → rd.full = true →
      ∀ key, w.Holds rd.host key → w'.Holds (ownerOf S.R key).host key ∧
        ((ownerOf S.R key).host = rd.host → S.Covered w' key) := by
  induction rs generalizing w with
  | nil => exact ⟨hw, Le.refl w, by simp⟩
  | cons rd rs ih =>
    obtain ⟨hround, hle, hscan⟩ := @leads_repairRound S rd.host w rd.state rd.scanEvery hw
    obtain ⟨hrest, hle', hscans⟩ := ih hround
    refine ⟨hrest, hle.trans hle', List.forall_mem_cons.mpr ⟨fun hne hfull key hheld => ?_, ?_⟩⟩
    · obtain ⟨howner, hcovered⟩ := hscan hne (of_decide_eq_true hfull) key hheld
      exact ⟨hle'.holds howner, fun he => (hcovered he).mono hle'⟩
    · exact fun rd' hrd' hne hfull key hheld => hscans rd' hrd' hne hfull key (hle.holds hheld)

/-- **Every chunk has reached its replicas, or will.** -/
theorem Grown.covered (hw : S.Grown S.w₀)
    (hrs : ∀ p ∈ S.R, ∃ rd ∈ rs, rd.host = p.host ∧ rd.full = true) {p : Peer} (hp : p ∈ S.R)
    (hheld : S.w₀.Holds p.host key) :
    S.Covered (rs.foldl (round S.sha S.sites (S.depth + 1) S.T) S.w₀) key := by
  obtain ⟨hend, -, hscans⟩ := @Grown.rounds S S.w₀ rs hw
  obtain ⟨rd, hrd, hhost, hfull⟩ := hrs p hp
  rw [← hhost] at hheld
  have howner := (hscans rd hrd (by rw [hhost]; exact members_ne_nil hp) hfull key hheld).1
  -- the owner had it from the beginning, or got it by a write
  rcases hend.owners howner with hfirst | hcovered
  · obtain ⟨rd', hrd', hhost', hfull'⟩ := hrs (ownerOf S.R key) ownerOf_mem
    rw [← hhost'] at hfirst
    exact (hscans rd' hrd' (by rw [hhost']; exact members_ne_nil ownerOf_mem) hfull' key hfirst).2
      hhost'.symm
  · exact hcovered

end Setting

/-- **A full scan restores replication.**  On a wired ring whose chunks are intact, and where the
digests of different sets of its keys differ, every process runs a full scan, in any order.  Then
every chunk that some process had is on every process of its owner's replica set, and no process has
lost a chunk. -/
theorem full_scan_restores (sha : Sha1) (R : Members) (r : ℕ) (hr : 1 ≤ r ∧ r ≤ MAX_SUCCESSORS)
    (sites : Sites R) (depth : ℕ) (T : Timing) (w₀ : Cluster) (hring : WiredRing R r w₀.ring)
    (hintact : ∀ h, Intact sha (w₀.store h) (w₀.disk h)) (hcopies : w₀.copies = [])
    (hdigest : ∀ s t : Finset Str, (∀ key ∈ s ∪ t, ∃ h, key ∈ (w₀.store h).keys) →
      keysDigest sha (s.sort (· ≤ ·)) = keysDigest sha (t.sort (· ≤ ·)) → s = t)
    (rs : List Round) (hrs : ∀ p ∈ R, ∃ rd ∈ rs, rd.host = p.host ∧ rd.full = true) :
    let w := w₀.rounds sha sites (depth + 1) T rs
    (∀ key, (∃ p ∈ R, (w₀.disk p.host).Holds sha key) → ∃ k, idFromKey key = some k ∧
      ∀ q ∈ replicaSet (wired R r (successorOf k R)) RF, (w.disk q.host).Holds sha key) ∧
    ∀ h key, (w₀.disk h).Holds sha key → (w.disk h).Holds sha key := by
  intro w
  let S : Setting := ⟨sha, R, r, hr, sites, depth, T, w₀, hdigest⟩
  have hheld : ∀ h key, w₀.Holds h key ↔
      (w₀.disk h).Holds sha key := fun h key => (hintact h).mem_keys key
  have hstart : S.Grown w₀ := by
    refine ⟨hring, hintact, by simp [hcopies], ?_, fun ho => .inl ho⟩
    rintro h key (hh | ⟨c, hc, -⟩)
    · exact ⟨h, hh⟩
    · rw [hcopies] at hc
      cases hc
  obtain ⟨hend, hle, -⟩ := @Setting.Grown.rounds S w₀ rs hstart
  obtain ⟨hlanded, hle'⟩ := @Grown.land sha R r w₀ _
    (T.now (rs.foldl (round sha sites (depth + 1) T) w₀).calls) (fun _ => true) hend
  have hnone : w.copies = [] := List.filter_eq_nil_iff.mpr (by simp)
  have hdisk : ∀ {h key}, w.Due h key → (w.disk h).Holds sha key := by
    rintro h key (hh | ⟨c, hc, -⟩)
    · exact ((hlanded.intact h).mem_keys key).mp hh
    · rw [hnone] at hc
      cases hc
  constructor
  · rintro key ⟨p, hp, hholds⟩
    have hin : w₀.Holds p.host key := (hheld p.host key).mpr hholds
    obtain ⟨k, hk⟩ := exists_idFromKey (Setting.Grown.validKey hstart hin)
    refine ⟨k, hk, fun q hq => hdisk
      (hle'.due (@Setting.Grown.covered S key rs hstart hrs p hp hin q ?_))⟩
    rw [replicasOf, ownerOf, keyId, hk]
    exact hq
  · intro h key hholds
    exact hdisk (.inl (hle'.holds (hle.holds ((hheld h key).mpr hholds))))

/-- The member that is none of the replicas of the empty chunk. -/
def strayHolder : Peer := successorOf 6 fourMembers

/-- Four processes, of which this one has the empty chunk. -/
def strayCluster : Cluster :=
  let opened := fun h : Host => storeOpen 0 (if h = strayHolder.host then .holding emptyChunk []
    else .blank)
  { ring := (wiredNet fourMembers 8).ring
    store := fun h => (opened h).2.1
    disk := fun h => (opened h).2.2
    copies := []
    calls := 0 }

/-- Each process as it runs its first round, the owner before the one that has the chunk. -/
def strayRounds : List Round :=
  fourMembers.list.reverse.map fun p => ⟨p.host, ⟨fun _ => none, 0⟩, 1⟩

theorem file?_strayCluster {h : Host} {key : Str} {f : File Str}
    (hfile : (strayCluster.disk h).file? key = some f) : key = emptyChunk ∧ f.data = [] := by
  change (if h = strayHolder.host then Disk.holding emptyChunk [] else .blank).file? key =
    some f at hfile
  split at hfile
  · rw [Disk.holding, Disk.file?_commit] at hfile
    split at hfile
    · cases hfile
      exact ⟨‹_›, rfl⟩
    · cases hfile
  · cases hfile

theorem intact_strayCluster (h : Host) :
    Intact (.ofTable []) (strayCluster.store h) (strayCluster.disk h) := by
  refine intact_storeOpen fun key f _ hfile => ?_
  obtain ⟨rfl, hdata⟩ := @file?_strayCluster h key f hfile
  rw [hdata]
  exact ⟨Nat.zero_le _, by decide +kernel⟩

theorem mem_keys_strayCluster {key : Str} (h : ∃ h, key ∈ (strayCluster.store h).keys) :
    key = emptyChunk := by
  obtain ⟨h, hkey⟩ := h
  obtain ⟨body, hget, -⟩ := ((intact_strayCluster h).mem_keys key).mp hkey
  obtain ⟨-, -, hfile⟩ := storeGet_found_iff.mp hget
  obtain ⟨f, hf, -⟩ := Option.map_eq_some_iff.mp hfile
  exact (file?_strayCluster hf).1

theorem no_collision_emptyChunk (s t : Finset Str) (hs : s ⊆ {emptyChunk}) (ht : t ⊆ {emptyChunk})
    (hdigest : keysDigest (.ofTable []) (s.sort (· ≤ ·)) = keysDigest (.ofTable [])
      (t.sort (· ≤ ·))) :
    s = t := by
  have hnil : (keysDigest (.ofTable []) []).head? = some '0' := by decide +kernel
  have hone : (keysDigest (.ofTable []) [emptyChunk]).head? = some '1' := by decide +kernel
  rcases Finset.subset_singleton_iff.mp hs with rfl | rfl <;>
    rcases Finset.subset_singleton_iff.mp ht with rfl | rfl
  · rfl
  · rw [Finset.sort_empty, Finset.sort_singleton] at hdigest
    cases hnil.symm.trans ((congrArg List.head? hdigest).trans hone)
  · rw [Finset.sort_empty, Finset.sort_singleton] at hdigest
    cases hnil.symm.trans ((congrArg List.head? hdigest.symm).trans hone)
  · rfl

theorem no_collision_strayCluster (s t : Finset Str)
    (hst : ∀ key ∈ s ∪ t, ∃ h, key ∈ (strayCluster.store h).keys)
    (hdigest : keysDigest (.ofTable []) (s.sort (· ≤ ·)) = keysDigest (.ofTable [])
      (t.sort (· ≤ ·))) :
    s = t := by
  have hsub : s ∪ t ⊆ {emptyChunk} :=
    fun key hkey => Finset.mem_singleton.mpr (mem_keys_strayCluster (hst key hkey))
  exact no_collision_emptyChunk s t (Finset.union_subset_left hsub)
    (Finset.union_subset_right hsub) hdigest

/-- The chunk reaches the three processes that should have it. -/
theorem full_scan_restores_stray :
    let w := strayCluster.rounds (.ofTable []) (.ofRing fourMembers) 1
      ⟨fun _ => 0, fun _ _ => false⟩ strayRounds
    let replicas := replicaSet (wired fourMembers 8 (successorOf 0xda39a3ee5e6b4b0d fourMembers)) RF
    strayHolder ∉ replicas ∧ ∀ q ∈ replicas, (w.disk q.host).Holds (.ofTable []) emptyChunk := by
  intro w replicas
  have hrounds : ∀ p ∈ fourMembers, ∃ rd ∈ strayRounds, rd.host = p.host ∧ rd.full = true := by
    intro p hp
    exact ⟨_, List.mem_map_of_mem (List.mem_reverse.mpr hp), rfl, by simp [Round.full]⟩
  have hheld : (strayCluster.disk strayHolder.host).Holds (.ofTable []) emptyChunk := by
    refine ⟨[], storeGet_found_iff.mpr ⟨by decide +kernel, by decide, ?_⟩, by decide +kernel⟩
    change ((if strayHolder.host = strayHolder.host then Disk.holding emptyChunk []
      else .blank).file? emptyChunk).map
      File.data = some []
    rw [if_pos rfl, Disk.holding, Disk.file?_commit, if_pos rfl]
    rfl
  obtain ⟨k, hk, hreplicas⟩ :=
    (full_scan_restores (.ofTable []) fourMembers 8 (by decide) (.ofRing fourMembers) 0
      ⟨fun _ => 0, fun _ _ => false⟩ strayCluster
      ⟨rfl, fun _ _ => rfl⟩ intact_strayCluster rfl no_collision_strayCluster
    strayRounds hrounds).1 emptyChunk ⟨strayHolder, successorOf_mem _ _, hheld⟩
  have hkey : k = 0xda39a3ee5e6b4b0d := by
    have hempty : idFromKey emptyChunk = some 0xda39a3ee5e6b4b0d := by decide +kernel
    exact Option.some.inj (hk.symm.trans hempty)
  rw [hkey] at hreplicas
  exact ⟨by decide +kernel, hreplicas⟩

end ChordFs
