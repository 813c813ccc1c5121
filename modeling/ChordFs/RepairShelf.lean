import ChordFs.ClusterGrowth
import ChordFs.Lib.Growth

/-! # What a round does to its own store

A repair round over the store of one process, where reads of its files may fail and everything that
comes from elsewhere is arbitrary.  The shelf keeps what the round was after: which files were to be
removed, with what they held then, and what the members were found to be.

Outside the scrub a file is removed only after it was read and found wrong (`tidy_offerKey`).  The
scrub also removes what it could not read; so a good file goes exactly if its first read fails in a
full scan (`round_removes_only_bad`). -/

namespace ChordFs

open Dialogue Paging Text

/-! ### Files -/

namespace Disk

/-- What a file holds. -/
def content (d : Disk) (key : Str) : Option Str := (d.file? key).map File.data

theorem content_unlink {d : Disk} {key k : Str} (h : k ≠ key) :
    (d.unlink key).content k = d.content k := by
  rw [content, file?_unlink, if_neg h]
  rfl

theorem content_commit {d : Disk} {name key k : Str} {f : File Str} (h : k ≠ key) :
    (d.commit name key f).content k = d.content k := by
  rw [content, file?_commit, if_neg h]
  rfl

theorem storeGet_congr {d d' : Disk} {key : Str} (h : d'.content key = d.content key) :
    storeGet d' key = storeGet d key := by
  unfold content at h
  unfold storeGet
  cases hf : d.file? key with
  | none =>
    rw [hf, Option.map_none, Option.map_eq_none_iff] at h
    rw [h]
  | some f =>
    rw [hf, Option.map_some, Option.map_eq_some_iff] at h
    obtain ⟨f', hf', hdata⟩ := h
    simp only [hf', hdata]

end Disk

section frames
variable {sha : Sha1} {io : Io} {now : ℤ} {key body k : Str} {s : ChunkStore} {d : Disk}

theorem content_writeChunk {n : ℕ} (h : k ≠ key) :
    (writeChunk io key body n d).2.content k = d.content k := by
  unfold writeChunk
  dsimp only
  split
  · rfl
  split
  · rfl
  have hcommit := @Disk.content_commit (d.setTmp (Disk.tmpName key n) ⟨body, true⟩)
    (Disk.tmpName key n) key k
    ⟨body, true⟩ h
  split
  · exact hcommit
  · exact hcommit

theorem storePut_listed (h : k ∈ s.keys) :
    k ∈ (storePut sha io now key body s d).2.1.keys ∧
      (storePut sha io now key body s d).2.2.content k = d.content k := by
  obtain ⟨r, -, hall⟩ | ⟨-, ⟨-, heq⟩ | ⟨hnew, d', ⟨hwrite, heq⟩ | ⟨hwrite, heq⟩⟩⟩ :=
    storePut_cases sha io now key body s d
  · rw [hall]
    exact ⟨h, rfl⟩
  · rw [heq]
    exact ⟨h, rfl⟩
  all_goals
    have hne : k ≠ key := by
      rintro rfl
      exact hnew h
    have hcontent := @content_writeChunk io key body k d s.nextTmp hne
    rw [hwrite] at hcontent
    rw [heq]
  · exact ⟨Finset.mem_insert_of_mem h, hcontent⟩
  · exact ⟨h, hcontent⟩

theorem content_storePut (h : k ≠ key) :
    (storePut sha io now key body s d).2.2.content k = d.content k := by
  obtain ⟨r, -, hall⟩ | ⟨-, ⟨-, heq⟩ | ⟨-, d', ⟨hwrite, heq⟩ | ⟨hwrite, heq⟩⟩⟩ :=
    storePut_cases sha io now key body s d
  · rw [hall]
  · rw [heq]
  all_goals
    rw [heq, ← @content_writeChunk io key body k d s.nextTmp h, hwrite]

theorem storeRemove_other (h : k ≠ key) :
    (k ∈ (storeRemove io key s d).2.1.keys ↔ k ∈ s.keys) ∧
    (storeRemove io key s d).2.2.content k = d.content k := by
  have hforget : ∀ size, k ∈ (s.forget key size).keys ↔ k ∈ s.keys := by
    intro size
    unfold ChunkStore.forget
    split
    · exact Finset.mem_erase.trans (and_iff_right h)
    · rfl
  unfold storeRemove
  split
  · exact ⟨Iff.rfl, rfl⟩
  · refine ⟨hforget _, ?_⟩
    have hunlink : (if io.unlinks then d.unlink key else d).content k = d.content k := by
      split
      · exact Disk.content_unlink h
      · rfl
    dsimp only
    split
    · exact hunlink
    · exact hunlink

end frames

/-! ### The shelf -/

/-- What a round hears from elsewhere. -/
structure Outside (ε : Type) where
  member : Peer → ε → NodeState × ε
  route : Call → ε → Exchanged × ε
  send : Peer → Str → Str → ε → (Delivery × ChunkFrame) × ε

/-- What the disk does: whether a read of a file fails, by how often the file was read before, and
how the calls of each removal and each write end. -/
structure Weather where
  fails : Str → ℕ → Bool
  io : ℕ → Io
  now : ℕ → ℤ

/-- `store_get` when the read may fail: the key is looked at first. -/
def Weather.read (W : Weather) (d : Disk) (key : Str) (i : ℕ) : GetResult :=
  if validKey key ∧ W.fails key i then .ioError else storeGet d key

/-- A file that is to be removed, with what it holds. -/
structure Removal where
  key : Str
  content : Option Str
deriving DecidableEq

/-- There is no file, or its bytes do not hash to its name. -/
def Removal.bad (sha : Sha1) (r : Removal) : Bool :=
  match r.content with
  | none => true
  | some body => chunkKey sha body ≠ r.key

def Disk.file (d : Disk) (key : Str) : Removal := ⟨key, d.content key⟩

/-- The store of a process with the files that were to be removed so far, newest first, and what its
members were found to be. -/
structure Shelf (ε : Type) where
  store : ChunkStore
  disk : Disk
  outside : ε
  reads : Str → ℕ := fun _ => 0
  changes : ℕ := 0
  removed : List Removal := []
  seen : List (Peer × NodeState) := []

namespace Shelf

variable {ε : Type}

/-- What a round hears. -/
def answer (sha : Sha1) (O : Outside ε) (W : Weather) :
    (q : RepairAsk) → Shelf ε → q.Reply × Shelf ε
  | .keys, w => (storeKeys w.store, w)
  | .keysInArc start stop, w => (storeKeysInArc w.store start stop, w)
  | .get key, w =>
    (W.read w.disk key (w.reads key),
      { w with reads := Function.update w.reads key (w.reads key + 1) })
  | .remove key, w =>
    let out := storeRemove (W.io w.changes) key w.store w.disk
    (out.1, { w with
      store := out.2.1
      disk := out.2.2
      changes := w.changes + 1
      removed := w.disk.file key :: w.removed })
  | .put key body, w =>
    let out := storePut sha (W.io w.changes) (W.now w.changes) key body w.store w.disk
    (out.1, { w with store := out.2.1, disk := out.2.2, changes := w.changes + 1 })
  | .member p, w =>
    let out := O.member p w.outside
    (out.1, { w with outside := out.2, seen := (p, out.1) :: w.seen })
  | .route c, w =>
    let out := O.route c w.outside
    (out.1, { w with outside := out.2 })
  | .send dest line body, w =>
    let out := O.send dest line body w.outside
    (out.1, { w with outside := out.2 })

end Shelf

section reads
variable {sha : Sha1} {W : Weather} {d : Disk} {key body : Str} {i : ℕ}

theorem content_of_read (h : W.read d key i = .found body) : d.content key = some body := by
  unfold Weather.read at h
  split at h
  · cases h
  · exact (storeGet_found_iff.mp h).2.2

/-- **A good file is taken for a bad one only if it could not be read.** -/
theorem read_of_good (hgood : (d.file key).bad sha = false)
    (hunsound : soundCopy sha key (W.read d key i) = false) :
    W.read d key i = .ioError := by
  unfold Weather.read at hunsound ⊢
  split
  · rfl
  · rename_i hreads
    rw [if_neg hreads] at hunsound
    cases hcontent : d.content key with
    | none => simp [Disk.file, Removal.bad, hcontent] at hgood
    | some body =>
      have hkey : chunkKey sha body = key := by simpa [Disk.file, Removal.bad, hcontent] using hgood
      have hvalid : validKey key = true := by
        rw [← hkey]
        exact validKey_digest sha body
      obtain ⟨f, hf, rfl⟩ := Option.map_eq_some_iff.mp hcontent
      unfold storeGet at hunsound ⊢
      simp only [hvalid, hf] at hunsound ⊢
      by_cases hlen : f.data.length > MAX_CHUNK
      · simp [hlen]
      · simp [hlen, soundCopy, hkey] at hunsound

end reads

/-! ### What is intact stays -/

section safe
variable {ε : Type} {sha : Sha1} {s : ChunkStore} {d : Disk} {w : Shelf ε}

/-- Every chunk that was listed with a good file still is, or a good file was to be removed. -/
def Safe (sha : Sha1) (s : ChunkStore) (d : Disk) (w : Shelf ε) : Prop :=
  ∀ key ∈ s.keys, (d.file key).bad sha = false →
    (key ∈ w.store.keys ∧ w.disk.content key = d.content key) ∨ ∃ r ∈ w.removed, r.bad sha = false

theorem Safe.answer (O : Outside ε) (W : Weather) (h : Safe sha s d w) (q : RepairAsk) :
    Safe sha s d (Shelf.answer sha O W q w).2 := by
  intro key hkey hgood
  rcases h key hkey hgood with ⟨hlisted, hcontent⟩ | ⟨r, hr, hbad⟩
  · cases q with
    | remove k =>
      by_cases hk : key = k
      · subst hk
        refine .inr ⟨w.disk.file key, List.mem_cons_self, ?_⟩
        rw [Disk.file, hcontent]
        exact hgood
      · obtain ⟨hkeys, hsame⟩ := @storeRemove_other (W.io w.changes) k key w.store w.disk hk
        exact .inl ⟨hkeys.mpr hlisted, hsame.trans hcontent⟩
    | put k body =>
      obtain ⟨hkeys, hsame⟩ :=
        @storePut_listed sha (W.io w.changes) (W.now w.changes) k body key w.store w.disk hlisted
      exact .inl ⟨hkeys, hsame.trans hcontent⟩
    | _ => exact .inl ⟨hlisted, hcontent⟩
  · refine .inr ⟨r, ?_, hbad⟩
    cases q with
    | remove k => exact List.mem_cons_of_mem _ hr
    | _ => exact hr

/-- If only bad files were to be removed, a good one is where it was. -/
theorem Safe.listed (h : Safe sha s d w) (hbad : ∀ r ∈ w.removed, r.bad sha = true) {key : Str}
    (hkey : key ∈ s.keys) (hgood : (d.file key).bad sha = false) :
    key ∈ w.store.keys ∧ w.disk.content key = d.content key := by
  rcases h key hkey hgood with hlisted | ⟨r, hr, hfalse⟩
  · exact hlisted
  · rw [hbad r hr] at hfalse
    cases hfalse

end safe

/-! ### Following a round -/

/-- What a shelf can become; if `strict`, only bad files are removed. -/
structure Weeds (sha : Sha1) {ε : Type} (strict : Bool) (w w' : Shelf ε) : Prop where
  removed : ∀ r ∈ w.removed, r ∈ w'.removed
  bad : strict = true → ∀ r ∈ w'.removed, r ∈ w.removed ∨ r.bad sha = true

/-- Of a store that was `s` over `d` at the beginning. -/
def weeding (sha : Sha1) (ε : Type) (s : ChunkStore) (d : Disk) (strict : Bool) :
    Growth (Shelf ε) where
  inv := Safe sha s d
  le := Weeds sha strict
  refl w := ⟨fun _ h => h, fun _ _ h => .inl h⟩
  trans h h' := by
    refine ⟨fun r hr => h'.removed r (h.removed r hr), fun hstrict r hr => ?_⟩
    rcases h'.bad hstrict r hr with hmid | hbad
    · exact h.bad hstrict r hmid
    · exact .inr hbad

section round
variable {ε : Type} (sha : Sha1) (O : Outside ε) (W : Weather) (s : ChunkStore) (d : Disk)

/-- A part of a round ends with `post`. -/
def ShelfLeads {α : Type} (strict : Bool) (p : Repair α) (w : Shelf ε) (post : α → Shelf ε → Prop) :
    Prop :=
  Reaches (weeding sha ε s d strict) (Shelf.answer sha O W) p w post

/-- A part of a round that removes bad files only. -/
def Tidy {α : Type} (p : Repair α) : Prop :=
  ∀ w, Safe sha s d w → ShelfLeads sha O W s d true p w fun _ _ => True

variable {sha O W s d} {strict : Bool} {w : Shelf ε} {start dest : Peer} {key : Str}
  {rep : RepairReport} {α β : Type}

variable {p : Repair α} {k : α → Repair β} {q : RepairAsk} {asPut ok : Bool} {keys : List Str}
  {arc : Id × Id} {owned : List (Id × Id)}

theorem shelfLeads_pure {post : α → Shelf ε → Prop} {a : α} (hw : Safe sha s d w) (h : post a w) :
    ShelfLeads sha O W s d strict (pure a) w post :=
  reaches_pure hw h

theorem ShelfLeads.bind {post : β → Shelf ε → Prop} (mid : α → Shelf ε → Prop)
    (h : ShelfLeads sha O W s d strict p w mid)
    (hk : ∀ a w', Safe sha s d w' → mid a w' → ShelfLeads sha O W s d strict (k a) w' post) :
    ShelfLeads sha O W s d strict (p >>= k) w post :=
  Reaches.bind h fun a w' hw' _ => hk a w' hw'

theorem shelfLeads_ask (hw : Safe sha s d w) (hq : ∀ key, q ≠ .remove key) :
    ShelfLeads sha O W s d strict (.call q .done) w fun a w' => (a, w') =
      Shelf.answer sha O W q w := by
  have hremoved : (Shelf.answer sha O W q w).2.removed = w.removed := by
    cases q with
    | remove key => exact absurd rfl (hq key)
    | _ => rfl
  refine ⟨hw.answer O W q, ⟨fun r hr => ?_, fun _ r hr => .inl ?_⟩, rfl⟩
  · exact hremoved.symm ▸ hr
  · exact hremoved ▸ hr

/-- The store is left alone. -/
structure Aside (w w' : Shelf ε) : Prop where
  store : w'.store = w.store
  disk : w'.disk = w.disk
  removed : w'.removed = w.removed
  reads : w'.reads = w.reads

/-- **A program that only asks the ring and other processes leaves the store alone.** -/
theorem shelfLeads_client (hp : Asks (fun q => ∃ c, q = RepairAsk.ofClient c) p)
    (hw : Safe sha s d w) :
    ShelfLeads sha O W s d strict p w fun _ w' => Aside w w' := by
  let G : Growth (Shelf ε) :=
    { inv := fun _ => True
      le := Aside
      refl := fun w => ⟨rfl, rfl, rfl, rfl⟩
      trans := fun h h' => ⟨h'.store.trans h.store, h'.disk.trans h.disk,
        h'.removed.trans h.removed, h'.reads.trans h.reads⟩ }
  have hkeeps : ∀ q (w : Shelf ε), (∃ c, q = RepairAsk.ofClient c) → G.inv w →
      G.inv (Shelf.answer sha O W q w).2 ∧ G.le w (Shelf.answer sha O W q w).2 := by
    rintro q w ⟨c, rfl⟩ -
    cases c <;> exact ⟨trivial, rfl, rfl, rfl, rfl⟩
  obtain ⟨-, haside, -⟩ := @Asks.reaches _ _ _ _ G (Shelf.answer sha O W) p w _ hp hkeeps trivial
  refine ⟨?_, ⟨fun r hr => ?_, fun _ r hr => .inl ?_⟩, haside⟩
  · change Safe sha s d _
    rw [Safe, haside.store, haside.disk, haside.removed]
    exact hw
  · rwa [haside.removed]
  · rwa [haside.removed] at hr

theorem shelfLeads_replaceCorrupt (hw : Safe sha s d w)
    (hbad : strict = true → (w.disk.file key).bad sha = true) :
    ShelfLeads sha O W s d strict (replaceCorrupt sha start key rep) w fun _ w' =>
      w'.removed = w.disk.file key :: w.removed ∧ w'.reads = w.reads ∧
        ∀ k, k ≠ key → w'.disk.content k = w.disk.content k := by
  refine ShelfLeads.bind (fun _ w' => w'.removed = w.disk.file key :: w.removed ∧
    w'.reads = w.reads ∧
    ∀ k, k ≠ key → w'.disk.content k = w.disk.content k) ?_ fun _ w₁ hw₁ h₁ => ?_
  · refine ⟨hw.answer O W (.remove key),
      ⟨fun r hr => List.mem_cons_of_mem _ hr, fun hstrict r hr => ?_⟩, rfl, rfl,
      fun k hk => (storeRemove_other hk).2⟩
    rcases List.mem_cons.mp hr with rfl | hr
    · exact .inr (hbad hstrict)
    · exact .inl hr
  refine ShelfLeads.bind _ (shelfLeads_client ((asks_all _).embed fun c _ => ⟨c, rfl⟩) hw₁)
    fun good w₂ hw₂ haside => ?_
  rw [← haside.removed, ← haside.reads, ← haside.disk] at h₁
  split
  · exact shelfLeads_pure hw₂ h₁
  · refine ShelfLeads.bind _ (shelfLeads_ask hw₂ fun _ => by simp) fun r w₃ hw₃ h₃ =>
      shelfLeads_pure hw₃ ?_
    cases h₃
    exact ⟨h₁.1, h₁.2.1, fun k hk => (content_storePut hk).trans (h₁.2.2 k hk)⟩

/-! ### What removes bad files only -/

theorem tidy_pure (a : α) : Tidy sha O W s d (pure a) := fun _ hw => shelfLeads_pure hw trivial

theorem Tidy.bind (h : Tidy sha O W s d p) (hk : ∀ a, Tidy sha O W s d (k a)) :
    Tidy sha O W s d (p >>= k) :=
  fun w hw => ShelfLeads.bind _ (h w hw) fun a w' hw' _ => hk a w' hw'

theorem tidy_ask (hq : ∀ key, q ≠ .remove key) : Tidy sha O W s d (.call q .done) :=
  fun _ hw => Reaches.mono (shelfLeads_ask hw hq) fun _ _ _ _ _ => trivial

/-- **A file is removed only after it was found wrong.** -/
theorem tidy_offerKey : Tidy sha O W s d (offerKey sha start dest asPut key rep) := by
  intro w hw
  refine ShelfLeads.bind _ (shelfLeads_ask hw fun _ => by simp) fun a w₁ hw₁ ha => ?_
  split
  · rename_i body
    split
    · rename_i hwrong
      have hbad : (w₁.disk.file key).bad sha = true := by
        obtain ⟨hread, rfl⟩ := Prod.mk.inj ha
        simpa [Disk.file, Removal.bad, content_of_read hread.symm] using hwrong
      refine ShelfLeads.bind _ (shelfLeads_replaceCorrupt hw₁ fun _ => hbad) fun rep' w₂ hw₂ _ => ?_
      exact shelfLeads_pure hw₂ trivial
    · refine (tidy_ask fun _ => by simp).bind (fun a => ?_) w₁ hw₁
      split
      · exact tidy_pure _
      · exact tidy_pure _
  · exact shelfLeads_pure hw₁ trivial

theorem tidy_offerListed {listed : List (Str × Char)} :
    Tidy sha O W s d (offerListed sha start dest asPut listed rep ok) := by
  induction listed generalizing rep ok with
  | nil => exact tidy_pure _
  | cons bit rest ih =>
    unfold offerListed
    split
    · exact ih
    · exact tidy_offerKey.bind fun _ => ih

theorem tidy_offerBatches {bs : List (List Str)} :
    Tidy sha O W s d (offerBatches sha start dest asPut bs rep ok) := by
  induction bs generalizing rep ok with
  | nil => exact tidy_pure _
  | cons b bs ih =>
    refine (tidy_ask fun _ => by simp).bind fun a => ?_
    split
    · exact ih
    · exact tidy_offerListed.bind fun _ => ih

theorem tidy_offer : Tidy sha O W s d (offer sha start dest keys rep asPut arc) := by
  refine (tidy_ask fun _ => by simp).bind fun held => (tidy_ask fun _ => by simp).bind fun a => ?_
  split
  · exact tidy_pure _
  · exact tidy_offerBatches

theorem tidy_offerArc {dests : List Peer} :
    Tidy sha O W s d (offerArc sha start arc dests rep) := by
  refine (tidy_ask fun _ => by simp).bind fun keys => ?_
  generalize true = ok
  induction dests generalizing rep ok with
  | nil => exact tidy_pure _
  | cons dest dests ih => exact tidy_offer.bind fun _ => ih _

theorem tidy_checkArcs {full : Bool} {ms : List Peer} {st : RepairState} :
    Tidy sha O W s d (checkArcs sha start full ms owned st rep) := by
  induction ms generalizing owned st rep with
  | nil => exact tidy_pure _
  | cons m ms ih =>
    refine (tidy_ask fun _ => by simp).bind fun n => ?_
    split
    · exact ih
    · refine (tidy_ask fun _ => by simp).bind fun n' => ?_
      dsimp only
      split
      · exact ih
      · exact tidy_offerArc.bind fun _ => ih

theorem tidy_handOff : Tidy sha O W s d (handOff sha start owned rep) := by
  refine (tidy_ask fun _ => by simp).bind fun keys => ?_
  dsimp only
  generalize (foreignKeys owned keys).length = left
  generalize foreignKeys owned keys = foreign
  induction left generalizing foreign rep with
  | zero => exact tidy_pure _
  | succ left ih =>
    cases foreign with
    | nil => exact tidy_pure _
    | cons key rest =>
      have hlookup : Tidy sha O W s d (Repair.route (lookup start (keyId key))) := fun w hw =>
        Reaches.mono (shelfLeads_client ((asks_all _).embed fun c _ => ⟨.route c, rfl⟩) hw)
          fun _ _ _ _ _ => trivial
      refine hlookup.bind fun r => ?_
      split
      · dsimp only
        split
        · exact ih _
        · exact tidy_offer.bind fun _ => ih _
      · exact ih _

/-! ### The scrub -/

/-- **The scrub.**  Of the good files on its list, those are to be removed whose first read
fails. -/
theorem shelfLeads_scrubFrom (hw : Safe sha s d w) (hnodup : keys.Nodup)
    (hreads : ∀ key ∈ keys, w.reads key = 0) :
    ShelfLeads sha O W s d false (scrubFrom sha start keys rep) w fun _ w' =>
      ∀ r, r.bad sha = false →
      (r ∈ w'.removed ↔ r ∈ w.removed ∨ ∃ key ∈ keys, r = w.disk.file key ∧
        W.read w.disk key 0 = .ioError) := by
  induction keys generalizing w rep with
  | nil => exact shelfLeads_pure hw (by simp)
  | cons key keys ih =>
    obtain ⟨hzero, hzeros⟩ := List.forall_mem_cons.mp hreads
    obtain ⟨hnew, hnodup⟩ := List.nodup_cons.mp hnodup
    have hne : ∀ k ∈ keys, k ≠ key := fun k hk heq => hnew (heq ▸ hk)
    unfold scrubFrom
    refine ShelfLeads.bind _ (shelfLeads_ask hw fun _ => by simp) fun a w₁ hw₁ ha => ?_
    obtain ⟨hread, rfl⟩ := Prod.mk.inj ha
    rw [hzero] at hread
    have hzeros₁ : ∀ k ∈ keys, Function.update w.reads key (w.reads key + 1) k = 0 := fun k hk =>
      (Function.update_of_ne (hne k hk) _ _).trans (hzeros k hk)
    split
    · rename_i hsound
      refine Reaches.mono (ih hw₁ hnodup hzeros₁) fun _ w' _ _ hpost r hr => ?_
      rw [hpost r hr]
      simp only [List.mem_cons, exists_eq_or_imp]
      -- what was read did not fail
      have hopened : W.read w.disk key 0 ≠ .ioError := by
        intro herror
        rw [hread, herror] at hsound
        cases hsound
      simp [hopened]
    · rename_i hunsound
      refine ShelfLeads.bind _ (shelfLeads_replaceCorrupt hw₁ (by simp)) fun rep' w₂ hw₂ h₂ => ?_
      obtain ⟨hremoved₂, hreads₂, hcontent⟩ := h₂
      refine Reaches.mono (ih hw₂ hnodup (hreads₂ ▸ hzeros₁)) fun _ w' _ _ hpost r hr => ?_
      rw [hpost r hr, hremoved₂, List.mem_cons, or_comm (a := r = _), or_assoc]
      simp only [List.mem_cons, exists_eq_or_imp]
      -- other files are as they were
      have hothers : (∃ k ∈ keys, r = w₂.disk.file k ∧ W.read w₂.disk k 0 = .ioError) ↔
          ∃ k ∈ keys, r = w.disk.file k ∧ W.read w.disk k 0 = .ioError := by
        refine exists_congr fun k => and_congr_right fun hk => ?_
        have hsame : w₂.disk.content k = w.disk.content k := hcontent k (hne k hk)
        rw [Disk.file, Weather.read, hsame, Disk.storeGet_congr hsame]
        rfl
      have hself : r = w.disk.file key ↔ r = w.disk.file key ∧ W.read w.disk key 0 = .ioError := by
        refine ⟨?_, And.left⟩
        rintro rfl
        refine ⟨rfl, read_of_good hr ?_⟩
        rw [← hread]
        simpa using hunsound
      rw [hothers, ← hself]

theorem shelfLeads_scrub (hw : Safe sha s d w) (hreads : ∀ key, w.reads key = 0) :
    ShelfLeads sha O W s d false (scrub sha start rep) w fun _ w' => ∀ r, r.bad sha = false →
      (r ∈ w'.removed ↔
        r ∈ w.removed ∨ ∃ key ∈ w.store.keys, r = w.disk.file key ∧
        W.read w.disk key 0 = .ioError) := by
  refine ShelfLeads.bind _ (shelfLeads_ask hw fun _ => by simp) fun keys w₁ hw₁ hkeys => ?_
  cases hkeys
  refine Reaches.mono (shelfLeads_scrubFrom hw₁ (Finset.sort_nodup _ _) fun key _ => hreads key)
    fun _ w' _ _ hpost r hr => ?_
  rw [hpost r hr]
  simp only [mem_storeKeys]

end round

/-- The round is a full scan of a process that keeps chunks. -/
def scans (keeps : Bool) (members : List Peer) (scanEvery : ℤ) (st : RepairState) : Bool :=
  keeps = true ∧ members ≠ [] ∧ scanEvery > 0 ∧ ((st.round + 1 : ℕ) : ℤ) % scanEvery = 0

/-- **A round in two parts**: the scrub if it is a full scan, and the rest, which removes only bad
files. -/
theorem run_repairRound {ε : Type} {sha : Sha1} {O : Outside ε} {W : Weather} {s : ChunkStore}
    {d : Disk} {w : Shelf ε} (keeps : Bool) (members : List Peer) (scanEvery : ℤ) (st : RepairState)
    (hw : Safe sha s d w) (hreads : ∀ key, w.reads key = 0) :
    let out := ((repairRound sha keeps members scanEvery st).run (Shelf.answer sha O W) () w).2.2
    ∃ w₁, Weeds sha true w₁ out ∧ Safe sha s d out ∧
      ∀ r, r.bad sha = false →
        (r ∈ w₁.removed ↔ r ∈ w.removed ∨ scans keeps members scanEvery st = true ∧
        ∃ key ∈ w.store.keys, r = w.disk.file key ∧ W.read w.disk key 0 = .ioError) := by
  have hrefl := (weeding sha ε s d true).refl w
  unfold repairRound
  split
  · exact ⟨w, hrefl, hw, by simp [scans]⟩
  rename_i start ms
  split
  · rename_i hkeeps
    exact ⟨w, hrefl, hw, by simp [scans, hkeeps]⟩
  rename_i hkeeps
  dsimp only
  have hfull : decide (scanEvery > 0 ∧ ((st.round + 1 : ℕ) : ℤ) % scanEvery = 0) =
      scans keeps (start :: ms) scanEvery st := by
    simp [scans, not_not.mp hkeeps]
  rw [hfull, Prog.run_bind]
  generalize scans keeps (start :: ms) scanEvery st = full
  have hscrub : ShelfLeads sha O W s d false
      (if full then scrub sha start { fullScan := full } else pure { fullScan := full }) w
      fun _ w' => ∀ r, r.bad sha = false → (r ∈ w'.removed ↔ r ∈ w.removed ∨ full = true ∧
        ∃ key ∈ w.store.keys, r = w.disk.file key ∧ W.read w.disk key 0 = .ioError) := by
    cases full with
    | true =>
      refine Reaches.mono (shelfLeads_scrub hw hreads) fun _ w' _ _ hpost r hr => ?_
      rw [hpost r hr]
      simp
    | false => exact shelfLeads_pure hw (by simp)
  obtain ⟨hw₁, -, hremoved⟩ := hscrub
  have hrest : ∀ rep : RepairReport, Tidy sha O W s d (do
      let out ← checkArcs sha start full (start :: ms) [] { st with round := st.round + 1 } rep
      let rep ← (if full then handOff sha start out.1 out.2.2 else pure out.2.2 :
        Repair RepairReport)
      return (rep, out.2.1)) := by
    refine fun rep => tidy_checkArcs.bind fun out => Tidy.bind ?_ fun _ => tidy_pure _
    split
    · exact tidy_handOff
    · exact tidy_pure _
  obtain ⟨hw', hle, -⟩ := hrest _ _ hw₁
  exact ⟨_, hle, hw', hremoved⟩

/-! ### The files a round removes -/

/-- **A round removes only bad files, and keeps every chunk that was intact**, exactly if in a full
scan the first read of every listed good file succeeds. -/
theorem round_removes_only_bad {ε : Type} (sha : Sha1) (O : Outside ε) (W : Weather)
    (s : ChunkStore) (d : Disk) (e : ε) (keeps : Bool) (members : List Peer) (scanEvery : ℤ)
    (st : RepairState) :
    let w := ((repairRound sha keeps members scanEvery st).run (Shelf.answer sha O W) ()
      { store := s, disk := d, outside := e }).2.2
    ((∀ r ∈ w.removed, r.bad sha = true) ∧
        ∀ key ∈ s.keys, (d.file key).bad sha = false → key ∈ w.store.keys ∧
          w.disk.content key = d.content key) ↔
      (scans keeps members scanEvery st = true → ∀ key ∈ s.keys, (d.file key).bad sha = false →
        W.read d key 0 ≠ .ioError) := by
  dsimp only
  have hw : Safe sha s d { store := s, disk := d, outside := e } :=
    fun key hkey _ => .inl ⟨hkey, rfl⟩
  obtain ⟨w₁, hrest, hsafe, hremoved⟩ :=
    @run_repairRound _ sha O W s d _ keeps members scanEvery st hw fun _ => rfl
  constructor
  · rintro ⟨hbad, -⟩ hscans key hkey hgood hfails
    have hmem := (hremoved (d.file key) hgood).mpr (.inr ⟨hscans, key, hkey, rfl, hfails⟩)
    have hfalse := hbad _ (hrest.removed _ hmem)
    rw [hgood] at hfalse
    cases hfalse
  · intro hreads
    have hbad : ∀ r ∈ ((repairRound sha keeps members scanEvery st).run (Shelf.answer sha O W) ()
        { store := s, disk := d, outside := e }).2.2.removed, r.bad sha = true := by
      intro r hr
      rcases hrest.bad rfl r hr with hscrubbed | hbad
      · by_contra hgood
        rw [Bool.not_eq_true] at hgood
        rcases (hremoved r hgood).mp hscrubbed with hnil | ⟨hscans, key, hkey, rfl, hfails⟩
        · cases hnil
        · exact hreads hscans key hkey hgood hfails
      · exact hbad
    exact ⟨hbad, fun key hkey hgood => hsafe.listed hbad hkey hgood⟩

/-- Nobody answers. -/
def deaf : Outside Unit where
  member p _ := (NodeState.fresh p 8, ())
  route _ _ := (⟨.refused, [], 0⟩, ())
  send _ _ _ _ := ((.refused, ⟨[], []⟩), ())

/-- **A good chunk is lost.**  A process that holds the empty chunk runs out of file descriptors,
and the ring cannot be reached: a full scan removes the chunk, and nothing takes its place. -/
theorem round_removes_unread_chunk :
    let held := (storePut (.ofTable []) {} 0 emptyChunk [] (storeOpen 0 .blank).2.1 .blank).2
    let me := successorOf 0 threeMembers
    let w := ((repairRound (.ofTable []) true [me] 1 ⟨fun _ => none, 0⟩).run
      (Shelf.answer (.ofTable []) deaf ⟨fun _ _ => true, fun _ => {}, fun _ => 0⟩) ()
      { store := held.1, disk := held.2, outside := () }).2.2
    emptyChunk ∈ held.1.keys ∧ (held.2.file emptyChunk).bad (.ofTable []) = false ∧
      w.removed = [held.2.file emptyChunk] ∧ emptyChunk ∉ w.store.keys ∧
        w.disk.content emptyChunk = none := by
  decide +kernel

end ChordFs
