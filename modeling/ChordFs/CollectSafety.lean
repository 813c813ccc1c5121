import ChordFs.Collect

/-! # A collection drops no live key

Nothing is assumed of the tracker, the ring and the nodes: every answer may be anything, and two
answers to one question may differ.  What can be said is about the dialogue.  `Listed`, `Reads` and
`Lists` read it: a root that a page of names showed, a manifest that a read of its key gave, a key
that a node showed among its own.

`collectRules` says which lines the collector may send to a node after what it has seen, and
`sat_collect` that it follows them.  The mark is the invariant `Marked`: every manifest that was
read has its entries marked or waiting to be read.  When nothing waits, what is marked is closed
under everything that was read, so it has the whole tree of every root (`Done.treeKey`). -/

namespace ChordFs

open Dialogue Paging Collect

namespace Collect

/-- An event of a collection. -/
abbrev Event (S : Type) := Turn Unit Ask (Answer S)

/-- The events so far, newest first. -/
abbrev Record (S : Type) := List (Event S)

section record
variable {S : Type}

/-- A page of names showed this root. -/
def Listed (H : Record S) (root : Str) : Prop :=
  ∃ after page name, (.said (.entries after) (.ok page) : Event S) ∈ H ∧ (name, root) ∈ page

/-- A read of this key gave this manifest. -/
def Reads (H : Record S) (key : Str) (m : Manifest) : Prop :=
  ∃ g : GetOutcome, (.said (.get key) g : Event S) ∈ H ∧ g.ok = true ∧ parseManifest g.body = .ok m

/-- The node showed this key among those it holds. -/
def Lists (H : Record S) (p : Peer) (k : Str) : Prop :=
  ∃ cursor a keys grace, (.said (.ask p (keysLine cursor)) a : Event S) ∈ H ∧ a.delivery = .ok ∧
    parseKeysReply a.reply = some (keys, grace) ∧ k ∈ keys

/-- The last page of keys the node answered reported this grace. -/
def LastGrace (H : Record S) (p : Peer) (grace : ℕ) : Prop :=
  ∃ H₁ H₂ cursor a keys, H = H₁ ++ (.said (.ask p (keysLine cursor)) a : Event S) :: H₂ ∧
    a.delivery = .ok ∧ parseKeysReply a.reply = some (keys, grace) ∧
    ∀ cursor' a', (.said (.ask p (keysLine cursor')) a' : Event S) ∉ H₁

/-- Some node was sent a line. -/
def Swept (H : Record S) : Prop := ∃ p line a, (.said (.ask p line) a : Event S) ∈ H

/-- The tree under a root was read to its end, without a fault, in one stretch of the dialogue. -/
def Resolves (H : Record S) (root : Str) : Prop :=
  ∃ H₁ T H₂ r, H = H₁ ++ T ++ H₂ ∧ (resolveManifest (get (S := S)) root).Run T (.done r) ∧ r.ok = true

/-- No page of names failed. -/
def PagesOk (H : Record S) : Prop := ∀ after err, (.said (.entries after) (.error err) : Event S) ∉ H

/-- An event that is neither a page of names nor a read. -/
def Event.IsSweep : Event S → Prop
  | .said (.entries _) _ => False
  | .said (.get _) _ => False
  | _ => True

end record

variable {S : Type} [Seconds S] (s : CollectSettings S)

/-- When a DROP of these keys may go to this node. -/
structure MayDrop (H : Record S) (p : Peer) (keys : List Str) : Prop where
  dryRun : s.dryRun = false
  pages : PagesOk H
  roots : ∀ root, Listed H root → Resolves H root ∧
    ∀ k, TreeManifest (Reads H) root k → ∃ m, Reads H k m
  listed : ∀ k ∈ keys, Lists H p k
  dead : ∀ k ∈ keys, ∀ root, Listed H root → ¬ TreeKey (Reads H) root k
  grace : ∃ g : ℕ, LastGrace H p g ∧ ¬ ((g : ℤ) : S) < s.needed
  /-- The clock was read just before, and no reading since the nodes were found was too late. -/
  clock : ∃ t t0 H', H = .said .now t :: H' ∧ H.getLast? = some (.said .now t0) ∧
    ¬ s.deadline < t - t0 ∧
    ∀ H₁ t' H₂ found, H = H₁ ++ (.said .now t' : Event S) :: H₂ →
      (.said .nodes found : Event S) ∈ H₂ → ¬ s.deadline < t' - t0

/-- Names and trees before any node; to a node, only questions for its keys and drops. -/
def collectRules : Rules Unit Ask (Answer S) where
  assume _ _ := True
  change _ _ _ := True
  ask H
    | .now => True
    | .entries _ => ¬ Swept H
    | .get _ => ¬ Swept H
    | .nodes => ¬ Swept H
    | .ask p line => (∃ cursor, line = keysLine cursor) ∨
        ∃ keys, keys ≠ [] ∧ line = dropLine s.gcKey keys ∧ MayDrop s H p keys

/-! ### Events -/

section events
omit [Seconds S]
variable {H : Record S} {e : Event S} {root k : Str} {m : Manifest} {p : Peer}

theorem Reads.cons (h : Reads H k m) : Reads (e :: H) k m := by
  obtain ⟨g, hg, hok, hm⟩ := h
  exact ⟨g, List.mem_cons_of_mem _ hg, hok, hm⟩

theorem Lists.cons (h : Lists H p k) : Lists (e :: H) p k := by
  obtain ⟨cursor, a, keys, grace, ha, h⟩ := h
  exact ⟨cursor, a, keys, grace, List.mem_cons_of_mem _ ha, h⟩

theorem Resolves.append (h : Resolves H root) (T : Record S) : Resolves (T ++ H) root := by
  obtain ⟨H₁, T', H₂, r, rfl, h⟩ := h
  exact ⟨T ++ H₁, T', H₂, r, by simp, h⟩

theorem Swept.of_cons (he : ∀ p line a, e ≠ .said (.ask p line) a) (h : Swept (e :: H)) : Swept H := by
  obtain ⟨p, line, a, h⟩ := h
  rcases List.mem_cons.mp h with h | h
  · exact absurd h.symm (he p line a)
  · exact ⟨p, line, a, h⟩

theorem Listed.of_cons (he : ∀ after page, e ≠ .said (.entries after) (.ok page))
    (h : Listed (e :: H) root) : Listed H root := by
  obtain ⟨after, page, name, h, hn⟩ := h
  rcases List.mem_cons.mp h with h | h
  · exact absurd h.symm (he after page)
  · exact ⟨after, page, name, h, hn⟩

theorem PagesOk.cons (he : ∀ after err, e ≠ .said (.entries after) (.error err)) (h : PagesOk H) :
    PagesOk (e :: H) := by
  intro after err hm
  rcases List.mem_cons.mp hm with hm | hm
  · exact he after err hm.symm
  · exact h after err hm

theorem reads_cons (he : e.IsSweep) : Reads (e :: H) = Reads H := by
  funext k m
  refine propext ⟨fun ⟨g, hg, h⟩ => ?_, Reads.cons⟩
  rcases List.mem_cons.mp hg with rfl | hg
  · exact he.elim
  · exact ⟨g, hg, h⟩

theorem start_cons {x : Event S} (h : H.getLast? = some x) : (e :: H).getLast? = some x := by
  cases H with
  | nil => cases h
  | cons y H => rw [List.getLast?_cons_cons, h]

end events

/-! ### Mark -/

section mark
omit [Seconds S]

/-- While names and trees are read: `all` are the names that were listed. -/
structure Opened (H : Record S) (t0 : S) (all : List (Str × Str)) : Prop where
  start : H.getLast? = some (.said .now t0)
  quiet : ¬ Swept H
  nodes : ∀ found, (.said .nodes found : Event S) ∉ H
  pages : PagesOk H
  listed : ∀ root, Listed H root → root ∈ all.map Prod.snd

/-- A key that is marked and was read, or waits to be read. -/
def Due (H : Record S) (live : Finset Str) (waiting : List Str) (k : Str) : Prop :=
  (k ∈ live ∧ ∃ m, Reads H k m) ∨ k ∈ waiting

/-- Every manifest that was read has its chunks marked and its manifests due, and the wanted keys
are due. -/
structure Marked (H : Record S) (live : Finset Str) (wanted waiting : List Str) : Prop where
  entry : ∀ k g, (.said (.get k) g : Event S) ∈ H → g.ok = true → ∃ m, parseManifest g.body = .ok m ∧
    ∀ e ∈ m.entries, (m.kind = .data → e.key ∈ live) ∧ (m.kind = .index → Due H live waiting e.key)
  want : ∀ k ∈ wanted, Due H live waiting k

variable {H : Record S} {live live' : Finset Str} {wanted waiting : List Str} {t0 : S}
  {all : List (Str × Str)} {k : Str} {g : GetOutcome} {m : Manifest}

theorem Opened.read (h : Opened H t0 all) (k : Str) (g : GetOutcome) :
    Opened (.said (.get k) g :: H) t0 all where
  start := start_cons h.start
  quiet := fun hs => h.quiet (hs.of_cons (by intro _ _ _ he; cases he))
  nodes := fun found hm => h.nodes found (by simpa using hm)
  pages := h.pages.cons (by intro _ _ he; cases he)
  listed := fun root hl => h.listed root (hl.of_cons (by intro _ _ he; cases he))

theorem Due.imp {H' : Record S} {waiting' : List Str} (h : Due H live waiting k) (hl : live ⊆ live')
    (hr : ∀ m, Reads H k m → Reads H' k m) (hw : k ∈ waiting → Due H' live' waiting' k) :
    Due H' live' waiting' k := by
  rcases h with ⟨hk, m, hm⟩ | h
  · exact .inl ⟨hl hk, m, hr m hm⟩
  · exact hw h

theorem Marked.failed (h : Marked H live wanted waiting) (k : Str) (hg : g.ok = false) :
    Marked (.said (.get k) g :: H) live wanted waiting where
  entry := by
    intro k' g' hm hok
    rcases List.mem_cons.mp hm with heq | hm
    · cases heq
      rw [hg] at hok
      cases hok
    · obtain ⟨m, hparse, hent⟩ := h.entry k' g' hm hok
      refine ⟨m, hparse, fun e he => ⟨(hent e he).1, fun hk => ?_⟩⟩
      exact ((hent e he).2 hk).imp subset_rfl (fun _ => Reads.cons) .inr
  want := fun k hk => (h.want k hk).imp subset_rfl (fun _ => Reads.cons) .inr

/-- The first key that waits was read: it is marked, and its entries are marked or wait in its
place. -/
theorem Marked.read {more : List Str} (h : Marked H live wanted (k :: waiting)) (hok : g.ok = true)
    (hm : parseManifest g.body = .ok m) (hl : live ⊆ live') (hk : k ∈ live')
    (hdata : m.kind = .data → ∀ e ∈ m.entries, e.key ∈ live')
    (hindex : m.kind = .index → ∀ e ∈ m.entries, e.key ∈ more) :
    Marked (.said (.get k) g :: H) live' wanted (waiting ++ more) := by
  have hread : Reads (.said (.get k) g :: H) k m := ⟨g, List.mem_cons_self, hok, hm⟩
  have hdue : ∀ x, Due H live (k :: waiting) x →
      Due (.said (.get k) g :: H) live' (waiting ++ more) x := by
    intro x hx
    refine hx.imp hl (fun _ => Reads.cons) fun hw => ?_
    rcases List.mem_cons.mp hw with rfl | hw
    · exact .inl ⟨hk, m, hread⟩
    · exact .inr (List.mem_append_left _ hw)
  refine ⟨fun k' g' hmem hok' => ?_, fun x hx => hdue x (h.want x hx)⟩
  rcases List.mem_cons.mp hmem with heq | hmem
  · cases heq
    exact ⟨m, hm, fun e he => ⟨fun hkind => hdata hkind e he,
      fun hkind => .inr (List.mem_append_right _ (hindex hkind e he))⟩⟩
  · obtain ⟨m', hparse, hent⟩ := h.entry k' g' hmem hok'
    exact ⟨m', hparse, fun e he => ⟨fun hkind => hl ((hent e he).1 hkind),
      fun hkind => hdue e.key ((hent e he).2 hkind)⟩⟩

end mark

/-! ### Trees -/

section trees

variable {r r' : Resolved} {p : Pending} {m : Manifest} {next ps : List Pending}

theorem keys_placed (offset : ℕ) (es : List ManifestEntry) :
    (placed offset es).map (fun x => x.1.key) = es.map ManifestEntry.key := by
  induction es generalizing offset with
  | nil => rfl
  | cons e es ih => rw [placed, List.map_cons, List.map_cons, ih]

theorem take_eq_ok {more : List Pending} (h : r.take p m = .ok (r', more)) :
    r'.ok = r.ok ∧ r'.manifestKeys = r.manifestKeys ++ [p.key] ∧ (m.kind = .data → more = [] ∧
      r'.chunks.map ChunkRef.key = r.chunks.map ChunkRef.key ++ m.entries.map ManifestEntry.key) ∧
    (m.kind = .index → r'.chunks = r.chunks ∧
      more.map Pending.key = m.entries.map ManifestEntry.key) := by
  have henter : ∀ r₀ : Resolved, r₀.enter p m = (r', more) → r'.ok = r₀.ok ∧
      r'.manifestKeys = r₀.manifestKeys ∧
      (m.kind = .data → more = [] ∧
        r'.chunks.map ChunkRef.key = r₀.chunks.map ChunkRef.key ++ m.entries.map ManifestEntry.key) ∧
      (m.kind = .index → r'.chunks = r₀.chunks ∧
        more.map Pending.key = m.entries.map ManifestEntry.key) := by
    intro r₀ h
    rw [Resolved.enter] at h
    cases hk : m.kind with
    | data =>
      simp only [hk, Prod.mk.injEq] at h
      obtain ⟨rfl, rfl⟩ := h
      simp [← keys_placed p.offset, Function.comp_def]
    | index =>
      simp only [hk, Prod.mk.injEq] at h
      obtain ⟨rfl, rfl⟩ := h
      simp [← keys_placed p.offset, Function.comp_def]
  obtain ⟨-, heq⟩ | ⟨-, -, -, heq⟩ | ⟨_, heq⟩ := r.take_cases p m
  · exact henter _ (Except.ok.inj (heq.symm.trans h))
  · exact henter _ (Except.ok.inj (heq.symm.trans h))
  · cases heq.symm.trans h

variable {H : Record S} {live : Finset Str} {wanted : List Str} {t0 : S} {all : List (Str × Str)}

theorem sat_getAttempts {I : Record S → Prop} {key : Str} (hq : ∀ H, I H → ¬ Swept H)
    (hf : ∀ H g, I H → g.ok = false → I (.said (.get key) g :: H)) (more : ℕ) (h : I H) :
    Sat (collectRules s) (fun H' g => ∃ H'', H' = .said (.get key) g :: H'' ∧ I H'') H
      (getAttempts get key more) := by
  induction more generalizing H with
  | zero => exact sat_ask (hq H h) fun g _ => ⟨H, rfl, h⟩
  | succ more ih =>
    refine Sat.bind (sat_ask (hq H h) fun g _ => ?_)
    split
    · exact sat_pure ⟨H, rfl, h⟩
    · rename_i hg
      exact ih (hf H g h (by simpa using hg))

/-- What holds when a part of a tree was read: a fault is passed on as one, and otherwise the marked
keys are those before and those of the tree. -/
def LevelRead (t0 : S) (all : List (Str × Str)) (live : Finset Str) (wanted : List Str)
    (rest : List Pending) (H : Record S) : Except Resolved (Resolved × List Pending) → Prop
  | .error r => r.ok = false
  | .ok (r, next) => r.ok = false ∧ Opened H t0 all ∧
      Marked H (live ∪ r.keys) wanted ((rest ++ next).map Pending.key)

theorem sat_readManifest (hr : r.ok = false) (hO : Opened H t0 all)
    (hM : Marked H (live ∪ r.keys) wanted ((p :: ps ++ next).map Pending.key)) :
    Sat (collectRules s) (fun H' res => LevelRead t0 all live wanted (ps ++ next) H' res) H
      (readManifest get p r) := by
  rw [readManifest]
  split
  · exact sat_pure hr
  let I (H : Record S) : Prop :=
    Opened H t0 all ∧ Marked H (live ∪ r.keys) wanted ((p :: ps ++ next).map Pending.key)
  refine Sat.bind ((sat_getAttempts s (I := I) (fun H h => h.1.quiet) (fun H g h hg =>
    ⟨h.1.read p.key g, h.2.failed p.key hg⟩) _ ⟨hO, hM⟩).mono ?_)
  rintro _ g ⟨H, rfl, hO, hM⟩
  split
  · exact sat_pure hr
  rename_i hg
  split
  · exact sat_pure hr
  rename_i m hm
  refine sat_pure ?_
  cases ht : r.take p m with
  | error r' => exact (ok_of_take_error ht).trans hr
  | ok x =>
    obtain ⟨r', more⟩ := x
    obtain ⟨hok, hkeys, hdata, hindex⟩ := take_eq_ok ht
    refine ⟨hok.trans hr, hO.read _ _, ?_⟩
    have hsub : live ∪ r.keys ⊆ live ∪ r'.keys := by
      refine Finset.union_subset_union_right fun x hx => ?_
      cases hk : m.kind with
      | data =>
        simp only [Resolved.keys, List.mem_toFinset, List.mem_append, hkeys, (hdata hk).2] at hx ⊢
        tauto
      | index =>
        simp only [Resolved.keys, List.mem_toFinset, List.mem_append, hkeys, (hindex hk).1] at hx ⊢
        tauto
    have hself : p.key ∈ live ∪ r'.keys := by
      simp [Resolved.keys, hkeys]
    have hdata' : m.kind = .data → ∀ e ∈ m.entries, e.key ∈ live ∪ r'.keys := by
      intro hk e he
      simp only [Finset.mem_union, Resolved.keys, List.mem_toFinset, List.mem_append, (hdata hk).2]
      exact .inr (.inr (.inr (List.mem_map_of_mem he)))
    have hindex' : m.kind = .index → ∀ e ∈ m.entries, e.key ∈ more.map Pending.key := by
      intro hk e he
      rw [(hindex hk).2]
      exact List.mem_map_of_mem he
    simpa using hM.read (by simpa using hg) hm hsub hself hdata' hindex'

theorem sat_readLevel (hr : r.ok = false) (hO : Opened H t0 all)
    (hM : Marked H (live ∪ r.keys) wanted ((ps ++ next).map Pending.key)) :
    Sat (collectRules s) (fun H' res => LevelRead t0 all live wanted [] H' res) H
      (readLevel get ps next r) := by
  induction ps generalizing H next r with
  | nil => exact sat_pure ⟨hr, hO, hM⟩
  | cons p ps ih =>
    rw [readLevel]
    refine Sat.bind ((sat_readManifest s hr hO hM).mono fun H' res hres => ?_)
    cases res with
    | error r' => exact sat_pure hres
    | ok x =>
      obtain ⟨hr', hO', hM'⟩ := hres
      rw [List.append_assoc] at hM'
      exact ih hr' hO' hM'

theorem sat_resolveLevels {rounds : ℕ} {level : List Pending} (hr : r.ok = false) (hO : Opened H t0 all)
    (hM : Marked H (live ∪ r.keys) wanted (level.map Pending.key)) :
    Sat (collectRules s) (fun H' r => r.ok = true → Opened H' t0 all ∧
      Marked H' (live ∪ r.keys) wanted []) H (resolveLevels get rounds level r) := by
  induction rounds generalizing H level r with
  | zero =>
    cases level with
    | nil => exact sat_pure fun _ => ⟨hO, hM⟩
    | cons p ps => exact sat_pure fun h => absurd h (by simp [hr])
  | succ rounds ih =>
    cases level with
    | nil => exact sat_pure fun _ => ⟨hO, hM⟩
    | cons p ps =>
      rw [resolveLevels]
      have hM' : Marked H (live ∪ r.keys) wanted ((p :: ps ++ []).map Pending.key) := by
        rwa [List.append_nil]
      refine Sat.bind ((sat_readLevel s hr hO hM').mono fun H' res hres => ?_)
      cases res with
      | error r' => exact sat_pure fun h => absurd h (by simp [show r'.ok = false from hres])
      | ok x => exact ih hres.1 hres.2.1 hres.2.2

/-- A tree that is read to its end is marked. -/
theorem sat_resolveManifest (root : Str) (hO : Opened H t0 all) (hM : Marked H live wanted []) :
    Sat (collectRules s) (fun H' r => r.ok = true → Opened H' t0 all ∧
      Marked H' (live ∪ r.keys) (root :: wanted) []) H (resolveManifest get root) := by
  rw [resolveManifest]
  split
  · exact sat_pure fun h => absurd h (by simp)
  · refine sat_resolveLevels s rfl hO ⟨fun k g hg hok => ?_, fun k hk => ?_⟩
    · obtain ⟨m, hm, hent⟩ := hM.entry k g hg hok
      refine ⟨m, hm, fun e he => ⟨fun hk => Finset.mem_union_left _ ((hent e he).1 hk), fun hk => ?_⟩⟩
      exact ((hent e he).2 hk).imp Finset.subset_union_left (fun _ => id) fun h => by cases h
    · rcases List.mem_cons.mp hk with rfl | hk
      · exact .inr (by simp)
      · exact (hM.want k hk).imp Finset.subset_union_left (fun _ => id) fun h => by cases h

theorem sat_markRoots {roots seen : List Str} (hO : Opened H t0 all) (hM : Marked H live seen [])
    (hR : ∀ root ∈ seen, Resolves H root) :
    Sat (collectRules s) (fun H' res => ∀ live', res = .ok live' → Opened H' t0 all ∧
      ∃ seen', (∀ root, root ∈ roots ∨ root ∈ seen → root ∈ seen') ∧ Marked H' live' seen' [] ∧
        ∀ root ∈ seen', Resolves H' root) H (markRoots all roots live) := by
  induction roots generalizing H live seen with
  | nil =>
    refine sat_pure ?_
    rintro _ ⟨⟩
    exact ⟨hO, seen, fun root h => h.resolve_left List.not_mem_nil, hM, hR⟩
  | cons root roots ih =>
    rw [markRoots]
    refine Sat.bind ((sat_resolveManifest s root hO hM).traced.mono ?_)
    rintro H' r ⟨hpost, T, rfl, hrun⟩
    split
    · exact sat_pure fun _ h => by cases h
    · rename_i hr
      have hr : r.ok = true := by simpa using hr
      obtain ⟨hO', hM'⟩ := hpost hr
      refine (ih hO' hM' ?_).mono ?_
      · intro root' h
        rcases List.mem_cons.mp h with rfl | h
        · exact ⟨[], T, H, r, by simp, hrun, hr⟩
        · exact (hR root' h).append T
      · intro H'' res h live' hres
        obtain ⟨hO'', seen', hseen, h⟩ := h live' hres
        refine ⟨hO'', seen', fun root' h' => hseen root' ?_, h⟩
        simp only [List.mem_cons] at h' ⊢
        tauto

end trees

/-! ### Sweep -/

section sweep
variable {H : Record S} {live : Finset Str} {t0 : S} {p : Peer}

/-- The mark is over: `live` has everything that was read. -/
structure Done (H : Record S) (t0 : S) (live : Finset Str) : Prop where
  start : H.getLast? = some (.said .now t0)
  pages : PagesOk H
  roots : ∀ root, Listed H root → Resolves H root ∧ root ∈ live ∧ ∃ m, Reads H root m
  entry : ∀ k m, Reads H k m → ∀ e ∈ m.entries, e.key ∈ live ∧
    (m.kind = .index → ∃ m', Reads H e.key m')

variable {e : Event S} {k root : Str} {garbage keys : List Str} {g rounds : ℕ} {ns : NodeSweep}

omit [Seconds S] in
theorem Opened.done {all : List (Str × Str)} {seen : List Str} (hO : Opened H t0 all)
    (hM : Marked H live seen []) (hR : ∀ root ∈ seen, Resolves H root)
    (hall : ∀ root ∈ all.map Prod.snd, root ∈ seen) : Done H t0 live where
  start := hO.start
  pages := hO.pages
  roots := by
    intro root hroot
    have hseen := hall root (hO.listed root hroot)
    exact ⟨hR root hseen, (hM.want root hseen).resolve_right List.not_mem_nil⟩
  entry := by
    rintro k m ⟨g, hg, hok, hm⟩ e he
    obtain ⟨m', hm', hent⟩ := hM.entry k g hg hok
    cases hm.symm.trans hm'
    cases hk : m.kind with
    | data => exact ⟨(hent e he).1 hk, fun h => by cases h⟩
    | index =>
      have hdue := ((hent e he).2 hk).resolve_right List.not_mem_nil
      exact ⟨hdue.1, fun _ => hdue.2⟩

omit [Seconds S] in
theorem Done.cons (h : Done H t0 live) (he : e.IsSweep) : Done (e :: H) t0 live where
  start := start_cons h.start
  pages := h.pages.cons (by rintro _ _ rfl; exact he)
  roots := by
    intro root hl
    obtain ⟨hres, h2⟩ := h.roots root (hl.of_cons (by rintro _ _ rfl; exact he))
    rw [reads_cons he]
    exact ⟨hres.append [e], h2⟩
  entry := by
    rw [reads_cons he]
    exact h.entry

omit [Seconds S] in
/-- **The marked keys have the whole tree of every root.** -/
theorem Done.treeKey (h : Done H t0 live) (hroot : Listed H root) (hk : TreeKey (Reads H) root k) :
    k ∈ live := by
  apply hk.mem_of_closed
  · exact (h.roots root hroot).2.1
  · intro p m hr e he
    exact (h.entry p m hr e he).1

omit [Seconds S] in
theorem Done.readable (h : Done H t0 live) (hroot : Listed H root) (hk : TreeManifest (Reads H) root k) :
    ∃ m, Reads H k m := by
  cases hk with
  | root => exact (h.roots _ hroot).2.2
  | child _ hr hkind he => exact (h.entry _ _ hr _ he).2 hkind

/-- No reading of the clock since the nodes were found was past the deadline. -/
def InTime (H : Record S) (t0 : S) : Prop :=
  ∀ H₁ t H₂ found, H = H₁ ++ (.said .now t : Event S) :: H₂ →
    (.said .nodes found : Event S) ∈ H₂ → ¬ s.deadline < t - t0

theorem InTime.cons (h : InTime s H t0) (he : ∀ t, e = .said .now t → ¬ s.deadline < t - t0) :
    InTime s (e :: H) t0 := by
  intro H₁ t H₂ found hH hf
  cases H₁ with
  | nil =>
    obtain ⟨rfl, rfl⟩ := List.cons.inj hH
    exact he t rfl
  | cons x H₁ =>
    obtain ⟨rfl, rfl⟩ := List.cons.inj hH
    exact h H₁ t H₂ found rfl hf

/-- The mark is over and the deadline has not passed. -/
structure Ready (H : Record S) (t0 : S) (live : Finset Str) : Prop extends Done H t0 live where
  inTime : InTime s H t0

theorem Ready.said (h : Ready s H t0 live) (p : Peer) (line : Str) (a : Reply) :
    Ready s (.said (.ask p line) a :: H) t0 live where
  toDone := h.toDone.cons trivial
  inTime := h.inTime.cons s (by intro t he; cases he)

/-- Keys the node has shown and that are not marked. -/
def Garbage (H : Record S) (p : Peer) (live : Finset Str) (keys : List Str) : Prop :=
  ∀ k ∈ keys, Lists H p k ∧ k ∉ live

omit [Seconds S] in
theorem Garbage.cons (h : Garbage H p live keys) (e : Event S) :
    Garbage (e :: H) p live keys := fun k hk => ⟨(h k hk).1.cons, (h k hk).2⟩

/-- A listing that came to its end leaves the last grace in the report; one that did not says so. -/
theorem sat_listKeys {cursor : Str} (hR : Ready s H t0 live) (hg : Garbage H p live garbage) :
    Sat (collectRules s) (fun H' res => ∀ ns' garbage' listed, res = some (ns', garbage', listed) →
      Ready s H' t0 live ∧ Garbage H' p live garbage' ∧
      (listed = true → ∃ g : ℕ, ns'.grace = (g : ℤ) ∧ LastGrace H' p g) ∧
      (listed = false → ns'.skipped ≠ [])) H (listKeys p live rounds cursor ns garbage) := by
  induction rounds generalizing H cursor ns garbage with
  | zero => exact sat_pure fun _ _ _ h => by cases h
  | succ rounds ih =>
    rw [listKeys]
    refine Sat.bind (sat_ask (.inl ⟨cursor, rfl⟩) fun a _ => ?_)
    have hR' := hR.said s p (keysLine cursor) a
    have hg' := hg.cons (.said (.ask p (keysLine cursor)) a)
    dsimp only
    split
    · refine sat_pure ?_
      rintro _ _ _ ⟨⟩
      exact ⟨hR', hg', fun h => (by cases h),
        fun _ => List.append_ne_nil_of_right_ne_nil _ (by decide)⟩
    · rename_i keys grace hparse
      have hok : a.delivery = .ok := by
        by_contra h
        rw [if_neg h] at hparse
        cases hparse
      rw [if_pos hok] at hparse
      split
      · refine sat_pure ?_
        rintro _ _ _ ⟨⟩
        refine ⟨hR', hg', fun _ => ⟨grace, rfl, ?_⟩, fun h => by cases h⟩
        exact ⟨[], H, cursor, a, keys, rfl, hok, hparse, fun _ _ => List.not_mem_nil⟩
      · refine ih hR' fun k hk => ?_
        rcases List.mem_append.mp hk with hk | hk
        · exact hg' k hk
        · obtain ⟨hk, hdead⟩ := List.mem_filter.mp hk
          exact ⟨⟨cursor, a, keys, grace, List.mem_cons_self, hok, hparse, hk⟩, by simpa using hdead⟩

omit [Seconds S] in
theorem LastGrace.cons {grace : ℕ} (h : LastGrace H p grace)
    (he : ∀ cursor a, e ≠ .said (.ask p (keysLine cursor)) a) : LastGrace (e :: H) p grace := by
  obtain ⟨H₁, H₂, cursor, a, keys, rfl, hok, hparse, hlast⟩ := h
  refine ⟨e :: H₁, H₂, cursor, a, keys, rfl, hok, hparse, fun cursor' a' hm => ?_⟩
  rcases List.mem_cons.mp hm with hm | hm
  · exact he cursor' a' hm.symm
  · exact hlast cursor' a' hm

theorem dropLine_ne_keysLine (gcKey : Str) (keys : List Str) (cursor : Str) :
    dropLine gcKey keys ≠ keysLine cursor := by
  intro h
  have hhead : some 'D' = some 'K' := congrArg List.head? h
  cases hhead

theorem Ready.mayDrop {t : S} (hR : Ready s (.said .now t :: H) t0 live) (ht : ¬ s.deadline < t - t0)
    (hdry : s.dryRun = false) (hg : Garbage (.said .now t :: H) p live keys)
    (hlast : LastGrace (.said .now t :: H) p g) (hgrace : ¬ ((g : ℤ) : S) < s.needed) :
    MayDrop s (.said .now t :: H) p keys where
  dryRun := hdry
  pages := hR.pages
  roots := fun root hroot => ⟨(hR.roots root hroot).1, fun _ hk => hR.readable hroot hk⟩
  listed := fun k hk => (hg k hk).1
  dead := fun k hk _ hroot htree => (hg k hk).2 (hR.treeKey hroot htree)
  grace := ⟨g, hlast, hgrace⟩
  clock := ⟨t, t0, H, rfl, hR.start, ht, hR.inTime⟩

theorem sat_dropBatches {bs : List (List Str)} (hR : Ready s H t0 live) (hdry : s.dryRun = false)
    (hne : ∀ b ∈ bs, b ≠ []) (hg : ∀ b ∈ bs, Garbage H p live b) (hlast : LastGrace H p g)
    (hgrace : ¬ ((g : ℤ) : S) < s.needed) :
    Sat (collectRules s) (fun H' res => res.2 = false → Ready s H' t0 live) H
      (dropBatches s t0 p bs ns) := by
  induction bs generalizing H ns with
  | nil => exact sat_pure fun _ => hR
  | cons keys rest ih =>
    rw [dropBatches]
    refine Sat.bind (sat_ask trivial fun t _ => ?_)
    split
    · exact sat_pure fun h => by cases h
    rename_i ht
    have hR' : Ready s (.said .now t :: H) t0 live :=
      ⟨hR.toDone.cons trivial, hR.inTime.cons s (by rintro _ ⟨⟩; exact ht)⟩
    have hlast' : LastGrace (.said .now t :: H) p g := hlast.cons (by intro _ _ he; cases he)
    have hmay := hR'.mayDrop s ht hdry ((hg keys List.mem_cons_self).cons _) hlast' hgrace
    refine Sat.bind (sat_ask (.inr ⟨keys, hne keys List.mem_cons_self, rfl, hmay⟩) fun a _ => ?_)
    have hR'' := hR'.said s p (dropLine s.gcKey keys) a
    dsimp only
    split
    · exact sat_pure fun _ => hR''
    · refine ih hR'' (fun b hb => hne b (List.mem_cons_of_mem _ hb))
        (fun b hb => ((hg b (List.mem_cons_of_mem _ hb)).cons _).cons _) (hlast'.cons ?_)
      intro cursor a' he
      injection he with he
      injection he with _ he
      exact dropLine_ne_keysLine _ _ _ he

theorem shortGrace_ne_nil (grace : ℤ) : shortGrace s grace ≠ [] :=
  List.append_ne_nil_of_right_ne_nil _ (by decide)

/-- A node is swept only if its listing came to its end with a grace that is long enough. -/
theorem of_skipped_listedSweep {listed : Bool} (h : (listedSweep s ns garbage listed).skipped = []) :
    ns.skipped = [] ∧ ¬ (listed = true ∧ (ns.grace : S) < s.needed) := by
  by_cases hc : listed = true ∧ (ns.grace : S) < s.needed
  · rw [listedSweep, if_pos hc] at h
    exact absurd h (shortGrace_ne_nil s ns.grace)
  · rw [listedSweep, if_neg hc] at h
    exact ⟨h, hc⟩

theorem sat_sweepNode (rounds : ℕ) (hR : Ready s H t0 live) :
    Sat (collectRules s) (fun H' res => ∀ ns, res = some (ns, false) → Ready s H' t0 live) H
      (sweepNode rounds s t0 live p) := by
  rw [sweepNode]
  have hnone : Garbage H p live [] := fun k hk => by cases hk
  refine Sat.bind ((sat_listKeys s hR hnone).mono fun H' res hres => ?_)
  cases res with
  | none => exact sat_pure fun _ h => by cases h
  | some x =>
    obtain ⟨ns, garbage, listed⟩ := x
    obtain ⟨hR', hg, hlisted, hskip⟩ := hres ns garbage listed rfl
    dsimp only
    split
    · rename_i hdrop
      obtain ⟨hskipped, hshort⟩ := of_skipped_listedSweep s hdrop.1
      have hl : listed = true := by
        by_contra h
        exact hskip (by simpa using h) hskipped
      obtain ⟨g, hgrace, hlast⟩ := hlisted hl
      have hbatch : ∀ b ∈ batches MAX_HAVE_KEYS garbage, Garbage H' p live b :=
        fun b hb k hk => hg k (mem_of_mem_batches hb hk)
      refine Sat.bind ((sat_dropBatches s hR' (by simpa using hdrop.2)
        (fun b hb => ne_nil_of_mem_batches (by decide) hb) hbatch hlast
        (by rw [← hgrace]; exact fun h => hshort ⟨hl, h⟩)).mono fun H'' res hres => sat_pure ?_)
      rintro ns' ⟨⟩
      exact hres rfl
    · exact sat_pure fun _ _ => hR'

theorem sat_sweep {ps : List Peer} {rep : CollectReport S} (hR : Ready s H t0 live) :
    Sat (collectRules s) (fun _ _ => True) H (sweep rounds s t0 live ps rep) := by
  induction ps generalizing H rep with
  | nil => exact sat_pure trivial
  | cons p ps ih =>
    rw [sweep]
    refine Sat.bind ((sat_sweepNode s rounds hR).mono fun H' res hres => ?_)
    cases res with
    | none => exact sat_pure trivial
    | some x =>
      obtain ⟨ns, hit⟩ := x
      cases hit with
      | true => exact sat_pure trivial
      | false => exact ih (hres ns rfl)

end sweep

/-! ### The whole collection -/

section whole

theorem sat_listNames {H : Record S} {t0 : S} {rounds : ℕ} {after : Str} {all : List (Str × Str)}
    (hO : Opened H t0 all) (hget : ∀ k g, (.said (.get k) g : Event S) ∉ H) :
    Sat (collectRules s) (fun H' res => ∀ all', res = some (.ok all') → Opened H' t0 all' ∧
      ∀ k g, (.said (.get k) g : Event S) ∉ H') H (listNames rounds after all) := by
  induction rounds generalizing H after all with
  | zero => exact sat_pure fun _ h => by cases h
  | succ rounds ih =>
    rw [listNames]
    refine Sat.bind (sat_ask hO.quiet fun a _ => ?_)
    have hget' : ∀ k g, (.said (.get k) g : Event S) ∉ .said (.entries after) a :: H := by
      intro k g hm
      rcases List.mem_cons.mp hm with hm | hm
      · cases hm
      · exact hget k g hm
    cases a with
    | error err => exact sat_pure fun _ h => by cases h
    | ok page =>
      have hO' : Opened (.said (.entries after) (.ok page) :: H) t0 (all ++ page) := by
        refine ⟨start_cons hO.start, fun h => hO.quiet (h.of_cons (by intro _ _ _ he; cases he)),
          fun found hm => hO.nodes found (by simpa using hm), hO.pages.cons (by intro _ _ he; cases he), fun root hl => ?_⟩
        obtain ⟨after', page', name, hm, hn⟩ := hl
        rw [List.map_append, List.mem_append]
        rcases List.mem_cons.mp hm with hm | hm
        · cases hm
          exact .inr (List.mem_map_of_mem (f := Prod.snd) hn)
        · exact .inl (hO.listed root ⟨after', page', name, hm, hn⟩)
      dsimp only
      split
      · rename_i hlast
        refine sat_pure ?_
        rintro _ ⟨⟩
        rw [List.getLast?_eq_none_iff.mp hlast, List.append_nil] at hO'
        rw [List.getLast?_eq_none_iff.mp hlast]
        exact ⟨hO', by rwa [List.getLast?_eq_none_iff.mp hlast] at hget'⟩
      · exact ih hO' hget'

theorem mem_rootsOf {all : List (Str × Str)} {root : Str} :
    root ∈ rootsOf all ↔ root ∈ all.map Prod.snd := by
  rw [rootsOf, List.mem_insertionSort, List.mem_dedup]

/-- **The collector follows the rules, whatever it is told.** -/
theorem sat_collect (rounds : ℕ) :
    Sat (collectRules s) (fun _ _ => True) [] (collect rounds s) := by
  rw [collect]
  refine Sat.bind (sat_ask trivial fun t0 _ => ?_)
  have hO : Opened [(.said .now t0 : Event S)] t0 [] := by
    refine ⟨rfl, ?_, ?_, ?_, ?_⟩
    · rintro ⟨_, _, _, h⟩
      simp at h
    · intro _ h
      simp at h
    · intro _ _ h
      simp at h
    · rintro _ ⟨_, _, _, h, _⟩
      simp at h
  refine Sat.bind ((sat_listNames s hO (by intro _ _ h; simp at h)).mono fun H res hres => ?_)
  rcases res with _ | _ | all
  · exact sat_pure trivial
  · exact sat_pure trivial
  obtain ⟨hO, hget⟩ := hres all rfl
  have hM : Marked H ∅ [] [] := ⟨fun k g hm => absurd hm (hget k g), fun k hk => by cases hk⟩
  refine Sat.bind ((sat_markRoots s hO hM (fun _ h => by cases h)).mono fun H res hres => ?_)
  cases res with
  | error message => exact sat_pure trivial
  | ok live =>
    obtain ⟨hO, seen, hseen, hM, hR⟩ := hres live rfl
    have hdone : Done H t0 live :=
      hO.done hM hR fun root h => hseen root (.inl (mem_rootsOf.mpr h))
    refine Sat.bind (sat_ask trivial fun t1 _ => ?_)
    have hquiet : ¬ Swept (.said .now t1 :: H) :=
      fun h => hO.quiet (h.of_cons (by intro _ _ _ he; cases he))
    refine Sat.bind (sat_ask hquiet fun found _ => ?_)
    have htime : InTime s (.said .nodes found :: .said .now t1 :: H) t0 := by
      have : InTime s (.said .now t1 :: H) t0 := by
        intro H₁ t H₂ found hH hf
        have hmem : (.said .nodes found : Event S) ∈ .said .now t1 :: H := by
          rw [hH]
          simp [hf]
        exact absurd (by simpa using hmem) (hO.nodes found)
      exact this.cons s (by intro t he; cases he)
    have hready : Ready s (.said .nodes found :: .said .now t1 :: H) t0 live :=
      ⟨(hdone.cons (e := .said .now t1) trivial).cons trivial, htime⟩
    refine Sat.bind ((sat_sweep s hready).mono fun H res _ => ?_)
    cases res with
    | none => exact sat_pure trivial
    | some rep => exact Sat.bind (sat_ask trivial fun t2 _ => sat_pure trivial)

end whole

end Collect

section safety
variable {S : Type} [Seconds S] {s : CollectSettings S} {rounds : ℕ}

theorem assumed_collectRules (H : Record S) : Assumed (collectRules s) H := by
  induction H with
  | nil => trivial
  | cons e H ih => exact ⟨trivial, ih⟩

/-- Names and trees are read before any node is asked. -/
theorem mem_before_ask {H₁ H₂ : Record S} {q : Talk S (Option (CollectReport S))} {p : Peer} {line : Str}
    {a : Reply} (hrun : (collect rounds s).Run (H₁ ++ .said (.ask p line) a :: H₂) q) {e : Collect.Event S}
    (he : e ∈ H₁ ++ .said (.ask p line) a :: H₂) (hsweep : ¬ e.IsSweep) : e ∈ H₂ := by
  rcases List.mem_append.mp he with he | he
  · -- an earlier question to a node would have kept it from being asked
    obtain ⟨A, B, rfl⟩ := List.append_of_mem he
    rw [List.append_assoc, List.cons_append] at hrun
    have hswept : Swept (B ++ (.said (.ask p line) a : Collect.Event S) :: H₂) := ⟨p, line, a, by simp⟩
    cases e with
    | held _ _ => exact absurd trivial hsweep
    | said q a =>
      have hask := (sat_collect s rounds).asked hrun (assumed_collectRules _)
      cases q with
      | now => exact absurd trivial hsweep
      | entries after => exact absurd hswept hask
      | get key => exact absurd hswept hask
      | nodes => exact absurd trivial hsweep
      | ask p line => exact absurd trivial hsweep
  · rcases List.mem_cons.mp he with rfl | he
    · exact absurd trivial hsweep
    · exact he

/-- **Collector safety.**  In every dialogue of `collect`, whatever the answers: a DROP sent to a
node names keys which that node had listed and which no tree of a listed root has, as the trees were
read anywhere in the dialogue.  No page of names failed and every listed root's tree was read to
its end; it is no dry run; the node's last page of keys reported a grace that covers U + W + D; and
by the clock, read just before, the deadline had not passed. -/
theorem collect_safe {H₁ H₂ : Record S} {q : Talk S (Option (CollectReport S))} {p : Peer} {line : Str}
    {a : Reply} (hrun : (collect rounds s).Run (H₁ ++ .said (.ask p line) a :: H₂) q)
    (hdrop : "DROP ".toList <+: line) :
    let H : Record S := H₁ ++ .said (.ask p line) a :: H₂
    s.dryRun = false ∧
    (∀ after err, (.said (.entries after) (.error err) : Collect.Event S) ∉ H) ∧
    (∀ root, Listed H root → Resolves H root ∧
      ∀ k, TreeManifest (Reads H) root k → ∃ m, Reads H k m) ∧
    (∃ g : ℕ, LastGrace H₂ p g ∧ ¬ ((g : ℤ) : S) < s.needed) ∧
    (∃ t t0 H', H₂ = .said .now t :: H' ∧ H.getLast? = some (.said .now t0) ∧
      ¬ s.deadline < t - t0 ∧
      ∀ A t' B found, H₂ = A ++ (.said .now t' : Collect.Event S) :: B →
        (.said .nodes found : Collect.Event S) ∈ B → ¬ s.deadline < t' - t0) ∧
    ∃ keys, line = dropLine s.gcKey keys ∧ keys ≠ [] ∧
      ∀ k ∈ keys, Lists H₂ p k ∧ ∀ root, Listed H root → ¬ TreeKey (Reads H) root k := by
  intro H
  have hask := (sat_collect s rounds).asked hrun (assumed_collectRules _)
  rcases hask with ⟨cursor, rfl⟩ | ⟨keys, hne, rfl, h⟩
  · obtain ⟨t, ht⟩ := hdrop
    have hhead : some 'D' = some 'K' := congrArg List.head? ht
    cases hhead
  have hmem : ∀ e ∈ H, ¬ e.IsSweep → e ∈ H₂ := fun e he => mem_before_ask hrun he
  have hlisted : ∀ root, Listed H root → Listed H₂ root := by
    rintro root ⟨after, page, name, hm, hn⟩
    exact ⟨after, page, name, hmem _ hm id, hn⟩
  have hreads : Reads H = Reads H₂ := by
    funext k m
    refine propext ⟨fun ⟨g, hg, h⟩ => ⟨g, hmem _ hg id, h⟩, fun ⟨g, hg, h⟩ => ⟨g, ?_, h⟩⟩
    exact List.mem_append_right _ (List.mem_cons_of_mem _ hg)
  rw [hreads]
  refine ⟨h.dryRun, fun after err hm => h.pages after err (hmem _ hm id), fun root hl => ?_, h.grace,
    ?_, keys, rfl, hne, fun k hk => ⟨h.listed k hk, fun root hl => h.dead k hk root (hlisted root hl)⟩⟩
  · obtain ⟨hres, hread⟩ := h.roots root (hlisted root hl)
    have := hres.append (H₁ ++ [.said (.ask p (dropLine s.gcKey keys)) a])
    exact ⟨by simpa using this, hread⟩
  · obtain ⟨t, t0, H', hH, hstart, hclock⟩ := h.clock
    refine ⟨t, t0, H', hH, ?_, hclock⟩
    rw [show H = (H₁ ++ [.said (.ask p (dropLine s.gcKey keys)) a]) ++ H₂ by simp [H],
      List.getLast?_append, hstart, Option.some_or]

def sweptNode : Peer := hostPeer 0 1

/-- A tracker with one name, for an empty file, and one node with a key that no tree has. -/
def orphanSite (q : Ask) (_ : Record ℚ) : Collect.Answer ℚ q :=
  match q with
  | .now => 0
  | .entries after => .ok (if after = [] then [("f".toList, List.replicate 40 'a')] else [])
  | .get _ => ⟨true, "chordfs-manifest 1\nsize 0\nchunk 1\nkind data\nentries 0\n".toList, []⟩
  | .nodes => ⟨[sweptNode], none⟩
  | .ask _ line => ⟨.ok,
      if line = keysLine "-".toList then "KEYS 1 7200 ".toList ++ List.replicate 40 'b'
      else if line.take 4 = "KEYS".toList then "KEYS 0 7200".toList else "DROPPED 1 5".toList⟩

def orphanSettings : CollectSettings ℚ := { gcKey := "key".toList }

/-- The dialogue of a collection there: the node's key is dropped, then the clock is read once
more. -/
def orphanEvents : Record ℚ := ((collect 2 orphanSettings).play orphanSite () []).1

def orphanDrop : Collect.Event ℚ := .said (.ask sweptNode (dropLine "key".toList [List.replicate 40 'b']))
  ⟨.ok, "DROPPED 1 5".toList⟩

theorem collect_safe_orphan :
    orphanEvents = orphanEvents.take 1 ++ orphanDrop :: orphanEvents.drop 2 ∧
    ∃ keys, dropLine "key".toList [List.replicate 40 'b'] = dropLine "key".toList keys ∧ keys ≠ [] ∧
      ∀ k ∈ keys, Lists (orphanEvents.drop 2) sweptNode k ∧
        ∀ root, Listed (orphanEvents.take 1 ++ orphanDrop :: orphanEvents.drop 2) root →
          ¬ TreeKey (Reads (orphanEvents.take 1 ++ orphanDrop :: orphanEvents.drop 2)) root k := by
  have hsplit : orphanEvents = orphanEvents.take 1 ++ orphanDrop :: orphanEvents.drop 2 := by
    decide +kernel
  have hrun : (collect 2 orphanSettings).Run orphanEvents _ :=
    (Prog.Run.nil (collect 2 orphanSettings)).play orphanSite ()
  rw [hsplit] at hrun
  have hdrop : "DROP ".toList <+: dropLine "key".toList [List.replicate 40 'b'] := by decide
  exact ⟨hsplit, (collect_safe hrun hdrop).2.2.2.2.2⟩

end safety

end ChordFs
