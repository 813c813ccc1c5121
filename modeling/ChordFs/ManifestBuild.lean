import ChordFs.ManifestTree
import Mathlib.Algebra.Order.BigOperators.Group.List
import Mathlib.Algebra.Order.Ring.Nat

/-! # Building a tree and reading it back

`build_manifests` works from the chunks up, `resolve_manifest` from the root down.  Cutting a level
into manifests keeps the shape rules and the bytes (`Shaped.batches`), and reading the manifests of
a level gives the level below in order (`readLevel_built`); so reading the root of what was built
comes back to the chunks (`build_then_resolve`). -/

namespace ChordFs

open Dialogue Paging Text

/-- The shape rule for a whole level. -/
def Shaped (kind : ManifestKind) (chunk : ℕ) (es : List ManifestEntry) : Prop :=
  ∀ i e, es[i]? = some e → shapeFits kind chunk (i + 1 = es.length) e.bytes = true

/-! ### Shapes of levels -/

section shapes
variable {kind : ManifestKind} {chunk n b : ℕ} {es es' : List ManifestEntry}

theorem shapeFits_last (hchunk : 1 ≤ chunk) (h : shapeFits kind chunk false b = true) :
    shapeFits kind chunk true b = true := by
  cases kind with
  | data =>
    simp only [shapeFits, Bool.false_eq_true, if_false, if_true, decide_eq_true_eq] at h ⊢
    omega
  | index =>
    simp only [shapeFits, Bool.false_eq_true, false_or, true_or, and_true, decide_eq_true_eq] at h ⊢
    exact h.1

theorem chunk_dvd_of_shapeFits (h : shapeFits kind chunk false b = true) : chunk ∣ b := by
  cases kind with
  | data =>
    simp only [shapeFits, Bool.false_eq_true, if_false, decide_eq_true_eq] at h
    rw [h]
  | index =>
    simp only [shapeFits, Bool.false_eq_true, false_or, decide_eq_true_eq] at h
    exact Nat.dvd_of_mod_eq_zero h.2

theorem pos_of_shapeFits {last : Bool} (hchunk : 1 ≤ chunk)
    (h : shapeFits kind chunk last b = true) : 1 ≤ b := by
  cases kind with
  | data =>
    simp only [shapeFits] at h
    split at h
    · simp only [decide_eq_true_eq] at h
      exact h.1
    · simp only [decide_eq_true_eq] at h
      omega
  | index =>
    simp only [shapeFits, decide_eq_true_eq] at h
    exact h.1

theorem shaped_of_forall (hchunk : 1 ≤ chunk)
    (h : ∀ e ∈ es, shapeFits kind chunk false e.bytes = true) : Shaped kind chunk es := by
  intro i e hi
  have hfits := h e (List.mem_of_getElem? hi)
  by_cases hlast : i + 1 = es.length
  · simpa [hlast] using shapeFits_last hchunk hfits
  · simpa [hlast] using hfits

theorem shaped_append (hne : es' ≠ []) : Shaped kind chunk (es ++ es') ↔
    (∀ e ∈ es, shapeFits kind chunk false e.bytes = true) ∧ Shaped kind chunk es' := by
  have hpos := List.length_pos_of_ne_nil hne
  constructor
  · intro h
    constructor
    · intro e he
      obtain ⟨i, hi⟩ := List.mem_iff_getElem?.mp he
      have hlt : i < es.length := (List.getElem?_eq_some_iff.mp hi).1
      have hfits := h i e (by rw [List.getElem?_append_left hlt, hi])
      rwa [decide_eq_false (by rw [List.length_append]; omega)] at hfits
    · intro i e hi
      have hfits := h (es.length + i) e
        (by rw [List.getElem?_append_right (by omega), Nat.add_sub_cancel_left, hi])
      rwa [List.length_append, decide_eq_decide.mpr (show _ ↔ i + 1 = es'.length by omega)] at hfits
  · rintro ⟨hes, hes'⟩ i e hi
    rw [List.length_append]
    rcases Nat.lt_or_ge i es.length with hlt | hge
    · rw [List.getElem?_append_left hlt] at hi
      rw [decide_eq_false (by omega)]
      exact hes e (List.mem_of_getElem? hi)
    · rw [List.getElem?_append_right hge] at hi
      rw [decide_eq_decide.mpr (show _ ↔ i - es.length + 1 = es'.length by omega)]
      exact hes' _ e hi

theorem chunk_dvd_totalBytes (h : ∀ e ∈ es, shapeFits kind chunk false e.bytes = true) :
    chunk ∣ totalBytes es := by
  refine List.dvd_sum fun b hb => ?_
  obtain ⟨e, he, rfl⟩ := List.mem_map.mp hb
  exact chunk_dvd_of_shapeFits (h e he)

theorem totalBytes_pos (hchunk : 1 ≤ chunk) (h : Shaped kind chunk es) (hne : es ≠ []) :
    1 ≤ totalBytes es := by
  obtain ⟨e, es, rfl⟩ := List.exists_cons_of_ne_nil hne
  have := pos_of_shapeFits hchunk (h 0 e rfl)
  rw [totalBytes_cons]
  omega

/-- **Cutting a level keeps the shape**: of each part, and of the level above that lists the
parts. -/
theorem Shaped.batches (hchunk : 1 ≤ chunk) (hn : 0 < n) (h : Shaped kind chunk es) :
    (∀ part ∈ batches n es, Shaped kind chunk part) ∧
    ∀ key : List ManifestEntry → Str,
      Shaped .index chunk ((Paging.batches n es).map fun part => ⟨key part, totalBytes part⟩) := by
  refine batches_induction (P := fun es parts => Shaped kind chunk es →
    (∀ part ∈ parts, Shaped kind chunk part) ∧
    ∀ key : List ManifestEntry → Str,
      Shaped .index chunk (parts.map fun part => ⟨key part, totalBytes part⟩)) hn ?_ ?_ es h
  · intro _
    exact ⟨by simp, fun key i e hi => by simp at hi⟩
  · intro es hne ih h
    rcases eq_or_ne (es.drop n) [] with hnil | hmore
    · -- the last part
      have hall : es.take n = es := by
        have hcut := List.take_append_drop n es
        rwa [hnil, List.append_nil] at hcut
      rw [hnil, batches_nil hn, hall]
      refine ⟨by simpa using h, fun key i e hi => ?_⟩
      obtain ⟨rfl, rfl⟩ : i = 0 ∧ e = ⟨key es, totalBytes es⟩ := by
        cases i with
        | zero =>
          cases hi
          exact ⟨rfl, rfl⟩
        | succ i => simp at hi
      have hpos := totalBytes_pos hchunk h hne
      simpa [shapeFits] using hpos
    · rw [← List.take_append_drop n es, shaped_append hmore] at h
      obtain ⟨hparts, hkeys⟩ := ih h.2
      have hfirst := shaped_of_forall hchunk h.1
      refine ⟨?_, fun key => ?_⟩
      · intro part hpart
        rcases List.mem_cons.mp hpart with rfl | hpart
        · exact hfirst
        · exact hparts part hpart
      · rw [List.map_cons, ← List.singleton_append, shaped_append]
        · refine ⟨fun e he => ?_, hkeys key⟩
          rw [List.mem_singleton.mp he]
          have htake : es.take n ≠ [] := by
            simp only [ne_eq, List.take_eq_nil_iff, hne, or_false]
            omega
          have hpos := totalBytes_pos hchunk hfirst htake
          have hdvd := chunk_dvd_totalBytes h.1
          simp [shapeFits, hpos, Nat.mod_eq_zero_of_dvd hdvd]
        · rw [batches_eq_cons hn hmore]
          simp

theorem sum_totalBytes_batches (hn : 0 < n) (es : List ManifestEntry) :
    ((Paging.batches n es).map totalBytes).sum = totalBytes es := by
  refine batches_induction (P := fun es parts => (parts.map totalBytes).sum = totalBytes es) hn rfl
    (fun es _ ih => ?_) es
  rw [List.map_cons, List.sum_cons, ih, ← totalBytes_append, List.take_append_drop]

theorem length_batches_lt (hn : 2 ≤ n) (h : n < es.length) :
    (Paging.batches n es).length < es.length := by
  rw [Paging.batches, List.length_map, List.length_range]
  rw [Nat.div_lt_iff_lt_mul (by omega)]
  have := Nat.mul_le_mul_left es.length hn
  omega

end shapes

/-! ### Manifests over the parts -/

/-- The entry that stands for a manifest in the level above. -/
def entryFor (sha : Sha1) (m : Manifest) : ManifestEntry :=
  ⟨chunkKey sha (formatManifest m), m.size⟩

section manifestsOver
variable {sha : Sha1} {kind : ManifestKind} {size chunk fanout : ℕ} {es : List ManifestEntry}

theorem foldl_bytes (start : ℕ) (h : start + totalBytes es < 2 ^ 64) :
    es.foldl (fun sum e => (sum + e.bytes) % 2 ^ 64) start = start + totalBytes es := by
  induction es generalizing start with
  | nil => rfl
  | cons e es ih =>
    rw [totalBytes_cons] at h ⊢
    rw [List.foldl_cons, Nat.mod_eq_of_lt (by omega), ih _ (by omega), Nat.add_assoc]

theorem size_manifestOver (h : totalBytes es < 2 ^ 64) :
    (manifestOver chunk kind es).size = totalBytes es := by
  have hfold := foldl_bytes 0 (by rwa [Nat.zero_add])
  rwa [Nat.zero_add] at hfold

/-- What a level must be for its manifests to be accepted. -/
structure LevelOk (kind : ManifestKind) (chunk : ℕ) (es : List ManifestEntry) : Prop where
  chunk_pos : 1 ≤ chunk
  chunk_le : chunk ≤ MAX_CHUNK
  keys : ∀ e ∈ es, validKey e.key = true
  shaped : Shaped kind chunk es
  some_index : kind = .index → es ≠ []
  size_lt : totalBytes es < 2 ^ 64

theorem LevelOk.wellFormed (h : LevelOk kind chunk es) (hlen : es.length ≤ MANIFEST_FANOUT) :
    Manifest.WellFormed ⟨totalBytes es, chunk, kind, es⟩ := by
  rw [Manifest.wellFormed_iff]
  have hpos := h.chunk_pos
  refine ⟨hlen, ⟨Nat.ne_of_gt hpos, h.chunk_le⟩, h.keys, rfl, ?_, h.shaped, fun hempty => ?_⟩
  · exact Nat.le_sub_one_of_lt h.size_lt
  · exact h.some_index hempty.1 hempty.2

theorem totalBytes_le_of_mem_batches (hn : 0 < fanout) {part : List ManifestEntry}
    (hpart : part ∈ batches fanout es) : totalBytes part ≤ totalBytes es := by
  rw [← sum_totalBytes_batches hn es]
  exact List.single_le_sum (fun _ _ => Nat.zero_le _) _ (List.mem_map_of_mem hpart)

theorem LevelOk.part (h : LevelOk kind chunk es) (hn : 0 < fanout) {part : List ManifestEntry}
    (hpart : part ∈ batches fanout es) : LevelOk kind chunk part where
  chunk_pos := h.chunk_pos
  chunk_le := h.chunk_le
  keys e he := h.keys e (mem_of_mem_batches hpart he)
  shaped := (h.shaped.batches h.chunk_pos hn).1 part hpart
  some_index _ := ne_nil_of_mem_batches hn hpart
  size_lt := lt_of_le_of_lt (totalBytes_le_of_mem_batches hn hpart) h.size_lt

/-- The manifests of a level that is cut up. -/
def manifestsOver (chunk fanout : ℕ) (kind : ManifestKind) (es : List ManifestEntry) :
    List Manifest :=
  (batches fanout es).map (manifestOver chunk kind)

theorem LevelOk.manifest (h : LevelOk kind chunk es) (hn : 0 < fanout)
    (hf : fanout ≤ MANIFEST_FANOUT) {m : Manifest} (hm : m ∈ manifestsOver chunk fanout kind es) :
    m.WellFormed ∧ m.chunk = chunk ∧ m.kind = kind := by
  obtain ⟨part, hpart, rfl⟩ := List.mem_map.mp hm
  have hok := h.part hn hpart
  have hover : manifestOver chunk kind part = ⟨totalBytes part, chunk, kind, part⟩ := by
    rw [← @size_manifestOver kind chunk _ hok.size_lt]
    rfl
  rw [hover]
  exact ⟨hok.wellFormed (le_trans (length_le_of_mem_batches hpart) hf), rfl, rfl⟩

theorem entries_manifestsOver (hn : 0 < fanout) (kind : ManifestKind) (chunk : ℕ)
    (es : List ManifestEntry) :
    (manifestsOver chunk fanout kind es).flatMap Manifest.entries = es := by
  rw [manifestsOver, List.flatMap_map]
  exact List.flatMap_id'.trans (flatten_batches hn es)

/-- **The level above is a level over the same bytes.** -/
theorem LevelOk.above (sha : Sha1) (h : LevelOk kind chunk es) (hn : 0 < fanout) (hne : es ≠ []) :
    LevelOk .index chunk ((manifestsOver chunk fanout kind es).map (entryFor sha)) ∧
      totalBytes ((manifestsOver chunk fanout kind es).map (entryFor sha)) = totalBytes es := by
  have hentries : (manifestsOver chunk fanout kind es).map (entryFor sha) =
      (batches fanout es).map fun part =>
        ⟨chunkKey sha (formatManifest (manifestOver chunk kind part)), totalBytes part⟩ := by
    rw [manifestsOver, List.map_map]
    refine List.map_congr_left fun part hpart => ?_
    rw [Function.comp_apply, entryFor, size_manifestOver (h.part hn hpart).size_lt]
  have htotal : totalBytes ((manifestsOver chunk fanout kind es).map (entryFor sha)) =
      totalBytes es := by
    rw [hentries, totalBytes, List.map_map]
    exact sum_totalBytes_batches hn es
  refine ⟨⟨h.chunk_pos, h.chunk_le, fun e he => ?_, ?_, fun _ => ?_, htotal ▸ h.size_lt⟩, htotal⟩
  · obtain ⟨m, -, rfl⟩ := List.mem_map.mp he
    exact validKey_digest sha _
  · rw [hentries]
    exact (h.shaped.batches h.chunk_pos hn).2 _
  · rw [manifestsOver, batches_eq_cons hn hne]
    simp

end manifestsOver

/-! ### Reading a level that was built -/

/-- The chunks a level adds: its own entries, if it is the lowest. -/
def ManifestKind.refs : ManifestKind → ℕ → List ManifestEntry → List ChunkRef
  | .data, o, es => refsOf o es
  | .index, _, _ => []

/-- The manifests below a level. -/
def ManifestKind.below : ManifestKind → ℕ → ℕ → List ManifestEntry → List Pending
  | .data, _, _, _ => []
  | .index, o, depth, es => childrenOf o depth es

section reading
variable {σ Q : Type} {A : Q → Type} {f : Str → GetOutcome} {sha : Sha1}
variable {kind : ManifestKind} {o depth : ℕ} {es es' : List ManifestEntry} {r : Resolved}
  {p : Pending} {m : Manifest}

theorem placed_append (h : o + totalBytes es < 2 ^ 64) :
    placed o (es ++ es') = placed o es ++ placed (o + totalBytes es) es' := by
  induction es generalizing o with
  | nil => rfl
  | cons e es ih =>
    rw [totalBytes_cons] at h
    rw [List.cons_append, placed, placed, Nat.mod_eq_of_lt (by omega), ih (by omega),
      totalBytes_cons, List.cons_append, Nat.add_assoc]

theorem refs_append (h : o + totalBytes es < 2 ^ 64) :
    kind.refs o (es ++ es') = kind.refs o es ++ kind.refs (o + totalBytes es) es' := by
  cases kind with
  | data => simp only [ManifestKind.refs, refsOf, placed_append h, List.map_append]
  | index => rfl

theorem below_append (h : o + totalBytes es < 2 ^ 64) :
    kind.below o depth (es ++ es') =
      kind.below o depth es ++ kind.below (o + totalBytes es) depth es' := by
  cases kind with
  | data => rfl
  | index => simp only [ManifestKind.below, childrenOf, placed_append h, List.map_append]

theorem enter_eq : r.enter p m = ({ r with
      depth := max r.depth p.depth
      chunks := r.chunks ++ m.kind.refs p.offset m.entries },
        m.kind.below p.offset (p.depth + 1) m.entries) := by
  cases hkind : m.kind with
  | data => exact Resolved.enter_data hkind r p
  | index =>
    rw [Resolved.enter_index hkind]
    simp only [ManifestKind.refs, List.append_nil, ManifestKind.below]

theorem eq_nil_of_childrenOf (h : childrenOf o depth es = []) : es = [] := by
  cases es with
  | nil => rfl
  | cons e es => cases h

/-- The manifest is kept under its hash. -/
def KeepsBlob (f : Str → GetOutcome) (sha : Sha1) (blob : Str) : Prop :=
  (f (chunkKey sha blob)).ok = true ∧ (f (chunkKey sha blob)).body = blob

theorem getAttempts_pure {k : Str} (h : (f k).ok = true) (more : ℕ) :
    getAttempts (fun k => (pure (f k) : Prog σ Q A GetOutcome)) k more = pure (f k) := by
  cases more with
  | zero => rfl
  | succ more =>
    change (if (f k).ok = true then (pure (f k) : Prog σ Q A GetOutcome) else _) = _
    rw [if_pos h]

theorem readManifest_pure (hm : m.WellFormed) (hkeep : KeepsBlob f sha (formatManifest m))
    (hkey : p.key = chunkKey sha (formatManifest m)) (hdepth : p.depth ≤ MAX_MANIFEST_DEPTH) :
    readManifest (fun k => (pure (f k) : Prog σ Q A GetOutcome)) p r = pure (r.take p m) := by
  have hparse : parseManifest (f p.key).body = .ok m := by
    rw [hkey, hkeep.2]
    exact parseManifest_formatManifest hm
  have hok : (f p.key).ok = true := by
    rw [hkey]
    exact hkeep.1
  rw [readManifest, if_neg (Nat.not_lt.mpr hdepth), getAttempts_pure hok]
  change (if ¬ (f p.key).ok = true then _ else _) = _
  rw [if_neg (not_not.mpr hok), hparse]

/-- What reading some manifests adds. -/
structure Adds (r : Resolved) (refs : List ChunkRef) (depth : ℕ) (r' : Resolved) : Prop where
  size : r'.size = r.size
  chunk : r'.chunk = r.chunk
  chunks : r'.chunks = r.chunks ++ refs
  depth : r'.depth = depth
  ok : r'.ok = r.ok

/-- **The manifests of a level lead to the level below**, in order and each in its place. -/
theorem readLevel_built {ms : List Manifest} (next : List Pending)
    (hms : ∀ m ∈ ms, m.WellFormed ∧ m.chunk = r.chunk ∧ m.kind = kind ∧
    KeepsBlob f sha (formatManifest m)) (hdeep : 2 ≤ depth) (hdepth : depth ≤ MAX_MANIFEST_DEPTH)
    (hsize : o + totalBytes (ms.flatMap Manifest.entries) < 2 ^ 64) :
    ∃ r', readLevel (fun k => (pure (f k) : Prog σ Q A GetOutcome))
      (childrenOf o depth (ms.map (entryFor sha))) next r =
        pure (.ok (r', next ++ kind.below o (depth + 1) (ms.flatMap Manifest.entries))) ∧
      Adds r (kind.refs o (ms.flatMap Manifest.entries)) (if ms = [] then r.depth
        else max r.depth depth) r' := by
  induction ms generalizing o next r with
  | nil =>
    refine ⟨r, ?_, rfl, rfl, ?_, rfl, rfl⟩
    · cases kind <;> simp [childrenOf, placed, readLevel, ManifestKind.below]
    · cases kind <;> simp [ManifestKind.refs, refsOf, placed]
  | cons m ms ih =>
    rw [List.forall_mem_cons] at hms
    obtain ⟨⟨hm, hchunk, hkind, hkeep⟩, hrest⟩ := hms
    rw [List.flatMap_cons, totalBytes_append] at hsize
    have htotal : totalBytes m.entries = m.size := hm.sum
    have hnext : (o + m.size) % 2 ^ 64 = o + m.size := Nat.mod_eq_of_lt (by omega)
    have hchildren : childrenOf o depth ((m :: ms).map (entryFor sha)) =
        ⟨chunkKey sha (formatManifest m), o, m.size, depth⟩ ::
          childrenOf (o + m.size) depth (ms.map (entryFor sha)) := by
      rw [List.map_cons, childrenOf, placed, List.map_cons, entryFor, hnext]
      rfl
    have htake : r.take ⟨chunkKey sha (formatManifest m), o, m.size, depth⟩ m =
        .ok (Resolved.enter { r with
          manifests := r.manifests + 1
          manifestKeys := r.manifestKeys ++ [chunkKey sha (formatManifest m)] }
            ⟨chunkKey sha (formatManifest m), o, m.size, depth⟩ m) :=
      Resolved.take_child (by dsimp only; omega) rfl hchunk
    rw [enter_eq, hkind] at htake
    dsimp only at htake
    obtain ⟨r', hread, hadds⟩ := @ih (o + m.size) { r with
        manifests := r.manifests + 1
        manifestKeys := r.manifestKeys ++ [chunkKey sha (formatManifest m)]
        depth := max r.depth depth
        chunks := r.chunks ++ kind.refs o m.entries }
          (next ++ kind.below o (depth + 1) m.entries) hrest (by omega)
    refine ⟨r', ?_, ?_⟩
    · rw [hchildren, readLevel, readManifest_pure hm hkeep rfl hdepth, htake]
      change readLevel _ _ _ _ = _
      rw [hread, List.flatMap_cons, below_append (by omega), htotal, List.append_assoc]
    · refine ⟨hadds.size, hadds.chunk, ?_, ?_, hadds.ok⟩
      · rw [hadds.chunks, List.flatMap_cons, refs_append (by omega), htotal, List.append_assoc]
      · rw [hadds.depth, if_neg (List.cons_ne_nil _ _)]
        split
        · rfl
        · exact max_eq_left (le_max_right _ _)

theorem resolveLevels_of_read {get : Str → Prog σ Q A GetOutcome} {ps next : List Pending}
    {r' : Resolved} {more : ℕ} (hne : ps ≠ []) (h : readLevel get ps [] r = pure (.ok (r', next))) :
    resolveLevels get (more + 1) ps r = resolveLevels get more next r' := by
  obtain ⟨p, ps, rfl⟩ := List.exists_cons_of_ne_nil hne
  rw [resolveLevels, h]
  rfl

theorem readLevel_root {chunk : ℕ} (hm : LevelOk kind chunk es) (hlen : es.length ≤ MANIFEST_FANOUT)
    (hkeep : KeepsBlob f sha (formatManifest ⟨totalBytes es, chunk, kind, es⟩)) :
    ∃ r', readLevel (fun k => (pure (f k) : Prog σ Q A GetOutcome))
        [⟨chunkKey sha (formatManifest ⟨totalBytes es, chunk, kind, es⟩), 0, 0, 1⟩] [] {} =
        pure (.ok (r', kind.below 0 2 es)) ∧
      Adds { size := totalBytes es, chunk := chunk } (kind.refs 0 es) 1 r' := by
  generalize hblob : formatManifest ⟨totalBytes es, chunk, kind, es⟩ = blob at hkeep ⊢
  have hread := readManifest_pure (σ := σ) (Q := Q) (A := A) (r := {})
    (p := ⟨chunkKey sha blob, 0, 0, 1⟩)
    (hm.wellFormed hlen) (hblob ▸ hkeep) (by rw [hblob]) (Nat.le_of_ble_eq_true rfl)
  have htake : Resolved.take {} ⟨chunkKey sha blob, 0, 0, 1⟩ ⟨totalBytes es, chunk, kind, es⟩ =
      .ok (⟨false, [], totalBytes es, chunk, kind.refs 0 es, 1, 1, [chunkKey sha blob]⟩,
        kind.below 0 2 es) := by
    rw [Resolved.take_root rfl, enter_eq]
    rfl
  refine ⟨⟨false, [], totalBytes es, chunk, kind.refs 0 es, 1, 1, [chunkKey sha blob]⟩, ?_,
    ⟨rfl, rfl, rfl, rfl, rfl⟩⟩
  rw [readLevel, hread, htake]
  rfl

end reading

/-! ### The whole tree -/

section whole
variable {sha : Sha1} {kind : ManifestKind} {size chunk fanout rounds : ℕ}
  {level : List ManifestEntry}
variable {tree built : ManifestTree}

theorem buildLevels_root (h : level.length ≤ fanout) :
    buildLevels sha size chunk fanout rounds kind level tree =
    ⟨tree.blobs ++ [formatManifest ⟨size, chunk, kind, level⟩],
      chunkKey sha (formatManifest ⟨size, chunk, kind, level⟩), tree.depth + 1⟩ := by
  cases rounds <;> rw [buildLevels, if_pos h]

theorem buildLevels_cut (h : ¬ level.length ≤ fanout) :
    buildLevels sha size chunk fanout (rounds + 1) kind level tree =
      buildLevels sha size chunk fanout rounds .index
        ((manifestsOver chunk fanout kind level).map (entryFor sha))
        { tree with
          blobs := tree.blobs ++ (manifestsOver chunk fanout kind level).map formatManifest
          depth := tree.depth + 1 } := by
  rw [buildLevels, if_neg h]
  rfl

variable (sha size chunk fanout) in
/-- What building upwards makes of a level: one that fits in one manifest is its own root, and any
other is built over by way of the shorter level of its manifests. -/
inductive Built : ManifestKind → List ManifestEntry → ManifestTree → ManifestTree → Prop
  | root {kind : ManifestKind} {level : List ManifestEntry} {tree : ManifestTree}
    (h : level.length ≤ fanout) :
      Built kind level tree ⟨tree.blobs ++ [formatManifest ⟨size, chunk, kind, level⟩],
        chunkKey sha (formatManifest ⟨size, chunk, kind, level⟩), tree.depth + 1⟩
  | cut {kind : ManifestKind} {level : List ManifestEntry} {tree built : ManifestTree}
      (hne : level ≠ [])
      (h : Built .index ((manifestsOver chunk fanout kind level).map (entryFor sha))
        { tree with
          blobs := tree.blobs ++ (manifestsOver chunk fanout kind level).map formatManifest
          depth := tree.depth + 1 } built) :
      Built kind level tree built

theorem built_buildLevels (hn : 2 ≤ fanout) (hrounds : level.length ≤ rounds) :
    Built sha size chunk fanout kind level tree
      (buildLevels sha size chunk fanout rounds kind level tree) := by
  induction rounds generalizing kind level tree with
  | zero =>
    rw [buildLevels_root (by omega)]
    exact .root (by omega)
  | succ rounds ih =>
    by_cases hfits : level.length ≤ fanout
    · rw [buildLevels_root hfits]
      exact .root hfits
    · have hless := length_batches_lt hn (Nat.lt_of_not_le hfits)
      rw [buildLevels_cut hfits]
      refine .cut (fun hnil => hfits (by simp [hnil])) (ih ?_)
      rw [List.length_map, manifestsOver, List.length_map]
      omega

section
variable (hb : Built sha size chunk fanout kind level tree built)
include hb

theorem Built.blobs_subset : tree.blobs ⊆ built.blobs := by
  induction hb with
  | root => exact List.subset_append_left _ _
  | cut _ _ ih => exact fun blob hb => ih (List.mem_append_left _ hb)

theorem Built.validKey_rootKey : validKey built.rootKey = true := by
  induction hb with
  | root => exact validKey_digest sha _
  | cut _ _ ih => exact ih

/-- **Every blob is a manifest of its own.** -/
theorem Built.wellFormed (hn : 0 < fanout) (hf : fanout ≤ MANIFEST_FANOUT)
    (h : LevelOk kind chunk level) (hsize : totalBytes level = size) {blob : Str}
    (hblob : blob ∈ built.blobs) :
    blob ∈ tree.blobs ∨ ∃ m : Manifest, m.WellFormed ∧ blob = formatManifest m := by
  induction hb with
  | root hfits =>
    rw [List.mem_append, List.mem_singleton, ← hsize] at hblob
    exact hblob.imp id fun hblob => ⟨_, h.wellFormed (by omega), hblob⟩
  | cut hne _ ih =>
    obtain ⟨habove, htotal⟩ := h.above sha hn hne
    rcases ih habove (htotal.trans hsize) hblob with hblob | hblob
    · rcases List.mem_append.mp hblob with hblob | hblob
      · exact .inl hblob
      · obtain ⟨m, hm, rfl⟩ := List.mem_map.mp hblob
        exact .inr ⟨m, (h.manifest hn hf hm).1, rfl⟩
    · exact .inr hblob

end

/-- **From the root back to a level.**  What was built over a level is read back to it, in as many
rounds as it has levels. -/
theorem Built.resolveLevels {σ Q : Type} {A : Q → Type} {f : Str → GetOutcome}
    (hb : Built sha size chunk fanout kind level tree built) (hn : 0 < fanout)
    (hf : fanout ≤ MANIFEST_FANOUT) (h : LevelOk kind chunk level) (hsize : totalBytes level = size)
    (hkeep : ∀ b ∈ built.blobs, KeepsBlob f sha b)
    (hdepth : built.depth ≤ tree.depth + MAX_MANIFEST_DEPTH) :
    ∃ n r, built.depth = tree.depth + n ∧ 1 ≤ n ∧
      (∀ more, ChordFs.resolveLevels (fun k => (pure (f k) : Prog σ Q A GetOutcome)) (n + more)
          [⟨built.rootKey, 0, 0, 1⟩] {} =
        ChordFs.resolveLevels (fun k => pure (f k)) more (kind.below 0 (n + 1) level) r) ∧
      Adds { size := size, chunk := chunk } (kind.refs 0 level) n r := by
  induction hb with
  | root hfits =>
    subst hsize
    obtain ⟨r, hread, hadds⟩ := readLevel_root (σ := σ) (Q := Q) (A := A) h (by omega)
      (hkeep _ (List.mem_append_right _ List.mem_cons_self))
    refine ⟨1, r, rfl, le_rfl, fun more => ?_, hadds⟩
    rw [Nat.add_comm 1 more]
    exact resolveLevels_of_read (by simp) hread
  | @cut kind level tree built hne hb ih =>
    obtain ⟨habove, htotal⟩ := h.above sha hn hne
    obtain ⟨n, r, hn', hpos, hresolve, hadds⟩ := ih habove (htotal.trans hsize) hkeep
      (by dsimp only at hdepth ⊢; omega)
    dsimp only at hn' hdepth
    have hms : ∀ m ∈ manifestsOver chunk fanout kind level, m.WellFormed ∧ m.chunk = r.chunk ∧
        m.kind = kind ∧ KeepsBlob f sha (formatManifest m) := fun m hm => by
      obtain ⟨hwell, hmchunk, hmkind⟩ := h.manifest hn hf hm
      refine ⟨hwell, hmchunk.trans hadds.chunk.symm, hmkind, hkeep _ (hb.blobs_subset ?_)⟩
      exact List.mem_append_right _ (List.mem_map_of_mem hm)
    have hsome : manifestsOver chunk fanout kind level ≠ [] := by
      rw [manifestsOver, batches_eq_cons hn hne]
      simp
    have hflat := entries_manifestsOver hn kind chunk level
    obtain ⟨r', hread, hadds'⟩ := readLevel_built (σ := σ) (Q := Q) (A := A) (o := 0) []
      hms (show 2 ≤ n + 1 by omega) (by omega) (by rw [hflat, Nat.zero_add]; exact h.size_lt)
    rw [hflat, List.nil_append] at hread
    rw [hflat, if_neg hsome, hadds.depth] at hadds'
    refine ⟨n + 1, r', by omega, by omega, fun more => ?_, ?_⟩
    · rw [Nat.add_assoc, Nat.add_comm 1 more, hresolve (more + 1)]
      refine resolveLevels_of_read (fun hnil => hsome ?_) hread
      exact List.map_eq_nil_iff.mp (eq_nil_of_childrenOf hnil)
    · rw [max_eq_right (Nat.le_succ n)] at hadds'
      refine ⟨hadds'.size.trans hadds.size, hadds'.chunk.trans hadds.chunk, ?_, hadds'.depth,
        hadds'.ok.trans hadds.ok⟩
      rw [hadds'.chunks, hadds.chunks]
      rfl

theorem length_formatManifest {m : Manifest} (hm : m.WellFormed) :
    (formatManifest m).length ≤ MAX_CHUNK := by
  have hdigits : ∀ {v : ℕ}, v < 2 ^ 64 → (num v).length ≤ 20 := fun {v} hv =>
    (Nat.length_toDigits_le_iff (by decide) (by decide)).mpr (lt_of_lt_of_le hv (by decide))
  have hentries : ∀ {es : List ManifestEntry}, (∀ e ∈ es, validKey e.key = true) →
      totalBytes es < 2 ^ 64 → (terminated (es.map manifestLine)).length ≤ 62 * es.length := by
    intro es hkeys hsize
    induction es with
    | nil => exact Nat.le_refl 0
    | cons e es ih =>
      rw [List.forall_mem_cons] at hkeys
      rw [totalBytes_cons] at hsize
      have hrest := ih hkeys.2 (by omega)
      have hnum := hdigits (v := e.bytes) (by omega)
      have hkey := length_of_validKey hkeys.1
      rw [List.map_cons, terminated_cons, manifestLine]
      simp only [List.length_append, List.length_cons]
      omega
  have hlist := hentries hm.keys (by rw [totalBytes, hm.sum]; exact hm.size_lt)
  have hcount := hm.length_le
  have hchunk := hm.chunk_le
  have hsizeNum := hdigits hm.size_lt
  have hmax : MAX_CHUNK = 524288 := rfl
  have hfanout : MANIFEST_FANOUT = 8192 := rfl
  have hchunkNum := hdigits (v := m.chunk) (by omega)
  have hcountNum := hdigits (v := m.entries.length) (by omega)
  have hkind : (kindName m.kind).length ≤ 5 := by cases m.kind <;> decide
  have h1 : "chordfs-manifest 1".toList.length = 18 := rfl
  have h2 : "size ".toList.length = 5 := rfl
  have h3 : "chunk ".toList.length = 6 := rfl
  have h4 : "kind ".toList.length = 5 := rfl
  have h5 : "entries ".toList.length = 8 := rfl
  rw [formatManifest, terminated_append]
  simp only [terminated_cons, terminated_nil, List.length_append, List.length_cons, List.length_nil,
    h1, h2, h3, h4, h5]
  omega

end whole

/-- Fetching from a fixed set of blobs, each kept under its hash. -/
def getBlob (sha : Sha1) (blobs : List Str) (key : Str) : GetOutcome :=
  match blobs.find? fun b => chunkKey sha b = key with
  | some b => ⟨true, b, []⟩
  | none => ⟨false, [], "no such chunk".toList⟩

/-- `resolve_manifest` with a fetch that is a function. -/
def resolveWith (f : Str → GetOutcome) (rootKey : Str) : Resolved :=
  ((resolveManifest (fun k => (pure (f k) : Prog Unit Empty (fun _ => Unit) GetOutcome))
    rootKey).run (fun q _ => q.elim) () ()).1

theorem keepsBlob_getBlob {sha : Sha1} {blobs : List Str}
    (hcollide : ∀ b ∈ blobs, ∀ b' ∈ blobs, chunkKey sha b = chunkKey sha b' → b = b') {b : Str}
    (hb : b ∈ blobs) : KeepsBlob (getBlob sha blobs) sha b := by
  have hfound : blobs.find? (fun b' => chunkKey sha b' = chunkKey sha b) = some b := by
    cases hfind : blobs.find? fun b' => chunkKey sha b' = chunkKey sha b with
    | none => exact absurd (decide_eq_true rfl) (List.find?_eq_none.mp hfind b hb)
    | some b' =>
      have hkey : chunkKey sha b' = chunkKey sha b := by simpa using List.find?_some hfind
      rw [hcollide b' (List.mem_of_find?_eq_some hfind) b hb hkey]
  rw [KeepsBlob, getBlob, hfound]
  exact ⟨rfl, rfl⟩

theorem refsOf_zero {es : List ManifestEntry} (h : totalBytes es < 2 ^ 64) :
    refsOf 0 es = es.mapIdx fun i e => ⟨e.key, totalBytes (es.take i), e.bytes⟩ := by
  refine List.ext_getElem? fun i => ?_
  rw [refsOf, List.getElem?_map, getElem?_placed (by omega), List.getElem?_mapIdx, Option.map_map]
  cases es[i]? with
  | none => rfl
  | some e => simp

theorem resolveWith_buildManifests {sha : Sha1} {chunks : List ManifestEntry}
    {size chunk fanout : ℕ} {f : Str → GetOutcome} (hlevel : LevelOk .data chunk chunks)
    (hfanout : 2 ≤ fanout ∧ fanout ≤ MANIFEST_FANOUT) (hsize : totalBytes chunks = size)
    (hdepth : (buildManifests sha chunks size chunk fanout).depth ≤ MAX_MANIFEST_DEPTH)
    (hkeep : ∀ b ∈ (buildManifests sha chunks size chunk fanout).blobs, KeepsBlob f sha b) :
    let r := resolveWith f (buildManifests sha chunks size chunk fanout).rootKey
    r.ok = true ∧ r.chunks =
      chunks.mapIdx (fun i e => ⟨e.key, totalBytes (chunks.take i), e.bytes⟩) ∧ r.size = size ∧
        r.chunk = chunk ∧ r.depth = (buildManifests sha chunks size chunk fanout).depth := by
  subst hsize
  have hmax : max 2 (min fanout MANIFEST_FANOUT) = fanout := by omega
  rw [buildManifests, hmax] at hdepth hkeep ⊢
  have hbuilt : Built sha (totalBytes chunks) chunk fanout .data chunks ⟨[], [], 0⟩ _ :=
    built_buildLevels hfanout.1 (le_refl chunks.length)
  generalize buildLevels sha (totalBytes chunks) chunk fanout chunks.length .data chunks
    ⟨[], [], 0⟩ = tree
    at hdepth hkeep hbuilt ⊢
  obtain ⟨n, r, hn, -, hresolve, hadds⟩ :=
    hbuilt.resolveLevels (σ := Unit) (Q := Empty) (A := fun _ => Unit)
    (by omega) hfanout.2 hlevel rfl hkeep (by simpa using hdepth)
  rw [Nat.zero_add] at hn
  have hroot := hbuilt.validKey_rootKey
  have hrounds : MAX_MANIFEST_DEPTH + 1 = n + (MAX_MANIFEST_DEPTH + 1 - n) := by omega
  have hr : resolveWith f tree.rootKey = { r with ok := true } := by
    rw [resolveWith, resolveManifest, if_neg (not_not.mpr hroot), hrounds, hresolve]
    cases MAX_MANIFEST_DEPTH + 1 - n <;> rfl
  intro r'
  have hr' : r' = { r with ok := true } := hr
  rw [hr']
  refine ⟨rfl, ?_, hadds.size, hadds.chunk, hadds.depth.trans hn.symm⟩
  rw [← refsOf_zero hlevel.size_lt]
  exact hadds.chunks

/-- **Building and reading back is the identity.**  For every file cut into full chunks but for the
last, what `build_manifests` makes of its keys, if it has at most four levels, is resolved to the
same keys in the same order, each where those before it end; and every manifest fits in a chunk. -/
theorem build_then_resolve (sha : Sha1) (chunks : List ManifestEntry) (chunk fanout : ℕ)
    (hchunk : 1 ≤ chunk ∧ chunk ≤ MAX_CHUNK) (hfanout : 2 ≤ fanout ∧ fanout ≤ MANIFEST_FANOUT)
    (hkeys : ∀ e ∈ chunks, validKey e.key = true)
    (hfull : ∀ i e, chunks[i]? = some e → if i + 1 = chunks.length then 1 ≤ e.bytes ∧
    e.bytes ≤ chunk else e.bytes = chunk) (hsize : totalBytes chunks < 2 ^ 64) (tree : ManifestTree)
    (htree : tree = buildManifests sha chunks (totalBytes chunks) chunk fanout)
    (hdepth : tree.depth ≤ MAX_MANIFEST_DEPTH)
    (hcollide : ∀ b ∈ tree.blobs, ∀ b' ∈ tree.blobs, chunkKey sha b = chunkKey sha b' → b = b') :
    let r := resolveWith (getBlob sha tree.blobs) tree.rootKey
    r.ok = true ∧ r.chunks = chunks.mapIdx
      (fun i e => ⟨e.key, totalBytes (chunks.take i), e.bytes⟩) ∧
      r.size = totalBytes chunks ∧ r.chunk = chunk ∧ r.depth = tree.depth ∧
      ∀ b ∈ tree.blobs, b.length ≤ MAX_CHUNK := by
  have hlevel : LevelOk .data chunk chunks := by
    refine ⟨hchunk.1, hchunk.2, hkeys, fun i e hi => ?_, nofun, hsize⟩
    have hfit := hfull i e hi
    by_cases hlast : i + 1 = chunks.length <;> simpa [shapeFits, hlast] using hfit
  subst htree
  have hkeep : ∀ b ∈ (buildManifests sha chunks (totalBytes chunks) chunk fanout).blobs,
    KeepsBlob _ sha b :=
    fun b hb => keepsBlob_getBlob hcollide hb
  obtain ⟨hok, hrefs, hrsize, hrchunk, hrdepth⟩ :=
    resolveWith_buildManifests hlevel hfanout rfl hdepth hkeep
  refine ⟨hok, hrefs, hrsize, hrchunk, hrdepth, fun b hb => ?_⟩
  have hmax : max 2 (min fanout MANIFEST_FANOUT) = fanout := by omega
  rw [buildManifests, hmax] at hb
  rcases (built_buildLevels hfanout.1 le_rfl).wellFormed
    (by omega) hfanout.2 hlevel rfl hb with hb | ⟨m, hm, rfl⟩
  · cases hb
  · exact length_formatManifest hm

/-- A file of five bytes in chunks of two. -/
def fiveBytes : List ManifestEntry :=
  [⟨List.replicate 40 '1', 2⟩, ⟨List.replicate 40 '2', 2⟩, ⟨List.replicate 40 '3', 1⟩]

/-- Hashes for its manifests with two entries each. -/
def fiveBytesSha : Sha1 := .ofTable
  [(formatManifest ⟨4, 2, .data, fiveBytes.take 2⟩, List.replicate 40 'a'),
    (formatManifest ⟨1, 2, .data, fiveBytes.drop 2⟩, List.replicate 40 'b'),
    (formatManifest ⟨5, 2, .index, [⟨List.replicate 40 'a', 4⟩, ⟨List.replicate 40 'b', 1⟩]⟩,
      List.replicate 40 'c')]

theorem build_then_resolve_five : let tree := buildManifests fiveBytesSha fiveBytes 5 2 2
    let r := resolveWith (getBlob fiveBytesSha tree.blobs) tree.rootKey
    tree.depth = 2 ∧ r.ok = true ∧
      r.chunks = fiveBytes.mapIdx (fun i e => ⟨e.key, totalBytes (fiveBytes.take i), e.bytes⟩) ∧
      r.size = 5 ∧ r.chunk = 2 ∧ r.depth = tree.depth ∧ ∀ b ∈ tree.blobs, b.length ≤ MAX_CHUNK := by
  have hdepth : (buildManifests fiveBytesSha fiveBytes 5 2 2).depth = 2 := by decide +kernel
  have hcollide : ∀ b ∈ (buildManifests fiveBytesSha fiveBytes 5 2 2).blobs,
      ∀ b' ∈ (buildManifests fiveBytesSha fiveBytes 5 2 2).blobs,
      chunkKey fiveBytesSha b = chunkKey fiveBytesSha b' → b = b' := by decide +kernel
  have hfull : ∀ i e, fiveBytes[i]? = some e →
      if i + 1 = fiveBytes.length then 1 ≤ e.bytes ∧ e.bytes ≤ 2 else e.bytes = 2 := by
    intro i e hi
    match i with
    | 0 | 1 | 2 =>
      cases hi
      decide
    | i + 3 => cases hi
  refine ⟨hdepth, ?_⟩
  exact build_then_resolve fiveBytesSha fiveBytes 2 2 (by decide) (by decide)
    (by decide +kernel) hfull (by decide) _ rfl
    (by rw [hdepth]; decide) hcollide

end ChordFs
