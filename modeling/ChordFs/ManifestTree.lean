import ChordFs.Lib.Tiling
import ChordFs.ManifestText
import Mathlib.Algebra.BigOperators.Ring.List

/-! # Trees of manifests

What `resolve_manifest` returns.  It reads whatever it is given, level by level; if it accepts, the
chunks it lists tile the file, however the tree is shaped (`resolve_sound`).  The invariant of its
loops is that the chunks found and the manifests still to be read tile the file together
(`Frontier`): a manifest that is read is cut up into its entries. -/

namespace ChordFs

open Dialogue Tiling

def ChunkRef.span (c : ChunkRef) : Span := ⟨c.offset, c.bytes⟩

def Pending.span (p : Pending) : Span := ⟨p.offset, p.bytes⟩

/-- The bytes some entries cover. -/
def totalBytes (es : List ManifestEntry) : ℕ := (es.map ManifestEntry.bytes).sum

/-! ### Entries in their places -/

section placed
variable {es : List ManifestEntry} {o i : ℕ} {e : ManifestEntry}

theorem totalBytes_cons : totalBytes (e :: es) = e.bytes + totalBytes es := by
  rw [totalBytes, List.map_cons, List.sum_cons, totalBytes]

theorem totalBytes_append (es' : List ManifestEntry) :
    totalBytes (es ++ es') = totalBytes es + totalBytes es' := by
  rw [totalBytes, List.map_append, List.sum_append, totalBytes, totalBytes]

/-- **Each entry begins where those before it end.** -/
theorem getElem?_placed (h : o + totalBytes es < 2 ^ 64) :
    (placed o es)[i]? = es[i]?.map fun e => (e, o + totalBytes (es.take i)) := by
  induction es generalizing o i with
  | nil => rfl
  | cons e es ih =>
    rw [totalBytes_cons] at h
    rw [placed, Nat.mod_eq_of_lt (by omega)]
    cases i with
    | zero => rfl
    | succ i =>
      rw [List.getElem?_cons_succ, List.getElem?_cons_succ, List.take_succ_cons, totalBytes_cons,
        ih (by omega), Nat.add_assoc]

theorem abut_placed (h : o + totalBytes es < 2 ^ 64) :
    Abut o ((placed o es).map fun p => ⟨p.2, p.1.bytes⟩) (o + totalBytes es) := by
  induction es generalizing o with
  | nil => rfl
  | cons e es ih =>
    rw [totalBytes_cons] at h ⊢
    rw [placed, Nat.mod_eq_of_lt (by omega), List.map_cons, ← Nat.add_assoc]
    exact ⟨rfl, ih (o := o + e.bytes) (by omega)⟩

end placed

namespace Manifest.WellFormed
variable {m : Manifest} (h : m.WellFormed)
include h

variable {i : ℕ} {e : ManifestEntry}

theorem bytes_pos : ∀ e ∈ m.entries, 0 < e.bytes := by
  intro e he
  obtain ⟨i, hi⟩ := List.mem_iff_getElem?.mp he
  cases hkind : m.kind with
  | data =>
    have hshape := h.data hkind i e hi
    have := h.chunk_pos
    split at hshape <;> omega
  | index => exact ((h.index hkind).2 i e hi).1

theorem chunk_dvd (hi : m.entries[i]? = some e) (hlast : i + 1 ≠ m.entries.length) :
    m.chunk ∣ e.bytes := by
  cases hkind : m.kind with
  | data =>
    have hshape := h.data hkind i e hi
    rw [if_neg hlast] at hshape
    rw [hshape]
  | index => exact ((h.index hkind).2 i e hi).2 hlast

theorem chunk_dvd_totalBytes_take (hi : i < m.entries.length) :
    m.chunk ∣ totalBytes (m.entries.take i) := by
  refine List.dvd_sum fun b hb => ?_
  obtain ⟨e, he, rfl⟩ := List.mem_map.mp hb
  obtain ⟨j, hj⟩ := List.mem_iff_getElem?.mp he
  have hlt : j < i := by
    by_contra hge
    rw [List.getElem?_eq_none (by rw [List.length_take]; omega)] at hj
    cases hj
  rw [List.getElem?_take_of_lt hlt] at hj
  exact h.chunk_dvd hj (by omega)

theorem last_ends (hi : m.entries[i]? = some e) (hlast : i + 1 = m.entries.length) :
    totalBytes (m.entries.take i) + e.bytes = m.size := by
  have hcut : m.entries = m.entries.take i ++ [e] := by
    have hlt : i < m.entries.length := by omega
    rw [List.getElem?_eq_getElem hlt, Option.some.injEq] at hi
    have htake := List.take_succ_eq_append_getElem hlt
    rwa [hlast, List.take_length, hi] at htake
  have hsum := h.sum
  rw [← totalBytes, hcut, totalBytes_append] at hsum
  simpa [totalBytes] using hsum

/-- **Whole chunks, except at the end of the manifest**; and there too if the manifest covers whole
chunks. -/
theorem entry_cases (hi : m.entries[i]? = some e) :
    m.chunk ∣ e.bytes ∨
    (totalBytes (m.entries.take i) + e.bytes = m.size ∧ ¬ m.chunk ∣ m.size) := by
  have hlt : i < m.entries.length := (List.getElem?_eq_some_iff.mp hi).1
  by_cases hlast : i + 1 = m.entries.length
  · have hend := h.last_ends hi hlast
    by_cases hsize : m.chunk ∣ m.size
    · rw [← hend] at hsize
      exact .inl ((Nat.dvd_add_right (h.chunk_dvd_totalBytes_take hlt)).mp hsize)
    · exact .inr ⟨hend, hsize⟩
  · exact .inl (h.chunk_dvd hi hlast)

theorem chunk_full (hkind : m.kind = .data) (he : e ∈ m.entries) (hdvd : m.chunk ∣ e.bytes) :
    e.bytes = m.chunk := by
  obtain ⟨i, hi⟩ := List.mem_iff_getElem?.mp he
  have hshape := h.data hkind i e hi
  split at hshape
  · exact Nat.le_antisymm hshape.2 (Nat.le_of_dvd (by omega) hdvd)
  · exact hshape

end Manifest.WellFormed

/-! ### The frontier -/

/-- The chunks of a data manifest that begins at `o`. -/
def refsOf (o : ℕ) (es : List ManifestEntry) : List ChunkRef :=
  (placed o es).map fun q => ⟨q.1.key, q.2, q.1.bytes⟩

/-- The manifests under an index manifest that begins at `o`. -/
def childrenOf (o depth : ℕ) (es : List ManifestEntry) : List Pending :=
  (placed o es).map fun q => ⟨q.1.key, q.2, q.1.bytes, depth⟩

theorem Resolved.enter_data {m : Manifest} (hkind : m.kind = .data) (r : Resolved) (p : Pending) :
    r.enter p m = ({ r with
      depth := max r.depth p.depth
      chunks := r.chunks ++ refsOf p.offset m.entries }, []) := by
  rw [Resolved.enter, hkind]
  rfl

theorem Resolved.enter_index {m : Manifest} (hkind : m.kind = .index) (r : Resolved) (p : Pending) :
    r.enter p m = ({ r with depth := max r.depth p.depth },
      childrenOf p.offset (p.depth + 1) m.entries) := by
  rw [Resolved.enter, hkind]
  rfl

/-- What is known of a tree while it is read, with these manifests still to be read. -/
structure Frontier (r : Resolved) (ps : List Pending) : Prop where
  tiles : Tiles 0 r.size (r.chunks.map ChunkRef.span ++ ps.map Pending.span)
  size_lt : r.size < 2 ^ 64
  nonempty : ∀ c ∈ r.chunks, 0 < c.bytes
  full : ∀ c ∈ r.chunks, c.bytes = r.chunk ∨ c.offset + c.bytes = r.size
  aligned : ∀ p ∈ ps, r.chunk ∣ p.bytes ∨ p.offset + p.bytes = r.size
  depth_le : r.depth ≤ MAX_MANIFEST_DEPTH

section frontier
variable {r r' : Resolved} {p : Pending} {ps more : List Pending} {m : Manifest}

section
variable (h : Frontier r (p :: ps)) (hm : m.WellFormed) (hsize : m.size = p.bytes)
include h hm hsize

theorem Frontier.bytes_lt : p.offset + totalBytes m.entries < 2 ^ 64 := by
  have hstop := (h.tiles.inside (s := p.span) (List.mem_append_right _ List.mem_cons_self)).2
  rw [totalBytes, hm.sum, hsize]
  exact lt_of_le_of_lt hstop h.size_lt

theorem Frontier.entry (hchunk : m.chunk = r.chunk) {e : ManifestEntry} {o : ℕ}
    (he : (e, o) ∈ placed p.offset m.entries) :
    e ∈ m.entries ∧ (r.chunk ∣ e.bytes ∨ o + e.bytes = r.size) := by
  have hlt := h.bytes_lt hm hsize
  obtain ⟨i, hi⟩ := List.mem_iff_getElem?.mp he
  rw [getElem?_placed hlt] at hi
  obtain ⟨e', he', heq⟩ := Option.map_eq_some_iff.mp hi
  cases heq
  refine ⟨List.mem_of_getElem? he', ?_⟩
  rw [← hchunk]
  rcases hm.entry_cases he' with hdvd | ⟨hend, hnot⟩
  · exact .inl hdvd
  · -- the manifest itself ends the file
    refine .inr ?_
    rw [hchunk, hsize] at hnot
    have hfile := (h.aligned p List.mem_cons_self).resolve_left hnot
    omega

/-- **Reading a manifest cuts up its range.** -/
theorem Frontier.enter (hchunk : m.chunk = r.chunk) (hdepth : p.depth ≤ MAX_MANIFEST_DEPTH) :
    Frontier (r.enter p m).1 (ps ++ (r.enter p m).2) := by
  have hlt := h.bytes_lt hm hsize
  have hsub := abut_placed hlt
  have hcut : Tiles 0 r.size (((placed p.offset m.entries).map fun q => ⟨q.2, q.1.bytes⟩) ++
      (r.chunks.map ChunkRef.span ++ ps.map Pending.span)) := by
    refine Tiles.refine (s := p.span) (h.tiles.perm List.perm_middle.symm) ?_
    rw [totalBytes, hm.sum, hsize] at hsub
    exact hsub
  have hdeep : max r.depth p.depth ≤ MAX_MANIFEST_DEPTH := max_le h.depth_le hdepth
  cases hkind : m.kind with
  | data =>
    rw [Resolved.enter_data hkind, List.append_nil]
    refine ⟨?_, h.size_lt, fun c hc => ?_, fun c hc => ?_,
      fun q hq => h.aligned q (List.mem_cons_of_mem _ hq), hdeep⟩
    · refine hcut.perm ?_
      rw [List.map_append, refsOf, List.map_map, List.append_assoc, ← List.append_assoc,
        ← List.append_assoc]
      exact List.perm_append_comm.append_right _
    · rcases List.mem_append.mp hc with hc | hc
      · exact h.nonempty c hc
      · obtain ⟨⟨e, o⟩, he, rfl⟩ := List.mem_map.mp hc
        exact hm.bytes_pos e (h.entry hm hsize hchunk he).1
    · rcases List.mem_append.mp hc with hc | hc
      · exact h.full c hc
      · obtain ⟨⟨e, o⟩, he, rfl⟩ := List.mem_map.mp hc
        obtain ⟨hmem, hcases⟩ := h.entry hm hsize hchunk he
        refine hcases.imp (fun hdvd => ?_) id
        rw [← hchunk] at hdvd ⊢
        exact hm.chunk_full hkind hmem hdvd
  | index =>
    rw [Resolved.enter_index hkind]
    refine ⟨?_, h.size_lt, h.nonempty, h.full, fun q hq => ?_, hdeep⟩
    · refine hcut.perm ?_
      rw [List.map_append, childrenOf, List.map_map, ← List.append_assoc]
      exact List.perm_append_comm
    · rcases List.mem_append.mp hq with hq | hq
      · exact h.aligned q (List.mem_cons_of_mem _ hq)
      · obtain ⟨⟨e, o⟩, he, rfl⟩ := List.mem_map.mp hq
        exact (h.entry hm hsize hchunk he).2

end

theorem Frontier.take (h : Frontier r (p :: ps)) (hdeep : p.depth ≠ 1)
    (hdepth : p.depth ≤ MAX_MANIFEST_DEPTH) (hm : m.WellFormed)
    (htake : r.take p m = .ok (r', more)) : Frontier r' (ps ++ more) := by
  obtain ⟨hroot, -⟩ | ⟨-, hsize, hchunk, heq⟩ | ⟨_, heq⟩ := r.take_cases p m
  · exact absurd hroot hdeep
  · have hcounted : Frontier (r.counted p) (p :: ps) :=
      ⟨h.tiles, h.size_lt, h.nonempty, h.full, h.aligned, h.depth_le⟩
    have henter := hcounted.enter hm hsize hchunk hdepth
    rw [Except.ok.inj (heq.symm.trans htake)] at henter
    exact henter
  · cases heq.symm.trans htake

theorem frontier_root (hm : m.WellFormed) {root : Str} (hdepth : 1 ≤ MAX_MANIFEST_DEPTH)
    (htake : Resolved.take {} ⟨root, 0, 0, 1⟩ m = .ok (r', more)) : Frontier r' more := by
  have hwhole : Frontier { size := m.size, chunk := m.chunk, manifests := 1, manifestKeys := [root] }
      [⟨root, 0, m.size, 1⟩] :=
    ⟨Abut.tiles ⟨rfl, Nat.zero_add _⟩, hm.size_lt, by simp, by simp, by simp, Nat.zero_le _⟩
  have henter := hwhole.enter hm rfl rfl hdepth
  have heq := Except.ok.inj htake
  rw [Resolved.enter] at henter heq
  cases hkind : m.kind with
  | data =>
    rw [hkind] at henter heq
    cases heq
    exact henter
  | index =>
    rw [hkind] at henter heq
    cases heq
    exact henter

theorem enter_of_take (htake : r.take p m = .ok (r', more)) :
    ∃ r₀ : Resolved, r₀.ok = r.ok ∧ r₀.enter p m = (r', more) := by
  obtain ⟨-, heq⟩ | ⟨-, -, -, heq⟩ | ⟨_, heq⟩ := r.take_cases p m
  · exact ⟨_, by rfl, Except.ok.inj (heq.symm.trans htake)⟩
  · exact ⟨_, by rfl, Except.ok.inj (heq.symm.trans htake)⟩
  · cases heq.symm.trans htake

theorem depth_of_take (htake : r.take p m = .ok (r', more)) :
    r'.ok = r.ok ∧ ∀ q ∈ more, q.depth = p.depth + 1 := by
  obtain ⟨r₀, hok, henter⟩ := enter_of_take htake
  cases hkind : m.kind with
  | data =>
    rw [Resolved.enter_data hkind] at henter
    cases henter
    exact ⟨hok, by simp⟩
  | index =>
    rw [Resolved.enter_index hkind] at henter
    cases henter
    refine ⟨hok, fun q hq => ?_⟩
    obtain ⟨e, -, rfl⟩ := List.mem_map.mp hq
    rfl

end frontier

/-! ### Reading with any answers -/

section reading
variable {σ Q : Type} {A : Q → Type} {ε : Type} {get : Str → Prog σ Q A GetOutcome}
variable {env : (q : Q) → ε → A q × ε} {s : σ} {x : ε} {r r' : Resolved} {p : Pending}
variable {ps next more : List Pending}

theorem run_readManifest (h : ((readManifest get p r).run env s x).1 = .ok (r', more)) :
    p.depth ≤ MAX_MANIFEST_DEPTH ∧ ∃ m : Manifest, m.WellFormed ∧ r.take p m = .ok (r', more) := by
  rw [readManifest] at h
  split at h
  · cases h
  rename_i hdepth
  rw [Prog.run_bind] at h
  split at h
  · cases h
  split at h
  · cases h
  · rename_i m hm
    exact ⟨Nat.le_of_not_lt hdepth, m, (of_parseManifest hm).1, h⟩

theorem ok_of_readManifest (hr : r.ok = false)
    (h : ((readManifest get p r).run env s x).1 = .error r') :
    r'.ok = false := by
  rw [readManifest] at h
  split at h
  · cases h
    exact hr
  rw [Prog.run_bind] at h
  split at h
  · cases h
    exact hr
  split at h
  · cases h
    exact hr
  · exact (ok_of_take_error h).trans hr

theorem Frontier.readLevel (h : Frontier r (ps ++ next)) (hdeep : ∀ q ∈ ps ++ next, 2 ≤ q.depth)
    (hr : r.ok = false) (hrun : ((readLevel get ps next r).run env s x).1 = .ok (r', more)) :
    Frontier r' more ∧ (∀ q ∈ more, 2 ≤ q.depth) ∧ r'.ok = false := by
  induction ps generalizing next r s x with
  | nil =>
    cases hrun
    exact ⟨h, hdeep, hr⟩
  | cons p ps ih =>
    rw [ChordFs.readLevel, Prog.run_bind] at hrun
    cases hread : ((readManifest get p r).run env s x).1 with
    | error r₁ =>
      simp only [hread] at hrun
      cases hrun
    | ok q =>
      obtain ⟨r₁, found⟩ := q
      simp only [hread] at hrun
      obtain ⟨hdepth, m, hm, htake⟩ := run_readManifest hread
      obtain ⟨hok, hfound⟩ := depth_of_take htake
      have hp : 2 ≤ p.depth := hdeep p (by simp)
      have hnew := Frontier.take (show Frontier r (p :: (ps ++ next)) from h)
        (by omega) hdepth hm htake
      rw [List.append_assoc] at hnew
      refine ih hnew (fun q hq => ?_) (hok.trans hr) hrun
      rw [← List.append_assoc] at hq
      rcases List.mem_append.mp hq with hq | hq
      · exact hdeep q (List.mem_cons_of_mem _ hq)
      · have := hfound q hq
        omega

theorem undecided_readLevel (hr : r.ok = false) :
    (∀ {r'}, ((readLevel get ps next r).run env s x).1 = .error r' → r'.ok = false) ∧
      ∀ {r' more}, ((readLevel get ps next r).run env s x).1 = .ok (r', more) → r'.ok = false := by
  induction ps generalizing next r s x with
  | nil =>
    refine ⟨(by cases ·), fun h => ?_⟩
    cases h
    exact hr
  | cons p ps ih =>
    rw [readLevel, Prog.run_bind]
    cases hread : ((readManifest get p r).run env s x).1 with
    | error r₁ =>
      refine ⟨fun h => ?_, (by cases ·)⟩
      cases h
      exact ok_of_readManifest hr hread
    | ok q =>
      obtain ⟨-, m, -, htake⟩ := run_readManifest hread
      exact ih ((depth_of_take htake).1.trans hr)

/-- **What is accepted has nothing left to read.** -/
theorem Frontier.resolveLevels {rounds : ℕ} (h : Frontier r ps) (hdeep : ∀ q ∈ ps, 2 ≤ q.depth)
    (hr : r.ok = false) (hok : ((resolveLevels get rounds ps r).run env s x).1.ok = true) :
    Frontier ((resolveLevels get rounds ps r).run env s x).1 [] := by
  induction rounds generalizing ps r s x with
  | zero =>
    cases ps with
    | nil => exact ⟨h.tiles, h.size_lt, h.nonempty, h.full, h.aligned, h.depth_le⟩
    | cons p ps =>
      have : r.ok = true := hok
      rw [hr] at this
      cases this
  | succ rounds ih =>
    cases ps with
    | nil => exact ⟨h.tiles, h.size_lt, h.nonempty, h.full, h.aligned, h.depth_le⟩
    | cons p ps =>
      rw [ChordFs.resolveLevels, Prog.run_bind] at hok ⊢
      cases hread : ((ChordFs.readLevel get (p :: ps) [] r).run env s x).1 with
      | error r₁ =>
        simp only [hread] at hok
        have hbad : r₁.ok = true := hok
        rw [(undecided_readLevel hr).1 hread] at hbad
        cases hbad
      | ok q =>
        obtain ⟨r₁, more⟩ := q
        simp only [hread] at hok ⊢
        have hnil : Frontier r (p :: ps ++ []) := by
          rw [List.append_nil]
          exact h
        obtain ⟨hnew, hbelow, hok₁⟩ := hnil.readLevel (by simpa using hdeep) hr hread
        exact ih hnew hbelow hok₁ hok

theorem frontier_resolveManifest {root : Str}
    (hok : ((resolveManifest get root).run env s x).1.ok = true) :
    Frontier ((resolveManifest get root).run env s x).1 [] := by
  rw [resolveManifest] at hok ⊢
  split at hok
  · cases hok
  rename_i hkey
  rw [if_neg hkey]
  rw [ChordFs.resolveLevels, Prog.run_bind] at hok ⊢
  -- the root is read first: it says how large the file is
  cases hread : ((readLevel get [⟨root, 0, 0, 1⟩] [] {}).run env s x).1 with
  | error r₁ =>
    simp only [hread] at hok
    have hbad : r₁.ok = true := hok
    rw [(undecided_readLevel rfl).1 hread] at hbad
    cases hbad
  | ok q =>
    obtain ⟨r₁, more⟩ := q
    simp only [hread] at hok ⊢
    rw [readLevel, Prog.run_bind] at hread
    cases hroot : ((readManifest get ⟨root, 0, 0, 1⟩ {}).run env s x).1 with
    | error r₂ =>
      simp only [hroot] at hread
      cases hread
    | ok q =>
      obtain ⟨r₂, found⟩ := q
      simp only [hroot] at hread
      cases hread
      obtain ⟨hdepth, m, hm, htake⟩ := run_readManifest hroot
      obtain ⟨hr, hfound⟩ := depth_of_take htake
      refine (frontier_root hm hdepth htake).resolveLevels (fun q hq => ?_) hr hok
      exact (hfound q hq).ge

/-- **Whatever is read, what is accepted is a tiling.**  With any answers to its requests, a tree
that `resolve_manifest` accepts has chunks that are not empty, do not overlap, cover the file, and
are full except where the file ends; and nothing deeper than four levels was read. -/
theorem resolve_sound (get : Str → Prog σ Q A GetOutcome) (env : (q : Q) → ε → A q × ε) (s : σ)
    (x : ε) (root : Str) (hok : ((resolveManifest get root).run env s x).1.ok = true) :
    let r := ((resolveManifest get root).run env s x).1
    (∀ c ∈ r.chunks, 0 < c.bytes ∧ c.offset + c.bytes ≤ r.size) ∧ r.size < 2 ^ 64 ∧
    (r.chunks.Pairwise fun a b => a.offset + a.bytes ≤ b.offset ∨ b.offset + b.bytes ≤ a.offset) ∧
    (∀ i < r.size, ∃ c ∈ r.chunks, c.offset ≤ i ∧ i < c.offset + c.bytes) ∧
    (∀ c ∈ r.chunks, c.offset + c.bytes ≠ r.size → c.bytes = r.chunk) ∧
      r.depth ≤ MAX_MANIFEST_DEPTH := by
  have h := frontier_resolveManifest hok
  have htiles := h.tiles
  rw [List.map_nil, List.append_nil] at htiles
  refine ⟨fun c hc => ⟨h.nonempty c hc, (htiles.inside (List.mem_map_of_mem hc)).2⟩, h.size_lt,
    List.pairwise_map.mp htiles.disjoint, fun i hi => ?_,
      fun c hc hne => (h.full c hc).resolve_right hne,
    h.depth_le⟩
  obtain ⟨t, ht, hin⟩ := htiles.cover (Nat.zero_le i) hi
  obtain ⟨c, hc, rfl⟩ := List.mem_map.mp ht
  exact ⟨c, hc, hin⟩

end reading

/-- Manifests of seven bytes in chunks of two.  The first half of the file lies one level deeper
than the second. -/
def unevenTree : List (Str × Str) :=
  [(List.replicate 40 'a',
    formatManifest ⟨7, 2, .index, [⟨List.replicate 40 'b', 4⟩, ⟨List.replicate 40 'c', 3⟩]⟩),
    (List.replicate 40 'b', formatManifest ⟨4, 2, .index, [⟨List.replicate 40 'd', 4⟩]⟩),
    (List.replicate 40 'c',
      formatManifest ⟨3, 2, .data, [⟨List.replicate 40 '3', 2⟩, ⟨List.replicate 40 '4', 1⟩]⟩),
    (List.replicate 40 'd',
      formatManifest ⟨4, 2, .data, [⟨List.replicate 40 '1', 2⟩, ⟨List.replicate 40 '2', 2⟩]⟩)]

/-- What is under a key, found at the second try: the state counts the calls. -/
def secondTry (key : Str) (calls : ℕ) : GetOutcome × ℕ :=
  match calls % 2, unevenTree.lookup key with
  | 1, some text => (⟨true, text, []⟩, calls + 1)
  | _, _ => (⟨false, [], "busy".toList⟩, calls + 1)

theorem resolve_sound_uneven :
    let r := ((resolveManifest
      (fun k => (Prog.ask k : Prog Unit Str (fun _ => GetOutcome) GetOutcome))
      (List.replicate 40 'a')).run secondTry () 0).1
    r.ok = true ∧ r.chunks.map ChunkRef.offset = [4, 6, 0, 2] ∧
    (∀ c ∈ r.chunks, 0 < c.bytes ∧ c.offset + c.bytes ≤ r.size) ∧ r.size < 2 ^ 64 ∧
    (r.chunks.Pairwise fun a b => a.offset + a.bytes ≤ b.offset ∨ b.offset + b.bytes ≤ a.offset) ∧
    (∀ i < r.size, ∃ c ∈ r.chunks, c.offset ≤ i ∧ i < c.offset + c.bytes) ∧
    (∀ c ∈ r.chunks, c.offset + c.bytes ≠ r.size → c.bytes = r.chunk) ∧
      r.depth ≤ MAX_MANIFEST_DEPTH := by
  have hok : ((resolveManifest
    (fun k => (Prog.ask k : Prog Unit Str (fun _ => GetOutcome) GetOutcome))
      (List.replicate 40 'a')).run secondTry () 0).1.ok = true := by decide +kernel
  exact ⟨hok, by decide +kernel, resolve_sound _ _ _ _ _ hok⟩

end ChordFs
