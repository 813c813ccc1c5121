import ChordFs.Manifest
import ChordFs.Names

/-! # The grammar of manifests

`parse_manifest` accepts what `format_manifest` writes for a well-formed manifest, and no other
text: there is one spelling of each number and each line, and the shape rules leave out nothing
(`manifest_grammar`). -/

namespace ChordFs

open Text

/-- A manifest a file can have. -/
structure Manifest.WellFormed (m : Manifest) : Prop where
  chunk_pos : 1 ≤ m.chunk
  chunk_le : m.chunk ≤ MAX_CHUNK
  length_le : m.entries.length ≤ MANIFEST_FANOUT
  keys : ∀ e ∈ m.entries, validKey e.key = true
  sum : (m.entries.map ManifestEntry.bytes).sum = m.size
  size_lt : m.size < 2 ^ 64
  /-- Chunks are full except the last. -/
  data : m.kind = .data → ∀ i e, m.entries[i]? = some e →
    if i + 1 = m.entries.length then 1 ≤ e.bytes ∧ e.bytes ≤ m.chunk else e.bytes = m.chunk
  /-- There are manifests below, none of them empty, and they cover whole chunks except the last. -/
  index : m.kind = .index → m.entries ≠ [] ∧ ∀ i e, m.entries[i]? = some e →
    1 ≤ e.bytes ∧ (i + 1 ≠ m.entries.length → m.chunk ∣ e.bytes)

/-! ### Numbers -/

namespace Transfer

theorem pushDigit_eq_some {v w : ℕ} {c : Char} : pushDigit v c = some w ↔
    c.isDigit = true ∧ w = 10 * v + (c.toNat - '0'.toNat) ∧ w ≤ U64_MAX := by
  unfold pushDigit
  by_cases hc : c.isDigit = true
  · have hd := (digitChar_toNat hc).1
    have hz : '0'.toNat = 48 := rfl
    have hmax : U64_MAX = 18446744073709551615 := rfl
    rw [if_neg (not_not.mpr hc)]
    dsimp only
    rw [hz, hmax]
    split
    · simp only [reduceCtorEq, false_iff, not_and]
      omega
    · simp only [Option.some.injEq, hc, true_and]
      omega
  · simp [hc]

theorem le_ofDigitChars (s : Str) (v : ℕ) : v ≤ Nat.ofDigitChars 10 s v := by
  induction s generalizing v with
  | nil => exact Nat.le_refl v
  | cons c s ih =>
    rw [Nat.ofDigitChars_cons]
    have := ih (10 * v + (c.toNat - '0'.toNat))
    omega

theorem foldlM_pushDigit {s : Str} {v w : ℕ} : s.foldlM pushDigit v = some w ↔
    (∀ c ∈ s, c.isDigit = true) ∧ w = Nat.ofDigitChars 10 s v ∧ (s ≠ [] → w ≤ U64_MAX) := by
  induction s generalizing v with
  | nil =>
    rw [List.foldlM_nil, Nat.ofDigitChars_nil]
    constructor
    · intro h
      cases h
      simp
    · rintro ⟨-, rfl, -⟩
      rfl
  | cons c s ih =>
    rw [List.foldlM_cons, Option.bind_eq_bind, Option.bind_eq_some_iff, Nat.ofDigitChars_cons]
    constructor
    · rintro ⟨u, hu, hw⟩
      obtain ⟨hc, rfl, hle⟩ := pushDigit_eq_some.mp hu
      obtain ⟨hs, rfl, hmax⟩ := ih.mp hw
      refine ⟨by simpa [hc] using hs, rfl, fun _ => ?_⟩
      rcases eq_or_ne s [] with rfl | hne
      · exact hle
      · exact hmax hne
    · rintro ⟨hs, rfl, hmax⟩
      rw [List.forall_mem_cons] at hs
      refine ⟨_, pushDigit_eq_some.mpr ⟨hs.1, rfl, ?_⟩, ih.mpr ⟨hs.2, rfl, fun _ => hmax (by simp)⟩⟩
      exact le_trans (le_ofDigitChars s _) (hmax (by simp))

/-- **`parse_u64` reads back what `to_string` writes, and nothing else.** -/
theorem parseU64_eq_some {s : Str} {v : ℕ} : parseU64 s = some v ↔ s = num v ∧ v ≤ U64_MAX := by
  constructor
  · intro h
    rw [parseU64] at h
    split at h
    · cases h
    split at h
    · cases h
    rename_i h1 h2
    obtain ⟨hdigit, rfl, hmax⟩ := foldlM_pushDigit.mp h
    have hne : s ≠ [] := fun h => h1 (.inl h)
    have hdec : IsDecimal s := ⟨hne, hdigit, fun hl hh => h2 ⟨hl, hh⟩⟩
    exact ⟨(toDigits_ofDigitChars hdec).symm, hmax hne⟩
  · rintro ⟨rfl, hmax⟩
    have hdec := isDecimal_toDigits v
    have hlen : (num v).length ≤ 20 :=
      (Nat.length_toDigits_le_iff (by decide) (by decide)).mpr (lt_of_le_of_lt hmax (by decide))
    rw [parseU64, if_neg, if_neg, foldlM_pushDigit]
    · exact ⟨hdec.digit, Nat.ofDigitChars_ten_toDigits.symm, fun _ => hmax⟩
    · exact fun h => hdec.canonical h.1 h.2
    · rintro (h | h)
      · exact hdec.ne_nil h
      · omega

theorem headerNumber_eq_some {line name : Str} {v : ℕ} :
    headerNumber line name = some v ↔ line = name ++ ' ' :: num v ∧ v ≤ U64_MAX := by
  have hlen : (name ++ [' ']).length = name.length + 1 := by simp
  rw [headerNumber]
  constructor
  · intro h
    split at h
    · cases h
    rename_i hname
    rw [not_not] at hname
    obtain ⟨hnum, hmax⟩ := parseU64_eq_some.mp h
    refine ⟨?_, hmax⟩
    rw [← List.take_append_drop (name.length + 1) line, hname, hnum, List.append_assoc]
    rfl
  · rintro ⟨rfl, hmax⟩
    have hsplit : name ++ ' ' :: num v = (name ++ [' ']) ++ num v := by simp
    rw [hsplit, ← hlen, List.take_left, List.drop_left, if_neg (not_not.mpr rfl)]
    exact parseU64_eq_some.mpr ⟨rfl, hmax⟩

end Transfer

/-! ### Entries -/

variable {ls : List Str} {i sum : ℕ} {es : List ManifestEntry} {kind : ManifestKind} {m : Manifest}

theorem parseManifestEntry_eq_some {l : Str} {e : ManifestEntry} : parseManifestEntry l = some e ↔
    l = manifestLine e ∧ validKey e.key = true ∧ e.bytes ≤ U64_MAX := by
  constructor
  · intro h
    rw [parseManifestEntry] at h
    split at h
    · cases h
    rename_i hguard
    simp only [not_or, not_not, Nat.not_lt] at hguard
    obtain ⟨hlen, hspace, hkey⟩ := hguard
    obtain ⟨bytes, hbytes, rfl⟩ := Option.map_eq_some_iff.mp h
    obtain ⟨hnum, hmax⟩ := Transfer.parseU64_eq_some.mp hbytes
    refine ⟨?_, hkey, hmax⟩
    have hcut : l.drop 40 = ' ' :: l.drop 41 := by
      rw [List.drop_eq_getElem_cons (by omega), ← hspace, List.getD_eq_getElem?_getD,
        List.getElem?_eq_getElem (by omega), Option.getD_some]
    rw [manifestLine, ← hnum, ← hcut, List.take_append_drop]
  · rintro ⟨rfl, hkey, hmax⟩
    have hlen := length_of_validKey hkey
    have hpos := List.length_pos_of_ne_nil (num_ne_nil e.bytes)
    have htake : (manifestLine e).take 40 = e.key := by rw [manifestLine, ← hlen, List.take_left]
    have hdrop : (manifestLine e).drop 41 = num e.bytes := by
      have hsplit : manifestLine e = (e.key ++ [' ']) ++ num e.bytes := by simp [manifestLine]
      have hlen' : (e.key ++ [' ']).length = 41 := by simp [hlen]
      rw [hsplit, ← hlen', List.drop_left]
    have hspace : (manifestLine e).getD 40 '\x00' = ' ' := by
      rw [manifestLine, ← hlen]
      simp
    have hlong : ¬ (manifestLine e).length < 42 := by
      rw [manifestLine, List.length_append, List.length_cons]
      omega
    rw [parseManifestEntry, htake, hdrop, hspace, if_neg (by simp [hlong, hkey]),
      Transfer.parseU64_eq_some.mpr ⟨rfl, hmax⟩]
    rfl

theorem parseManifestEntries_eq_ok {total : ℕ} (hsum : sum ≤ U64_MAX) :
    parseManifestEntries i sum ls = .ok (es, total) ↔
    ls = es.map manifestLine ∧ (∀ e ∈ es, validKey e.key = true) ∧
      total = sum + (es.map ManifestEntry.bytes).sum ∧ total ≤ U64_MAX := by
  induction ls generalizing i sum total es with
  | nil =>
    rw [parseManifestEntries]
    constructor
    · intro h
      cases h
      simp [hsum]
    · rintro ⟨hes, -, rfl, -⟩
      rw [List.map_eq_nil_iff.mp hes.symm]
      simp
  | cons l ls ih =>
    rw [parseManifestEntries]
    constructor
    · intro h
      split at h
      · cases h
      rename_i e he
      obtain ⟨rfl, hkey, hmax⟩ := parseManifestEntry_eq_some.mp he
      split at h
      · cases h
      rename_i hfits
      cases hrest : parseManifestEntries (i + 1) (sum + e.bytes) ls with
      | error why =>
        rw [hrest] at h
        cases h
      | ok p =>
        rw [hrest] at h
        cases h
        obtain ⟨rfl, hkeys, htotal, hle⟩ := (ih (by omega)).mp hrest
        refine ⟨rfl, by simpa [hkey] using hkeys, ?_, hle⟩
        rw [htotal, List.map_cons, List.sum_cons]
        omega
    · rintro ⟨hls, hkeys, rfl, hle⟩
      cases es with
      | nil => cases hls
      | cons e es =>
        rw [List.map_cons, List.cons.injEq] at hls
        obtain ⟨rfl, rfl⟩ := hls
        rw [List.forall_mem_cons] at hkeys
        rw [List.map_cons, List.sum_cons] at hle ⊢
        have he := parseManifestEntry_eq_some.mpr ⟨rfl, hkeys.1, show e.bytes ≤ U64_MAX by omega⟩
        have hrest := (@ih (i + 1) (sum + e.bytes) es _ (by omega)).mpr
          ⟨rfl, hkeys.2, rfl, by omega⟩
        rw [he]
        dsimp only
        rw [if_neg (by omega), hrest, Nat.add_assoc]
        rfl

/-! ### Shapes -/

theorem misfit_eq_none {chunk : ℕ} : misfit kind chunk i es = none ↔
      ∀ j e, es[j]? = some e → shapeFits kind chunk (j + 1 = es.length) e.bytes = true := by
  induction es generalizing i with
  | nil => simp [misfit]
  | cons e es ih =>
    have hlast : es.isEmpty = decide (0 + 1 = (e :: es).length) := by
      cases es <;> simp
    rw [misfit, hlast]
    constructor
    · intro h
      split at h
      · rename_i hfits
        intro j e' hj
        cases j with
        | zero =>
          cases hj
          exact hfits
        | succ j =>
          have := ih.mp h j e' hj
          simpa using this
      · cases h
    · intro h
      rw [if_pos (h 0 e rfl)]
      refine ih.mpr fun j e' hj => ?_
      have := h (j + 1) e' hj
      simpa using this

theorem checkManifest_eq_ok {m' : Manifest} : checkManifest m sum = .ok m' ↔ m' = m ∧ sum = m.size ∧
      (∀ j e, m.entries[j]? = some e → shapeFits m.kind m.chunk (j + 1 = m.entries.length) e.bytes = true) ∧
      ¬ (m.kind = .index ∧ m.entries = []) := by
  rw [checkManifest, ← misfit_eq_none (i := 0)]
  by_cases hsum : sum = m.size
  · rw [if_neg (not_not.mpr hsum)]
    cases hfit : misfit m.kind m.chunk 0 m.entries with
    | some i => simp
    | none =>
      dsimp only
      by_cases hempty : m.kind = .index ∧ m.entries = []
      · rw [if_pos hempty]
        simp [hempty]
      · rw [if_neg hempty]
        simp only [Except.ok.injEq, hsum, hempty, not_false_eq_true, and_true]
        exact eq_comm
  · rw [if_pos hsum]
    simp [hsum]

/-- What is checked of a manifest apart from the number of its entries. -/
abbrev Manifest.Consistent (m : Manifest) : Prop :=
  (m.chunk ≠ 0 ∧ m.chunk ≤ MAX_CHUNK) ∧ (∀ e ∈ m.entries, validKey e.key = true) ∧
    (m.entries.map ManifestEntry.bytes).sum = m.size ∧ m.size ≤ U64_MAX ∧
    (∀ j e, m.entries[j]? = some e →
      shapeFits m.kind m.chunk (j + 1 = m.entries.length) e.bytes = true) ∧
    ¬ (m.kind = .index ∧ m.entries = [])

theorem Manifest.wellFormed_iff (m : Manifest) :
    m.WellFormed ↔ m.entries.length ≤ MANIFEST_FANOUT ∧ m.Consistent := by
  have hmax : U64_MAX = 2 ^ 64 - 1 := rfl
  constructor
  · intro h
    have := h.chunk_pos
    have := h.size_lt
    refine ⟨h.length_le, ⟨by omega, h.chunk_le⟩, h.keys, h.sum, by omega, fun j e hj => ?_, fun hempty => ?_⟩
    · cases hkind : m.kind with
      | data =>
        have hdata := h.data hkind j e hj
        by_cases hlast : j + 1 = m.entries.length <;> simpa [shapeFits, hlast] using hdata
      | index =>
        have hindex := (h.index hkind).2 j e hj
        by_cases hlast : j + 1 = m.entries.length
        · simpa [shapeFits, hlast] using hindex
        · simpa [shapeFits, hlast, Nat.dvd_iff_mod_eq_zero] using hindex
    · exact (h.index hempty.1).1 hempty.2
  · rintro ⟨hlen, hchunk, hkeys, hsum, hsize, hfits, hempty⟩
    refine ⟨by omega, hchunk.2, hlen, hkeys, hsum, by omega, fun hkind j e hj => ?_, fun hkind => ⟨?_, fun j e hj => ?_⟩⟩
    · have hfit := hfits j e hj
      rw [hkind] at hfit
      by_cases hlast : j + 1 = m.entries.length <;> simpa [shapeFits, hlast] using hfit
    · exact fun h => hempty ⟨hkind, h⟩
    · have hfit := hfits j e hj
      rw [hkind] at hfit
      by_cases hlast : j + 1 = m.entries.length
      · simpa [shapeFits, hlast] using hfit
      · simpa [shapeFits, hlast, Nat.dvd_iff_mod_eq_zero] using hfit

/-! ### Lines -/

/-- The lines of a manifest. -/
def manifestLines (m : Manifest) : List Str :=
  ["chordfs-manifest 1".toList, "size ".toList ++ num m.size, "chunk ".toList ++ num m.chunk,
    "kind ".toList ++ kindName m.kind, "entries ".toList ++ num m.entries.length] ++ m.entries.map manifestLine

theorem formatManifest_eq (m : Manifest) : formatManifest m = terminated (manifestLines m) := rfl

theorem length_manifestLines (m : Manifest) : (manifestLines m).length = m.entries.length + 5 := by
  rw [manifestLines, List.length_append, List.length_map, Nat.add_comm]
  rfl

theorem parseKind_eq_some {line : Str} :
    parseKind line = some kind ↔ line = "kind ".toList ++ kindName kind := by
  have hdata : "kind ".toList ++ kindName .data = "kind data".toList := rfl
  have hindex : "kind ".toList ++ kindName .index = "kind index".toList := rfl
  have hne : "kind index".toList ≠ "kind data".toList := by decide
  rw [parseKind]
  constructor
  · intro h
    split at h
    · cases h
      rw [hdata]
      assumption
    split at h
    · cases h
      rw [hindex]
      assumption
    · cases h
  · rintro rfl
    cases kind with
    | data => rw [hdata, if_pos rfl]
    | index => rw [hindex, if_neg hne, if_pos rfl]

/-- **A manifest is accepted with its own lines only.** -/
theorem parseLines_eq_ok : parseLines ls = .ok m ↔
    ls = manifestLines m ∧ m.entries.length ≤ U64_MAX ∧ m.Consistent := by
  constructor
  · intro h
    unfold parseLines at h
    split at h
    · rename_i first sizeLine chunkLine kindLine entriesLine rest
      split at h
      · cases h
      rename_i hfirst
      rw [not_not] at hfirst
      split at h
      · cases h
      rename_i size hsize
      split at h
      · cases h
      rename_i chunk hchunk
      split at h
      · cases h
      rename_i kind hkind
      split at h
      · cases h
      rename_i hcount
      rw [not_not] at hcount
      split at h
      · cases h
      rename_i entries sum hentries
      obtain ⟨rfl, hsum, hfits, hempty⟩ := checkManifest_eq_ok.mp h
      obtain ⟨rfl, hsizeMax⟩ := Transfer.headerNumber_eq_some.mp hsize
      obtain ⟨hchunk, hrange⟩ := Option.filter_eq_some_iff.mp hchunk
      obtain ⟨rfl, -⟩ := Transfer.headerNumber_eq_some.mp hchunk
      obtain ⟨rfl, hlen⟩ := Transfer.headerNumber_eq_some.mp hcount
      obtain ⟨rfl, hkeys, htotal, -⟩ := (parseManifestEntries_eq_ok (Nat.zero_le _)).mp hentries
      rw [Nat.zero_add] at htotal
      rw [List.length_map] at hlen
      refine ⟨?_, hlen, of_decide_eq_true hrange, hkeys, htotal.symm.trans hsum, hsizeMax, hfits, hempty⟩
      rw [hfirst, parseKind_eq_some.mp hkind, List.length_map]
      rfl
    · cases h
  · rintro ⟨rfl, hlen, hrange, hkeys, hsum, hsizeMax, hfits, hempty⟩
    have hsize : Transfer.headerNumber ("size ".toList ++ num m.size) "size".toList = some m.size :=
      Transfer.headerNumber_eq_some.mpr ⟨rfl, hsizeMax⟩
    have hchunk : Transfer.headerNumber ("chunk ".toList ++ num m.chunk) "chunk".toList = some m.chunk :=
      Transfer.headerNumber_eq_some.mpr ⟨rfl, le_trans hrange.2 (by decide)⟩
    have hkind := parseKind_eq_some.mpr (Eq.refl ("kind ".toList ++ kindName m.kind))
    have hcount : Transfer.headerNumber ("entries ".toList ++ num m.entries.length) "entries".toList =
        some (m.entries.map manifestLine).length := by
      rw [List.length_map]
      exact Transfer.headerNumber_eq_some.mpr ⟨rfl, hlen⟩
    have hentries := (parseManifestEntries_eq_ok (i := 5) (Nat.zero_le U64_MAX)).mpr
      ⟨rfl, hkeys, (Nat.zero_add _).symm, hsum.le.trans hsizeMax⟩
    have hcheck := checkManifest_eq_ok.mpr ⟨rfl, hsum, hfits, hempty⟩
    rw [manifestLines, List.cons_append, List.cons_append, List.cons_append, List.cons_append, List.cons_append,
      List.nil_append, parseLines, if_neg (not_not.mpr rfl), hsize]
    dsimp only
    rw [hchunk, Option.filter_some, if_pos (decide_eq_true hrange)]
    dsimp only
    rw [hkind]
    dsimp only
    rw [if_neg (not_not.mpr hcount), hentries]
    exact hcheck

/-! ### Texts -/

theorem count_newline_terminated (h : ∀ l ∈ ls, '\n' ∉ l) : (terminated ls).count '\n' = ls.length := by
  induction ls with
  | nil => rfl
  | cons l ls ih =>
    rw [List.forall_mem_cons] at h
    rw [terminated_cons, List.count_append, List.count_cons_self, ih h.2, List.count_eq_zero.mpr h.1,
      List.length_cons, Nat.zero_add]

theorem terminated_of_getLast? {t : Str} (h : t.getLast? = some '\n') :
    t = terminated (completeLines t) ∧ ∀ l ∈ completeLines t, '\n' ∉ l := by
  obtain ⟨ls, r, ht, hs, hl, hr⟩ := eq_terminated_append t
  have hlines : completeLines t = ls := by simp [completeLines, hs]
  have hnil : r = [] := by
    by_contra hne
    rw [ht, List.getLast?_append_of_ne_nil _ hne] at h
    exact hr (List.mem_of_getLast? h)
  rw [hlines]
  subst hnil
  exact ⟨by simpa using ht, hl⟩

theorem getLast?_terminated (h : ls ≠ []) : (terminated ls).getLast? = some '\n' := by
  obtain ⟨front, l, rfl⟩ := (List.eq_nil_or_concat ls).resolve_left h
  simp

theorem newline_not_mem_manifestLines (h : ∀ e ∈ m.entries, validKey e.key = true) :
    ∀ l ∈ manifestLines m, '\n' ∉ l := by
  have hnum : ∀ v, '\n' ∉ num v := not_mem_num (by decide)
  have hhead : ∀ {t : Str} (v : ℕ), '\n' ∉ t → '\n' ∉ t ++ num v := fun v ht hmem =>
    (List.mem_append.mp hmem).elim ht (hnum v)
  intro l hl
  rw [manifestLines, List.mem_append] at hl
  rcases hl with hl | hl
  · simp only [List.mem_cons, List.not_mem_nil, or_false] at hl
    rcases hl with rfl | rfl | rfl | rfl | rfl
    · decide
    · exact hhead _ (by decide)
    · exact hhead _ (by decide)
    · cases m.kind <;> decide
    · exact hhead _ (by decide)
  · obtain ⟨e, he, rfl⟩ := List.mem_map.mp hl
    have hkey : '\n' ∉ e.key := not_mem_of_hex (by decide) fun _ hc => validKey_char (h e he) hc
    simp [manifestLine, hkey, hnum]

/-- What is accepted is well formed, and spelled as `format_manifest` spells it. -/
theorem of_parseManifest {text : Str} (h : parseManifest text = .ok m) :
    m.WellFormed ∧ text = formatManifest m := by
  rw [parseManifest] at h
  split at h
  · cases h
  split at h
  · cases h
  rename_i hend
  rw [not_not] at hend
  split at h
  · cases h
  split at h
  · cases h
  rename_i hfanout
  obtain ⟨htext, hlines⟩ := terminated_of_getLast? hend
  obtain ⟨hls, -, hrest⟩ := parseLines_eq_ok.mp h
  rw [htext, count_newline_terminated hlines, hls, length_manifestLines] at hfanout
  refine ⟨(Manifest.wellFormed_iff m).mpr ⟨by omega, hrest⟩, ?_⟩
  rw [formatManifest_eq, ← hls]
  exact htext

theorem parseManifest_formatManifest (h : m.WellFormed) : parseManifest (formatManifest m) = .ok m := by
  obtain ⟨hlen, hrest⟩ := (Manifest.wellFormed_iff m).mp h
  have hlines := newline_not_mem_manifestLines hrest.2.1
  have hcount : (formatManifest m).count '\n' = m.entries.length + 5 := by
    rw [formatManifest_eq, count_newline_terminated hlines, length_manifestLines]
  have hsplit : completeLines (formatManifest m) = manifestLines m := by
    have happ := completeLines_terminated_append hlines []
    rw [List.append_nil] at happ
    rw [formatManifest_eq, happ]
    simp [completeLines]
  have hfirst : (formatManifest m).take 19 = "chordfs-manifest 1\n".toList := rfl
  have hend : (formatManifest m).getLast? = some '\n' := getLast?_terminated (by simp)
  rw [parseManifest, if_neg (not_not.mpr hfirst), if_neg (not_not.mpr hend), hcount, if_neg (by omega),
    if_neg (by omega), hsplit]
  exact parseLines_eq_ok.mpr ⟨rfl, le_trans hlen (by decide), hrest⟩

/-- **The grammar of manifests.**  A text is accepted as the manifest `m` just if `m` is well formed
and the text is the one `format_manifest` writes for it. -/
theorem manifest_grammar (text : Str) (m : Manifest) :
    parseManifest text = .ok m ↔ m.WellFormed ∧ text = formatManifest m := by
  refine ⟨of_parseManifest, ?_⟩
  rintro ⟨hm, rfl⟩
  exact parseManifest_formatManifest hm

end ChordFs
