import ChordFs.Lib.Text

/-! # Append-only files of checked lines

A file of lines, each of which can be read on its own (`read`, `none` if the line fails its check)
and then changes a state (`apply`, `none` if it does not fit there).  `scan` replays a file up to
the first line that is torn, fails its check or does not fit.  A batch that was being written when
a crash struck leaves bytes of which no line passes its check but those of the batch at their own
place (`Torn`); a scan then finds the lines before the batch and a prefix of the batch's own lines
(`torn_cases`, `scan_terminated_append`). -/

namespace LineLog

open Text

variable {β δ : Type*} (read : List Char → Option β) (apply : δ → β → Option δ)

/-- Why a scan stopped before the end of the file. -/
inductive Damage where
  | torn
  | unreadable
  | refused
deriving DecidableEq, Repr

structure Scan (δ : Type*) where
  state : δ
  /-- The bytes up to the end of the last good line. -/
  good : ℕ
  records : ℕ
  damage : Option Damage
  /-- The lines behind the damaged one that pass their check. -/
  after : ℕ

def scanLines : δ → ℕ → ℕ → List (List Char) → List Char → Scan δ
  | d, good, records, [], rest => ⟨d, good, records, if rest = [] then none else some .torn, 0⟩
  | d, good, records, l :: ls, rest =>
    match read l with
    | none => ⟨d, good, records, some .unreadable, ls.countP fun l => (read l).isSome⟩
    | some b =>
      match apply d b with
      | none => ⟨d, good, records, some .refused, ls.countP fun l => (read l).isSome⟩
      | some d' => scanLines d' (good + l.length + 1) (records + 1) ls rest

/-- Replay the lines of `text` on `d`. -/
def scan (d : δ) (text : List Char) : Scan δ :=
  scanLines read apply d 0 0 (completeLines text) (lastPart text)

/-- Replay lines that are all good. -/
def replay (d : δ) (ls : List (List Char)) : Option δ :=
  ls.foldlM (fun d l => (read l).bind (apply d)) d

/-- No line can be replayed at the start of `rest`. -/
def Broken (rest : List Char) : Prop := ∀ l ∈ (completeLines rest).head?, read l = none

/-- The lines of a list with the offsets at which they start. -/
def linesFrom : ℕ → List (List Char) → List (ℕ × List Char)
  | _, [] => []
  | o, l :: ls => (o, l) :: linesFrom (o + l.length + 1) ls

/-- The bytes `tail` may be what a crash left of `batch`: none of its complete lines passes its
check, but for lines of the batch at their own place. -/
def Torn (batch tail : List Char) : Prop :=
  tail.length ≤ batch.length ∧ ∀ p ∈ linesFrom 0 (completeLines tail), (read p.2).isSome = true →
    p ∈ linesFrom 0 (completeLines batch)

instance (batch tail : List Char) : Decidable (Torn read batch tail) :=
  inferInstanceAs (Decidable (_ ∧ _))

/-- The complete lines at the start of `tail` that pass their check. -/
def intact (tail : List Char) : List (List Char) :=
  (completeLines tail).takeWhile fun l => (read l).isSome

variable {read apply}

/-! ### Scanning -/

variable {d : δ} {ls ms : List (List Char)} {rest : List Char}

theorem replay_append :
    replay read apply d (ls ++ ms) = (replay read apply d ls).bind (replay read apply · ms) := by
  simp [replay, List.foldlM_append]

theorem scanLines_append : ∀ {d d' : δ} {good records : ℕ}, replay read apply d ls = some d' → ∀ ms rest,
    scanLines read apply d good records (ls ++ ms) rest =
      scanLines read apply d' (good + (terminated ls).length) (records + ls.length) ms rest := by
  induction ls with
  | nil =>
    intro d d' good records h ms rest
    cases h
    simp
  | cons l ls ih =>
    intro d d' good records h ms rest
    rw [replay, List.foldlM_cons] at h
    obtain ⟨d₁, h1, h2⟩ := Option.bind_eq_some_iff.mp h
    obtain ⟨b, hb, hd⟩ := Option.bind_eq_some_iff.mp h1
    rw [List.cons_append, scanLines, hb]
    simp only [hd]
    rw [ih h2]
    simp only [terminated_cons, List.length_append, List.length_cons]
    congr 1 <;> omega

theorem scanLines_broken (d : δ) (good records : ℕ) (h : Broken read rest) :
    ∃ damage after, (damage = none → rest = []) ∧
      scanLines read apply d good records (completeLines rest) (lastPart rest) =
        ⟨d, good, records, damage, after⟩ := by
  have hrest := (terminated_completeLines rest).1
  unfold Broken at h
  cases hl : completeLines rest with
  | nil =>
    rw [hl, terminated_nil, List.nil_append] at hrest
    refine ⟨_, _, fun hd => ?_, rfl⟩
    by_contra hne
    rw [hrest, if_neg hne] at hd
    cases hd
  | cons l ls =>
    rw [hl] at h
    have hread : read l = none := h l (by simp)
    rw [scanLines, hread]
    exact ⟨_, _, (fun hd => by cases hd), rfl⟩

/-- **A scan replays the good lines and stops where the damage starts.** -/
theorem scan_terminated_append {d' : δ} (hls : ∀ l ∈ ls, '\n' ∉ l) (h : replay read apply d ls = some d')
    (hb : Broken read rest) :
    ∃ damage after, (damage = none → rest = []) ∧ scan read apply d (terminated ls ++ rest) =
      ⟨d', (terminated ls).length, ls.length, damage, after⟩ := by
  obtain ⟨damage, after, hd, hscan⟩ : ∃ damage after, (damage = none → rest = []) ∧
      scanLines read apply d' _ _ (completeLines rest) (lastPart rest) = _ :=
    scanLines_broken d' (terminated ls).length ls.length hb
  refine ⟨damage, after, hd, ?_⟩
  rw [scan, completeLines_terminated_append hls, lastPart_terminated_append hls,
    scanLines_append h, Nat.zero_add, Nat.zero_add, hscan]

/-! ### Torn batches -/

theorem le_of_mem_linesFrom : ∀ {o : ℕ} {p : ℕ × List Char}, p ∈ linesFrom o ls → o ≤ p.1 := by
  induction ls with
  | nil => intro o p h; cases h
  | cons l ls ih =>
    intro o p h
    rcases List.mem_cons.mp h with rfl | h
    · exact le_rfl
    · have := ih h
      omega

/-- The lines at the start of a torn batch that pass their check are the first ones of the
batch. -/
theorem takeWhile_of_linesFrom : ∀ {o : ℕ} {ls : List (List Char)},
    (∀ p ∈ linesFrom o ms, (read p.2).isSome = true → p ∈ linesFrom o ls) →
    ms.takeWhile (fun l => (read l).isSome) <+: ls := by
  induction ms with
  | nil => intro o ls _; simp
  | cons m ms ih =>
    intro o ls h
    cases hm : (read m).isSome with
    | false => rw [List.takeWhile_cons_of_neg (by simp [hm])]; exact List.nil_prefix
    | true =>
      rw [List.takeWhile_cons_of_pos (by simpa using hm)]
      have hmem := h (o, m) (by simp [linesFrom]) hm
      cases ls with
      | nil => cases hmem
      | cons l ls =>
        -- later lines of the batch start further back
        have hml : m = l := by
          rcases List.mem_cons.mp hmem with heq | hlater
          · exact (Prod.mk.inj heq).2
          · have := le_of_mem_linesFrom hlater
            dsimp only at this
            omega
        subst hml
        refine List.cons_prefix_cons.mpr ⟨rfl, ih (o := o + m.length + 1) fun p hp hr => ?_⟩
        rcases List.mem_cons.mp (h p (List.mem_cons_of_mem _ hp) hr) with heq | hlater
        · have := le_of_mem_linesFrom hp
          rw [heq] at this
          dsimp only at this
          omega
        · exact hlater

/-- **A torn batch is a prefix of its lines, followed by damage.** -/
theorem torn_cases (hls : ∀ l ∈ ls, '\n' ∉ l) {tail : List Char} (h : Torn read (terminated ls) tail) :
    intact read tail <+: ls ∧ ∃ rest, tail = terminated (intact read tail) ++ rest ∧
      Broken read rest := by
  have hc : completeLines (terminated ls) = ls := by
    have := completeLines_terminated_append hls []
    rw [List.append_nil] at this
    simpa [completeLines] using this
  have hpre : intact read tail <+: ls := takeWhile_of_linesFrom (o := 0) (by rw [← hc]; exact h.2)
  obtain ⟨htail, hfree⟩ := terminated_completeLines tail
  have hsplit : completeLines tail = intact read tail ++
      (completeLines tail).dropWhile fun l => (read l).isSome := List.takeWhile_append_dropWhile.symm
  generalize hrest : terminated ((completeLines tail).dropWhile fun l => (read l).isSome) ++
    lastPart tail = rest
  have hwhole : tail = terminated (intact read tail) ++ rest := by
    conv_lhs => rw [← htail, hsplit, terminated_append, List.append_assoc, hrest]
  refine ⟨hpre, rest, hwhole, fun l hl => ?_⟩
  -- the rest starts with the first line that does not pass
  have hcomplete : completeLines rest = (completeLines tail).dropWhile fun l => (read l).isSome := by
    have hgood : ∀ l ∈ intact read tail, '\n' ∉ l := fun l hl =>
      hfree l ((List.takeWhile_prefix _).subset hl)
    have h1 := completeLines_terminated_append hgood rest
    rw [← hwhole, hsplit] at h1
    exact (List.append_cancel_left h1).symm
  rw [hcomplete] at hl
  have := List.head?_dropWhile_not (fun l => (read l).isSome) (completeLines tail)
  rw [Option.mem_def] at hl
  rw [hl] at this
  simpa using this

end LineLog
