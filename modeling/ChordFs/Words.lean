import ChordFs.Lib.Text
import ChordFs.RaftCore

/-! # Words of the line formats

What the log file, the wire format and the namespace share: words separated by single spaces
(`lookup.cpp`), canonical decimal numbers (`raft_wire.cpp`), keys (`store.cpp`) and SHA-1.  A
string is the list of its bytes, as in `RaftCore.lean`. -/

namespace ChordFs

open Text

/-! ### SHA-1 -/

/-- A lowercase hexadecimal digit. -/
def isHex (c : Char) : Bool := ('0' ≤ c ∧ c ≤ '9') ∨ ('a' ≤ c ∧ c ≤ 'f')

/-- `sha1` of `sha1.h`: the 20 bytes of the digest as 40 hexadecimal digits.  The digest itself is
OpenSSL's. -/
structure Sha1 where
  digest : Str → Str
  length_digest : ∀ s, (digest s).length = 40
  hex_digest : ∀ s, ∀ c ∈ digest s, isHex c = true

/-- `valid_key`: 40 lowercase hexadecimal digits. -/
def validKey (key : Str) : Bool := key.length = 40 ∧ key.all isHex

variable {key s : Str} {c : Char} {ws : List Str} {k v : ℕ}

theorem validKey_digest (sha : Sha1) (s : Str) : validKey (sha.digest s) = true := by
  simpa [validKey, sha.length_digest s] using sha.hex_digest s

theorem validKey_char (h : validKey key = true) (hc : c ∈ key) : isHex c = true := by
  simp only [validKey, decide_eq_true_eq, List.all_eq_true] at h
  exact h.2 c hc

theorem not_mem_of_hex (hc : isHex c = false) (h : ∀ x ∈ s, isHex x = true) : c ∉ s := by
  intro hm
  rw [h c hm] at hc
  cases hc

theorem space_not_mem_of_validKey (h : validKey key = true) : ' ' ∉ key :=
  not_mem_of_hex (by decide) fun _ hc => validKey_char h hc

/-- The first eight digits of a digest: the check of a log record, the fingerprint of a group. -/
def Sha1.short (sha : Sha1) (s : Str) : Str := (sha.digest s).take 8

theorem Sha1.length_short (sha : Sha1) (s : Str) : (sha.short s).length = 8 := by
  simp [Sha1.short, sha.length_digest s]

theorem Sha1.hex_short (sha : Sha1) (s : Str) : ∀ c ∈ sha.short s, isHex c = true :=
  fun c hc => sha.hex_digest s c (List.mem_of_mem_take hc)

/-- The digests of a table; what is not in it has the digest of the empty text. -/
def Sha1.ofTable (table : List (Str × Str)) : Sha1 :=
  let other : Str := "da39a3ee5e6b4b0d3255bfef95601890afd80709".toList
  let digest (s : Str) : Str :=
    match table.lookup s with
    | some d => if validKey d then d else other
    | none => other
  have valid : ∀ s, validKey (digest s) = true := by
    intro s
    dsimp only [digest]
    split
    · split
      · assumption
      · decide
    · decide
  { digest := digest
    length_digest := fun s => by
      have := valid s
      simp only [validKey, decide_eq_true_eq] at this
      exact this.1
    hex_digest := fun s => by
      have := valid s
      simp only [validKey, decide_eq_true_eq, List.all_eq_true] at this
      exact this.2 }

/-! ### Words -/

/-- `split_single_spaces`: a doubled, leading or trailing space makes an empty word. -/
def splitSingleSpaces (s : Str) : List Str := s.splitOn ' '

/-- Words with one space between them. -/
def words (ws : List Str) : Str := [' '].intercalate ws

theorem words_cons_cons (w w' : Str) (ws : List Str) :
    words (w :: w' :: ws) = w ++ ' ' :: words (w' :: ws) := by
  simp [words]

theorem words_singleton (w : Str) : words [w] = w := by
  simp [words]

theorem words_cons (w : Str) (ws : List Str) : words (w :: ws) = w ++ ws.flatMap (' ' :: ·) := by
  induction ws generalizing w with
  | nil => simp [words]
  | cons v ws ih => rw [words_cons_cons, ih, List.flatMap_cons, List.cons_append]

theorem length_intercalate_le (c : Char) (h : ∀ w ∈ ws, w.length ≤ k) :
    ([c].intercalate ws).length ≤ ws.length * (k + 1) := by
  induction ws with
  | nil => simp
  | cons w ws ih =>
    rw [List.forall_mem_cons] at h
    cases ws with
    | nil =>
      simp only [List.intercalate_singleton, List.length_singleton]
      omega
    | cons v vs =>
      have := ih h.2
      rw [List.intercalate_cons_cons]
      simp only [List.length_append, List.length_cons, List.length_nil, Nat.add_mul] at *
      omega

theorem length_words_le (h : ∀ w ∈ ws, w.length ≤ k) : (words ws).length ≤ ws.length * (k + 1) :=
  length_intercalate_le ' ' h

theorem splitSingleSpaces_words (h : ∀ w ∈ ws, ' ' ∉ w) (hne : ws ≠ []) :
    splitSingleSpaces (words ws) = ws :=
  List.splitOn_intercalate ' ' h hne

theorem words_splitSingleSpaces (s : Str) : words (splitSingleSpaces s) = s :=
  List.intercalate_splitOn ' '

theorem splitSingleSpaces_words_append (ws : List Str) (h : ∀ w ∈ ws, ' ' ∉ w) (t : Str) :
    splitSingleSpaces (words (ws ++ [t])) = ws ++ splitSingleSpaces t := by
  induction ws with
  | nil => simp [words]
  | cons w ws ih =>
    rw [List.forall_mem_cons] at h
    obtain ⟨v, vs, hv⟩ := List.exists_cons_of_ne_nil (l := ws ++ [t]) (by simp)
    have hrec := ih h.2
    rw [List.cons_append, hv, words_cons_cons, splitSingleSpaces,
      List.splitOn_append_cons_self_of_not_mem h.1, List.cons_append]
    rw [hv] at hrec
    exact congrArg (w :: ·) hrec

/-! ### Numbers -/

/-- `std::to_string` of an unsigned number. -/
def num (v : ℕ) : Str := Nat.toDigits 10 v

/-- `std::to_string` of an `int`. -/
def numInt : ℤ → Str
  | .ofNat v => num v
  | .negSucc v => '-' :: num (v + 1)

/-- `parse_u64`: a canonical decimal number of at most 18 digits. -/
def parseU64 (s : Str) : Option ℕ :=
  if s = [] ∨ s.length > 18 then none
  else if s.length > 1 ∧ s.head? = some '0' then none
  else if s.all Char.isDigit then some (Nat.ofDigitChars 10 s 0) else none

theorem numInt_natCast (v : ℕ) : numInt (v : ℤ) = num v := rfl

theorem length_num (h : v < 10 ^ 18) : (num v).length ≤ 18 :=
  (Nat.length_toDigits_le_iff (by decide) (by decide)).mpr h

theorem parseU64_num (h : v < 10 ^ 18) : parseU64 (num v) = some v := by
  have hd := isDecimal_toDigits v
  have hlen := length_num h
  rw [parseU64, if_neg, if_neg, if_pos, num, Nat.ofDigitChars_ten_toDigits]
  · simpa [num] using hd.digit
  · rintro ⟨h1, h2⟩
    exact hd.canonical h1 h2
  · rintro (h1 | h1)
    · exact hd.ne_nil h1
    · omega

/-- **What `parse_u64` accepts is what `to_string` prints.** -/
theorem eq_num_of_parseU64 (h : parseU64 s = some v) : s = num v ∧ v < 10 ^ 18 := by
  rw [parseU64] at h
  split at h
  · cases h
  split at h
  · cases h
  split at h
  · rename_i h1 h2 h3
    cases h
    have hs : s = num (Nat.ofDigitChars 10 s 0) := by
      refine (toDigits_ofDigitChars ⟨fun h => h1 (.inl h), by simpa using h3, ?_⟩).symm
      exact fun hl hh => h2 ⟨hl, hh⟩
    refine ⟨hs, ?_⟩
    have hlen : (num (Nat.ofDigitChars 10 s 0)).length ≤ 18 := by
      rw [← hs]
      exact Nat.le_of_not_lt fun h => h1 (.inr h)
    exact (Nat.length_toDigits_le_iff (by decide) (by decide)).mp hlen
  · cases h

theorem not_mem_num (h : c.isDigit = false) (v : ℕ) : c ∉ num v := not_mem_toDigits h v

theorem num_ne_nil (v : ℕ) : num v ≠ [] := Nat.toDigits_ne_nil

theorem num_injective {v' : ℕ} (h : num v = num v') : v = v' := by
  have h1 : Nat.ofDigitChars 10 (num v) 0 = v := Nat.ofDigitChars_ten_toDigits
  have h2 : Nat.ofDigitChars 10 (num v') 0 = v' := Nat.ofDigitChars_ten_toDigits
  rw [← h1, ← h2, h]

theorem space_not_mem_num (k : ℕ) : ' ' ∉ num k := not_mem_num (by decide) k

theorem space_not_mem_numInt {v : ℤ} (hv : v = k) : ' ' ∉ numInt v := by
  subst hv
  exact space_not_mem_num k

/-! ### Replica ids -/

/-- A replica id on the wire and in the log: a small canonical number. -/
def parseId (s : Str) : Option ℤ :=
  match parseU64 s with
  | some v => if v > 1000 then none else some (v : ℤ)
  | none => none

theorem eq_of_parseId {v : ℤ} (h : parseId s = some v) : s = numInt v := by
  unfold parseId at h
  split at h
  · rename_i k hk
    split at h
    · cases h
    · cases h
      exact (eq_num_of_parseU64 hk).1
  · cases h

theorem parseId_numInt {v : ℤ} (hv : v = k) (h : k ≤ 1000) : parseId (numInt v) = some v := by
  subst hv
  have hk : parseU64 (num k) = some k := parseU64_num (by omega)
  simp only [parseId, numInt_natCast, hk, if_neg (Nat.not_lt.mpr h)]

end ChordFs
