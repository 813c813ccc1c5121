import ChordFs.Words

/-! # The framing

What becomes of an exchange, which request lines carry a body, and how long it is (`net.h`,
`net.cpp`): both ends decide it from the line alone, past a request id if there is one. -/

namespace ChordFs

open Text

/-- The longest line either side accepts, without its newline. -/
def MAX_LINE : ℕ := 1024

/-- The longest body. -/
def MAX_BODY : ℕ := 512 * 1024

/-- What became of an exchange. -/
inductive Delivery where
  | ok
  | refused
  | timeout
  | closed
  | failed
deriving DecidableEq, Repr

def deliveryName : Delivery → Str
  | .ok => "ok".toList
  | .refused => "refused".toList
  | .timeout => "timeout".toList
  | .closed => "closed".toList
  | .failed => "failed".toList

/-- The outcome of looking for a request id at the start of a line, with what follows it. -/
inductive RidPrefix where
  | none
  | malformed
  | present (id rest : Str)
deriving DecidableEq, Repr

def splitRequestId (line : Str) : RidPrefix :=
  if line.take 4 ≠ "RID ".toList then .none
  -- "RID ", 16 characters, a space and at least one character of request
  else if line.length < 4 + 16 + 1 + 1 ∨ line.getD (4 + 16) '\x00' ≠ ' ' then .malformed
  else if ¬ ((line.drop 4).take 16).all isHex then .malformed
  else .present ((line.drop 4).take 16) (line.drop (4 + 16 + 1))

/-- Whether a line announces a body, and of which length. -/
inductive Body where
  | none
  | malformed
  | tooLarge
  | present (length : ℕ)
deriving DecidableEq, Repr

/-- The line up to its first space. -/
def firstWord (line : Str) : Str :=
  match cutFirst ' ' line with
  | none => line
  | some (verb, _) => verb

def bodyLength (whole : Str) : Body :=
  let line := match splitRequestId whole with
    | .present _ rest => rest
    | _ => whole
  if firstWord line ∉ ["PUT".toList, "STORE".toList, "CHUNK".toList, "APPEND".toList] then .none
  else
    match cutLast ' ' line with
    | none => .malformed
    | some (_, word) =>
      if word = [] ∨ word.length > 7 then .malformed
      else if word.length > 1 ∧ word.head? = some '0' then .malformed
      else if ¬ word.all Char.isDigit then .malformed
      else if Nat.ofDigitChars 10 word 0 > MAX_BODY then .tooLarge
      else .present (Nat.ofDigitChars 10 word 0)

/-! ### Lines that start with a verb -/

section
variable {verb : Str} (h : ' ' ∉ verb)
include h

theorem firstWord_append (rest : Str) : firstWord (verb ++ ' ' :: rest) = verb := by
  rw [firstWord, cutFirst_append h]

theorem splitRequestId_append (hne : verb ≠ "RID".toList)
    (rest : Str) : splitRequestId (verb ++ ' ' :: rest) = .none := by
  rw [splitRequestId, if_pos]
  intro h4
  -- otherwise the line starts with the word RID
  have hrid : verb ++ ' ' :: rest = "RID".toList ++ ' ' :: (verb ++ ' ' :: rest).drop 4 := by
    conv_lhs => rw [← List.take_append_drop 4 (verb ++ ' ' :: rest), h4]
    rfl
  apply hne
  rw [← firstWord_append h rest, hrid, firstWord_append (by decide)]

theorem bodyLength_none (hrid : verb ≠ "RID".toList)
    (hne : verb ∉ ["PUT".toList, "STORE".toList, "CHUNK".toList, "APPEND".toList]) (rest : Str) :
    bodyLength (verb ++ ' ' :: rest) = .none := by
  simp only [bodyLength, splitRequestId_append h hrid rest, firstWord_append h rest, if_pos hne]

theorem bodyLength_num (hrid : verb ≠ "RID".toList)
    (hmem : verb ∈ ["PUT".toList, "STORE".toList, "CHUNK".toList, "APPEND".toList]) {rest a : Str}
    {k : ℕ} (hk : k ≤ MAX_BODY) (hlast : verb ++ ' ' :: rest = a ++ ' ' :: num k) :
    bodyLength (verb ++ ' ' :: rest) = .present k := by
  have hd := isDecimal_toDigits k
  have hval : Nat.ofDigitChars 10 (num k) 0 = k := Nat.ofDigitChars_ten_toDigits
  have hlen : (num k).length ≤ 7 :=
    (Nat.length_toDigits_le_iff (by decide) (by decide)).mpr (Nat.lt_of_le_of_lt hk (by decide))
  have hall : (num k).all Char.isDigit = true := by simpa [num] using hd.digit
  have hcan : ¬ ((num k).length > 1 ∧ (num k).head? = some '0') :=
    fun h => hd.canonical h.1 h.2
  have hne : ¬ (num k = [] ∨ (num k).length > 7) := by
    rintro (h | h)
    · exact hd.ne_nil h
    · omega
  simp only [bodyLength, splitRequestId_append h hrid rest, firstWord_append h rest]
  rw [if_neg (not_not_intro hmem), hlast, cutLast_append (not_mem_num (by decide) k)]
  simp only [if_neg hne, if_neg hcan, hall, hval, not_true_eq_false, if_false,
    if_neg (Nat.not_lt.mpr hk)]

end

end ChordFs
