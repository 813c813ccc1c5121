import ChordFs.Net
import Mathlib.Algebra.Order.Ring.Int
import Mathlib.Data.Nat.Bitwise

/-! # Ring members and their names on the wire

Routing identifiers and the rendering of a member (`chord.h`, `lookup.cpp`): sixteen hexadecimal
digits, a canonical dotted quad and a port.  A `Peer` carries the canonical form of its address, so
every peer can be written on the wire and read back (`parsePeerWords_wire`). -/

namespace ChordFs

open Text

/-! ### Identifiers -/

/-- A routing identifier: 64 bits, with addition that wraps. -/
abbrev Id := BitVec 64

def ID_BITS : ℕ := 64

def hexNibble (c : Char) : Option ℕ :=
  if '0' ≤ c ∧ c ≤ '9' then some (c.toNat - '0'.toNat)
  else if 'a' ≤ c ∧ c ≤ 'f' then some (c.toNat - 'a'.toNat + 10)
  else if 'A' ≤ c ∧ c ≤ 'F' then some (c.toNat - 'A'.toNat + 10)
  else none

/-- The last `n` hexadecimal digits of a number, zeros in front. -/
def hexDigits : ℕ → ℕ → Str
  | 0, _ => []
  | n + 1, v => hexDigits n (v / 16) ++ [Nat.digitChar (v % 16)]

/-- `id_to_hex`: sixteen lowercase digits. -/
def idToHex (id : Id) : Str := hexDigits 16 id.toNat

/-- One digit more: `(value << 4) | nibble`. -/
def shiftIn (value : Id) (c : Char) : Option Id :=
  (hexNibble c).map fun nibble => (value <<< 4) ||| BitVec.ofNat 64 nibble

/-- `id_from_hex`: sixteen digits of either case. -/
def idFromHex (s : Str) : Option Id := if s.length ≠ 16 then none else s.foldlM shiftIn 0

variable {d : ℕ} {c : Char} {p : Peer} {word : Str}

theorem length_hexDigits (n v : ℕ) : (hexDigits n v).length = n := by
  induction n generalizing v with
  | zero => rfl
  | succ n ih => simp [hexDigits, ih]

theorem length_idToHex (id : Id) : (idToHex id).length = 16 := length_hexDigits 16 _

theorem hexNibble_digitChar (h : d < 16) : hexNibble (Nat.digitChar d) = some d := by
  revert d
  decide

theorem isHex_of_mem_hexDigits {n v : ℕ} (h : c ∈ hexDigits n v) : isHex c = true := by
  have hdigit : ∀ d < 16, isHex (Nat.digitChar d) = true := by decide
  induction n generalizing v with
  | zero => cases h
  | succ n ih =>
    rcases List.mem_append.mp h with h | h
    · exact ih h
    · rw [List.mem_singleton.mp h]
      exact hdigit _ (Nat.mod_lt v (by decide))

theorem isHex_of_mem_idToHex {id : Id} (h : c ∈ idToHex id) : isHex c = true :=
  isHex_of_mem_hexDigits h

theorem shiftLeft_or (v : ℕ) (h : d < 16) :
    (BitVec.ofNat 64 v <<< 4) ||| BitVec.ofNat 64 d = BitVec.ofNat 64 (16 * v + d) := by
  apply BitVec.eq_of_toNat_eq
  have hd : d % 2 ^ 64 = d := Nat.mod_eq_of_lt (by omega)
  have hor : ∀ x, 2 ^ 4 * x ||| d = 2 ^ 4 * x + d := fun x =>
    (Nat.two_pow_add_eq_or_of_lt (i := 4) h x).symm
  simp only [BitVec.toNat_or, BitVec.toNat_shiftLeft, BitVec.toNat_ofNat, Nat.shiftLeft_eq, hd]
  rw [show v % 2 ^ 64 * 2 ^ 4 % 2 ^ 64 = 2 ^ 4 * (v % 2 ^ 60) by omega, hor]
  omega

theorem foldlM_hexDigits (n v : ℕ) :
    (hexDigits n v).foldlM shiftIn 0 = some (BitVec.ofNat 64 (v % 16 ^ n)) := by
  induction n generalizing v with
  | zero => simp [hexDigits, Nat.mod_one]
  | succ n ih =>
    have hd : v % 16 < 16 := Nat.mod_lt v (by decide)
    have hval : 16 * (v / 16 % 16 ^ n) + v % 16 = v % 16 ^ (n + 1) := by
      rw [Nat.pow_succ', Nat.mod_mul]
      omega
    rw [hexDigits, List.foldlM_append, ih]
    simp only [Option.bind_eq_bind, Option.bind_some, List.foldlM_cons, List.foldlM_nil, shiftIn,
      hexNibble_digitChar hd, Option.map_some, shiftLeft_or _ hd, hval]
    rfl

/-- **An identifier is read back as it was written.** -/
theorem idFromHex_idToHex (id : Id) : idFromHex (idToHex id) = some id := by
  rw [idFromHex, if_neg (by simp [length_idToHex]), idToHex, foldlM_hexDigits,
    Nat.mod_eq_of_lt (by have := id.isLt; omega), BitVec.ofNat_toNat, BitVec.setWidth_eq]

/-! ### Addresses -/

/-- One number of a dotted quad as `inet_ntop` prints it. -/
def canonicalOctet (s : Str) : Bool :=
  s ≠ [] ∧ s.length ≤ 3 ∧ s.all Char.isDigit ∧ ¬ (s.length > 1 ∧ s.head? = some '0') ∧
    Nat.ofDigitChars 10 s 0 ≤ 255

/-- `parse_reply_ip`: what survives a round trip through `inet_pton` and `inet_ntop`, four canonical
numbers up to 255 with dots between them. -/
def canonicalIp (s : Str) : Bool :=
  (s.splitOn '.').length = 4 ∧ (s.splitOn '.').all canonicalOctet

/-- A member as routing state sees it.  The address is canonical: `parse_member` renders it anew
and `parse_peer_words` accepts nothing else. -/
structure Peer where
  id : Id
  ip : Str
  port : ℕ
  canonical : canonicalIp ip = true
  port_pos : 0 < port
  port_le : port ≤ 65535
deriving DecidableEq

theorem ofDigitChars_pos {s : Str} (hne : s ≠ []) (h0 : s.head? ≠ some '0')
    (hd : s.all Char.isDigit = true) : 0 < Nat.ofDigitChars 10 s 0 := by
  by_contra hcon
  have hval : Nat.ofDigitChars 10 s 0 = 0 := by omega
  have hs := toDigits_ofDigitChars (s := s) ⟨hne, by simpa using hd, fun _ => h0⟩
  rw [hval, Nat.toDigits_zero] at hs
  rw [← hs] at h0
  exact h0 rfl

/-- `parse_reply_port`: digits without a leading zero, up to 65535. -/
def parseReplyPort (s : Str) : Option { port : ℕ // 0 < port ∧ port ≤ 65535 } :=
  if h : s ≠ [] ∧ s.length ≤ 5 ∧ s.head? ≠ some '0' ∧ s.all Char.isDigit = true ∧
      Nat.ofDigitChars 10 s 0 ≤ 65535 then
    some ⟨Nat.ofDigitChars 10 s 0, ofDigitChars_pos h.1 h.2.2.1 h.2.2.2.1, h.2.2.2.2⟩
  else none

/-- `parse_peer_words`, or why the words are refused. -/
def parsePeerWords (id ip port : Str) : Except Str Peer :=
  match idFromHex id with
  | none => .error "identifier is not 16 hexadecimal characters".toList
  | some id =>
    if h : canonicalIp ip = true then
      match parseReplyPort port with
      | none => .error "port is not a number in 1..65535".toList
      | some port => .ok ⟨id, ip, port, h, port.2.1, port.2.2⟩
    else .error "address is not a canonical IPv4 dotted quad".toList

/-- The three words of a peer. -/
def Peer.wire (p : Peer) : List Str := [idToHex p.id, p.ip, num p.port]

theorem parseReplyPort_num {port : ℕ} (h : 0 < port ∧ port ≤ 65535) :
    parseReplyPort (num port) = some ⟨port, h⟩ := by
  have hd := isDecimal_toDigits port
  have hval : Nat.ofDigitChars 10 (num port) 0 = port := Nat.ofDigitChars_ten_toDigits
  have hlen : (num port).length ≤ 5 :=
    (Nat.length_toDigits_le_iff (by decide) (by decide)).mpr (by omega)
  have hhead : (num port).head? ≠ some '0' := by
    intro h0
    rcases Nat.lt_or_ge 1 (num port).length with hl | hl
    · exact hd.canonical hl h0
    · have hone : num port = ['0'] := by
        cases hn : num port with
        | nil => exact absurd hn (num_ne_nil port)
        | cons c l =>
          rw [hn] at h0 hl
          cases l with
          | nil => simpa using h0
          | cons => simp at hl
      rw [hone] at hval
      have : port = 0 := hval.symm
      omega
  have hall : (num port).all Char.isDigit = true := by simpa [num] using hd.digit
  rw [parseReplyPort, dif_pos ⟨num_ne_nil port, hlen, hhead, hall, by rw [hval]; exact h.2⟩]
  simp only [hval]

/-- **A peer is read back as it was written.** -/
theorem parsePeerWords_wire (p : Peer) :
    parsePeerWords (idToHex p.id) p.ip (num p.port) = .ok p := by
  simp only [parsePeerWords, idFromHex_idToHex, dif_pos p.canonical,
    parseReplyPort_num ⟨p.port_pos, p.port_le⟩]

theorem mem_ip (h : c ∈ p.ip) : c = '.' ∨ c.isDigit = true := by
  by_cases hdot : c = '.'
  · exact .inl hdot
  · obtain ⟨part, hpart, hc⟩ := exists_mem_splitOn h hdot
    have hcanon := p.canonical
    simp only [canonicalIp, decide_eq_true_eq, List.all_eq_true] at hcanon
    have hoctet := hcanon.2 part hpart
    simp only [canonicalOctet, decide_eq_true_eq, List.all_eq_true] at hoctet
    exact .inr (hoctet.2.2.1 c hc)

theorem visible_of_mem_wire (hw : word ∈ p.wire) (h : c ∈ word) : isHex c = true ∨ c = '.' := by
  have hdigit : c.isDigit = true → isHex c = true := by
    simp only [Char.isDigit, isHex, Bool.and_eq_true, decide_eq_true_eq]
    exact fun h => .inl ⟨h.1, h.2⟩
  simp only [Peer.wire, List.mem_cons, List.not_mem_nil, or_false] at hw
  rcases hw with hw | hw | hw <;> rw [hw] at h
  · exact .inl (isHex_of_mem_idToHex h)
  · exact (mem_ip h).elim .inr fun h => .inl (hdigit h)
  · exact .inl (hdigit ((isDecimal_toDigits p.port).digit c h))

theorem space_not_mem_wire (hw : word ∈ p.wire) : ' ' ∉ word := by
  intro h
  rcases visible_of_mem_wire hw h with h | h <;> cases h

theorem ne_nil_of_mem_wire (hw : word ∈ p.wire) : word ≠ [] := by
  simp only [Peer.wire, List.mem_cons, List.not_mem_nil, or_false] at hw
  rcases hw with hw | hw | hw <;> rw [hw]
  · exact List.ne_nil_of_length_pos (by rw [length_idToHex]; decide)
  · intro h
    have := p.canonical
    rw [h] at this
    cases this
  · exact num_ne_nil p.port

/-- The text before the colon and the port: where a process listens. -/
def address (p : Peer) : Str := p.ip ++ ':' :: num p.port

/-- The same process: `same_process`.  The same member, `same_node`, is equality. -/
def sameProcess (a b : Peer) : Bool := a.ip = b.ip ∧ a.port = b.port

theorem sameProcess_self (p : Peer) : sameProcess p p = true := by simp [sameProcess]

theorem sameProcess_comm (p q : Peer) : sameProcess p q = sameProcess q p := by
  simp [sameProcess, eq_comm]

theorem address_injective {q : Peer} (h : address p = address q) : sameProcess p q = true := by
  have hcut : ∀ x : Peer, Text.cutFirst ':' (address x) = some (x.ip, num x.port) := fun x => by
    apply Text.cutFirst_append
    intro hmem
    rcases mem_ip hmem with h | h
    · exact absurd h (by decide)
    · exact absurd h (by decide)
  have := hcut p
  rw [h, hcut q] at this
  simp only [Option.some.injEq, Prod.mk.injEq] at this
  simp [sameProcess, this.1, num_injective this.2]

end ChordFs
