import ChordFs.RingWired
import Mathlib.Algebra.Order.Ring.Int
import Mathlib.Data.List.Forall2

/-! # Neighbour lists on the wire

`render_neighbours` writes one line that `parse_neighbours` reads back; and a line that
`parse_neighbours` accepts is the one that would have been written, up to the case of hexadecimal
digits: each of its three strict parsers accepts only the word it would write. -/

namespace ChordFs

open Text

/-- The same character, or the same hexadecimal digit in the other case. -/
def SameHex (c d : Char) : Prop := c = d ∨ ∃ v, hexNibble c = some v ∧ hexNibble d = some v

/-- The same text up to the case of hexadecimal digits. -/
abbrev SameText : Str → Str → Prop := List.Forall₂ SameHex

/-! ### Words -/

variable {ws : List Str} {c : Char} {s why why' : Str} {n : ℕ} {p : Peer}
  {nb out parsed : Neighbours}

theorem SameText.refl (s : Str) : SameText s s := List.forall₂_same.mpr fun _ _ => Or.inl rfl

theorem SameText.words {ws' : List Str} (h : List.Forall₂ SameText ws ws') :
    SameText (words ws) (words ws') := by
  induction h with
  | nil => exact .nil
  | @cons w w' ws ws' hw hws ih =>
    cases hws with
    | nil => simpa [words_singleton] using hw
    | cons hv hvs =>
      rw [words_cons_cons, words_cons_cons]
      exact List.rel_append hw (.cons (Or.inl rfl) ih)

theorem hexNibble_lt {d : ℕ} (h : hexNibble c = some d) : d < 16 := by
  have hle : ∀ {a b : Char}, a ≤ b → a.toNat ≤ b.toNat := fun h => h
  unfold hexNibble at h
  split at h
  · rename_i hc
    have h9 := hle hc.2
    cases h
    simp only [Char.reduceToNat] at *
    omega
  split at h
  · rename_i hc
    have hf := hle hc.2
    cases h
    simp only [Char.reduceToNat] at *
    omega
  split at h
  · rename_i hc
    have hf := hle hc.2
    cases h
    simp only [Char.reduceToNat] at *
    omega
  · cases h

theorem sameText_hexDigits {v : Id} (hlen : s.length ≤ 16) (h : s.foldlM shiftIn 0 = some v) :
    v.toNat < 16 ^ s.length ∧ SameText (hexDigits s.length v.toNat) s := by
  induction s using List.reverseRecOn generalizing v with
  | nil =>
    cases h
    exact ⟨by decide, .nil⟩
  | append_singleton s c ih =>
    rw [List.length_append, List.length_singleton] at hlen ⊢
    rw [List.foldlM_append] at h
    obtain ⟨u, hu, h⟩ := Option.bind_eq_some_iff.mp h
    obtain ⟨w, hw, h⟩ := Option.bind_eq_some_iff.mp h
    cases h
    obtain ⟨d, hd, rfl⟩ := Option.map_eq_some_iff.mp hw
    obtain ⟨hlt, hsame⟩ := ih (by omega) hu
    have hd16 := hexNibble_lt hd
    have hpow : 16 ^ (s.length + 1) ≤ 16 ^ 16 := Nat.pow_le_pow_right (by decide) hlen
    have hstep : 16 ^ (s.length + 1) = 16 * 16 ^ s.length := Nat.pow_succ'
    have hval : ((u <<< 4) ||| BitVec.ofNat 64 d).toNat = 16 * u.toNat + d := by
      have hor := shiftLeft_or u.toNat hd16
      rw [BitVec.ofNat_toNat, BitVec.setWidth_eq] at hor
      rw [hor, BitVec.toNat_ofNat, Nat.mod_eq_of_lt (by omega)]
    rw [hval, hexDigits, show (16 * u.toNat + d) / 16 =
      u.toNat by omega, show (16 * u.toNat + d) % 16 = d by omega]
    exact ⟨by omega, List.rel_append hsame (.cons (Or.inr ⟨d, hexNibble_digitChar hd16, hd⟩) .nil)⟩

theorem sameText_idToHex {id : Id} (h : idFromHex s = some id) : SameText (idToHex id) s := by
  unfold idFromHex at h
  split at h
  · cases h
  · rename_i hlen
    have hlen : s.length = 16 := not_not.mp hlen
    have := (sameText_hexDigits (by omega) h).2
    rwa [hlen] at this

theorem num_ofDigitChars (hne : s ≠ []) (h0 : s.head? ≠ some '0') (hd : s.all Char.isDigit = true) :
    num (Nat.ofDigitChars 10 s 0) = s :=
  toDigits_ofDigitChars ⟨hne, by simpa using hd, fun _ => h0⟩

theorem num_parseReplyPort {port : { port : ℕ // 0 < port ∧ port ≤ 65535 }}
    (h : parseReplyPort s = some port) : num port = s := by
  unfold parseReplyPort at h
  split at h
  · rename_i hs
    cases h
    exact num_ofDigitChars hs.1 hs.2.2.1 hs.2.2.2.1
  · cases h

theorem num_parseCount (h : parseCount s = some n) : num n = s ∧ 1 ≤ n ∧ n ≤ MAX_SUCCESSORS := by
  unfold parseCount at h
  split at h
  · cases h
  rename_i hs
  simp only [not_or, not_not] at hs
  dsimp only at h
  split at h
  · cases h
  · rename_i hn
    cases h
    exact ⟨num_ofDigitChars hs.1 hs.2.2.1 hs.2.2.2, by omega⟩

/-! ### Peers -/

theorem sameText_wire {id ip port : Str} (h : parsePeerWords id ip port = .ok p) :
    List.Forall₂ SameText p.wire [id, ip, port] := by
  unfold parsePeerWords at h
  split at h
  · cases h
  rename_i hid
  split at h
  · split at h
    · cases h
    · rename_i hport
      cases h
      refine .cons (sameText_idToHex hid) (.cons (.refl ip) (.cons ?_ .nil))
      rw [← num_parseReplyPort hport]
      exact .refl _
  · cases h

theorem sameText_parsePeers (hlen : ws.length = 3 * n)
    (h : parsePeers out why ws parsed = (true, nb, why')) :
    ∃ ps, nb = { parsed with succs := parsed.succs ++ ps } ∧ ps.length = n ∧
      List.Forall₂ SameText (ps.flatMap Peer.wire) ws := by
  induction n generalizing ws parsed with
  | zero =>
    obtain rfl := List.length_eq_zero_iff.mp hlen
    cases h
    exact ⟨[], by simp, rfl, .nil⟩
  | succ n ih =>
    obtain ⟨id, ip, port, rest, rfl⟩ : ∃ id ip port rest, ws = id :: ip :: port :: rest := by
      rcases ws with _ | ⟨id, _ | ⟨ip, _ | ⟨port, rest⟩⟩⟩
      · cases hlen
      · simp only [List.length_cons, List.length_nil] at hlen
        omega
      · simp only [List.length_cons, List.length_nil] at hlen
        omega
      · exact ⟨id, ip, port, rest, rfl⟩
    rw [parsePeers] at h
    split at h
    · cases h
    · rename_i p hp
      obtain ⟨ps, rfl, hps, hsame⟩ := ih (by simpa [Nat.mul_add] using hlen) h
      exact ⟨p :: ps, by simp, by simp [hps], List.rel_append (sameText_wire hp) hsame⟩

/-! ### Lines -/

theorem sameText_parseSuccessors {pred : Option Peer} {count : Str} {rest : List Str}
    (h : parseSuccessors out why count rest ⟨pred, []⟩ = (true, nb, why')) : nb.pred = pred ∧
      List.Forall₂ SameText (num nb.succs.length :: nb.succs.flatMap Peer.wire)
        (count :: rest) := by
  unfold parseSuccessors at h
  split at h
  · cases h
  rename_i n hn
  split at h
  · cases h
  rename_i hlen
  obtain ⟨ps, rfl, rfl, hsame⟩ := sameText_parsePeers (not_not.mp hlen) h
  rw [List.nil_append, (num_parseCount hn).1]
  exact ⟨rfl, .cons (.refl count) hsame⟩

/-- **A line that is accepted is written back**, up to the case of hexadecimal digits. -/
theorem sameText_renderNeighbours {line : Str}
    (h : parseNeighboursInto out why line = (true, nb, why')) :
    SameText (renderNeighbours nb) line := by
  rw [← words_splitSingleSpaces line, renderNeighbours]
  apply SameText.words
  unfold parseNeighboursInto at h
  split at h
  · rename_i verb w1 w2 rest hw
    rw [hw]
    split at h
    · cases h
    rename_i hverb
    rw [not_not.mp hverb]
    refine .cons (.refl _) ?_
    split at h
    · rename_i hnone
      obtain ⟨hpred, hsame⟩ := sameText_parseSuccessors h
      rw [hpred, hnone]
      exact .cons (.refl _) hsame
    · split at h
      · split at h
        · cases h
        · rename_i p hp
          obtain ⟨hpred, hsame⟩ := sameText_parseSuccessors h
          rw [hpred]
          exact List.rel_append (sameText_wire hp) hsame
      · cases h
  · cases h

theorem renderNeighbours_words {good : Str → Prop} (nb : Neighbours)
    (hverb : good "NEIGHBOURS".toList) (hnone : good "NONE".toList)
    (hnum : good (num nb.succs.length)) (hwire : ∀ p : Peer, ∀ w ∈ p.wire, good w) :
    ∃ ws, renderNeighbours nb = words ws ∧ ws.length ≤ 5 + 3 * nb.succs.length ∧
    ∀ w ∈ ws, good w := by
  refine ⟨_, rfl, ?_, fun w hw => ?_⟩
  · rw [List.length_append, List.length_cons, List.length_cons, length_flatMap_wire]
    cases nb.pred with
    | none =>
      rw [List.length_singleton]
      omega
    | some p =>
      rw [show p.wire.length = 3 from rfl]
      omega
  · simp only [List.cons_append, List.mem_cons, List.mem_append, List.mem_flatMap] at hw
    rcases hw with rfl | hw | rfl | ⟨p, -, hw⟩
    · exact hverb
    · cases hp : nb.pred with
      | none =>
        rw [hp] at hw
        exact List.mem_singleton.mp hw ▸ hnone
      | some p =>
        rw [hp] at hw
        exact hwire p w hw
    · exact hnum
    · exact hwire p w hw

theorem mem_words (h : c ∈ words ws) : c = ' ' ∨ ∃ w ∈ ws, c ∈ w := by
  induction ws with
  | nil => cases h
  | cons w ws ih =>
    rw [words_cons, List.mem_append, List.mem_flatMap] at h
    rcases h with h | ⟨v, hv, h⟩
    · exact Or.inr ⟨w, List.mem_cons_self .., h⟩
    · rcases List.mem_cons.mp h with h | h
      · exact Or.inl h
      · exact Or.inr ⟨v, List.mem_cons_of_mem _ hv, h⟩

theorem length_wire_le {w : Str} (h : w ∈ p.wire) : w.length ≤ 16 := by
  simp only [Peer.wire, List.mem_cons, List.not_mem_nil, or_false] at h
  rcases h with rfl | rfl | rfl
  · rw [length_idToHex]
  · have hcanon := p.canonical
    simp only [canonicalIp, decide_eq_true_eq, List.all_eq_true] at hcanon
    have hlen := @length_intercalate_le (p.ip.splitOn '.') 3 '.' fun w hw => by
      have hoctet := hcanon.2 w hw
      simp only [canonicalOctet, decide_eq_true_eq] at hoctet
      exact hoctet.2.1
    rwa [List.intercalate_splitOn, hcanon.1] at hlen
  · exact (Nat.length_toDigits_le_iff (by decide) (by decide)).mpr
      (Nat.lt_of_le_of_lt p.port_le (by decide))

theorem renderNeighbours_fits (h : nb.succs.length ≤ MAX_SUCCESSORS) :
    '\n' ∉ renderNeighbours nb ∧ (renderNeighbours nb).length ≤ MAX_LINE := by
  have hcount : ∀ n ≤ 16, (num n).length ≤ 16 := by decide
  have hwire : ∀ p : Peer, ∀ w ∈ p.wire, '\n' ∉ w ∧ w.length ≤ 16 := by
    refine fun p w hw => ⟨fun hc => ?_, length_wire_le hw⟩
    rcases visible_of_mem_wire hw hc with h | h <;> cases h
  obtain ⟨ws, hws, hlen, hgood⟩ := renderNeighbours_words nb (by decide) (by decide)
    ⟨not_mem_num (by decide) _, hcount _ h⟩ hwire
  rw [hws]
  refine ⟨fun hc => ?_, ?_⟩
  · rcases mem_words hc with hc | ⟨w, hw, hc⟩
    · cases hc
    · exact (hgood w hw).1 hc
  · have := length_words_le fun w hw => (hgood w hw).2
    simp only [MAX_SUCCESSORS, MAX_LINE] at *
    omega

/-! ### Refusals -/

theorem parsePeers_refused (h : (parsePeers out why ws parsed).1 = false) :
    (parsePeers out why ws parsed).2.1 = out := by
  induction ws, parsed using parsePeers.induct with
  | case1 parsed id ip port rest why hp => rw [parsePeers, hp]
  | case2 parsed id ip port rest p hp ih =>
    rw [parsePeers, hp] at h ⊢
    exact ih h
  | case3 ws parsed hws =>
    rw [parsePeers] at h
    · cases h
    · exact hws

theorem parseSuccessors_refused {count : Str} {rest : List Str}
    (h : (parseSuccessors out why count rest parsed).1 = false) :
    (parseSuccessors out why count rest parsed).2.1 = out := by
  unfold parseSuccessors at h ⊢
  cases hn : parseCount count with
  | none => rfl
  | some n =>
    rw [hn] at h
    dsimp only at h ⊢
    split at h
    · rw [if_pos ‹_›]
    · rw [if_neg ‹_›]
      exact parsePeers_refused h

theorem parseNeighboursInto_refused {line : Str}
    (h : (parseNeighboursInto out why line).1 = false) :
    (parseNeighboursInto out why line).2.1 = out := by
  revert h
  unfold parseNeighboursInto
  split
  · split
    · exact fun _ => rfl
    split
    · exact parseSuccessors_refused
    split
    · split
      · exact fun _ => rfl
      · exact parseSuccessors_refused
    · exact fun _ => rfl
  · exact fun _ => rfl

/-- **Neighbour lists survive the wire.**  With 1 to 16 successors and any predecessor, the reply is
one line that fits and is read back as it was; a line that is accepted is the one that is written,
up to the case of hexadecimal digits; and a refused line leaves the output argument as it was. -/
theorem neighbours_survive (out : Neighbours) (why : Str) :
    (∀ nb : Neighbours, 1 ≤ nb.succs.length → nb.succs.length ≤ MAX_SUCCESSORS →
      '\n' ∉ renderNeighbours nb ∧ (renderNeighbours nb).length ≤ MAX_LINE ∧
      parseNeighboursInto out why (renderNeighbours nb) = (true, nb, why)) ∧
    (∀ line nb why', parseNeighboursInto out why line = (true, nb, why') →
      SameText (renderNeighbours nb) line) ∧
    ∀ line nb why', parseNeighboursInto out why line = (false, nb, why') → nb = out := by
  refine ⟨fun nb h1 h2 => ?_, fun line nb why' h => sameText_renderNeighbours h,
    fun line nb why' h => ?_⟩
  · obtain ⟨hline, hfits⟩ := renderNeighbours_fits h2
    exact ⟨hline, hfits, parseNeighboursInto_renderNeighbours out why h1 h2⟩
  · have hout := parseNeighboursInto_refused (congrArg Prod.fst h)
    rwa [h] at hout

end ChordFs
