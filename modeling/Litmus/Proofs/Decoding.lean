import Litmus.Text.Utf8
import Mathlib.Data.String.Basic

/-!
# Decoding and encoding

Decoding accepts exactly the bytes of texts in UTF-8 and gives the text back
(`Text.decode_eq_ok_iff`).

The first byte of a sequence fixes the number of the bytes to come, the leading bits of the code
point, and the range of the second byte (`Text.Lead`). Every code point beyond ASCII has a first
byte whose range it meets (`Text.exists_lead`), and what meets the range of a first byte is a code
point whose sequence starts with that byte (`Text.Lead.encode_eq`). The decoder keeps the second
fact for the sequence it is in (`Text.Follows`), so what it has read of one is always the start of
the code point that it ends up with.
-/

namespace Litmus.Text

variable {b : UInt8} {p : Pending} {place start v n more low high bits : ℕ}

/-- **The bytes of a text in UTF-8.** -/
def utf8 (text : String) : List UInt8 := text.toByteArray.data.toList

/-- The bytes of a text are those of its characters, one after the other. -/
theorem utf8_eq_flatMap (text : String) :
    utf8 text = text.toList.flatMap String.utf8EncodeChar := by
  have hbytes : (String.ofList text.toList).toByteArray =
      (text.toList.flatMap String.utf8EncodeChar).toByteArray := rfl
  rw [String.ofList_toList] at hbytes
  rw [utf8, hbytes, List.data_toByteArray]

/-- The last bytes of the sequence of a code point, with six bits in each. -/
def continuation (v : ℕ) : ℕ → List UInt8
  | 0 => []
  | n + 1 => UInt8.ofNat (v / 64 ^ n % 64 + 0x80) :: continuation v n

/-! ### First bytes -/

/-- A first byte, the number of bytes after the next one, the range of the next one, and the bits of
the code point that are known. -/
inductive Lead : (b more low high bits : ℕ) → Prop
  /-- Sequences of two bytes. -/
  | two {b : ℕ} (h : 0xC2 ≤ b) (h' : b ≤ 0xDF) : Lead b 0 0x80 0xBF (b - 0xC0)
  /-- Sequences of three bytes. A second byte below the range would make them overlong. -/
  | threeLow : Lead 0xE0 1 0xA0 0xBF 0
  /-- Sequences of three bytes. A second byte above the range would make them surrogates. -/
  | threeHigh : Lead 0xED 1 0x80 0x9F 0xD
  /-- All other sequences of three bytes. -/
  | three {b : ℕ} (h : 0xE1 ≤ b) (h' : b ≤ 0xEF) (hne : b ≠ 0xED) : Lead b 1 0x80 0xBF (b - 0xE0)
  /-- Sequences of four bytes. A second byte below the range would make them overlong. -/
  | fourLow : Lead 0xF0 2 0x90 0xBF 0
  /-- All other sequences of four bytes. -/
  | four {b : ℕ} (h : 0xF1 ≤ b) (h' : b ≤ 0xF3) : Lead b 2 0x80 0xBF (b - 0xF0)
  /-- Sequences of four bytes. A second byte above the range would exceed the code points. -/
  | fourHigh : Lead 0xF4 2 0x80 0x8F 4

/-- The code point has the given leading bits, and the byte after them is in the range. -/
structure Meets (v more low high bits : ℕ) : Prop where
  /-- The leading bits. -/
  bits_eq : v / 64 ^ (more + 1) = bits
  /-- The next byte is not below the range. -/
  low_le : low ≤ v / 64 ^ more % 64 + 0x80
  /-- The next byte is not above the range. -/
  le_high : v / 64 ^ more % 64 + 0x80 ≤ high

/-- A leading byte is none of ASCII, and asks for a continuation byte. -/
theorem Lead.range (h : Lead n more low high bits) : 0x80 ≤ n ∧ 0x80 ≤ low ∧ high ≤ 0xBF := by
  cases h with
  | two h h' => omega
  | threeLow => omega
  | threeHigh => omega
  | three h h' hne => omega
  | fourLow => omega
  | four h h' => omega
  | fourHigh => omega

/-- What the decoder makes of a leading byte is in the table. -/
theorem lead_of_ofLead? (h : Pending.ofLead? start b = some p) :
    Lead b.toNat p.more p.low.toNat p.high.toNat p.bits := by
  unfold Pending.ofLead? at h
  simp only [UInt8.le_iff_toNat_le, ← UInt8.toNat_inj] at h
  -- one case for each row of the table
  split at h
  · obtain rfl := Option.some.inj h
    rename_i hb
    exact .two hb.1 hb.2
  split at h
  · obtain rfl := Option.some.inj h
    rename_i hb
    exact hb ▸ .threeLow
  split at h
  · obtain rfl := Option.some.inj h
    rename_i hb
    exact hb ▸ .threeHigh
  split at h
  · obtain rfl := Option.some.inj h
    rename_i hne hb
    exact .three hb.1 hb.2 hne
  split at h
  · obtain rfl := Option.some.inj h
    rename_i hb
    exact hb ▸ .fourLow
  split at h
  · obtain rfl := Option.some.inj h
    rename_i hb
    exact .four hb.1 hb.2
  split at h
  · obtain rfl := Option.some.inj h
    rename_i hb
    exact hb ▸ .fourHigh
  · cases h

/-- And the decoder makes of a leading byte whatever the table says. -/
theorem Lead.exists_ofLead? (h : Lead b.toNat more low high bits) (start : ℕ) :
    ∃ p, Pending.ofLead? start b = some p ∧ p.more = more ∧ p.low.toNat = low ∧
      p.high.toNat = high ∧ p.bits = bits := by
  unfold Pending.ofLead?
  simp only [UInt8.le_iff_toNat_le, ← UInt8.toNat_inj]
  generalize b.toNat = n at h
  cases h with
  | two h h' =>
    rw [if_pos ⟨h, h'⟩]
    exact ⟨_, rfl, rfl, rfl, rfl, rfl⟩
  | threeLow => exact ⟨_, rfl, rfl, rfl, rfl, rfl⟩
  | threeHigh => exact ⟨_, rfl, rfl, rfl, rfl, rfl⟩
  | three h h' hne =>
    have htwo : ¬(0xC2 ≤ n ∧ n ≤ 0xDF) := by omega
    have hlow : n ≠ 0xE0 := by omega
    refine ⟨_, (if_neg htwo).trans ((if_neg hlow).trans ((if_neg hne).trans (if_pos ⟨h, h'⟩))),
      rfl, rfl, rfl, rfl⟩
  | fourLow => exact ⟨_, rfl, rfl, rfl, rfl, rfl⟩
  | four h h' =>
    have hn : n = 0xF1 ∨ n = 0xF2 ∨ n = 0xF3 := by omega
    rcases hn with rfl | rfl | rfl
    · exact ⟨_, rfl, rfl, rfl, rfl, rfl⟩
    · exact ⟨_, rfl, rfl, rfl, rfl, rfl⟩
    · exact ⟨_, rfl, rfl, rfl, rfl, rfl⟩
  | fourHigh => exact ⟨_, rfl, rfl, rfl, rfl, rfl⟩

/-! ### Code points -/

theorem val_ofNat (h : v.isValidChar) : (Char.ofNat v).val.toNat = v := by
  have hchar : Char.ofNat v = Char.ofNatAux v h := dif_pos h
  rw [hchar]
  rfl

/-- **What starts with a leading byte of the table and goes on as it asks for is a character.** So
the table excludes surrogates and everything above the last plane. -/
theorem Lead.isValidChar (h : Lead n more low high bits) (hv : Meets v more low high bits) :
    v.isValidChar := by
  obtain ⟨hbits, hlow, hhigh⟩ := hv
  rw [Nat.isValidChar]
  cases h with
  | two h h' => omega
  | threeLow => omega
  | threeHigh => omega
  | three h h' hne => omega
  | fourLow => omega
  | four h h' => omega
  | fourHigh => omega

theorem encode_ascii (h : v < 0x80) :
    String.utf8EncodeChar (Char.ofNat v) = [UInt8.ofNat v] := by
  rw [String.utf8EncodeChar, val_ofNat (Or.inl (by omega))]
  exact if_pos (Nat.le_of_lt_succ h)

theorem encode_two (h : v.isValidChar) (hlow : 0x80 ≤ v) (hhigh : v < 0x800) :
    String.utf8EncodeChar (Char.ofNat v) = UInt8.ofNat (v / 64 ^ 1 + 0xC0) :: continuation v 1 := by
  have hone : ¬v ≤ 127 := by omega
  have htwo : v ≤ 2047 := by omega
  have hlead : v / 64 % 32 = v / 64 := by omega
  rw [String.utf8EncodeChar, val_ofNat h]
  simp [hone, htwo, hlead, continuation]

theorem encode_three (h : v.isValidChar) (hlow : 0x800 ≤ v) (hhigh : v < 0x10000) :
    String.utf8EncodeChar (Char.ofNat v) = UInt8.ofNat (v / 64 ^ 2 + 0xE0) :: continuation v 2 := by
  have hone : ¬v ≤ 127 := by omega
  have htwo : ¬v ≤ 2047 := by omega
  have hthree : v ≤ 65535 := by omega
  have hlead : v / 4096 % 16 = v / 4096 := by omega
  rw [String.utf8EncodeChar, val_ofNat h]
  simp [hone, htwo, hthree, hlead, continuation]

theorem encode_four (h : v.isValidChar) (hlow : 0x10000 ≤ v) :
    String.utf8EncodeChar (Char.ofNat v) = UInt8.ofNat (v / 64 ^ 3 + 0xF0) :: continuation v 3 := by
  have hone : ¬v ≤ 127 := by omega
  have htwo : ¬v ≤ 2047 := by omega
  have hthree : ¬v ≤ 65535 := by omega
  have hlead : v / 262144 % 8 = v / 262144 := by
    rw [Nat.isValidChar] at h
    omega
  rw [String.utf8EncodeChar, val_ofNat h]
  simp [hone, htwo, hthree, hlead, continuation]

/-- **The sequence of a code point that meets the range of a first byte starts with that byte.** -/
theorem Lead.encode_eq (h : Lead n more low high bits) (hv : Meets v more low high bits) :
    String.utf8EncodeChar (Char.ofNat v) = UInt8.ofNat n :: continuation v (more + 1) := by
  have hvalid := h.isValidChar hv
  obtain ⟨hbits, hlow, hhigh⟩ := hv
  cases h with
  | two h h' =>
    have hn : v / 64 ^ 1 + 0xC0 = n := by omega
    rw [encode_two hvalid (by omega) (by omega), hn]
  | threeLow => rw [encode_three hvalid (by omega) (by omega), hbits]
  | threeHigh => rw [encode_three hvalid (by omega) (by omega), hbits]
  | three h h' hne =>
    have hn : v / 64 ^ 2 + 0xE0 = n := by omega
    rw [encode_three hvalid (by omega) (by omega), hn]
  | fourLow => rw [encode_four hvalid (by omega), hbits]
  | four h h' =>
    have hn : v / 64 ^ 3 + 0xF0 = n := by omega
    rw [encode_four hvalid (by omega), hn]
  | fourHigh => rw [encode_four hvalid (by omega), hbits]

/-- **Every code point beyond ASCII meets the range of a first byte.** -/
theorem exists_lead (h : v.isValidChar) (hv : 0x80 ≤ v) :
    ∃ n more low high bits, n < 256 ∧ Lead n more low high bits ∧ Meets v more low high bits := by
  rw [Nat.isValidChar] at h
  by_cases htwo : v < 0x800
  · exact ⟨v / 64 + 0xC0, 0, _, _, _, by omega, .two (by omega) (by omega), by omega, by omega,
      by omega⟩
  by_cases hthreeLow : v < 0x1000
  · exact ⟨_, 1, _, _, _, by omega, .threeLow, by omega, by omega, by omega⟩
  -- this row of the table leaves out the surrogates
  by_cases hthreeHigh : v / 0x1000 = 0xD
  · exact ⟨_, 1, _, _, _, by omega, .threeHigh, by omega, by omega, by omega⟩
  by_cases hthree : v < 0x10000
  · exact ⟨v / 0x1000 + 0xE0, 1, _, _, _, by omega, .three (by omega) (by omega) (by omega),
      by omega, by omega, by omega⟩
  by_cases hfourLow : v < 0x40000
  · exact ⟨_, 2, _, _, _, by omega, .fourLow, by omega, by omega, by omega⟩
  by_cases hfour : v < 0x100000
  · exact ⟨v / 0x40000 + 0xF0, 2, _, _, _, by omega, .four (by omega) (by omega), by omega,
      by omega, by omega⟩
  · exact ⟨_, 2, _, _, _, by omega, .fourHigh, by omega, by omega, by omega⟩

/-! ### Decoding what was encoded -/

/-- The last byte of a character completes it. -/
theorem decodeFrom_last (hb : p.low ≤ b ∧ b ≤ p.high) (hmore : p.more = 0) (place : ℕ)
    (rest : List UInt8) : decodeFrom place (some p) (b :: rest) =
      (decodeFrom (place + 1) none rest).map
        (Char.ofNat (64 * p.bits + (b.toNat - 0x80)) :: ·) := by
  rw [decodeFrom, if_pos hb, hmore]

/-- The pending sequence after one more byte that is not the last. -/
def Pending.next (p : Pending) (n : ℕ) (b : UInt8) : Pending :=
  ⟨p.start, p.byte, p.seen + 1, n, 0x80, 0xBF, 64 * p.bits + (b.toNat - 0x80)⟩

/-- A byte that is not the last adds its bits. -/
theorem decodeFrom_next (hb : p.low ≤ b ∧ b ≤ p.high) (hmore : p.more = n + 1) (place : ℕ)
    (rest : List UInt8) : decodeFrom place (some p) (b :: rest) =
      decodeFrom (place + 1) (some (p.next n b)) rest := by
  rw [decodeFrom, if_pos hb, hmore]
  rfl

theorem toNat_ofNat_continuation (v n : ℕ) :
    (UInt8.ofNat (v / 64 ^ n % 64 + 0x80)).toNat = v / 64 ^ n % 64 + 0x80 := by
  rw [UInt8.toNat_ofNat']
  omega

/-- The next byte of a code point that a pending sequence admits is in the range. -/
theorem Meets.byte_mem (hv : Meets v n p.low.toNat p.high.toNat bits) :
    p.low ≤ UInt8.ofNat (v / 64 ^ n % 64 + 0x80) ∧
      UInt8.ofNat (v / 64 ^ n % 64 + 0x80) ≤ p.high := by
  rw [UInt8.le_iff_toNat_le, UInt8.le_iff_toNat_le, toNat_ofNat_continuation]
  exact ⟨hv.low_le, hv.le_high⟩

/-- The leading bits of a code point with six more bits. -/
theorem Meets.bits_append (hv : Meets v n low high bits) :
    64 * bits + (v / 64 ^ n % 64 + 0x80 - 0x80) = v / 64 ^ n := by
  have hbits : v / 64 ^ n / 64 = bits := by
    rw [← hv.bits_eq, Nat.div_div_eq_div_mul, ← pow_succ]
  omega

/-- The decoder takes the last bytes of a code point that its pending sequence admits. -/
theorem decodeFrom_continuation (hv : Meets v p.more p.low.toNat p.high.toNat p.bits) (place : ℕ)
    (rest : List UInt8) :
    ∃ place', decodeFrom place (some p) (continuation v (p.more + 1) ++ rest) =
      (decodeFrom place' none rest).map (Char.ofNat v :: ·) := by
  induction hmore : p.more generalizing p place with
  | zero =>
    rw [hmore] at hv
    refine ⟨place + 1, ?_⟩
    rw [continuation, List.cons_append, decodeFrom_last hv.byte_mem hmore,
      toNat_ofNat_continuation, hv.bits_append, pow_zero, Nat.div_one]
    rfl
  | succ n ih =>
    rw [hmore] at hv
    rw [continuation, List.cons_append, decodeFrom_next hv.byte_mem hmore]
    refine ih ⟨?_, ?_, ?_⟩ (place + 1) rfl
    · rw [Pending.next, toNat_ofNat_continuation, hv.bits_append]
    · exact Nat.le_add_left _ _
    · show v / 64 ^ n % 64 + 0x80 ≤ 0xBF
      omega

/-- The decoder takes the sequence of a code point. -/
theorem decodeFrom_encode (c : Char) (place : ℕ) (rest : List UInt8) :
    ∃ place', decodeFrom place none (String.utf8EncodeChar c ++ rest) =
      (decodeFrom place' none rest).map (c :: ·) := by
  rw [← Char.ofNat_toNat c]
  have hvalid : c.toNat.isValidChar := c.valid
  generalize c.toNat = v at hvalid
  by_cases hascii : v < 0x80
  · have hbyte : (UInt8.ofNat v).toNat = v := by
      rw [UInt8.toNat_ofNat']
      omega
    have hb : UInt8.ofNat v < 0x80 := by
      rw [UInt8.lt_iff_toNat_lt, hbyte]
      exact hascii
    refine ⟨place + 1, ?_⟩
    rw [encode_ascii hascii, List.singleton_append, decodeFrom, if_pos hb, hbyte]
  · obtain ⟨n, more, low, high, bits, hn, hlead, hv⟩ := exists_lead hvalid (Nat.le_of_not_lt hascii)
    have hbyte : (UInt8.ofNat n).toNat = n := by
      rw [UInt8.toNat_ofNat']
      omega
    have hb : ¬UInt8.ofNat n < 0x80 := by
      rw [UInt8.lt_iff_toNat_lt, hbyte]
      exact Nat.not_lt_of_le hlead.range.1
    have hencode := hlead.encode_eq hv
    rw [← hbyte] at hlead
    obtain ⟨p, hp, rfl, rfl, rfl, rfl⟩ := hlead.exists_ofLead? place
    rw [hencode, List.cons_append, decodeFrom, if_neg hb, hp]
    exact decodeFrom_continuation hv (place + 1) rest

/-- **Decoding the bytes of some characters gives the characters back.** -/
theorem decodeFrom_flatMap (cs : List Char) (place : ℕ) :
    decodeFrom place none (cs.flatMap String.utf8EncodeChar) = .ok cs := by
  induction cs generalizing place with
  | nil => rfl
  | cons c cs ih =>
    obtain ⟨place', hdecode⟩ := decodeFrom_encode c place (cs.flatMap String.utf8EncodeChar)
    rw [List.flatMap_cons, hdecode, ih]
    rfl

/-! ### Encoding what was decoded -/

/-- **The bytes `read` are the start of a code point**, if a sequence is pending: each code point
that it still admits starts with them. -/
inductive Follows : Option Pending → List UInt8 → Prop
  /-- Between sequences nothing is kept. -/
  | between : Follows none []
  /-- Inside a sequence. -/
  | inside {p : Pending} {read : List UInt8} (hlow : 0x80 ≤ p.low.toNat)
    (hhigh : p.high.toNat ≤ 0xBF)
    (hencode : ∀ v, Meets v p.more p.low.toNat p.high.toNat p.bits →
      String.utf8EncodeChar (Char.ofNat v) = read ++ continuation v (p.more + 1)) :
    Follows (some p) read

/-- A leading byte opens a character. -/
theorem follows_of_ofLead? (h : Pending.ofLead? start b = some p) : Follows (some p) [b] := by
  have hlead := lead_of_ofLead? h
  obtain ⟨-, hlow, hhigh⟩ := hlead.range
  refine .inside hlow hhigh fun v hv ↦ ?_
  rw [hlead.encode_eq hv, UInt8.ofNat_toNat]
  rfl

/-- The code point that a pending sequence ends up with after the byte `b`, or its leading bits. -/
theorem meets_of_byte (hlow : 0x80 ≤ p.low.toNat) (hhigh : p.high.toNat ≤ 0xBF)
    (hb : p.low ≤ b ∧ b ≤ p.high) (hv : v / 64 ^ p.more = 64 * p.bits + (b.toNat - 0x80)) :
    Meets v p.more p.low.toNat p.high.toNat p.bits ∧
      UInt8.ofNat (v / 64 ^ p.more % 64 + 0x80) = b := by
  rw [UInt8.le_iff_toNat_le, UInt8.le_iff_toNat_le] at hb
  have hbyte : v / 64 ^ p.more % 64 + 0x80 = b.toNat := by omega
  refine ⟨⟨?_, ?_, ?_⟩, ?_⟩
  · rw [pow_succ, ← Nat.div_div_eq_div_mul, hv]
    omega
  · omega
  · omega
  · rw [hbyte, UInt8.ofNat_toNat]

/-- A continuation byte goes on with it. -/
theorem Follows.next {read : List UInt8} (h : Follows (some p) read)
    (hb : p.low ≤ b ∧ b ≤ p.high) (hmore : p.more = n + 1) :
    Follows (some (p.next n b)) (read ++ [b]) := by
  cases h with
  | inside hlow hhigh hencode =>
    refine .inside (Nat.le_refl _) (Nat.le_refl _) fun v hv ↦ ?_
    obtain ⟨hmeets, hbyte⟩ := meets_of_byte hlow hhigh hb (hmore ▸ hv.bits_eq)
    rw [hencode v hmeets, continuation, hbyte, hmore, List.append_assoc]
    rfl

/-- **What has been read when a character is complete are its own bytes.** So no character has two
encodings. -/
theorem Follows.last {read : List UInt8} (h : Follows (some p) read)
    (hb : p.low ≤ b ∧ b ≤ p.high) (hmore : p.more = 0) :
    String.utf8EncodeChar (Char.ofNat (64 * p.bits + (b.toNat - 0x80))) = read ++ [b] := by
  cases h with
  | inside hlow hhigh hencode =>
    obtain ⟨hmeets, hbyte⟩ := meets_of_byte (v := 64 * p.bits + (b.toNat - 0x80)) hlow hhigh hb
      (by rw [hmore, pow_zero, Nat.div_one])
    rw [hencode _ hmeets, continuation, hbyte, hmore]
    rfl

theorem exists_of_map_eq_ok {x : Except DecodeFault (List Char)} {c : Char} {cs : List Char}
    (h : x.map (c :: ·) = .ok cs) : ∃ cs', x = .ok cs' ∧ cs = c :: cs' := by
  cases x with
  | error f => cases h
  | ok cs' => exact ⟨cs', rfl, (Except.ok.inj h).symm⟩

/-- **What the decoder has read of a sequence and the bytes to come are the sequences of what it
gives.** -/
theorem eq_flatMap_of_decodeFrom {pending : Option Pending} {read bytes : List UInt8}
    {cs : List Char} (hread : Follows pending read) (h : decodeFrom place pending bytes = .ok cs) :
    read ++ bytes = cs.flatMap String.utf8EncodeChar := by
  -- a byte either ends a sequence, and then `read` is all of it, or is added to `read`
  induction bytes generalizing place pending read cs with
  | nil =>
    cases hread with
    | between =>
      obtain rfl := Except.ok.inj h
      rfl
    | inside => cases h
  | cons b bytes ih =>
    cases pending with
    | none =>
      obtain ⟨⟩ := hread
      rw [decodeFrom] at h
      split at h
      · rename_i hb
        obtain ⟨cs', hcs', rfl⟩ := exists_of_map_eq_ok h
        rw [List.flatMap_cons, ← ih .between hcs', encode_ascii (UInt8.lt_iff_toNat_lt.1 hb),
          UInt8.ofNat_toNat]
        rfl
      · split at h
        · cases h
        · rename_i p hp
          exact ih (follows_of_ofLead? hp) h
    | some p =>
      by_cases hb : p.low ≤ b ∧ b ≤ p.high
      · cases hmore : p.more with
        | zero =>
          rw [decodeFrom_last hb hmore] at h
          obtain ⟨cs', hcs', rfl⟩ := exists_of_map_eq_ok h
          rw [List.flatMap_cons, hread.last hb hmore, ← ih .between hcs']
          simp
        | succ n =>
          rw [decodeFrom_next hb hmore] at h
          rw [← ih (hread.next hb hmore) h]
          simp
      · rw [decodeFrom, if_neg hb] at h
        cases h

/-- **Decoding accepts exactly the bytes of texts in UTF-8**, and gives the text. -/
theorem decode_eq_ok_iff {bytes : List UInt8} {text : String} :
    decode bytes = .ok text ↔ bytes = utf8 text := by
  constructor
  · intro h
    rw [decode] at h
    cases hcs : decodeFrom 0 none bytes with
    | error f =>
      rw [hcs] at h
      cases h
    | ok cs =>
      rw [hcs] at h
      obtain rfl := Except.ok.inj h
      rw [utf8_eq_flatMap, String.toList_ofList]
      exact eq_flatMap_of_decodeFrom .between hcs
  · rintro rfl
    rw [decode, utf8_eq_flatMap, decodeFrom_flatMap]
    exact congrArg _ String.ofList_toList

end Litmus.Text
