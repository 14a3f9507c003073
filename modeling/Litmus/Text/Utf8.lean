import Litmus.Numeral
import Litmus.Text.Quoted

/-!
# Decoding UTF-8

Bytes are read one at a time. Inside a sequence the decoder keeps what it still expects, so that a
bad byte is reported together with the sequence that it breaks. The report names the place where
the sequence starts and covers the bytes that were right so far.
-/

namespace Litmus.Text

/-- Why bytes are not UTF-8. -/
inductive DecodeReason where
  /-- A byte that starts no sequence. -/
  | badStart
  /-- A byte that cannot follow the ones before it. -/
  | badContinuation
  /-- The bytes stop inside a sequence. -/
  | endOfData
  deriving DecidableEq

/-- The wording of a reason. -/
def DecodeReason.message : DecodeReason → String
  | .badStart => "invalid start byte"
  | .badContinuation => "invalid continuation byte"
  | .endOfData => "unexpected end of data"

/-- A sequence of bytes that is not UTF-8: where it starts, its first byte, the number of its bytes
that are covered by the report, and the reason. -/
structure DecodeFault where
  /-- The place of the first byte. -/
  start : Nat
  /-- The first byte. -/
  byte : UInt8
  /-- The number of bytes reported. -/
  length : Nat
  /-- What is wrong with them. -/
  reason : DecodeReason
  deriving DecidableEq

/-- The wording of a decoding fault. -/
def DecodeFault.message (f : DecodeFault) : String :=
  "'utf-8' codec can't decode " ++
    (if f.length = 1 then
      "byte 0x" ++ String.ofList (hex 2 f.byte.toNat) ++ " in position " ++
        Numeral.write f.start
    else
      "bytes in position " ++ Numeral.write f.start ++ "-" ++
        Numeral.write (f.start + f.length - 1 : Nat)) ++
    ": " ++ f.reason.message

/-- A sequence of two to four bytes of which the first have been read. -/
structure Pending where
  /-- The place of its first byte. -/
  start : Nat
  /-- Its first byte. -/
  byte : UInt8
  /-- The number of bytes read. -/
  seen : Nat
  /-- The number of bytes to come after the next one. -/
  more : Nat
  /-- The least value of the next byte. -/
  low : UInt8
  /-- The greatest value of the next byte. -/
  high : UInt8
  /-- The bits of the code point read so far. -/
  bits : Nat

/-- The fault of a pending sequence that goes no further. -/
def Pending.fault (p : Pending) (reason : DecodeReason) : DecodeFault :=
  { start := p.start, byte := p.byte, length := p.seen, reason := reason }

/-- The sequence that a byte of at least 0x80 starts. Restricting the second byte excludes overlong
forms, surrogates and code points above U+10FFFF. -/
def Pending.ofLead? (start : Nat) (b : UInt8) : Option Pending :=
  if 0xC2 ≤ b ∧ b ≤ 0xDF then some ⟨start, b, 1, 0, 0x80, 0xBF, b.toNat - 0xC0⟩
  else if b = 0xE0 then some ⟨start, b, 1, 1, 0xA0, 0xBF, 0⟩
  else if b = 0xED then some ⟨start, b, 1, 1, 0x80, 0x9F, 0xD⟩
  else if 0xE1 ≤ b ∧ b ≤ 0xEF then some ⟨start, b, 1, 1, 0x80, 0xBF, b.toNat - 0xE0⟩
  else if b = 0xF0 then some ⟨start, b, 1, 2, 0x90, 0xBF, 0⟩
  else if 0xF1 ≤ b ∧ b ≤ 0xF3 then some ⟨start, b, 1, 2, 0x80, 0xBF, b.toNat - 0xF0⟩
  else if b = 0xF4 then some ⟨start, b, 1, 2, 0x80, 0x8F, 4⟩
  else none

/-- Decodes bytes whose first is at the given place, in the middle of `pending` if there is one. -/
def decodeFrom (place : Nat) : Option Pending → List UInt8 → Except DecodeFault (List Char)
  | none, [] => .ok []
  | some p, [] => .error (p.fault .endOfData)
  | none, b :: rest =>
    if b < 0x80 then (decodeFrom (place + 1) none rest).map (Char.ofNat b.toNat :: ·)
    else match Pending.ofLead? place b with
      | none => .error ⟨place, b, 1, .badStart⟩
      | some p => decodeFrom (place + 1) (some p) rest
  | some p, b :: rest =>
    if p.low ≤ b ∧ b ≤ p.high then
      let bits := 64 * p.bits + (b.toNat - 0x80)
      match p.more with
      | 0 => (decodeFrom (place + 1) none rest).map (Char.ofNat bits :: ·)
      | n + 1 =>
        decodeFrom (place + 1) (some ⟨p.start, p.byte, p.seen + 1, n, 0x80, 0xBF, bits⟩) rest
    else .error (p.fault .badContinuation)

/-- The text that bytes stand for. -/
def decode (bytes : List UInt8) : Except DecodeFault String :=
  (decodeFrom 0 none bytes).map String.ofList

end Litmus.Text
