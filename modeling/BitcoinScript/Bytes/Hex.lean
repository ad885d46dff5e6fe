import BitcoinScript.Bytes.Basic
import BitcoinScript.Text.Quote

/-!
# Hexadecimal text

Bytes are written as pairs of lower-case hex digits. Reading accepts both cases. It works on the
UTF-8 bytes of the text: an odd number of them is refused before any digit is looked at, and
otherwise the first byte that is no digit is named with its position.
-/

namespace BitcoinScript.Hex

/-- Why a text is not the hex form of a byte string. -/
inductive Error where
  | oddLength
  /-- The byte at this position is no hex digit. -/
  | invalidDigit (byte : UInt8) (index : Nat)
  deriving DecidableEq, Repr

def Error.message : Error → String
  | .oddLength => "Odd number of digits"
  | .invalidDigit byte index =>
      "Invalid character " ++ Text.quoteByte byte ++ " at position " ++ toString index

def digit (n : Nat) : Char :=
  if n < 10 then Char.ofNat (48 + n) else Char.ofNat (87 + n)

def digits (bs : Bytes) : List Char :=
  bs.flatMap fun b => [digit (b.toNat / 16), digit (b.toNat % 16)]

def encode (bs : Bytes) : String := String.ofList (digits bs)

/-- The value of a digit of either case, given by its character code. -/
def digitValue? (b : UInt8) : Option Nat :=
  let n := b.toNat
  if 48 ≤ n ∧ n ≤ 57 then some (n - 48)
  else if 65 ≤ n ∧ n ≤ 70 then some (n - 55)
  else if 97 ≤ n ∧ n ≤ 102 then some (n - 87)
  else none

/-- Reads pairs of digits, the first of them standing at position `index` of the whole text. -/
def decodeFrom : (index : Nat) → Bytes → Except Error Bytes
  | index, hi :: lo :: rest =>
      match digitValue? hi, digitValue? lo with
      | none, _ => .error (.invalidDigit hi index)
      | some _, none => .error (.invalidDigit lo (index + 1))
      | some h, some l => (decodeFrom (index + 2) rest).map (UInt8.ofNat (16 * h + l) :: ·)
  | _, _ => .ok []

def utf8 (s : String) : Bytes := s.toList.flatMap String.utf8EncodeChar

def decode (s : String) : Except Error Bytes :=
  let text := utf8 s
  if text.length % 2 = 1 then .error .oddLength else decodeFrom 0 text

end BitcoinScript.Hex
