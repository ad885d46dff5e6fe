import BitcoinScript.Number

/-!
# Operands

The items on a script's stack are byte strings. This module holds what scripts do with them besides
arithmetic: their truth value, bitwise operations, cutting, and changing the size of a number.
-/

namespace BitcoinScript.Operand

/-- Whether a byte string is true: it holds a byte other than zero, where `0x80` as the last byte
does not count. -/
def isTrue : Bytes → Bool
  | [] => false
  | [b] => decide (b ≠ 0 ∧ b ≠ 0x80)
  | b :: bs => decide (b ≠ 0) || isTrue bs

def ofBool (b : Bool) : Bytes := if b then [1] else []

inductive Bitwise where
  | and
  | or
  | xor
  deriving DecidableEq, Repr

def Bitwise.onBytes : Bitwise → UInt8 → UInt8 → UInt8
  | .and => (· &&& ·)
  | .or => (· ||| ·)
  | .xor => (· ^^^ ·)

def bitwise (op : Bitwise) (a b : Bytes) : Except Stop Bytes :=
  if a.length ≠ b.length then .error (.error .invalidOperandSize)
  else .ok (List.zipWith op.onBytes a b)

def invert (a : Bytes) : Bytes := a.map (~~~ ·)

def split (a : Bytes) (position : Nat) : Except Stop (Bytes × Bytes) :=
  if a.length < position then .error (.error .invalidSplitRange)
  else .ok (a.take position, a.drop position)

/-- Takes the sign bit off a number, and gives the two parts. -/
def splitSign : Bytes → Bytes × UInt8
  | [] => ([], 0)
  | [b] => ([b &&& 0x7f], b &&& 0x80)
  | b :: bs => (b :: (splitSign bs).1, (splitSign bs).2)

/-- The number in exactly `size` bytes. Zeros fill the space between the magnitude and the last
byte, which receives the sign. A number never grows into no bytes at all, so the size zero is
reached by the empty number only. -/
def resize (a : Bytes) (size : Nat) : Except Stop Bytes :=
  match Number.minimal? a with
  | none => .error .fault
  | some trimmed =>
      if size < trimmed.length then .error (.error .impossibleEncoding)
      else if trimmed.length = size then .ok trimmed
      else match size with
        | 0 => .error .fault
        | fill + 1 =>
            let (magnitude, sign) := splitSign trimmed
            .ok (magnitude ++ List.replicate (fill - magnitude.length) 0 ++ [sign])

end BitcoinScript.Operand
