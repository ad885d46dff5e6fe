import BitcoinScript.Bytes.Basic
import BitcoinScript.Failure

/-!
# Script numbers

A script number is an integer written as a little-endian magnitude whose top bit is the sign.
`Number.value` reads every byte string as a number and `Number.encode` writes a number in its
shortest form. A byte string is *minimal* if no shorter one has the same value; `Number.minimal`
trims any byte string to the minimal one of its value.

Numeric operands are read under a limit on their length, eight bytes at most, so that a 64-bit word
holds them: `Number.wordValue`. Their arithmetic is that of 64-bit integers, and `Number.wrap`
brings a result back into their range.
-/

namespace BitcoinScript.Number

/-- The longest byte string that is read as an operand under any limit. -/
def maxLength : Nat := 8

/-- The magnitude and sign of a byte string: the sign is the top bit of the last byte. -/
def signMagnitude : Bytes → Bool × Nat
  | [] => (false, 0)
  | [b] => (decide (0x80 ≤ b.toNat), b.toNat % 0x80)
  | b :: bs => ((signMagnitude bs).1, b.toNat + 256 * (signMagnitude bs).2)

def value (d : Bytes) : Int :=
  let (negative, magnitude) := signMagnitude d
  if negative then -(magnitude : Int) else magnitude

/-- The little-endian digits of a magnitude, without zeros at the end. -/
def magnitudeBytes (n : Nat) : Bytes :=
  if h : n = 0 then [] else UInt8.ofNat n :: magnitudeBytes (n / 256)
termination_by n
decreasing_by omega

/-- Puts the sign into the top bit of the last byte, or behind it where that bit is taken. -/
def withSign (negative : Bool) : Bytes → Bytes
  | [] => []
  | [b] =>
      if 0x80 ≤ b.toNat then [b, if negative then 0x80 else 0]
      else [if negative then b ||| 0x80 else b]
  | b :: bs => b :: withSign negative bs

/-- The shortest byte string of a number. -/
def encode (n : Int) : Bytes := withSign (decide (n < 0)) (magnitudeBytes n.natAbs)

/-- Whether the last byte is needed. It is not if it holds nothing but a sign that the byte
before it has room for. The argument is reversed: its head is the last byte. -/
def isMinimalReversed : Bytes → Bool
  | [] => true
  | [last] => decide (last &&& 0x7f ≠ 0)
  | last :: before :: _ => decide (last &&& 0x7f ≠ 0) || decide (before &&& 0x80 ≠ 0)

def isMinimal (d : Bytes) : Bool := isMinimalReversed d.reverse

def isMinimalWithin (limit : Nat) (d : Bytes) : Bool := d.length ≤ limit && isMinimal d

/-- Removes zero bytes before the sign, and gives the sign to the byte reached if that has room
for it. The argument and the result are reversed. -/
def trimReversed : Bytes → Bytes
  | [] => []
  | last :: before =>
      if last &&& 0x7f ≠ 0 then last :: before
      else match before.dropWhile (· = 0) with
        | [] => []
        | b :: rest => if b &&& 0x80 ≠ 0 then last :: b :: rest else (b ||| last) :: rest

def minimal (d : Bytes) : Bytes := (trimReversed d.reverse).reverse

/-- Trims a byte string that ends in a padding byte `last`, looking for the last byte that is not
zero among the first `i`. There is no result where an index lies outside. -/
def trimAt? (d : Array UInt8) (last : UInt8) : (i : Nat) → Option (Array UInt8)
  | 0 => some #[]
  | i + 1 => do
      let b ← d[i]?
      if b = 0 then trimAt? d last i
      else if b &&& 0x80 ≠ 0 then
        if h : i + 1 < d.size then some ((d.set (i + 1) last).take (i + 2)) else none
      else if h : i < d.size then some ((d.set i (b ||| last)).take (i + 1))
      else none

/-- The minimal byte string with the value of the given one, as indices give it. -/
def minimal? (d : Bytes) : Option Bytes :=
  match d.getLast? with
  | none => some d
  | some last =>
      if last &&& 0x7f ≠ 0 then some d
      else if d.length = 1 then some []
      else if d.length < 2 then none
      else do
        let before ← d[d.length - 2]?
        if before &&& 0x80 ≠ 0 then some d
        else (trimAt? d.toArray last (d.length - 1)).map Array.toList

/-- The 64-bit integer congruent to the given one. -/
def wrap (n : Int) : Int := Int.bmod n 0x10000000000000000

def add (a b : Int) : Int := wrap (a + b)

def sub (a b : Int) : Int := wrap (a - b)

def mul (a b : Int) : Int := wrap (a * b)

def neg (a : Int) : Int := wrap (-a)

/-- Puts bytes into a word, the first of them `place` bytes up. -/
def fillWord (word : UInt64) (place : Nat) : Bytes → UInt64
  | [] => word
  | b :: bs => fillWord (word ||| b.toUInt64 <<< UInt64.ofNat (8 * place)) (place + 1) bs

/-- The value of a byte string as a 64-bit word gives it: if the top bit of the last byte is set, it
is cleared in the word and the number is negative. -/
def wordValue (d : Bytes) : Int :=
  match d.getLast? with
  | none => 0
  | some last =>
      let word := fillWord 0 0 d
      if last &&& 0x80 ≠ 0 then
        let signBit : UInt64 := 0x80 <<< UInt64.ofNat (8 * (d.length - 1))
        neg (wrap (word &&& ~~~signBit).toNat)
      else wrap word.toNat

/-- Reads an operand under a limit on its length. A strict reading refuses an operand that is not
minimal. -/
def decode (strict : Bool) (limit : Nat) (d : Bytes) : Except Stop Int :=
  if limit < d.length || maxLength < d.length then .error (.error .numberOverflow)
  else if strict && !isMinimalWithin limit d then .error (.error .numberMinEncode)
  else .ok (wordValue d)

/-- The quotient towards zero, as a 64-bit integer. Dividing by zero is a fault. -/
def divide (a b : Int) : Except Stop Int :=
  if b = 0 then .error .fault else .ok (wrap (Int.tdiv a b))

/-- The remainder with the sign of the dividend. Dividing by zero is a fault. -/
def remainder (a b : Int) : Except Stop Int :=
  if b = 0 then .error .fault else .ok (wrap (Int.tmod a b))

def abs (a : Int) : Int := if a < 0 then neg a else a

def ofBool (b : Bool) : Int := if b then 1 else 0

def clamp32 (n : Int) : Int := max (-0x80000000) (min n 0x7fffffff)

end BitcoinScript.Number
