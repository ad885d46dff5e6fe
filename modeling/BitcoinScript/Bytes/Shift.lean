import BitcoinScript.Bytes.Basic

/-!
# Shifts of byte strings

A byte string is read as one sequence of bits, the first byte holding the most significant ones.
A shift keeps the number of bytes: bits that leave at one end are lost, and zeros enter at the
other. It moves whole bytes first, and the remaining fewer than eight bits by carrying the part of
each byte that crosses a byte boundary into its neighbour.

`shiftLeft?` and `shiftRight?` do the same on one string of bytes that is written at indices, one
source byte after the other, and have no result where an index lies outside.
-/

namespace BitcoinScript.Bytes

/-- Moves every byte `bits < 8` places towards the front. Each byte receives in its low places
what its successor shifts out, and the last one zeros. -/
def carryLeft (bits : Nat) : Bytes → Bytes
  | [] => []
  | b :: bs =>
      let incoming := match bs with
        | [] => 0
        | next :: _ => next.toNat >>> (8 - bits)
      UInt8.ofNat (b.toNat <<< bits + incoming) :: carryLeft bits bs

/-- Moves every byte `bits < 8` places towards the back. Each byte receives in its high places
what its predecessor shifts out, the first one what the byte `before` does. -/
def carryRight (bits : Nat) (before : UInt8) : Bytes → Bytes
  | [] => []
  | b :: bs =>
      UInt8.ofNat (before.toNat <<< (8 - bits) + b.toNat >>> bits) :: carryRight bits b bs

def shiftLeft (bs : Bytes) (n : Nat) : Bytes :=
  carryLeft (n % 8) (bs.drop (n / 8)) ++ List.replicate (min (n / 8) bs.length) 0

def shiftRight (bs : Bytes) (n : Nat) : Bytes :=
  List.replicate (min (n / 8) bs.length) 0 ++
    carryRight (n % 8) 0 (bs.take (bs.length - n / 8))

/-- The bits of a byte that stay in it under a shift to the front, by the number of places. -/
def leftMasks : List UInt8 := [0xff, 0x7f, 0x3f, 0x1f, 0x0f, 0x07, 0x03, 0x01]

/-- The bits of a byte that stay in it under a shift to the back, by the number of places. -/
def rightMasks : List UInt8 := [0xff, 0xfe, 0xfc, 0xf8, 0xf0, 0xe0, 0xc0, 0x80]

def orAt? (bs : Array UInt8) (i : Nat) (bits : UInt8) : Option (Array UInt8) :=
  if h : i < bs.size then some (bs.set i (bs[i] ||| bits)) else none

def orAtIf? (p : Prop) [Decidable p] (bs : Array UInt8) (i : Nat) (bits : UInt8) :
    Option (Array UInt8) :=
  if p then orAt? bs i bits else some bs

/-- Moves the bytes with the indices `whole` to `whole + count`, the last one first, to the front
by `whole` bytes and `bits` bits. -/
def moveLeft? (bs : Array UInt8) (mask : UInt8) (bits whole : Nat) :
    (count : Nat) → (result : Array UInt8) → Option (Array UInt8)
  | 0, result => some result
  | k + 1, result => do
      let b ← bs[k + whole]?
      let result ← orAt? result k ((b &&& mask) <<< UInt8.ofNat bits)
      let result ←
        orAtIf? (0 < bits ∧ 0 < k) result (k - 1) ((b &&& ~~~mask) >>> UInt8.ofNat (8 - bits))
      moveLeft? bs mask bits whole k result

/-- Moves `count` bytes from the index `i` on to the back by `whole` bytes and `bits` bits. -/
def moveRight? (bs : Array UInt8) (mask : UInt8) (bits whole : Nat) :
    (count i : Nat) → (result : Array UInt8) → Option (Array UInt8)
  | 0, _, result => some result
  | count + 1, i, result => do
      let b ← bs[i]?
      let result ← orAt? result (i + whole) ((b &&& mask) >>> UInt8.ofNat bits)
      let result ←
        orAtIf? (0 < bits ∧ i + whole + 1 < bs.size) result (i + whole + 1)
          ((b &&& ~~~mask) <<< UInt8.ofNat (8 - bits))
      moveRight? bs mask bits whole count (i + 1) result

def shiftLeft? (bs : Bytes) (n : Nat) : Option Bytes := do
  let mask ← leftMasks[n % 8]?
  let moved ← moveLeft? bs.toArray mask (n % 8) (n / 8) (bs.length - n / 8)
    (Array.replicate bs.length 0)
  return moved.toList

def shiftRight? (bs : Bytes) (n : Nat) : Option Bytes := do
  let mask ← rightMasks[n % 8]?
  let moved ← moveRight? bs.toArray mask (n % 8) (n / 8) (bs.length - n / 8) 0
    (Array.replicate bs.length 0)
  return moved.toList

@[simp] theorem length_carryLeft (bits : Nat) (bs : Bytes) :
    (carryLeft bits bs).length = bs.length := by
  induction bs with
  | nil => rfl
  | cons b bs ih => simp [carryLeft, ih]

@[simp] theorem length_carryRight (bits : Nat) (before : UInt8) (bs : Bytes) :
    (carryRight bits before bs).length = bs.length := by
  induction bs generalizing before with
  | nil => rfl
  | cons b bs ih => simp [carryRight, ih]

@[simp] theorem length_shiftLeft (bs : Bytes) (n : Nat) :
    (shiftLeft bs n).length = bs.length := by
  simp only [shiftLeft, List.length_append, length_carryLeft, List.length_drop,
    List.length_replicate]
  omega

@[simp] theorem length_shiftRight (bs : Bytes) (n : Nat) :
    (shiftRight bs n).length = bs.length := by
  simp only [shiftRight, List.length_append, length_carryRight, List.length_take,
    List.length_replicate]
  omega

end BitcoinScript.Bytes
