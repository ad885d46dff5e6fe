import BitcoinScript.Secp256k1.Point

/-!
# Signatures of secp256k1

A signature is a pair of numbers. `Signature.toDer` writes it in strict DER, and
`Signature.readLax?` reads a lax form of DER in which lengths may be padded or wrong and numbers out
of range become zero. Of the two signatures `(r, s)` and `(r, n - s)`, which verify alike, the
one with the smaller second number is `low`.
-/

namespace BitcoinScript.Secp256k1

structure Signature where
  r : Nat
  s : Nat
  deriving DecidableEq, Repr

namespace Signature

/-- Whether the second number is at most half the group order. -/
def isLow (sig : Signature) : Bool := sig.s ≤ order / 2

/-- The signature that verifies alike and is low. -/
def normalize (sig : Signature) : Signature :=
  if sig.isLow then sig else { sig with s := order - sig.s }

/-- The shortest big-endian digits of a number. -/
def naturalDigits (n : Nat) : Bytes := (Bytes.ofNatBE 32 n).dropWhile (· = 0)

/-- The contents of a DER integer: the shortest big-endian digits whose top bit is clear. -/
def derInteger (n : Nat) : Bytes :=
  match naturalDigits n with
  | [] => [0]
  | b :: bs => if 0x80 ≤ b then 0 :: b :: bs else b :: bs

def toDer (sig : Signature) : Bytes :=
  let r := derInteger sig.r
  let s := derInteger sig.s
  [0x30, UInt8.ofNat (r.length + s.length + 4), 2, UInt8.ofNat r.length] ++ r ++
    [2, UInt8.ofNat s.length] ++ s

/-- Reads the length of an integer in lax DER: one byte, or a count of length bytes of which fewer
than eight may follow their leading zeros. -/
def readLaxLength? : Bytes → Option (Nat × Bytes)
  | [] => none
  | b :: rest =>
      if b < 0x80 then some (b.toNat, rest)
      else do
        let (digits, rest) ← Bytes.splitAt? (b.toNat - 0x80) rest
        let digits := digits.dropWhile (· = 0)
        if digits.length < 8 then some (Bytes.toNatBE digits, rest) else none

def readLaxInteger? : Bytes → Option (Bytes × Bytes)
  | tag :: rest =>
      if tag = 2 then do
        let (length, rest) ← readLaxLength? rest
        Bytes.splitAt? length rest
      else none
  | [] => none

/-- Skips the tag and the length of the whole signature, whose value is ignored. -/
def skipLaxHeader? : Bytes → Option Bytes
  | tag :: length :: rest =>
      if tag ≠ 0x30 then none
      else if length < 0x80 then some rest
      else (Bytes.splitAt? (length.toNat - 0x80) rest).map (·.2)
  | _ => none

/-- Whether the digits of a number stand for one that a signature can hold. -/
def inRange (digits : Bytes) : Bool := Bytes.toNatBE digits < order

/-- Reads a signature in lax DER. Bytes behind it are ignored. If one of its numbers is too large
both count as zero. -/
def readLax? (der : Bytes) : Option Signature := do
  let body ← skipLaxHeader? der
  let (r, rest) ← readLaxInteger? body
  let (s, _) ← readLaxInteger? rest
  return if inRange r && inRange s then ⟨Bytes.toNatBE r, Bytes.toNatBE s⟩ else ⟨0, 0⟩

end Signature

/-- Whether a signature of a message digest, read as a big-endian number, verifies under a key. -/
def verify (key : Point) (digest : Bytes) (sig : Signature) : Bool :=
  if sig.r = 0 ∨ order ≤ sig.r ∨ sig.s = 0 ∨ order ≤ sig.s then false
  else
    let w := invMod order sig.s
    let u1 := Bytes.toNatBE digest % order * w % order
    let u2 := sig.r * w % order
    let sum := ((Jacobian.ofPoint generator).mul 256 u1).add ((Jacobian.ofPoint key).mul 256 u2)
    match sum.toPoint? with
    | none => false
    | some p => p.x % order = sig.r

end BitcoinScript.Secp256k1
