import BitcoinScript.Bytes.Basic
import BitcoinScript.Secp256k1.Modular

/-!
# Points of secp256k1

The curve `y² = x³ + 7` over the field of `fieldPrime` elements. Sums are computed in Jacobian
coordinates, where `(x, y, z)` stands for the affine point `(x / z², y / z³)` and `z = 0` for the
point at infinity, so that only one inversion is needed at the end. Public keys are read from
their compressed, uncompressed and hybrid forms.
-/

namespace BitcoinScript.Secp256k1

/-- The number of field elements. -/
def fieldPrime : Nat := 0xfffffffffffffffffffffffffffffffffffffffffffffffffffffffefffffc2f

/-- The number of points. -/
def order : Nat := 0xfffffffffffffffffffffffffffffffebaaedce6af48a03bbfd25e8cd0364141

structure Point where
  x : Nat
  y : Nat
  deriving DecidableEq, Repr

def generator : Point where
  x := 0x79be667ef9dcbbac55a06295ce870b07029bfcdb2dce28d959f2815b16f81798
  y := 0x483ada7726a3c4655da4fbfc0e1108a8fd17b448a68554199c47d08ffb10d4b8

structure Jacobian where
  x : Nat
  y : Nat
  z : Nat

namespace Jacobian

def infinity : Jacobian := ⟨1, 1, 0⟩

def ofPoint (p : Point) : Jacobian := ⟨p.x, p.y, 1⟩

def toPoint? (p : Jacobian) : Option Point :=
  if p.z = 0 then none
  else
    let i := invMod fieldPrime p.z
    let i2 := i * i % fieldPrime
    some ⟨p.x * i2 % fieldPrime, p.y * i2 % fieldPrime * i % fieldPrime⟩

def double (p : Jacobian) : Jacobian :=
  if p.z = 0 ∨ p.y = 0 then infinity
  else
    let m := fieldPrime
    let y2 := p.y * p.y % m
    let s := 4 * p.x * y2 % m
    let t := 3 * p.x * p.x % m
    let x := subMod m (t * t % m) (2 * s % m)
    let y := subMod m (t * subMod m s x % m) (8 * y2 * y2 % m)
    ⟨x, y, 2 * p.y * p.z % m⟩

def add (p q : Jacobian) : Jacobian :=
  if p.z = 0 then q
  else if q.z = 0 then p
  else
    let m := fieldPrime
    let pz2 := p.z * p.z % m
    let qz2 := q.z * q.z % m
    let u1 := p.x * qz2 % m
    let u2 := q.x * pz2 % m
    let s1 := p.y * qz2 % m * q.z % m
    let s2 := q.y * pz2 % m * p.z % m
    if u1 = u2 then if s1 = s2 then double p else infinity
    else
      let h := subMod m u2 u1
      let r := subMod m s2 s1
      let h2 := h * h % m
      let h3 := h2 * h % m
      let v := u1 * h2 % m
      let x := subMod m (subMod m (r * r % m) h3) (2 * v % m)
      let y := subMod m (r * subMod m v x % m) (s1 * h3 % m)
      ⟨x, y, p.z * q.z % m * h % m⟩

/-- A point added to itself `k` times over, for `k < 2 ^ bits`. -/
def mul (p : Jacobian) : (bits k : Nat) → Jacobian
  | 0, _ => infinity
  | bits + 1, k =>
      let twice := double (mul p bits (k / 2))
      if k % 2 = 1 then add twice p else twice

end Jacobian

/-- The right side of the curve's equation. -/
def curveValue (x : Nat) : Nat := (x * x % fieldPrime * x + 7) % fieldPrime

/-- The point with a given first coordinate and a second one of the given parity. -/
def lift? (odd : Bool) (x : Nat) : Option Point :=
  if fieldPrime ≤ x then none
  else
    let square := curveValue x
    let root := powMod fieldPrime square 256 ((fieldPrime + 1) / 4)
    if root * root % fieldPrime ≠ square then none
    else if (root % 2 = 1) = (odd = true) then some ⟨x, root⟩
    else some ⟨x, subMod fieldPrime 0 root⟩

/-- Reads a public key. A compressed key gives the parity of the second coordinate, an uncompressed
one the coordinate itself, and a hybrid one both, which must agree. -/
def readKey? : Bytes → Option Point
  | [] => none
  | tag :: coordinates =>
      let x := Bytes.toNatBE (coordinates.take 32)
      let y := Bytes.toNatBE (coordinates.drop 32)
      if coordinates.length = 32 then
        if tag = 2 ∨ tag = 3 then lift? (tag = 3) x else none
      else if coordinates.length = 64 ∧ (tag = 4 ∨ tag = 6 ∨ tag = 7) then
        if fieldPrime ≤ x ∨ fieldPrime ≤ y then none
        else if y * y % fieldPrime ≠ curveValue x then none
        else if tag ≠ 4 ∧ y % 2 ≠ tag.toNat % 2 then none
        else some ⟨x, y⟩
      else none

end BitcoinScript.Secp256k1
