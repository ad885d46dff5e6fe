/-!
# Modular powers

Powers by repeated squaring, and with them inverses and square roots modulo a prime.
-/

namespace BitcoinScript.Secp256k1

/-- `b ^ e` modulo `m`, for an exponent below `2 ^ bits`. -/
def powMod (m b : Nat) : (bits e : Nat) → Nat
  | 0, _ => 1 % m
  | bits + 1, e =>
      let half := powMod m b bits (e / 2)
      let square := half * half % m
      if e % 2 = 1 then square * b % m else square

/-- The inverse modulo a prime below `2 ^ 256`, and zero for zero. -/
def invMod (p a : Nat) : Nat := powMod p (a % p) 256 (p - 2)

def subMod (m a b : Nat) : Nat := (a + m - b) % m

end BitcoinScript.Secp256k1
