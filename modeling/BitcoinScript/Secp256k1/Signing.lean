import BitcoinScript.Hash.Hmac
import BitcoinScript.Secp256k1.Signature

/-!
# Deterministic signatures

The secret number of a signature is drawn from a generator that is seeded with the private key and
the digest, so that signing needs no randomness. The generator holds a key and a value, steps them
by a keyed hash, and is asked again when the number it gives cannot be used.
-/

namespace BitcoinScript.Secp256k1

/-- The state of the generator of secret numbers. -/
structure NonceState where
  key : Bytes
  value : Bytes

namespace NonceState

/-- Mixes data into the state: once with the byte 0, and if there are data again with the byte 1. -/
def mix (s : NonceState) (byte : UInt8) (data : Bytes) : NonceState :=
  let key := Hash.hmacSha256 s.key (s.value ++ byte :: data)
  ⟨key, Hash.hmacSha256 key s.value⟩

def seed (privateKey digest : Bytes) : NonceState :=
  let blank : NonceState := ⟨List.replicate 32 0, List.replicate 32 1⟩
  (blank.mix 0 (privateKey ++ digest)).mix 1 (privateKey ++ digest)

def next (s : NonceState) : NonceState := { s with value := Hash.hmacSha256 s.key s.value }

end NonceState

/-- The signature with a given secret number, if it is one. -/
def signWith? (secret digest nonce : Nat) : Option Signature :=
  if nonce = 0 ∨ order ≤ nonce then none
  else
    match ((Jacobian.ofPoint generator).mul 256 nonce).toPoint? with
    | none => none
    | some p =>
        let r := p.x % order
        let s := (digest + r * secret) % order * invMod order nonce % order
        if r = 0 ∨ s = 0 then none else some (Signature.normalize ⟨r, s⟩)

/-- The first signature that the generator gives in at most `attempts` steps. -/
def signFrom? (secret digest : Nat) : (attempts : Nat) → NonceState → Option Signature
  | 0, _ => none
  | attempts + 1, state =>
      let state := state.next
      match signWith? secret digest (Bytes.toNatBE state.value) with
      | some sig => some sig
      | none => signFrom? secret digest attempts (state.mix 0 [])

/-- The signature of a digest under a private key, both given as bytes. The digest counts modulo
the group order, for the seed too. The number of attempts is never reached: one attempt fails about
once in 2^127 times. -/
def sign? (privateKey digest : Bytes) : Option Signature :=
  let secret := Bytes.toNatBE privateKey
  let message := Bytes.toNatBE digest % order
  if secret = 0 ∨ order ≤ secret then none
  else signFrom? secret message 128 (NonceState.seed privateKey (Bytes.ofNatBE 32 message))

end BitcoinScript.Secp256k1
