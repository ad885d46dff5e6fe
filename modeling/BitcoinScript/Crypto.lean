import BitcoinScript.Hash.Ripemd160
import BitcoinScript.Hash.Sha1
import BitcoinScript.Secp256k1.Signing

/-!
# Cryptographic functions

Scripts and transactions use hash functions and a signature scheme, but no rule of theirs depends on
which ones. They take them as a `Crypto`, and `Crypto.standard` holds those in use.
-/

namespace BitcoinScript

/-- The hash functions and the signature scheme that scripts and transactions use. -/
structure Crypto where
  ripemd160 : Bytes → Digest 20
  sha1 : Bytes → Digest 20
  sha256 : Bytes → Digest 32
  hash160 : Bytes → Digest 20
  sha256d : Bytes → Digest 32
  /-- Whether a signature of a digest verifies under a public key; not if the key cannot be read. -/
  verify : (pubkey : Bytes) → (digest : Digest 32) → Secp256k1.Signature → Bool
  /-- The signature of a digest under a private key, if the key is valid. -/
  sign? : (privateKey : Bytes) → (digest : Digest 32) → Option Secp256k1.Signature
  readLaxDer? : Bytes → Option Secp256k1.Signature
  /-- The low one of the two signatures that verify alike. -/
  normalize : Secp256k1.Signature → Secp256k1.Signature
  toDer : Secp256k1.Signature → Bytes

def Crypto.standard : Crypto where
  ripemd160 := Hash.ripemd160
  sha1 := Hash.sha1
  sha256 := Hash.sha256
  hash160 bytes := Hash.ripemd160 (Hash.sha256 bytes).bytes
  sha256d := Hash.sha256d
  verify pubkey digest sig :=
    match Secp256k1.readKey? pubkey with
    | none => false
    | some key => Secp256k1.verify key digest.bytes sig
  sign? privateKey digest := Secp256k1.sign? privateKey digest.bytes
  readLaxDer? := Secp256k1.Signature.readLax?
  normalize := Secp256k1.Signature.normalize
  toDer := Secp256k1.Signature.toDer

end BitcoinScript
