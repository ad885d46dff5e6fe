import BitcoinScript.Crypto
import BitcoinScript.Error
import BitcoinScript.Signature.HashType

/-!
# Making signatures

A signature in a script is the strict DER form of a low signature with the byte of its hash type
behind it.
-/

namespace BitcoinScript.Signature

/-- The signature of a digest under a private key, for the given hash type. -/
def create (c : Crypto) (privateKey : Bytes) (digest : Digest 32) (t : HashType) :
    Except Error Bytes :=
  match c.sign? privateKey digest with
  | some sig => .ok (c.toDer (c.normalize sig) ++ [t.byte])
  | none => .error (.badData .invalidPrivateKey)

end BitcoinScript.Signature
