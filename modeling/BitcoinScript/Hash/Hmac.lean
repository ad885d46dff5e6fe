import BitcoinScript.Hash.Sha256

/-!
# HMAC with SHA-256

A keyed hash: the key, filled with zeros to one block, is combined with two constants
for an inner and an outer hash.
-/

namespace BitcoinScript.Hash

/-- The key in one block of 64 bytes; a longer key is hashed first. -/
def hmacKey (key : Bytes) : Bytes :=
  let short := if 64 < key.length then (sha256 key).bytes else key
  short ++ List.replicate (64 - short.length) 0

def hmacSha256 (key message : Bytes) : Bytes :=
  let block := hmacKey key
  let inner := sha256 (block.map (· ^^^ 0x36) ++ message)
  (sha256 (block.map (· ^^^ 0x5c) ++ inner.bytes)).bytes

end BitcoinScript.Hash
