import BitcoinScript.Bytes.Hex

/-!
# Digests

A digest is a byte string of a fixed length, which its type records. A 32-byte digest that names a
transaction is shown with its bytes in reverse order.
-/

namespace BitcoinScript

/-- A byte string of exactly `size` bytes. -/
@[ext] structure Digest (size : Nat) where
  /-- The bytes, in the order in which they are hashed and written. -/
  bytes : Bytes
  length_bytes : bytes.length = size
  deriving DecidableEq

namespace Digest

attribute [simp] length_bytes

def ofBytes? (size : Nat) (bs : Bytes) : Option (Digest size) :=
  if h : bs.length = size then some ⟨bs, h⟩ else none

@[simp] theorem ofBytes?_bytes {size : Nat} (d : Digest size) :
    ofBytes? size d.bytes = some d := by
  simp [ofBytes?]

def zero (size : Nat) : Digest size := ⟨List.replicate size 0, by simp⟩

def ofNat (size n : Nat) : Digest size := ⟨Bytes.ofNatLE size n, by simp⟩

/-- The text form: hex, last byte first. -/
def display {size : Nat} (d : Digest size) : String := Hex.encode d.bytes.reverse

end Digest

end BitcoinScript
