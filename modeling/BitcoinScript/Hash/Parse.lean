import BitcoinScript.Error
import BitcoinScript.Hash.Digest

/-!
# Reading digests from text

The text form of a digest is hex with the last byte first.
-/

namespace BitcoinScript.Digest

def parse (text : String) : Except Error (Digest 32) :=
  match Hex.decode text with
  | .error e => .error (.hex e)
  | .ok bytes =>
      match ofBytes? 32 bytes.reverse with
      | some digest => .ok digest
      | none => .error (.badArgument (.digestLength bytes.length))

end BitcoinScript.Digest
