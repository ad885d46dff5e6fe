import BitcoinScript.Bytes.Basic

/-!
# Signature hash types

The last byte of a signature in a script tells which parts of the transaction it commits to. Its low
five bits are the base type: all outputs, none, or the single one at the index of the input. Two
further bits leave out the other inputs and select the digest with the fork identifier.
-/

namespace BitcoinScript

/-- The byte that tells what a signature commits to. -/
structure HashType where
  byte : UInt8
  deriving DecidableEq, Repr

namespace HashType

def all : UInt8 := 0x01

def noOutputs : UInt8 := 0x02

/-- The base type that commits to the output at the index of the input. -/
def single : UInt8 := 0x03

/-- The bit that leaves out the other inputs. -/
def anyoneCanPayBit : UInt8 := 0x80

def forkIdBit : UInt8 := 0x40

/-- The type of a signature: its last byte, and zero if it is empty. -/
def ofSignature (sig : Bytes) : HashType := ⟨sig.getLast?.getD 0⟩

def base (t : HashType) : UInt8 := t.byte &&& 0x1f

/-- Whether only the signed input is committed to. -/
def anyoneCanPay (t : HashType) : Bool := t.byte &&& anyoneCanPayBit ≠ 0

def hasForkId (t : HashType) : Bool := t.byte &&& forkIdBit ≠ 0

/-- Whether the byte is one of the three base types, apart from the two further bits. -/
def isDefined (t : HashType) : Bool :=
  let rest := t.byte &&& ~~~(anyoneCanPayBit ||| forkIdBit)
  all ≤ rest && rest ≤ single

end HashType

end BitcoinScript
