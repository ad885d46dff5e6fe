import BitcoinScript.Crypto
import BitcoinScript.Flag
import BitcoinScript.Signature.HashType

/-!
# Forms of signatures and public keys

A signature in a script is a DER signature followed by the byte of its hash type. Depending on the
flags, its form and the form of the public key are checked before the signature is. The test for
strict DER reads bytes at positions that the signature itself names; `strictDer?` has no result
where it would read outside the signature.
-/

namespace BitcoinScript.Signature

/-- Whether an integer of a strict signature, whose length is given and whose bytes start at the
given position, is not empty, not negative and without a needless zero in front. -/
def strictInteger? (sig : Bytes) (start length : Nat) : Option Bool := do
  if length = 0 then return false
  if (← sig[start]?) &&& 0x80 ≠ 0 then return false
  if length ≤ 1 then return true
  if (← sig[start]?) ≠ 0 then return true
  return (← sig[start + 1]?) &&& 0x80 ≠ 0

/-- Whether a signature with its hash type is strict DER: the tag of a sequence, its length, and two
integers with their tags and lengths, which fill it exactly. -/
def strictDer? (sig : Bytes) : Option Bool := do
  if sig.length < 9 ∨ 73 < sig.length then return false
  if (← sig[0]?) ≠ 0x30 then return false
  if (← sig[1]?).toNat ≠ sig.length - 3 then return false
  let lengthR := (← sig[3]?).toNat
  if sig.length ≤ 5 + lengthR then return false
  let lengthS := (← sig[5 + lengthR]?).toNat
  if lengthR + lengthS + 7 ≠ sig.length then return false
  if (← sig[2]?) ≠ 2 then return false
  if !(← strictInteger? sig 4 lengthR) then return false
  if (← sig[4 + lengthR]?) ≠ 2 then return false
  strictInteger? sig (6 + lengthR) lengthS

def isStrictDer (sig : Bytes) : Bool := (strictDer? sig).getD false

/-- Whether a signature, which is read in lax DER, is the low one of the two that verify alike. -/
def isLow (sig : Bytes) (c : Crypto := .standard) : Bool :=
  sig ≠ [] &&
    match c.readLaxDer? sig.dropLast with
    | none => false
    | some parsed => c.normalize parsed = parsed

def hasDefinedType (sig : Bytes) : Bool := sig ≠ [] && (HashType.ofSignature sig).isDefined

def isCompressedKey (key : Bytes) : Bool :=
  key.length = 33 && (key.head? = some 2 || key.head? = some 3)

/-- Whether a public key has the tag and the length of a compressed or an uncompressed key. -/
def isKnownKey (key : Bytes) : Bool :=
  isCompressedKey key || key.length = 65 && key.head? = some 4

def needsStrictDer (flags : Flags) : Bool :=
  flags.contains .derSig || flags.contains .lowS || flags.contains .strictEnc

def checkDer (sig : Bytes) (flags : Flags) : Except Stop Unit :=
  if needsStrictDer flags then
    match strictDer? sig with
    | none => .error .fault
    | some strict => Stop.require strict .sigDer
  else .ok ()

/-- Checks the hash type of a signature if the flags ask for that: it is defined, and it has the
fork identifier exactly if the flags enable that. -/
def checkHashType (sig : Bytes) (flags : Flags) : Except Stop Unit :=
  if flags.contains .strictEnc then do
    let hasForkId := (HashType.ofSignature sig).hasForkId
    let enabled := flags.contains .enableForkId
    Stop.require (hasDefinedType sig) .sigHashType
    Stop.require (hasForkId → enabled) .illegalForkId
    Stop.require (enabled → hasForkId) .mustUseForkId
  else .ok ()

/-- Checks the form of a signature under flags. An empty signature passes. -/
def checkForm (sig : Bytes) (c : Crypto := .standard) (flags : Flags) : Except Stop Unit :=
  if sig = [] then .ok ()
  else do
    checkDer sig flags
    Stop.require (flags.contains .lowS → isLow sig c) .sigHighS
    checkHashType sig flags

def checkKeyForm (key : Bytes) (flags : Flags) : Except Stop Unit := do
  Stop.require (flags.contains .strictEnc → isKnownKey key) .pubkeyType
  Stop.require (flags.contains .compressedPubkeyType → isCompressedKey key) .nonCompressedPubkey

end BitcoinScript.Signature
