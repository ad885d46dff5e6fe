import BitcoinScript.Machine.Checker
import BitcoinScript.Transaction.SigHash

/-!
# The checker of a transaction

Signatures in the unlocking script of an input are checked against the digest of that input. Lock
times compare only if they are of one kind, heights or times.
-/

namespace BitcoinScript.Transaction

/-- Whether a signature of an input verifies. The signature is read in lax DER and counts in its low
form. -/
def verifiesSig (c : Crypto) (cache : SigHashCache) (tx : Transaction) (index : Nat)
    (satoshis : Int64) (call : SigCall) (flags : Flags) : Bool :=
  if call.sig = [] then false
  else
    match c.readLaxDer? call.sig.dropLast with
    | none => false
    | some sig =>
        let t := HashType.ofSignature call.sig
        match signatureHash c cache tx index call.code satoshis t flags with
        | .error _ => false
        | .ok digest => c.verify call.pubkey digest (c.normalize sig)

/-- The lock times below this are heights, the others are times. -/
def lockTimeThreshold : Int := 500000000

/-- The sequence number of an input for which lock times are off. -/
def finalSequence : UInt32 := 0xffffffff

/-- Whether the lock time of the transaction has reached a value of the same kind. -/
def reachedLockTime (tx : Transaction) (index : Nat) (n : Int) : Bool :=
  let lockTime : Int := tx.lockTime.toNat
  if decide (lockTime < lockTimeThreshold) != decide (n < lockTimeThreshold) then false
  else if lockTime < n then false
  else
    match tx.inputs[index]? with
    | some input => input.sequence ≠ finalSequence
    | none => false

/-- The bit of a sequence number that switches relative lock times off. -/
def sequenceDisabled : Nat := 0x80000000

/-- The bit of a sequence number that tells times from heights. -/
def sequenceKind : Nat := 0x400000

/-- The parts of a sequence number that are compared: its kind and its low sixteen bits. -/
def sequenceBits (n : Int) : Nat := (n % 0x10000000000000000).toNat &&& (sequenceKind ||| 0xffff)

/-- Whether the sequence number of the input has reached a value of the same kind. -/
def reachedSequence (tx : Transaction) (index : Nat) (n : Int) : Bool :=
  match tx.inputs[index]? with
  | none => false
  | some input =>
      let sequence := input.sequence.toNat
      if tx.version < 2 || sequence &&& sequenceDisabled ≠ 0 then false
      else
        let own := sequenceBits sequence
        let other := sequenceBits n
        if decide (own < sequenceKind) != decide (other < sequenceKind) then false
        else other ≤ own

def checker (c : Crypto) (cache : SigHashCache) (tx : Transaction) (index : Nat)
    (satoshis : Int64) : Checker where
  checkSig _ call flags := some (verifiesSig c cache tx index satoshis call flags)
  checkLockTime := reachedLockTime tx index
  checkSequence := reachedSequence tx index

end BitcoinScript.Transaction
