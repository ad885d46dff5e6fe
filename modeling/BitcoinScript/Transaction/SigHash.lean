import BitcoinScript.Flag
import BitcoinScript.Script.Edit
import BitcoinScript.Signature.HashType
import BitcoinScript.Transaction.Basic

/-!
# Signature digests

The digest that a signature of an input commits to. There are two ways to form it, and the hash
type together with the flags choose between them.

The digest with the fork identifier hashes fixed fields, among them the amount that is spent and
three hashes over all out points, sequence numbers and outputs, which are the same for every input
and kept in a `SigHashCache`. The legacy digest hashes the transaction as it would be written if
the signed input held the script code, the other inputs held nothing, and what the hash type
leaves out were absent.
-/

namespace BitcoinScript

/-- The hashes that all digests of a transaction with the fork identifier share. -/
structure SigHashCache where
  prevouts : Digest 32
  sequences : Digest 32
  outputs : Digest 32
  deriving DecidableEq

def SigHashCache.ofTransaction (c : Crypto) (tx : Transaction) : SigHashCache where
  prevouts := c.sha256d (tx.inputs.flatMap fun i => i.prevOutput.bytes)
  sequences := c.sha256d (tx.inputs.flatMap fun i => Bytes.ofUInt32 i.sequence)
  outputs := c.sha256d (tx.outputs.flatMap TxOutput.bytes)

namespace SigHash

/-- The digest where there is nothing to sign. -/
def one : Digest 32 := Digest.ofNat 32 1

def commitsToAll (base : UInt8) : Bool := base ≠ HashType.single && base ≠ HashType.noOutputs

theorem commitsToAll_iff {base : UInt8} :
    commitsToAll base = true ↔ ¬(base = HashType.noOutputs ∨ base = HashType.single) := by
  simp [commitsToAll, and_comm]

/-- The hash of the outputs that a digest with the fork identifier commits to. -/
def forkIdOutputs (c : Crypto) (cache : SigHashCache) (tx : Transaction) (index : Nat)
    (t : HashType) : Digest 32 :=
  if commitsToAll t.base then cache.outputs
  else if t.base = HashType.single then
    match tx.outputs[index]? with
    | some o => c.sha256d o.bytes
    | none => Digest.zero 32
  else Digest.zero 32

def forkIdMessage (c : Crypto) (cache : SigHashCache) (tx : Transaction) (index : Nat)
    (input : TxInput) (code : Script) (satoshis : Int64) (t : HashType) : Bytes :=
  let prevouts := if t.anyoneCanPay then Digest.zero 32 else cache.prevouts
  let sequences :=
    if t.anyoneCanPay || !commitsToAll t.base then Digest.zero 32 else cache.sequences
  Bytes.ofUInt32 tx.version ++ prevouts.bytes ++ sequences.bytes ++ input.prevOutput.bytes ++
    Script.counted code ++ Bytes.ofInt64 satoshis ++ Bytes.ofUInt32 input.sequence ++
    (forkIdOutputs c cache tx index t).bytes ++ Bytes.ofUInt32 tx.lockTime ++
    Bytes.ofUInt32 t.byte.toUInt32

def forkId (c : Crypto) (cache : SigHashCache) (tx : Transaction) (index : Nat) (code : Script)
    (satoshis : Int64) (t : HashType) : Except Error (Digest 32) :=
  match tx.inputs[index]? with
  | none => .error (.badArgument (.inputIndex index))
  | some input => .ok (c.sha256d (forkIdMessage c cache tx index input code satoshis t))

/-- The form in which an input enters a legacy digest. -/
def legacyInput (index : Nat) (code : Script) (t : HashType) (input : TxInput) (i : Nat) : Bytes :=
  let signed : Bool := i = index
  let sequence := if signed || commitsToAll t.base then input.sequence else 0
  input.prevOutput.bytes ++ Script.counted (if signed then code else []) ++ Bytes.ofUInt32 sequence

/-- The form in which an output enters a legacy digest. -/
def legacyOutput (index : Nat) (t : HashType) (output : TxOutput) (i : Nat) : Bytes :=
  if t.base = HashType.single ∧ i ≠ index then TxOutput.null.bytes else output.bytes

/-- The bytes that a legacy digest hashes, where `code` has no code separators. -/
def legacyMessage (tx : Transaction) (index : Nat) (code : Script) (t : HashType) : Bytes :=
  let inputs := tx.inputs.zipIdx.filter fun p => !t.anyoneCanPay || p.2 = index
  let outputCount :=
    if t.base = HashType.noOutputs then 0
    else if t.base = HashType.single then index + 1
    else tx.outputs.length
  Bytes.ofUInt32 tx.version ++
    Bytes.ofList (fun p => legacyInput index code t p.1 p.2) inputs ++
    Bytes.ofCount outputCount ++
    (tx.outputs.zipIdx.take outputCount).flatMap (fun p => legacyOutput index t p.1 p.2) ++
    Bytes.ofUInt32 tx.lockTime ++ Bytes.ofUInt32 t.byte.toUInt32

def legacy (c : Crypto) (tx : Transaction) (index : Nat) (code : Script) (t : HashType) :
    Digest 32 :=
  if tx.inputs.length ≤ index then one
  else if t.base = HashType.single ∧ tx.outputs.length ≤ index then one
  else c.sha256d (legacyMessage tx index (Script.withoutCodeSeparators code) t)

/-- Whether the digest with the fork identifier is the one to use. -/
def usesForkId (t : HashType) (flags : Flags) : Bool :=
  t.hasForkId && flags.contains .enableForkId

end SigHash

/-- The digest that a signature of an input commits to. -/
def signatureHash (c : Crypto) (cache : SigHashCache) (tx : Transaction) (index : Nat)
    (code : Script) (satoshis : Int64) (t : HashType) (flags : Flags) : Except Error (Digest 32) :=
  if SigHash.usesForkId t flags then SigHash.forkId c cache tx index code satoshis t
  else .ok (SigHash.legacy c tx index code t)

end BitcoinScript
