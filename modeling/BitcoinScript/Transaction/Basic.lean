import BitcoinScript.Bytes.Reader
import BitcoinScript.Crypto
import BitcoinScript.Limits
import BitcoinScript.Script.Asm

/-!
# Transactions

A transaction spends outputs of earlier ones, each named by an out point, and makes new outputs.
This module holds the types, their wire format and their text form.

The wire format is a plain concatenation in which scripts and lists are preceded by a count.
Reading caps the counts, so that a short message cannot announce an endless one.
-/

namespace BitcoinScript

/-- The name of an output: its transaction and its index there. -/
structure OutPoint where
  hash : Digest 32
  index : UInt32
  deriving DecidableEq

structure TxInput where
  prevOutput : OutPoint
  unlockScript : Script
  sequence : UInt32
  deriving DecidableEq

structure TxOutput where
  satoshis : Int64
  lockScript : Script
  deriving DecidableEq

structure Transaction where
  version : UInt32
  inputs : List TxInput
  outputs : List TxOutput
  lockTime : UInt32
  deriving DecidableEq

/-- The number of satoshis that there will ever be. -/
def maxSatoshis : Int := 21000000 * 100000000

def maxMessageScript : Nat := Limits.consensus.scriptSize

def maxMessageCount : Nat := 100000000

namespace OutPoint

def coinbase : OutPoint := ⟨Digest.zero 32, 0xffffffff⟩

def isCoinbase (p : OutPoint) : Bool := p = coinbase

def bytes (p : OutPoint) : Bytes := p.hash.bytes ++ Bytes.ofUInt32 p.index

def read : Reader OutPoint := do
  let hash ← Reader.digest 32
  let index ← Reader.uint32
  return ⟨hash, index⟩

def describe (p : OutPoint) : String :=
  "OutPoint \x7b hash: " ++ p.hash.display ++ ", index: " ++ toString p.index.toNat ++ " \x7d"

end OutPoint

namespace Script

/-- The wire form of a script: its length and its bytes. -/
def counted (s : Script) : Bytes := Bytes.ofCount s.length ++ s

def countedSize (s : Script) : Nat := Bytes.countSize s.length + s.length

/-- Reads a script that is not too long; `tooLong` is the error for one that is. -/
def readCounted (tooLong : Nat → DataError) : Reader Script := do
  let length ← Reader.count
  Reader.require (length ≤ maxMessageScript) (.badData (tooLong length))
  Reader.take length

end Script

namespace TxInput

def bytes (i : TxInput) : Bytes :=
  i.prevOutput.bytes ++ Script.counted i.unlockScript ++ Bytes.ofUInt32 i.sequence

def size (i : TxInput) : Nat := 36 + Script.countedSize i.unlockScript + 4

def read : Reader TxInput := do
  let prevOutput ← OutPoint.read
  let unlockScript ← Script.readCounted .unlockScriptTooLong
  let sequence ← Reader.uint32
  return ⟨prevOutput, unlockScript, sequence⟩

def describe (i : TxInput) : String :=
  "TxIn \x7b prev_output: " ++ i.prevOutput.describe ++ ", unlock_script: " ++
    Script.describe i.unlockScript ++ ", sequence: " ++ toString i.sequence.toNat ++ " \x7d"

end TxInput

namespace TxOutput

/-- The output that takes the place of one that is not signed. -/
def null : TxOutput := ⟨-1, []⟩

def bytes (o : TxOutput) : Bytes := Bytes.ofInt64 o.satoshis ++ Script.counted o.lockScript

def size (o : TxOutput) : Nat := 8 + Script.countedSize o.lockScript

def read : Reader TxOutput := do
  let satoshis ← Reader.int64
  let lockScript ← Script.readCounted .lockScriptTooLong
  return ⟨satoshis, lockScript⟩

/-- Refuses an amount that no output can have. -/
def validate (o : TxOutput) : Except Error Unit :=
  if o.satoshis.toInt < 0 then .error (.badData .negativeSatoshis)
  else if maxSatoshis < o.satoshis.toInt then .error (.badData .satoshisExceedMax)
  else .ok ()

def describe (o : TxOutput) : String :=
  "TxOut \x7b satoshis: " ++ toString o.satoshis.toInt ++ ", lock_script: " ++
    Script.describe o.lockScript ++ " \x7d"

end TxOutput

/-- The wire form of a list: its length and its members. -/
def Bytes.ofList {α : Type} (item : α → Bytes) (items : List α) : Bytes :=
  Bytes.ofCount items.length ++ items.flatMap item

def Bytes.sizeOfList {α : Type} (size : α → Nat) (items : List α) : Nat :=
  Bytes.countSize items.length + items.foldr (fun a n => size a + n) 0

/-- Reads a list that is not too long; `tooMany` is the error for one that is. -/
def Reader.counted {α : Type} (item : Reader α) (tooMany : Nat → DataError) :
    Reader (List α) := do
  let n ← Reader.count
  Reader.require (n ≤ maxMessageCount) (.badData (tooMany n))
  Reader.list item n

namespace Transaction

/-- Whether the transaction does nothing but create coins. -/
def isCoinbase (tx : Transaction) : Bool :=
  match tx.inputs with
  | [i] => i.prevOutput.isCoinbase
  | _ => false

def bytes (tx : Transaction) : Bytes :=
  Bytes.ofUInt32 tx.version ++ Bytes.ofList TxInput.bytes tx.inputs ++
    Bytes.ofList TxOutput.bytes tx.outputs ++ Bytes.ofUInt32 tx.lockTime

def size (tx : Transaction) : Nat :=
  8 + Bytes.sizeOfList TxInput.size tx.inputs + Bytes.sizeOfList TxOutput.size tx.outputs

def read : Reader Transaction := do
  let version ← Reader.uint32
  let inputs ← Reader.counted TxInput.read .tooManyInputs
  let outputs ← Reader.counted TxOutput.read .tooManyOutputs
  let lockTime ← Reader.uint32
  return ⟨version, inputs, outputs, lockTime⟩

def id (c : Crypto) (tx : Transaction) : Digest 32 := c.sha256d tx.bytes

/-- The text form of a list; of more than three members only the number is shown. -/
def describeList {α : Type} (describe : α → String) (noun : String) (items : List α) : String :=
  if items.length ≤ 3 then "[" ++ String.intercalate ", " (items.map describe) ++ "]"
  else "\"[<" ++ toString items.length ++ " " ++ noun ++ ">]\""

def describe (tx : Transaction) : String :=
  "Tx \x7b version: " ++ toString tx.version.toNat ++ ", inputs: " ++
    describeList TxInput.describe "inputs" tx.inputs ++ ", outputs: " ++
    describeList TxOutput.describe "outputs" tx.outputs ++ ", lock_time: " ++
    toString tx.lockTime.toNat ++ " \x7d"

end Transaction

end BitcoinScript
