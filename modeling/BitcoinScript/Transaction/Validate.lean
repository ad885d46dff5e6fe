import BitcoinScript.Machine.Eval
import BitcoinScript.Transaction.Checker

/-!
# Validating transactions

A transaction is valid if its amounts are in order, if every output that it spends is known, and
if every unlocking script satisfies the lock of the output that it spends. Sums are kept below `2
^ 63` on the way, and the first problem in the order of the checks is reported.
-/

namespace BitcoinScript

/-- The outputs that can be spent, the newest entry first. -/
structure UtxoSet where
  entries : List (OutPoint × TxOutput) := []

namespace UtxoSet

/-- Adds an output, in the place of one of the same name. -/
def insert (utxos : UtxoSet) (p : OutPoint) (o : TxOutput) : UtxoSet :=
  ⟨(p, o) :: utxos.entries.filter (·.1 ≠ p)⟩

def get? (utxos : UtxoSet) (p : OutPoint) : Option TxOutput :=
  (utxos.entries.find? (·.1 = p)).map (·.2)

end UtxoSet

namespace Transaction

/-- The largest total that is kept. -/
def maxTotal : Int := 0x7fffffffffffffff

def addAmount (overflow : DataError) (total : Int) (satoshis : Int64) : Except Error Int :=
  if satoshis.toInt < 0 then .error (.badData .amountNegative)
  else if maxTotal < total + satoshis.toInt then .error (.badData overflow)
  else .ok (total + satoshis.toInt)

def totalOut : (total : Int) → List TxOutput → Except Error Int
  | total, [] => .ok total
  | total, o :: outputs => do
      let total ← addAmount .totalOutOverflow total o.satoshis
      totalOut total outputs

/-- The outputs that inputs spend, and the sum of their amounts and a total. -/
def spend (utxos : UtxoSet) : (total : Int) → List TxInput → Except Error (List TxOutput × Int)
  | total, [] => .ok ([], total)
  | total, i :: inputs =>
      match utxos.get? i.prevOutput with
      | none => .error (.badData .utxoNotFound)
      | some o => do
          let total ← addAmount .totalInOverflow total o.satoshis
          let (spent, total) ← spend utxos total inputs
          return (o :: spent, total)

def ensure (p : Prop) [Decidable p] (e : DataError) : Except Error Unit :=
  if p then .ok () else .error (.badData e)

/-- Verifies the scripts of inputs against the outputs that they spend; the first input has the
given index. -/
def verifyScripts (c : Crypto) (cache : SigHashCache) (tx : Transaction) (flags : Flags) :
    (index : Nat) → List (TxInput × TxOutput) → Except Error Unit
  | _, [] => .ok ()
  | index, (i, o) :: rest =>
      let rules : Rules :=
        ⟨flags, Limits.consensus, checker c cache tx index o.satoshis, c⟩
      match Script.verifyError? rules i.unlockScript o.lockScript with
      | some e => .error (.script e)
      | none => verifyScripts c cache tx flags (index + 1) rest

def validate (c : Crypto) (utxos : UtxoSet) (flags : Flags) (tx : Transaction) :
    Except Error Unit := do
  ensure (tx.inputs ≠ []) .inputsEmpty
  ensure (tx.outputs ≠ []) .outputsEmpty
  let paid ← totalOut 0 tx.outputs
  ensure (paid ≤ maxSatoshis) .totalOutExceedsMax
  ensure (∀ i ∈ tx.inputs, !i.prevOutput.isCoinbase) .unexpectedCoinbase
  let (spent, taken) ← spend utxos 0 tx.inputs
  ensure (taken ≤ maxSatoshis) .totalInExceedsMax
  ensure (paid ≤ taken) .outputsExceedInputs
  verifyScripts c (SigHashCache.ofTransaction c tx) tx flags 0 (tx.inputs.zip spent)

end Transaction

end BitcoinScript
