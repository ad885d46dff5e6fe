import BitcoinScript.Bytes.Shift
import BitcoinScript.Machine.SigCheck

/-!
# Executing commands

`Exec.execute` says what every command does to the state of an evaluation. Operands are read and
removed in the order that decides which of two errors is reported: the depth of the stack first,
then numbers, the deepest first, and conditions on them last.
-/

namespace BitcoinScript.Exec

/-- Does nothing, unless reserved no-ops are discouraged. -/
def reservedNop (r : Rules) : Exec Unit :=
  require (!r.flags.contains .discourageUpgradableNops) .discourageUpgradableNops

def popCondition (r : Rules) (negated : Bool) : Exec Bool := do
  let s ← get
  match s.stack with
  | [] => fail .unbalancedConditional
  | item :: rest =>
      set { s with stack := rest }
      require (r.flags.contains .minimalIf → item = [] ∨ item = [1]) .minimalIf
      return Operand.isTrue item != negated

def verifyTop (e : ScriptError) : Exec Unit := do
  let top ← peek 0
  require (Operand.isTrue top) e
  let _ ← pop

/-- Copies or moves an item whose distance from the top is a number on top of it. -/
def select (r : Rules) (f : Nat → Stack Bytes → Option (Stack Bytes)) : Exec Unit := do
  need 2
  let n ← number r 0
  let _ ← pop
  let s ← get
  require (0 ≤ n ∧ n.toNat < s.stack.length) .invalidStackOperation
  rearrange (f n.toNat)

def concat (r : Rules) : Exec Unit := do
  need 2
  let first ← peek 1
  let second ← peek 0
  require (first.length + second.length ≤ r.limits.itemSize) .pushSize
  let b ← pop
  let a ← pop
  push (a ++ b)

def split (r : Rules) : Exec Unit := do
  need 2
  let position ← number r 0
  let _ ← pop
  let item ← pop
  require (0 ≤ position) .invalidSplitRange
  let (left, right) ← ofExcept (Operand.split item position.toNat)
  push left
  push right

def resize (r : Rules) : Exec Unit := do
  need 2
  let size ← number r 0
  require (0 ≤ size ∧ size.toNat ≤ r.limits.itemSize) .pushSize
  let _ ← pop
  let item ← pop
  let resized ← ofExcept (Operand.resize item size.toNat)
  push resized

/-- Brings a number to its minimal form, which must be short enough to be an operand. -/
def minimize (r : Rules) : Exec Unit := do
  let item ← pop
  let trimmed ← ofOption (Number.minimal? item)
  require (Number.isMinimalWithin r.limits.numberLength trimmed) .invalidNumberRange
  push trimmed

def bitwise (op : Operand.Bitwise) : Exec Unit := do
  need 2
  let b ← pop
  let a ← pop
  let combined ← ofExcept (Operand.bitwise op a b)
  push combined

def shift (r : Rules) (left : Bool) : Exec Unit := do
  need 2
  let n ← number r 0
  require (0 ≤ n) .invalidNumberRange
  let _ ← pop
  let item ← pop
  let shifted ←
    ofOption (if left then Bytes.shiftLeft? item n.toNat else Bytes.shiftRight? item n.toNat)
  push shifted

def equal (verify : Bool) : Exec Unit := do
  need 2
  let b ← pop
  let a ← pop
  conclude verify (a = b) .equalVerify

def unary (r : Rules) (op : UnaryOp) : Exec Unit := do
  need 1
  let n ← number r 0
  let _ ← pop
  push (Number.encode (op.eval n))

def binary (r : Rules) (op : BinaryOp) : Exec Unit := do
  need 2
  let a ← number r 1
  let b ← number r 0
  discard 2
  let result ← ofExcept (op.eval a b)
  push (Number.encode result)

def within (r : Rules) : Exec Unit := do
  need 3
  let x ← number r 2
  let low ← number r 1
  let high ← number r 0
  discard 3
  push (Operand.ofBool (low ≤ x ∧ x < high))

def hashBytes (c : Crypto) (op : HashOp) (item : Bytes) : Bytes :=
  match op with
  | .ripemd160 => (c.ripemd160 item).bytes
  | .sha1 => (c.sha1 item).bytes
  | .sha256 => (c.sha256 item).bytes
  | .hash160 => (c.hash160 item).bytes
  | .hash256 => (c.sha256d item).bytes

/-- Executes a command. `taken` tells whether all open branches are taken, and `next` is the
position behind the instruction. -/
def execute (r : Rules) (script : Script) (taken : Bool) (next : Nat) : Command → Exec Unit
  | .pushNumber n => push (Number.encode n)
  | .nop => pure ()
  | .reservedNop => reservedNop r
  | .lockTime => if r.flags.contains .checkLockTimeVerify then pure () else reservedNop r
  | .relativeLockTime => if r.flags.contains .checkSequenceVerify then pure () else reservedNop r
  | .openBranch negated => do
      let condition ← if taken then popCondition r negated else pure false
      openBranch condition
  | .switchBranch => switchBranch
  | .closeBranch => closeBranch
  | .verify => do
      need 1
      verifyTop .verify
  | .abort => fail .opReturn
  | .toAltStack => do
      let item ← pop
      pushAlt item
  | .fromAltStack => do
      let item ← popAlt
      push item
  | .shuffle s => do
      need s.depth
      rearrange s.run?
  | .copyIfTrue => do
      need 1
      let top ← peek 0
      if Operand.isTrue top then rearrange (Stack.copyBlock? 0 1) else pure ()
  | .pushDepth => do
      let s ← get
      push (Number.encode (Number.wrap s.stack.length))
  | .pick => select r Stack.pick?
  | .roll => select r Stack.roll?
  | .concat => concat r
  | .split => split r
  | .resize => resize r
  | .minimize => minimize r
  | .pushSize => do
      need 1
      let top ← peek 0
      push (Number.encode (Number.wrap top.length))
  | .invert => do
      let item ← pop
      push (Operand.invert item)
  | .bitwise op => bitwise op
  | .shift left => shift r left
  | .equal verify => equal verify
  | .unary op => unary r op
  | .binary op => binary r op
  | .numEqualVerify => do
      binary r .equal
      verifyTop .numEqualVerify
  | .within => within r
  | .hash op => do
      let item ← pop
      push (hashBytes r.crypto op item)
  | .codeSeparator => setCodeStart next
  | .checkSig verify => checkSig r script verify
  | .checkMultiSig verify => checkMultiSig r script verify
  | .invalid => fail .badOpcode

end BitcoinScript.Exec
