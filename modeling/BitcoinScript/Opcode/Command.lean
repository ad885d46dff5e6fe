import BitcoinScript.Operand
import BitcoinScript.Stack

/-!
# Commands

What an opcode asks of the interpreter, apart from pushing the data that follows it. Opcodes that
do the same thing with another parameter share one command, so that the hundred opcodes in use
come down to some thirty kinds.
-/

namespace BitcoinScript

inductive UnaryOp where
  | addOne
  | subOne
  | negate
  | abs
  | not
  | nonZero
  deriving DecidableEq, Repr

/-- The value of a function of one number, in 64-bit arithmetic. -/
def UnaryOp.eval : UnaryOp → Int → Int
  | .addOne, n => Number.add n 1
  | .subOne, n => Number.sub n 1
  | .negate, n => Number.neg n
  | .abs, n => Number.abs n
  | .not, n => Number.ofBool (n = 0)
  | .nonZero, n => Number.ofBool (n ≠ 0)

inductive BinaryOp where
  | add
  | sub
  | mul
  | div
  | mod
  | boolAnd
  | boolOr
  | equal
  | notEqual
  | less
  | greater
  | lessOrEqual
  | greaterOrEqual
  | min
  | max
  deriving DecidableEq, Repr

/-- The value of a function of two numbers, in 64-bit arithmetic. Division and remainder by zero
are errors of the script. -/
def BinaryOp.eval : BinaryOp → (a b : Int) → Except Stop Int
  | .add, a, b => .ok (Number.add a b)
  | .sub, a, b => .ok (Number.sub a b)
  | .mul, a, b => .ok (Number.mul a b)
  | .div, a, b => if b = 0 then .error (.error .divByZero) else Number.divide a b
  | .mod, a, b => if b = 0 then .error (.error .modByZero) else Number.remainder a b
  | .boolAnd, a, b => .ok (Number.ofBool (a ≠ 0 ∧ b ≠ 0))
  | .boolOr, a, b => .ok (Number.ofBool (a ≠ 0 ∨ b ≠ 0))
  | .equal, a, b => .ok (Number.ofBool (a = b))
  | .notEqual, a, b => .ok (Number.ofBool (a ≠ b))
  | .less, a, b => .ok (Number.ofBool (a < b))
  | .greater, a, b => .ok (Number.ofBool (b < a))
  | .lessOrEqual, a, b => .ok (Number.ofBool (a ≤ b))
  | .greaterOrEqual, a, b => .ok (Number.ofBool (b ≤ a))
  | .min, a, b => .ok (Min.min a b)
  | .max, a, b => .ok (Max.max a b)

inductive HashOp where
  | ripemd160
  | sha1
  | sha256
  | hash160
  | hash256
  deriving DecidableEq, Repr

/-- What an opcode asks of the interpreter. -/
inductive Command where
  | pushNumber (n : Int)
  | nop
  /-- Do nothing, unless reserved no-ops are discouraged. -/
  | reservedNop
  /-- Do nothing; a reserved no-op unless lock times are enabled. -/
  | lockTime
  /-- Do nothing; a reserved no-op unless relative lock times are enabled. -/
  | relativeLockTime
  /-- Open a branch that is taken if the top item is true, or if it is false when `negated`. -/
  | openBranch (negated : Bool)
  | switchBranch
  | closeBranch
  | verify
  | abort
  | toAltStack
  | fromAltStack
  | shuffle (s : Shuffle)
  | copyIfTrue
  | pushDepth
  /-- Copy the item whose distance from the top is given. -/
  | pick
  /-- Move the item whose distance from the top is given. -/
  | roll
  | concat
  | split
  | resize
  | minimize
  | pushSize
  | invert
  | bitwise (op : Operand.Bitwise)
  /-- Shift an item, towards its most significant bit if `left`. -/
  | shift (left : Bool)
  /-- Compare two items as byte strings; with `verify`, require that they are equal. -/
  | equal (verify : Bool)
  | unary (op : UnaryOp)
  | binary (op : BinaryOp)
  | numEqualVerify
  | within
  | hash (op : HashOp)
  /-- Let the signed script code begin behind this opcode. -/
  | codeSeparator
  | checkSig (verify : Bool)
  | checkMultiSig (verify : Bool)
  /-- Fail because the opcode has no meaning. -/
  | invalid
  deriving DecidableEq, Repr

end BitcoinScript
