import BitcoinScript.Crypto
import BitcoinScript.Limits
import BitcoinScript.Machine.Checker

/-!
# The state of an evaluation

`Rules` is what stays the same while a script is evaluated and `State` is what changes. An `Exec` is
a step: it changes the state and either gives a value or stops, and the state is kept when it stops,
so that the calls made until then are known. The steps of this module are the only ones that touch
the state; everything that opcodes do is put together from them.

A step that needs items on the stack comes after `need`, which fails the script when there are too
few. Taking an item that is not there without having asked for it is a fault.
-/

namespace BitcoinScript

/-- What stays the same during an evaluation. -/
structure Rules where
  flags : Flags
  limits : Limits
  checker : Checker
  crypto : Crypto

/-- What changes during an evaluation. -/
structure State where
  stack : Stack Bytes
  alt : Stack Bytes := []
  /-- Whether each open branch is taken, the innermost one first. -/
  branches : List Bool := []
  /-- Where the script code that signatures commit to starts. -/
  codeStart : Nat := 0
  opCount : Nat := 0
  /-- The calls of the checker made so far, oldest first. -/
  calls : List SigCall := []
  deriving DecidableEq, Repr

abbrev Exec := EStateM Stop State

namespace Exec

def fail {α : Type} (e : ScriptError) : Exec α := throw (.error e)

/-- Reaches outside what is defined. -/
def fault {α : Type} : Exec α := throw .fault

def require (p : Prop) [Decidable p] (e : ScriptError) : Exec Unit :=
  if p then pure () else fail e

def ofExcept {α : Type} : Except Stop α → Exec α
  | .ok a => pure a
  | .error e => throw e

def ofOption {α : Type} : Option α → Exec α
  | some a => pure a
  | none => fault

def isTaken : Exec Bool := do
  let s ← get
  return s.branches.all id

/-- Fails unless the main stack holds at least `n` items. -/
def need (n : Nat) : Exec Unit := do
  let s ← get
  require (n ≤ s.stack.length) .invalidStackOperation

def peek (n : Nat) : Exec Bytes := do
  let s ← get
  ofOption (s.stack.peek? n)

def push (item : Bytes) : Exec Unit :=
  modify fun s => { s with stack := item :: s.stack }

def pop : Exec Bytes := do
  let s ← get
  match s.stack with
  | [] => fail .invalidStackOperation
  | item :: rest =>
      set { s with stack := rest }
      return item

/-- Rearranges the main stack in a way for which it must be deep enough. -/
def rearrange (f : Stack Bytes → Option (Stack Bytes)) : Exec Unit := do
  let s ← get
  let stack ← ofOption (f s.stack)
  set { s with stack }

def discard (n : Nat) : Exec Unit := rearrange (Stack.dropBlock? 0 n)

def number (r : Rules) (n : Nat) : Exec Int := do
  let item ← peek n
  ofExcept (Number.decode (r.flags.contains .minimalData) r.limits.numberLength item)

def charge (r : Rules) (n : Nat) : Exec Unit := do
  modify fun s => { s with opCount := s.opCount + n }
  let s ← get
  require (s.opCount ≤ r.limits.ops) .opCount

def pushAlt (item : Bytes) : Exec Unit :=
  modify fun s => { s with alt := item :: s.alt }

def popAlt : Exec Bytes := do
  let s ← get
  match s.alt with
  | [] => fail .invalidAltstackOperation
  | item :: rest =>
      set { s with alt := rest }
      return item

def openBranch (taken : Bool) : Exec Unit :=
  modify fun s => { s with branches := taken :: s.branches }

def switchBranch : Exec Unit := do
  let s ← get
  match s.branches with
  | [] => fail .unbalancedConditional
  | taken :: rest => set { s with branches := (!taken) :: rest }

def closeBranch : Exec Unit := do
  let s ← get
  match s.branches with
  | [] => fail .unbalancedConditional
  | _ :: rest => set { s with branches := rest }

def setCodeStart (position : Nat) : Exec Unit :=
  modify fun s => { s with codeStart := position }

/-- The bytes of the script from where the script code starts. -/
def scriptCode (script : Script) : Exec Script := do
  let s ← get
  if s.codeStart ≤ script.length then return script.drop s.codeStart else fault

def ask (r : Rules) (call : SigCall) : Exec Bool := do
  let s ← get
  set { s with calls := s.calls ++ [call] }
  ofOption (r.checker.checkSig s.calls call r.flags)

end Exec

end BitcoinScript
