import BitcoinScript.Machine.Execute

/-!
# Evaluating scripts

`Exec.step` takes one instruction, `Exec.run` a whole script. `Script.eval` runs a script on the
stack that another one may have left, and `Script.verify` runs an unlocking and a locking script
one after the other and looks at what they leave. What lasts from one script to the next is a
`Session`.
-/

namespace BitcoinScript

namespace Exec

/-- Counts an instruction that is an operation. -/
def chargeInstr (r : Rules) (op : Instr) : Exec Unit :=
  if op.code.isPush then pure () else charge r 1

def pushInstr (r : Rules) (op : Instr) : Exec Unit := do
  require (r.flags.contains .minimalData → op.isMinimalPush) .minimalData
  push op.data

/-- Takes one instruction; `next` is the position behind it. The size of its data, the count of
operations and disabled opcodes matter also in branches that are not taken. -/
def step (r : Rules) (script : Script) (op : Instr) (next : Nat) : Exec Unit := do
  require (op.data.length ≤ r.limits.itemSize) .pushSize
  chargeInstr r op
  require (!op.code.isDisabled) .disabledOpcode
  let taken ← isTaken
  if taken && op.code.isPushData then pushInstr r op
  else if taken || op.code.isConditional then execute r script taken next op.code.command
  else pure ()

def checkDepth (r : Rules) : Exec Unit := do
  let s ← get
  require (s.stack.length + s.alt.length ≤ r.limits.stackDepth) .stackSize

/-- Takes instructions of which the first starts at a position of the script. -/
def runFrom (r : Rules) (script : Script) : (position : Nat) → List Instr → Exec Unit
  | _, [] => pure ()
  | position, op :: ops => do
      step r script op (position + op.length)
      checkDepth r
      runFrom r script (position + op.length) ops

def run (r : Rules) (script : Script) : Exec Unit := do
  require (script.length ≤ r.limits.scriptSize) .scriptSize
  runFrom r script 0 script.instrs
  require (script.tail = []) .badOpcode
  let s ← get
  require (s.branches = []) .unbalancedConditional

end Exec

/-- What lasts from one script to the next. -/
structure Session where
  stack : Stack Bytes := []
  /-- The calls of the checker, oldest first. -/
  calls : List SigCall := []
  deriving DecidableEq, Repr

namespace Script

/-- Evaluates a script on the stack of a session. A fault is reported as an unknown error. -/
def eval (r : Rules) (script : Script) : EStateM ScriptError Session Unit := fun session =>
  match Exec.run r script { stack := session.stack, calls := session.calls } with
  | .ok _ s => .ok () ⟨s.stack, s.calls⟩
  | .error stop s => .error stop.toError ⟨s.stack, s.calls⟩

/-- Evaluates scripts one after the other on the stack of a session. The answers are the stack
behind each of them, up to the first one that fails. -/
def evalAll (r : Rules) :
    List Script → Session → List (Except ScriptError (Stack Bytes)) × Session
  | [], session => ([], session)
  | script :: scripts, session =>
      match eval r script session with
      | .error e session => ([.error e], session)
      | .ok _ session =>
          let (outcomes, last) := evalAll r scripts session
          (.ok session.stack :: outcomes, last)

/-- Looks at the stack that two scripts have left. -/
def checkResult (flags : Flags) (stack : Stack Bytes) : Except ScriptError Unit :=
  match stack with
  | [] => .error .evalFalse
  | top :: rest =>
      if !Operand.isTrue top then .error .evalFalse
      else if flags.contains .cleanStack && rest ≠ [] then .error .cleanStack
      else .ok ()

/-- Verifies that an unlocking script satisfies a locking script, on a stack that starts empty. -/
def verify (r : Rules) (unlock lock : Script) : EStateM ScriptError Session Unit := do
  if r.flags.contains .sigPushOnly && !unlock.isPushOnly then throw .sigPushOnly
  modify fun session => { session with stack := [] }
  eval r unlock
  eval r lock
  let session ← get
  match checkResult r.flags session.stack with
  | .ok () => return
  | .error e => throw e

/-- The error of a verification that is not part of a longer session, if there is one. -/
def verifyError? (r : Rules) (unlock lock : Script) : Option ScriptError :=
  match verify r unlock lock {} with
  | .ok _ _ => none
  | .error e _ => some e

end Script

end BitcoinScript
