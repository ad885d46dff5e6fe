import BitcoinScript.Machine.Eval
import BitcoinScript.Script.Asm

/-!
# Traces

A trace shows the stack behind every instruction of a script. Each entry is the evaluation, on a
fresh stack, of the instructions up to that one, with the conditionals that are still open
closed behind them.
-/

namespace BitcoinScript.Script

structure TraceEntry where
  name : String
  /-- The position behind the instruction. -/
  next : Nat
  /-- The stack, or why there is none. -/
  outcome : Except ScriptError (Stack Bytes)

def finalStack (r : Rules) (stack : Stack Bytes) (script : Script) :
    Except ScriptError (Stack Bytes) :=
  match eval r script { stack } with
  | .ok _ session => .ok session.stack
  | .error e _ => .error e

/-- The number of open conditionals behind an instruction, taken or not. -/
def openAfter (opened : Nat) (op : Instr) : Nat :=
  if op.code = .ifTrue ∨ op.code = .ifFalse then opened + 1
  else if op.code = .endIf then opened - 1
  else opened

/-- The entries for the given items. No entry follows one without a stack. -/
def traceFrom (r : Rules) (stack : Stack Bytes) (script : Script) :
    (opened : Nat) → List Item → List TraceEntry
  | _, [] => []
  | opened, item :: rest =>
      match item.content with
      | .error _ => [⟨item.display, item.next, finalStack r stack script⟩]
      | .ok op =>
          let opened := openAfter opened op
          let closed := script.take item.next ++ List.replicate opened Opcode.endIf.byte
          match finalStack r stack closed with
          | .error e => [⟨op.code.name, item.next, .error e⟩]
          | .ok left =>
              ⟨op.code.name, item.next, .ok left⟩ :: traceFrom r stack script opened rest

def trace (r : Rules) (stack : Stack Bytes) (script : Script) : List TraceEntry :=
  traceFrom r stack script 0 script.items

end BitcoinScript.Script
