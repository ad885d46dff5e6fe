import BitcoinScript.Machine.State
import BitcoinScript.Script.Edit
import BitcoinScript.Signature.Encoding

/-!
# Signature checks of scripts

A signature commits to the script code without its own pushes, since it could not have been part
of what was signed. Signatures that use an enabled fork identifier commit to the script code as it
is.

A multiple signature check goes through keys and signatures from the top of the stack. Each key is
tried once, with the first signature that has not been accepted yet, and the check gives up as
soon as fewer keys than signatures are left.
-/

namespace BitcoinScript

/-- The push of a signature as it would stand in a script: its length alone chooses the opcode. -/
def Signature.pushed (sig : Bytes) : Bytes :=
  Instr.toBytes ⟨Instr.opcodeForLength sig.length, sig⟩

/-- Whether a signature commits to the script code as it is. -/
def Signature.keepsCode (flags : Flags) (sig : Bytes) : Bool :=
  flags.contains .enableForkId && (HashType.ofSignature sig).hasForkId

def Signature.cleanCode (flags : Flags) (code : Script) (sig : Bytes) : Script :=
  if keepsCode flags sig then code else (Script.findAndDelete (pushed sig) code).1

/-- The script code without the pushes of a signature, as positions of the code give it. -/
def Signature.cleanCode? (flags : Flags) (code : Script) (sig : Bytes) : Option Script :=
  if keepsCode flags sig then some code
  else (Script.findAndDelete? (pushed sig) code).map (·.1)

namespace Exec

/-- Ends a check: a verifying one fails unless it is true, another pushes its result. -/
def conclude (verify result : Bool) (e : ScriptError) : Exec Unit :=
  if verify then require result e else push (Operand.ofBool result)

def checkPair (r : Rules) (code : Script) (sig key : Bytes) : Exec Bool := do
  ofExcept (Signature.checkForm sig r.crypto r.flags)
  ofExcept (Signature.checkKeyForm key r.flags)
  ask r ⟨sig, key, code⟩

/-- Ends a check with its result. A signature of a false check must be empty if that is asked
for. -/
def closeSig (r : Rules) (verify : Bool) (sig : Bytes) (result : Bool) : Exec Unit := do
  require (r.flags.contains .nullFail → result ∨ sig = []) .sigNullFail
  discard 2
  conclude verify result .checkSigVerify

/-- Checks a signature under a key. Stack, top last: `sig key`. -/
def checkSig (r : Rules) (script : Script) (verify : Bool) : Exec Unit := do
  need 2
  let sig ← peek 1
  let key ← peek 0
  let code ← scriptCode script
  let code ← ofOption (Signature.cleanCode? r.flags code sig)
  let result ← checkPair r code sig key
  closeSig r verify sig result

def count (r : Rules) (place bound : Nat) (e : ScriptError) : Exec Nat := do
  let n ← number r place
  require (0 ≤ n ∧ n.toNat ≤ bound) e
  return n.toNat

/-- The script code without the pushes of `count` signatures, the first of which lies `place` places
below the top. -/
def cleanCodes (r : Rules) : (count place : Nat) → Script → Exec Script
  | 0, _, code => pure code
  | count + 1, place, code => do
      let sig ← peek place
      let code ← ofOption (Signature.cleanCode? r.flags code sig)
      cleanCodes r count (place + 1) code

/-- Tries the next key with the next signature, and tells whether it is accepted. -/
def tryPair (r : Rules) (code : Script) (sigPlace keyPlace : Nat) : Exec Bool := do
  let sig ← peek sigPlace
  let key ← peek keyPlace
  checkPair r code sig key

/-- Whether the signatures left are accepted in order by some of the keys left in order. The next
ones lie `sigPlace` and `keyPlace` places below the top. Counting keys below zero is a fault. -/
def matchSigs (r : Rules) (code : Script) :
    (keysLeft sigsLeft keyPlace sigPlace : Nat) → Exec Bool
  | _, 0, _, _ => pure true
  | 0, _ + 1, keyPlace, sigPlace => do
      let _ ← tryPair r code sigPlace keyPlace
      fault
  | keysLeft + 1, sigsLeft + 1, keyPlace, sigPlace => do
      let accepted ← tryPair r code sigPlace keyPlace
      let sigPlace := if accepted then sigPlace + 1 else sigPlace
      let sigsLeft := if accepted then sigsLeft else sigsLeft + 1
      if keysLeft < sigsLeft then pure false
      else matchSigs r code keysLeft sigsLeft (keyPlace + 1) sigPlace

def requireNull (asked : Bool) : Exec Unit :=
  if asked then do
    let sig ← peek 0
    require (sig = []) .sigNullFail
  else pure ()

/-- Removes items one by one. Those behind the first `others` are signatures, which must be empty
under a failed check that asks for it. -/
def unwind (r : Rules) (result : Bool) : (items others : Nat) → Exec Unit
  | 0, _ => pure ()
  | items + 1, others => do
      requireNull (!result && r.flags.contains .nullFail && others = 0)
      let _ ← pop
      unwind r result items (others - 1)

/-- Removes the item behind the operands, which must be empty if that is asked for, and ends a check
with its result. -/
def dropDummy (r : Rules) (verify result : Bool) : Exec Unit := do
  need 1
  let dummy ← peek 0
  require (r.flags.contains .nullDummy → dummy = []) .sigNullDummy
  let _ ← pop
  conclude verify result .checkMultiSigVerify

def closeMultiSig (r : Rules) (verify : Bool) (n m : Nat) (result : Bool) : Exec Unit := do
  unwind r result (n + m + 2) (n + 2)
  dropDummy r verify result

/-- Checks signatures under keys. Stack, top last: `dummy sig₁ … sigₘ m key₁ … keyₙ n`. -/
def checkMultiSig (r : Rules) (script : Script) (verify : Bool) : Exec Unit := do
  need 1
  let n ← count r 0 Limits.maxKeys .pubkeyCount
  charge r n
  need (n + 2)
  let m ← count r (n + 1) n .sigCount
  need (n + m + 3)
  let code ← scriptCode script
  let code ← cleanCodes r m (n + 2) code
  let result ← matchSigs r code n m 1 (n + 2)
  closeMultiSig r verify n m result

end Exec

end BitcoinScript
