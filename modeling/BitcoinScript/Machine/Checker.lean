import BitcoinScript.Flag
import BitcoinScript.Script.Basic

/-!
# Signature checkers

A script does not check signatures itself: it asks a checker, which knows the transaction. A checker
may remember what it has been asked, so its answer to a call may depend on the calls before it; a
*pure* checker's does not. A call without an answer is a fault of the evaluation that makes it.
-/

namespace BitcoinScript

/-- What a checker is asked: whether a signature verifies under a public key for a script code. -/
structure SigCall where
  sig : Bytes
  pubkey : Bytes
  /-- The script code that the signature commits to. -/
  code : Script
  deriving DecidableEq, Repr

/-- What answers the questions of a script about its transaction. -/
structure Checker where
  /-- The answer to a call, given the calls before it, oldest first. -/
  checkSig : (before : List SigCall) → SigCall → Flags → Option Bool
  /-- Whether the lock time of the transaction has reached a value. -/
  checkLockTime : Int → Bool := fun _ => false
  /-- Whether the relative lock time of the input has reached a value. -/
  checkSequence : Int → Bool := fun _ => false

namespace Checker

def refusing : Checker where
  checkSig _ _ _ := some false

/-- The answers do not depend on the calls before. -/
def IsPure (checker : Checker) : Prop :=
  ∀ before before' call flags,
    checker.checkSig before call flags = checker.checkSig before' call flags

def Answers (checker : Checker) : Prop :=
  ∀ before call flags, (checker.checkSig before call flags).isSome

/-- A checker that accepts the listed pairs of a signature and a key, or answers nothing. -/
def accepting (pairs : List (Bytes × Bytes)) (silent : Bool) : Checker where
  checkSig _ call _ := if silent then none else some (pairs.contains (call.sig, call.pubkey))

end Checker

end BitcoinScript
