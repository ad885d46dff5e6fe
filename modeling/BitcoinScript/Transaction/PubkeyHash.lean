import BitcoinScript.Error
import BitcoinScript.Script.Basic

/-!
# Paying to the hash of a public key

The locking script names the hash of a public key, and the unlocking script holds a signature and
the key. Both are built here and recognised again. An unlocking script is recognised by the
lengths of what it pushes, whatever opcodes push it.
-/

namespace BitcoinScript.PubkeyHash

def lockScript (hash : Digest 20) : Script :=
  Script.append (Script.append (Script.appendData (Script.append (Script.append [] .dup) .hash160)
    hash.bytes) .equalVerify) .checkSig

def unlockScript (sig key : Bytes) : Script :=
  Script.appendData (Script.appendData [] sig) key

/-- The two instructions of a complete script that has no others. -/
def twoInstrs? (s : Script) : Option (Instr × Instr) :=
  match s.instrs, s.tail with
  | [first, second], [] => some (first, second)
  | _, _ => none

def pushesSig (op : Instr) : Bool :=
  op.code.isPushData && 71 ≤ op.data.length && op.data.length ≤ 73

def pushesKey (op : Instr) : Bool :=
  op.code.isPushData && (op.data.length = 33 || op.data.length = 65)

def key? (unlock : Script) : Option Bytes :=
  match twoInstrs? unlock with
  | some (sig, key) => if pushesSig sig && pushesKey key then some key.data else none
  | none => none

def isUnlockScript (unlock : Script) : Bool := (key? unlock).isSome

def isUnlockScriptOf (key : Bytes) (unlock : Script) : Bool := key? unlock = some key

def isLockScriptOf (hash : Digest 20) (lock : Script) : Bool := Script.pubkeyHash? lock = some hash

def extractKey (unlock : Script) : Except Error Bytes :=
  match key? unlock with
  | some key => .ok key
  | none => .error (.badData .notPubkeyHashUnlock)

def extractHash (lock : Script) : Except Error (Digest 20) :=
  match Script.pubkeyHash? lock with
  | some hash => .ok hash
  | none => .error (.badData .notPubkeyHashLock)

end BitcoinScript.PubkeyHash
