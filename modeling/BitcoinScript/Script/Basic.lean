import BitcoinScript.Hash.Digest
import BitcoinScript.Script.Instr

/-!
# Scripts

A script is a byte string. Read from the front it is a sequence of instructions, `Script.instrs`,
followed by a `Script.tail` that is empty unless the last push is cut off. The lock scripts that
occur in practice are recognised by their bytes alone.
-/

namespace BitcoinScript

abbrev Script := Bytes

namespace Script

/-- The instructions of a script, and the bytes behind the last complete one. -/
def parse (s : Script) : List Instr × Bytes :=
  match h : Instr.decode? s with
  | none => ([], s)
  | some (op, rest) =>
      have : rest.length < s.length := Instr.length_lt_of_decode? h
      let (ops, tail) := parse rest
      (op :: ops, tail)
termination_by s.length

def instrs (s : Script) : List Instr := (parse s).1

/-- What is left of a script behind its last complete instruction. -/
def tail (s : Script) : Bytes := (parse s).2

def ofInstrs (ops : List Instr) : Script := ops.flatMap Instr.toBytes

/-- What stands at a place of a script, with the positions where it starts and where it ends. -/
structure Item where
  position : Nat
  /-- The instruction, or why there is none. -/
  content : Except ScriptError Instr
  next : Nat

/-- Instructions and a tail as items, the first of which starts at a position. -/
def itemsFrom : (position : Nat) → List Instr → (tail : Bytes) → List Item
  | position, [], tail =>
      if tail = [] then [] else [⟨position, .error .badOpcode, position + tail.length⟩]
  | position, op :: ops, tail =>
      ⟨position, .ok op, position + op.length⟩ :: itemsFrom (position + op.length) ops tail

/-- The items of a script: its instructions in order, and an error for a tail that is cut off. -/
def items (s : Script) : List Item := itemsFrom 0 s.instrs s.tail

/-- Whether the script is complete and its instructions only push. -/
def isPushOnly (s : Script) : Bool :=
  s.instrs.all (·.code.isPush) && s.tail.isEmpty

def append (s : Script) (op : Opcode) : Script := s ++ [op.byte]

def appendInstr (s : Script) (op : Instr) : Script := s ++ op.toBytes

def appendData (s : Script) (data : Bytes) : Script := s.appendInstr (.pushData data)

def appendNumber (s : Script) (n : Int) : Script := s.appendInstr (.pushInt n)

/-- Whether the script pushes a public key of 33 or 65 bytes and checks a signature against it. -/
def isPayToPubkey (s : Script) : Bool :=
  (s.length = 35 && s.head? = some 33 || s.length = 67 && s.head? = some 65) &&
    s.getLast? = some Opcode.checkSig.byte

/-- The hash in the middle of a script that pays to the hash of a public key. -/
def pubkeyHash? (s : Script) : Option (Digest 20) :=
  match s with
  | a :: b :: c :: rest =>
      if a = Opcode.dup.byte ∧ b = Opcode.hash160.byte ∧ c = 20 then
        match Bytes.splitAt? 20 rest with
        | some (hash, [d, e]) =>
            if d = Opcode.equalVerify.byte ∧ e = Opcode.checkSig.byte then Digest.ofBytes? 20 hash
            else none
        | _ => none
      else none
  | _ => none

def isPayToPubkeyHash (s : Script) : Bool := s.pubkeyHash?.isSome

def isReturn (s : Script) : Bool := s.head? = some Opcode.opReturn.byte

/-- Whether the script starts with a return behind a false item, so that nothing can spend it. -/
def isSafeReturn (s : Script) : Bool :=
  [Opcode.op0.byte, Opcode.opReturn.byte].isPrefixOf s

end Script

end BitcoinScript
