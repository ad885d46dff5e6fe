import BitcoinScript.Opcode.Command

/-!
# Opcodes

An opcode is the first byte of an instruction, and every byte is one. The table `Opcode.entries`
names the opcodes with a name of their own and gives their commands. The bytes 1 to 75 announce as
many bytes of data and are named for that number; the others are unknown, named for their own
value, and have no meaning.

The order of the bytes matters: up to `pushData4` they push the data that follows them, up to
`op16` they push something, and the bytes above `op16` count as operations.
-/

namespace BitcoinScript

/-- The first byte of an instruction. -/
structure Opcode where
  byte : UInt8
  deriving DecidableEq, Repr

namespace Opcode

/-- What is known of an opcode with a name of its own. -/
structure Entry where
  byte : UInt8
  name : String
  command : Command

/-- The opcodes with a name of their own, in order. Those that push the data that follows them, and
those that are disabled, have no command that could be reached. -/
def entries : List Entry :=
  [⟨0x00, "OP_0", .invalid⟩,
   ⟨0x4c, "OP_PUSHDATA1", .invalid⟩,
   ⟨0x4d, "OP_PUSHDATA2", .invalid⟩,
   ⟨0x4e, "OP_PUSHDATA4", .invalid⟩,
   ⟨0x4f, "OP_1NEGATE", .pushNumber (-1)⟩,
   ⟨0x50, "OP_RESERVED", .invalid⟩,
   ⟨0x51, "OP_1", .pushNumber 1⟩,
   ⟨0x52, "OP_2", .pushNumber 2⟩,
   ⟨0x53, "OP_3", .pushNumber 3⟩,
   ⟨0x54, "OP_4", .pushNumber 4⟩,
   ⟨0x55, "OP_5", .pushNumber 5⟩,
   ⟨0x56, "OP_6", .pushNumber 6⟩,
   ⟨0x57, "OP_7", .pushNumber 7⟩,
   ⟨0x58, "OP_8", .pushNumber 8⟩,
   ⟨0x59, "OP_9", .pushNumber 9⟩,
   ⟨0x5a, "OP_10", .pushNumber 10⟩,
   ⟨0x5b, "OP_11", .pushNumber 11⟩,
   ⟨0x5c, "OP_12", .pushNumber 12⟩,
   ⟨0x5d, "OP_13", .pushNumber 13⟩,
   ⟨0x5e, "OP_14", .pushNumber 14⟩,
   ⟨0x5f, "OP_15", .pushNumber 15⟩,
   ⟨0x60, "OP_16", .pushNumber 16⟩,
   ⟨0x61, "OP_NOP", .nop⟩,
   ⟨0x62, "OP_VER", .invalid⟩,
   ⟨0x63, "OP_IF", .openBranch false⟩,
   ⟨0x64, "OP_NOTIF", .openBranch true⟩,
   ⟨0x65, "OP_VERIF", .invalid⟩,
   ⟨0x66, "OP_VERNOTIF", .invalid⟩,
   ⟨0x67, "OP_ELSE", .switchBranch⟩,
   ⟨0x68, "OP_ENDIF", .closeBranch⟩,
   ⟨0x69, "OP_VERIFY", .verify⟩,
   ⟨0x6a, "OP_RETURN", .abort⟩,
   ⟨0x6b, "OP_TOALTSTACK", .toAltStack⟩,
   ⟨0x6c, "OP_FROMALTSTACK", .fromAltStack⟩,
   ⟨0x6d, "OP_2DROP", .shuffle (.drop 0 2)⟩,
   ⟨0x6e, "OP_2DUP", .shuffle (.copy 0 2)⟩,
   ⟨0x6f, "OP_3DUP", .shuffle (.copy 0 3)⟩,
   ⟨0x70, "OP_2OVER", .shuffle (.copy 2 2)⟩,
   ⟨0x71, "OP_2ROT", .shuffle (.raise 4 2)⟩,
   ⟨0x72, "OP_2SWAP", .shuffle (.raise 2 2)⟩,
   ⟨0x73, "OP_IFDUP", .copyIfTrue⟩,
   ⟨0x74, "OP_DEPTH", .pushDepth⟩,
   ⟨0x75, "OP_DROP", .shuffle (.drop 0 1)⟩,
   ⟨0x76, "OP_DUP", .shuffle (.copy 0 1)⟩,
   ⟨0x77, "OP_NIP", .shuffle (.drop 1 1)⟩,
   ⟨0x78, "OP_OVER", .shuffle (.copy 1 1)⟩,
   ⟨0x79, "OP_PICK", .pick⟩,
   ⟨0x7a, "OP_ROLL", .roll⟩,
   ⟨0x7b, "OP_ROT", .shuffle (.raise 2 1)⟩,
   ⟨0x7c, "OP_SWAP", .shuffle (.raise 1 1)⟩,
   ⟨0x7d, "OP_TUCK", .shuffle .tuck⟩,
   ⟨0x7e, "OP_CAT", .concat⟩,
   ⟨0x7f, "OP_SPLIT", .split⟩,
   ⟨0x80, "OP_NUM2BIN", .resize⟩,
   ⟨0x81, "OP_BIN2NUM", .minimize⟩,
   ⟨0x82, "OP_SIZE", .pushSize⟩,
   ⟨0x83, "OP_INVERT", .invert⟩,
   ⟨0x84, "OP_AND", .bitwise .and⟩,
   ⟨0x85, "OP_OR", .bitwise .or⟩,
   ⟨0x86, "OP_XOR", .bitwise .xor⟩,
   ⟨0x87, "OP_EQUAL", .equal false⟩,
   ⟨0x88, "OP_EQUALVERIFY", .equal true⟩,
   ⟨0x89, "OP_RESERVED1", .invalid⟩,
   ⟨0x8a, "OP_RESERVED2", .invalid⟩,
   ⟨0x8b, "OP_1ADD", .unary .addOne⟩,
   ⟨0x8c, "OP_1SUB", .unary .subOne⟩,
   ⟨0x8d, "OP_2MUL", .invalid⟩,
   ⟨0x8e, "OP_2DIV", .invalid⟩,
   ⟨0x8f, "OP_NEGATE", .unary .negate⟩,
   ⟨0x90, "OP_ABS", .unary .abs⟩,
   ⟨0x91, "OP_NOT", .unary .not⟩,
   ⟨0x92, "OP_0NOTEQUAL", .unary .nonZero⟩,
   ⟨0x93, "OP_ADD", .binary .add⟩,
   ⟨0x94, "OP_SUB", .binary .sub⟩,
   ⟨0x95, "OP_MUL", .binary .mul⟩,
   ⟨0x96, "OP_DIV", .binary .div⟩,
   ⟨0x97, "OP_MOD", .binary .mod⟩,
   ⟨0x98, "OP_LSHIFT", .shift true⟩,
   ⟨0x99, "OP_RSHIFT", .shift false⟩,
   ⟨0x9a, "OP_BOOLAND", .binary .boolAnd⟩,
   ⟨0x9b, "OP_BOOLOR", .binary .boolOr⟩,
   ⟨0x9c, "OP_NUMEQUAL", .binary .equal⟩,
   ⟨0x9d, "OP_NUMEQUALVERIFY", .numEqualVerify⟩,
   ⟨0x9e, "OP_NUMNOTEQUAL", .binary .notEqual⟩,
   ⟨0x9f, "OP_LESSTHAN", .binary .less⟩,
   ⟨0xa0, "OP_GREATERTHAN", .binary .greater⟩,
   ⟨0xa1, "OP_LESSTHANOREQUAL", .binary .lessOrEqual⟩,
   ⟨0xa2, "OP_GREATERTHANOREQUAL", .binary .greaterOrEqual⟩,
   ⟨0xa3, "OP_MIN", .binary .min⟩,
   ⟨0xa4, "OP_MAX", .binary .max⟩,
   ⟨0xa5, "OP_WITHIN", .within⟩,
   ⟨0xa6, "OP_RIPEMD160", .hash .ripemd160⟩,
   ⟨0xa7, "OP_SHA1", .hash .sha1⟩,
   ⟨0xa8, "OP_SHA256", .hash .sha256⟩,
   ⟨0xa9, "OP_HASH160", .hash .hash160⟩,
   ⟨0xaa, "OP_HASH256", .hash .hash256⟩,
   ⟨0xab, "OP_CODESEPARATOR", .codeSeparator⟩,
   ⟨0xac, "OP_CHECKSIG", .checkSig false⟩,
   ⟨0xad, "OP_CHECKSIGVERIFY", .checkSig true⟩,
   ⟨0xae, "OP_CHECKMULTISIG", .checkMultiSig false⟩,
   ⟨0xaf, "OP_CHECKMULTISIGVERIFY", .checkMultiSig true⟩,
   ⟨0xb0, "OP_NOP1", .reservedNop⟩,
   ⟨0xb1, "OP_CHECKLOCKTIMEVERIFY", .lockTime⟩,
   ⟨0xb2, "OP_CHECKSEQUENCEVERIFY", .relativeLockTime⟩,
   ⟨0xb3, "OP_NOP4", .reservedNop⟩,
   ⟨0xb4, "OP_NOP5", .reservedNop⟩,
   ⟨0xb5, "OP_NOP6", .reservedNop⟩,
   ⟨0xb6, "OP_NOP7", .reservedNop⟩,
   ⟨0xb7, "OP_NOP8", .reservedNop⟩,
   ⟨0xb8, "OP_NOP9", .reservedNop⟩,
   ⟨0xb9, "OP_NOP10", .reservedNop⟩,
   ⟨0xfd, "OP_PUBKEYHASH", .invalid⟩,
   ⟨0xfe, "OP_PUBKEY", .invalid⟩,
   ⟨0xff, "OP_INVALIDOPCODE", .invalid⟩]

def entry? (op : Opcode) : Option Entry := entries.find? (·.byte = op.byte)

def name (op : Opcode) : String :=
  match op.entry? with
  | some e => e.name
  | none =>
      if op.byte < 0x4c then "OP_PUSHBYTES_" ++ toString op.byte.toNat
      else "OP_UNKNOWN" ++ toString op.byte.toNat

def command (op : Opcode) : Command := (op.entry?.map (·.command)).getD .invalid

def all : List Opcode := (List.range 256).map fun n => ⟨UInt8.ofNat n⟩

/-- Further names, with the opcodes they stand for. -/
def aliases : List (String × Opcode) :=
  [("OP_FALSE", ⟨0x00⟩), ("OP_TRUE", ⟨0x51⟩), ("OP_NOP2", ⟨0xb1⟩), ("OP_NOP3", ⟨0xb2⟩)]

def ofName? (s : String) : Option Opcode :=
  match aliases.find? (·.1 = s) with
  | some p => some p.2
  | none => all.find? (·.name = s)

def op0 : Opcode := ⟨0x00⟩

def pushData1 : Opcode := ⟨0x4c⟩

def pushData2 : Opcode := ⟨0x4d⟩

def pushData4 : Opcode := ⟨0x4e⟩

def oneNegate : Opcode := ⟨0x4f⟩

/-- Pushes the number one; the opcodes behind it push two to sixteen. -/
def op1 : Opcode := ⟨0x51⟩

def op16 : Opcode := ⟨0x60⟩

def ifTrue : Opcode := ⟨0x63⟩

def ifFalse : Opcode := ⟨0x64⟩

def endIf : Opcode := ⟨0x68⟩

def opReturn : Opcode := ⟨0x6a⟩

def dup : Opcode := ⟨0x76⟩

def equalVerify : Opcode := ⟨0x88⟩

def hash160 : Opcode := ⟨0xa9⟩

def codeSeparator : Opcode := ⟨0xab⟩

def checkSig : Opcode := ⟨0xac⟩

/-- Whether the opcode pushes the data that follows it. -/
def isPushData (op : Opcode) : Bool := op.byte ≤ pushData4.byte

/-- Whether the opcode does not count as an operation: those that push, and one reserved byte
among them. -/
def isPush (op : Opcode) : Bool := op.byte ≤ op16.byte

/-- The number that an opcode without data pushes. -/
def smallInt? (op : Opcode) : Option Int :=
  if op = oneNegate then some (-1)
  else if op1.byte ≤ op.byte ∧ op.byte ≤ op16.byte then
    some ((op.byte.toNat : Int) - op1.byte.toNat + 1)
  else none

/-- The opcode that pushes a number from -1 to 16. -/
def ofSmallInt? (n : Int) : Option Opcode :=
  if n = -1 then some oneNegate
  else if n = 0 then some op0
  else if 1 ≤ n ∧ n ≤ 16 then some ⟨UInt8.ofNat (op1.byte.toNat + n.toNat - 1)⟩
  else none

def isDisabled (op : Opcode) : Bool := op.byte = 0x8d || op.byte = 0x8e

/-- Whether the opcode is looked at in a branch that is not taken. -/
def isConditional (op : Opcode) : Bool := ifTrue.byte ≤ op.byte && op.byte ≤ endIf.byte

/-- The number of bytes between the opcode and its data that tell the length of the data. -/
def lengthWidth (op : Opcode) : Nat :=
  if op = pushData1 then 1 else if op = pushData2 then 2 else if op = pushData4 then 4 else 0

end Opcode

end BitcoinScript
