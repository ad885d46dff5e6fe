import BitcoinScript.Opcode.Basic
import BitcoinScript.Bytes.Hex

/-!
# Instructions

An instruction is an opcode with the data that it pushes. `Instr.toBytes` writes one and
`Instr.decode?` reads one from the front of a byte string, returning what is left: positions in a
script are lengths of what is left, so no index can point outside the script.

A value can be pushed in several ways. `Instr.pushData` takes the shortest, and
`Instr.isMinimalPush` recognises the opcode that it takes.
-/

namespace BitcoinScript

structure Instr where
  code : Opcode
  data : Bytes := []
  deriving DecidableEq, Repr

namespace Instr

/-- The length of the data of an instruction that starts with the given opcode, and the bytes
behind the length field. -/
def dataLength? (code : Opcode) (rest : Bytes) : Option (Nat × Bytes) :=
  if code.byte < Opcode.pushData1.byte then some (code.byte.toNat, rest)
  else (Bytes.splitAt? code.lengthWidth rest).map fun p => (Bytes.toNatLE p.1, p.2)

/-- Reads an instruction from the front of a byte string. There is none if the bytes end before
the instruction does. -/
def decode? : Bytes → Option (Instr × Bytes)
  | [] => none
  | b :: bytes => do
      let (length, rest) ← dataLength? ⟨b⟩ bytes
      let (data, rest) ← Bytes.splitAt? length rest
      return (⟨⟨b⟩, data⟩, rest)

/-- What is left after an instruction is shorter than what was there. -/
theorem length_lt_of_decode? {s rest : Bytes} {op : Instr} (h : decode? s = some (op, rest)) :
    rest.length < s.length := by
  match s, h with
  | b :: bytes, h =>
    simp only [decode?, Option.bind_eq_bind, Option.bind_eq_some_iff, Option.pure_def,
      Option.some.injEq, Prod.mk.injEq, Prod.exists] at h
    obtain ⟨length, mid, hlen, data, tail, hdata, -, rfl⟩ := h
    have hmid : mid.length ≤ bytes.length := by
      unfold dataLength? at hlen
      split at hlen
      · simp only [Option.some.injEq, Prod.mk.injEq] at hlen
        simp [hlen.2]
      · obtain ⟨p, hp, hq⟩ := Option.map_eq_some_iff.1 hlen
        obtain ⟨rfl, -⟩ := Bytes.splitAt?_eq_some_iff.1 hp
        simp only [Prod.mk.injEq] at hq
        simp [← hq.2]
    obtain ⟨rfl, -⟩ := Bytes.splitAt?_eq_some_iff.1 hdata
    simp only [List.length_append, List.length_cons] at hmid ⊢
    omega

/-- Reads the instruction at a position of a script, with the position of the next one. -/
def decodeAt? (script : Bytes) (position : Nat) : Option (Instr × Nat) :=
  (decode? (script.drop position)).map fun p => (p.1, script.length - p.2.length)

theorem lt_of_decodeAt? {script : Bytes} {position next : Nat} {op : Instr}
    (h : decodeAt? script position = some (op, next)) :
    position < script.length ∧ position < next := by
  obtain ⟨p, hp, hq⟩ := Option.map_eq_some_iff.1 h
  have hlt := length_lt_of_decode? hp
  rw [List.length_drop] at hlt
  simp only [Prod.mk.injEq] at hq
  omega

def length (op : Instr) : Nat := 1 + op.code.lengthWidth + op.data.length

/-- Writes an instruction. A length of the data that the length field cannot hold is cut to its
low bytes. -/
def toBytes (op : Instr) : Bytes :=
  op.code.byte :: Bytes.ofNatLE op.code.lengthWidth op.data.length ++ op.data

@[simp] theorem length_toBytes (op : Instr) : op.toBytes.length = op.length := by
  simp only [toBytes, length, List.length_append, List.length_cons, Bytes.length_ofNatLE]
  omega

/-- The opcode that announces `n` bytes of data in the shortest way. -/
def opcodeForLength (n : Nat) : Opcode :=
  if n < Opcode.pushData1.byte.toNat then ⟨UInt8.ofNat n⟩
  else if n ≤ 0xff then .pushData1
  else if n ≤ 0xffff then .pushData2
  else .pushData4

/-- The opcode that pushes a value with the shortest instruction. A single byte from 1 to 16 and
the byte `0x81` have opcodes of their own. -/
def minimalOpcode : Bytes → Opcode
  | [b] =>
      if 1 ≤ b ∧ b ≤ 16 then ⟨Opcode.op1.byte + b - 1⟩
      else if b = 0x81 then .oneNegate
      else opcodeForLength 1
  | data => opcodeForLength data.length

/-- The shortest instruction that pushes a value. -/
def pushData (data : Bytes) : Instr :=
  let code := minimalOpcode data
  if code.isPushData then ⟨code, data⟩ else ⟨code, []⟩

def pushInt (n : Int) : Instr :=
  match Opcode.ofSmallInt? n with
  | some code => ⟨code, []⟩
  | none => pushData (Number.encode n)

def pushValue? (op : Instr) : Option Bytes :=
  if op.code.isPushData then some op.data else op.code.smallInt?.map Number.encode

/-- Whether the opcode is the one for the shortest push of the data. -/
def isMinimalPush (op : Instr) : Bool := op.code = minimalOpcode op.data

/-- An instruction in script text: pushed data as hex, anything else by name. -/
def display (op : Instr) : String :=
  if op.code.isPushData && !op.data.isEmpty then Hex.encode op.data else op.code.name

/-- An instruction by name, with the data behind it where the opcode pushes data. -/
def describe (op : Instr) : String :=
  if op.code.isPushData then op.code.name ++ " " ++ Hex.encode op.data else op.code.name

end Instr

end BitcoinScript
