import BitcoinScript.Script.Basic

/-!
# Scripts as sequences of instructions

Reading an instruction takes exactly its bytes from the front of a byte string, so a script is the
bytes of its instructions followed by its tail. Positions count these bytes: the one behind an
instruction never lies behind the end of the script.
-/

namespace BitcoinScript

namespace Instr

/-- An opcode that announces its data itself has no length field. -/
theorem lengthWidth_eq_zero {code : Opcode} (h : code.byte < Opcode.pushData1.byte) :
    code.lengthWidth = 0 := by
  have hne : ∀ other : Opcode, Opcode.pushData1.byte ≤ other.byte → code ≠ other := by
    rintro other hle rfl
    exact absurd h (UInt8.not_lt.2 hle)
  rw [Opcode.lengthWidth, if_neg (hne _ (by decide)), if_neg (hne _ (by decide)),
    if_neg (hne _ (by decide))]

/-- The length of the data and the bytes behind the length field, read back into the bytes. -/
theorem eq_append_of_dataLength? {code : Opcode} {bytes rest : Bytes} {length : Nat}
    (h : dataLength? code bytes = some (length, rest)) :
    bytes = Bytes.ofNatLE code.lengthWidth length ++ rest := by
  rw [dataLength?] at h
  split at h
  · rename_i hlt
    simp only [Option.some.injEq, Prod.mk.injEq] at h
    rw [lengthWidth_eq_zero hlt, Bytes.ofNatLE_zero, List.nil_append, h.2]
  · obtain ⟨p, hp, hq⟩ := Option.map_eq_some_iff.1 h
    obtain ⟨hbytes, hlen⟩ := Bytes.splitAt?_eq_some_iff.1 hp
    simp only [Prod.mk.injEq] at hq
    rw [hbytes, ← hq.1, ← hq.2, ← hlen, Bytes.ofNatLE_toNatLE]

/-- Reading an instruction takes its bytes from the front. -/
theorem eq_append_of_decode? {s rest : Bytes} {op : Instr} (h : decode? s = some (op, rest)) :
    s = op.toBytes ++ rest := by
  match s, h with
  | b :: bytes, h =>
    simp only [decode?, Option.bind_eq_bind, Option.bind_eq_some_iff, Option.pure_def,
      Option.some.injEq, Prod.mk.injEq, Prod.exists] at h
    obtain ⟨length, mid, hlen, data, tail, hdata, rfl, rfl⟩ := h
    obtain ⟨rfl, rfl⟩ := Bytes.splitAt?_eq_some_iff.1 hdata
    rw [eq_append_of_dataLength? hlen, toBytes]
    simp

/-- The position behind the instruction at a position. -/
theorem drop_of_decodeAt? {script : Bytes} {position next : Nat} {op : Instr}
    (h : decodeAt? script position = some (op, next)) :
    decode? (script.drop position) = some (op, script.drop next) ∧
      next = position + op.length := by
  obtain ⟨⟨op', rest⟩, hp, hq⟩ := Option.map_eq_some_iff.1 h
  simp only [Prod.mk.injEq] at hq
  obtain ⟨rfl, rfl⟩ := hq
  have hsplit := eq_append_of_decode? hp
  have hlen := congrArg List.length hsplit
  have hlt := (lt_of_decodeAt? h).1
  rw [List.length_append, length_toBytes, List.length_drop] at hlen
  have hnext : script.length - rest.length = position + op'.length := by omega
  refine ⟨?_, hnext⟩
  rw [hp, hnext, ← List.drop_drop, hsplit, ← length_toBytes, List.drop_left]

theorem le_length_of_decodeAt? {script : Bytes} {position next : Nat} {op : Instr}
    (h : decodeAt? script position = some (op, next)) : next ≤ script.length := by
  obtain ⟨p, -, hq⟩ := Option.map_eq_some_iff.1 h
  rw [← (Prod.mk.inj hq).2]
  exact Nat.sub_le _ _

/-- The bytes between an instruction and the next one are those of the instruction. -/
theorem slice?_of_decodeAt? {script : Bytes} {position next : Nat} {op : Instr}
    (h : decodeAt? script position = some (op, next)) :
    Bytes.slice? script position next = some op.toBytes := by
  obtain ⟨hdec, hnext⟩ := drop_of_decodeAt? h
  have hsplit := eq_append_of_decode? hdec
  have hlen := congrArg List.length hsplit
  have hlt := (lt_of_decodeAt? h).1
  rw [List.length_append, length_toBytes, List.length_drop, List.length_drop] at hlen
  rw [Bytes.slice?, if_pos (by omega), hsplit, Option.some.injEq]
  rw [show next - position = op.toBytes.length by rw [length_toBytes]; omega, List.take_left]

end Instr

namespace Script

@[simp] theorem ofInstrs_nil : ofInstrs [] = [] := rfl

theorem ofInstrs_cons (op : Instr) (ops : List Instr) :
    ofInstrs (op :: ops) = op.toBytes ++ ofInstrs ops := rfl

theorem ofInstrs_append (ops ops' : List Instr) :
    ofInstrs (ops ++ ops') = ofInstrs ops ++ ofInstrs ops' := List.flatMap_append

/-- A script is its instructions followed by its tail. -/
theorem ofInstrs_instrs_append_tail (s : Script) : ofInstrs s.instrs ++ s.tail = s := by
  rw [instrs, tail]
  fun_induction parse s with
  | case1 s h => rw [ofInstrs_nil, List.nil_append]
  | case2 s op rest h hlt ops tail heq ih =>
      rw [heq] at ih
      rw [ofInstrs_cons, List.append_assoc, ih, Instr.eq_append_of_decode? h]

/-- The position behind some of the instructions of a script lies inside it. -/
theorem length_ofInstrs_le {s : Script} {ops rest : List Instr} (h : s.instrs = ops ++ rest) :
    (ofInstrs ops).length ≤ s.length := by
  have hlen := congrArg List.length (ofInstrs_instrs_append_tail s)
  rw [h, ofInstrs_append, List.length_append, List.length_append] at hlen
  omega

theorem decode?_of_instrs_eq_cons {s : Script} {op : Instr} {ops : List Instr}
    (h : s.instrs = op :: ops) :
    ∃ rest : Script, Instr.decode? s = some (op, rest) ∧ rest.instrs = ops := by
  rw [instrs, parse] at h
  split at h
  · exact absurd h (by simp)
  · rename_i op' rest hdec
    simp only [List.cons.injEq] at h
    obtain ⟨rfl, hrest⟩ := h
    exact ⟨rest, hdec, hrest⟩

/-- The first instruction behind a position is the one that is read there. -/
theorem decodeAt?_of_instrs_drop {s : Script} {position : Nat} {op : Instr} {ops : List Instr}
    (h : instrs (s.drop position) = op :: ops) :
    Instr.decodeAt? s position = some (op, position + op.length) ∧
      instrs (s.drop (position + op.length)) = ops := by
  obtain ⟨rest, hdec, hrest⟩ := decode?_of_instrs_eq_cons h
  have hat : Instr.decodeAt? s position = some (op, s.length - rest.length) := by
    rw [Instr.decodeAt?, hdec, Option.map_some]
  obtain ⟨hdrop, hnext⟩ := Instr.drop_of_decodeAt? hat
  rw [hnext] at hat hdrop
  rw [hdec] at hdrop
  simp only [Option.some.injEq, Prod.mk.injEq, true_and] at hdrop
  exact ⟨hat, hdrop ▸ hrest⟩

/-- Every instruction has a byte of its own. -/
theorem length_instrs_le (s : Script) : s.instrs.length ≤ s.length := by
  have hbytes : ∀ ops : List Instr, ops.length ≤ (ofInstrs ops).length := by
    intro ops
    induction ops with
    | nil => exact Nat.le_refl 0
    | cons op ops ih =>
        rw [ofInstrs_cons, List.length_append, Instr.length_toBytes, List.length_cons, Instr.length]
        omega
  exact Nat.le_trans (hbytes s.instrs) (length_ofInstrs_le (List.append_nil _).symm)

end Script

end BitcoinScript
