import BitcoinScript.Proofs.Bytes.Digits
import BitcoinScript.Proofs.Machine.Pushes
import BitcoinScript.Proofs.Script.Items

/-!
# Minimal pushes

A value can be pushed in several ways: by an opcode of its own, by an opcode that announces its
length, or behind a length field that is wider than it needs to be. Of all instructions that can be
read and push the value, the one that is built is shorter than any other. The flag for minimal data
refuses the others where they are executed.

What decides is `Instr.isMinimalPush`, which compares the opcode with the one for the data. An
opcode that stands for a number has no data, so the test says something about opcodes that announce
data only, and the interpreter applies it to these. The shortest pushes of the seventeen values with
an opcode of their own do not pass it.
-/

namespace BitcoinScript

namespace Opcode

/-- The opcodes that announce data are the lengths below 76, and those with a length field. -/
theorem isPushData_cases {op : Opcode} (h : op.isPushData = true) :
    op.byte < pushData1.byte ∨ op = pushData1 ∨ op = pushData2 ∨ op = pushData4 := by
  have hle : op.byte.toNat ≤ 0x4e := UInt8.le_iff_toNat_le.1 (of_decide_eq_true h)
  have hbyte : ∀ n, op.byte.toNat = n → op = ⟨UInt8.ofNat n⟩ := by
    rintro n rfl
    rw [UInt8.ofNat_toNat]
  rcases Nat.lt_or_ge op.byte.toNat 0x4c with hlt | hge
  · exact Or.inl (UInt8.lt_iff_toNat_lt.2 hlt)
  · obtain hwide | hwide | hwide : op.byte.toNat = 0x4c ∨ op.byte.toNat = 0x4d ∨
        op.byte.toNat = 0x4e := by omega
    · exact Or.inr (Or.inl (hbyte _ hwide))
    · exact Or.inr (Or.inr (Or.inl (hbyte _ hwide)))
    · exact Or.inr (Or.inr (Or.inr (hbyte _ hwide)))

end Opcode

namespace Instr

/-! ## The ways to push a value -/

theorem IsReadable.data_eq_nil {op : Instr} (h : op.IsReadable)
    (hcode : op.code.isPushData = false) : op.data = [] := by
  rw [IsReadable, if_neg (Opcode.not_lt_of_not_isPushData hcode),
    Opcode.lengthWidth_of_not_isPushData hcode] at h
  exact List.length_eq_zero_iff.1 (Nat.lt_one_iff.1 h)

theorem pushData_encode_of_smallInt? {code : Opcode} {n : Int} (h : code.smallInt? = some n) :
    pushData (Number.encode n) = ⟨code, []⟩ := by
  have htable : ∀ k : Fin 16, pushData [UInt8.ofNat (k + 1)] = ⟨⟨UInt8.ofNat (0x51 + k)⟩, []⟩ := by
    decide
  rcases Opcode.smallInt?_cases h with ⟨rfl, rfl⟩ | ⟨k, rfl, rfl⟩
  · rw [Number.encode_neg_one]
    rfl
  · have hencode : Number.encode ((k + 1 : Nat) : Int) = [UInt8.ofNat (k + 1)] :=
      Number.encode_of_lt (Nat.succ_pos _) (by omega)
    rw [← htable k, ← hencode]
    rfl

/-- What pushes a value announces it as its data, or has no data and is the shortest push of it. -/
theorem pushValue?_cases {op : Instr} {v : Bytes} (hread : op.IsReadable)
    (h : op.pushValue? = some v) :
    op.code.isPushData = true ∧ op.data = v ∨
      op.code.isPushData = false ∧ op.data = [] ∧ op = pushData v := by
  rw [pushValue?] at h
  split at h
  · rename_i hcode
    exact Or.inl ⟨hcode, Option.some.inj h⟩
  · rename_i hcode
    have hcode := Bool.eq_false_iff.2 hcode
    have hdata := hread.data_eq_nil hcode
    obtain ⟨n, hn, rfl⟩ := Option.map_eq_some_iff.1 h
    refine Or.inr ⟨hcode, hdata, ?_⟩
    rw [pushData_encode_of_smallInt? hn, ← hdata]

/-! ## The shortest push -/

theorem opcodeForLength_cases (n : Nat) :
    n < 0x4c ∧ opcodeForLength n = ⟨UInt8.ofNat n⟩ ∨
      0x4c ≤ n ∧ n ≤ 0xff ∧ opcodeForLength n = .pushData1 ∨
      0xff < n ∧ n ≤ 0xffff ∧ opcodeForLength n = .pushData2 ∨
      0xffff < n ∧ opcodeForLength n = .pushData4 := by
  rw [opcodeForLength]
  split
  · exact Or.inl ⟨‹_›, rfl⟩
  · split
    · exact Or.inr (Or.inl ⟨Nat.not_lt.1 ‹_›, ‹_›, rfl⟩)
    · split
      · exact Or.inr (Or.inr (Or.inl ⟨Nat.not_le.1 ‹_›, ‹_›, rfl⟩))
      · exact Or.inr (Or.inr (Or.inr ⟨Nat.not_le.1 ‹_›, rfl⟩))

theorem lengthWidth_opcodeForLength (n : Nat) : (opcodeForLength n).lengthWidth =
    if n < 0x4c then 0 else if n ≤ 0xff then 1 else if n ≤ 0xffff then 2 else 4 := by
  have hsmall : ∀ n < 0x4c, (⟨UInt8.ofNat n⟩ : Opcode).lengthWidth = 0 := by decide
  rcases opcodeForLength_cases n with ⟨hn, h⟩ | ⟨hlow, hhigh, h⟩ | ⟨hlow, hhigh, h⟩ | ⟨hlow, h⟩
  · rw [h, hsmall n hn, if_pos hn]
  · rw [h, if_neg (by omega), if_pos hhigh]
    rfl
  · rw [h, if_neg (by omega), if_neg (by omega), if_pos hhigh]
    rfl
  · rw [h, if_neg (by omega), if_neg (by omega), if_neg (by omega)]
    rfl

/-- The length field of the opcode for a length is narrower than any other that can tell it. -/
theorem lengthWidth_opcodeForLength_lt {op : Instr} (hread : op.IsReadable)
    (hcode : op.code.isPushData = true) (hne : op.code ≠ opcodeForLength op.data.length) :
    (opcodeForLength op.data.length).lengthWidth < op.code.lengthWidth := by
  rw [IsReadable] at hread
  rcases Opcode.isPushData_cases hcode with hlt | hwide
  · -- an opcode without a length field is the length itself
    rw [if_pos hlt] at hread
    have hbyte : op.data.length < Opcode.pushData1.byte.toNat := by
      rw [hread]
      exact UInt8.lt_iff_toNat_lt.1 hlt
    rw [opcodeForLength, if_pos hbyte, hread, UInt8.ofNat_toNat] at hne
    exact absurd rfl hne
  · -- the lengths that the field can tell and a narrower one cannot have this very opcode
    have hlength := opcodeForLength_cases op.data.length
    rw [lengthWidth_opcodeForLength]
    rcases hwide with hcode | hcode | hcode
    · rw [hcode] at hread hne ⊢
      have hfits : op.data.length < 0x100 := hread
      have hshort : op.data.length < 0x4c := by grind
      rw [if_pos hshort]
      decide
    · rw [hcode] at hread hne ⊢
      have hfits : op.data.length < 0x10000 := hread
      have hshort : op.data.length ≤ 0xff := by grind
      show _ < 2
      grind
    · rw [hcode] at hne ⊢
      have hshort : op.data.length ≤ 0xffff := by grind
      show _ < 4
      grind

/-- All other instructions that push a value are longer than the shortest push. -/
theorem length_pushData_lt {op : Instr} {v : Bytes} (hread : op.IsReadable)
    (h : op.pushValue? = some v) (hne : op ≠ pushData v) :
    (pushData v).length < op.length := by
  rcases pushValue?_cases hread h with ⟨hcode, rfl⟩ | ⟨-, -, heq⟩
  · rcases pushData_cases op.data with ⟨hpush, -⟩ | ⟨code, n, hpush, hnumber, -, hdata⟩
    · have hother : op.code ≠ opcodeForLength op.data.length := by
        intro heq
        rw [hpush, ← heq] at hne
        exact hne rfl
      have hwidth := lengthWidth_opcodeForLength_lt hread hcode hother
      rw [hpush, length, length]
      exact Nat.add_lt_add_right (Nat.add_lt_add_left hwidth 1) _
    · -- a value with an opcode of its own is not empty, so announcing it takes room
      have hne : op.data ≠ [] := by
        intro hnil
        rw [hnil] at hpush
        obtain rfl : Opcode.op0 = code := congrArg Instr.code hpush
        cases hnumber
      have hpos := List.length_pos_iff.2 hne
      rw [hpush, length, length, Opcode.lengthWidth_of_not_isPushData hnumber, List.length_nil]
      omega
  · exact absurd heq hne

theorem toBytes_eq_pushData_iff {op : Instr} {v : Bytes} (hread : op.IsReadable)
    (h : op.pushValue? = some v) : op.toBytes = (pushData v).toBytes ↔ op = pushData v := by
  refine ⟨fun heq => by_contra fun hne => ?_, fun heq => heq ▸ rfl⟩
  have hlength := congrArg List.length heq
  rw [length_toBytes, length_toBytes] at hlength
  exact Nat.ne_of_gt (length_pushData_lt hread h hne) hlength

/-! ## Recognising it -/

/-- The values with an opcode of their own: the numbers from one to sixteen, and minus one. -/
def HasOwnOpcode : Bytes → Prop
  | [b] => 1 ≤ b ∧ b ≤ 16 ∨ b = 0x81
  | _ => False

instance : DecidablePred HasOwnOpcode
  | [] => inferInstanceAs (Decidable False)
  | [b] => inferInstanceAs (Decidable (1 ≤ b ∧ b ≤ 16 ∨ b = 0x81))
  | _ :: _ :: _ => inferInstanceAs (Decidable False)

theorem code_pushData (v : Bytes) : (pushData v).code = minimalOpcode v := by
  rw [pushData]
  split
  · rfl
  · rfl

/-- The shortest push announces its value unless that has an opcode of its own. -/
theorem isPushData_pushData_iff {v : Bytes} :
    (pushData v).code.isPushData = true ↔ ¬HasOwnOpcode v := by
  rw [code_pushData]
  match v with
  | [] => exact iff_of_true rfl id
  | [b] =>
      exact Bytes.forall_byte
        (P := fun b => (minimalOpcode [b]).isPushData = true ↔ ¬HasOwnOpcode [b])
        (by decide +kernel) b
  | _ :: _ :: _ => exact iff_of_true (isPushData_opcodeForLength _) id

/-- An instruction that announces data is recognised if it is the shortest push of them. -/
theorem isMinimalPush_iff_eq {op : Instr} (hcode : op.code.isPushData = true) :
    op.isMinimalPush = true ↔ op = pushData op.data := by
  constructor
  · intro hminimal
    have heq : op.code = minimalOpcode op.data := of_decide_eq_true hminimal
    rw [pushData, ← heq, if_pos hcode]
  · intro heq
    rw [heq] at hcode ⊢
    exact isMinimalPush_pushData hcode

/-- An opcode without data is compared with that of the empty value. -/
theorem isMinimalPush_of_not_isPushData {op : Instr} (hcode : op.code.isPushData = false)
    (hdata : op.data = []) : op.isMinimalPush = false := by
  refine decide_eq_false fun heq => ?_
  rw [heq, hdata] at hcode
  cases hcode

/-- Which instructions are recognised as the shortest push of their value. -/
theorem isMinimalPush_iff_of_pushValue? {op : Instr} {v : Bytes} (hread : op.IsReadable)
    (h : op.pushValue? = some v) :
    op.isMinimalPush = true ↔ op = pushData v ∧ ¬HasOwnOpcode v := by
  rcases pushValue?_cases hread h with ⟨hcode, rfl⟩ | ⟨hcode, hdata, heq⟩
  · rw [isMinimalPush_iff_eq hcode]
    refine ⟨fun heq => ⟨heq, isPushData_pushData_iff.1 (heq ▸ hcode)⟩, And.left⟩
  · rw [isMinimalPush_of_not_isPushData hcode hdata, ← isPushData_pushData_iff, ← heq, hcode]
    exact iff_of_false Bool.false_ne_true fun h => Bool.false_ne_true h.2

/-- The test for shortest pushes accepts what is built from a value unless that has an opcode of its
own. Of the instructions that are read from scripts and push the value, it accepts the one that is
built from the value, and again not if the value has an opcode of its own. -/
theorem isMinimalPush_iff_pushData (v : Bytes) :
    ((pushData v).isMinimalPush ↔ ¬HasOwnOpcode v) ∧
    ∀ script position op next, decodeAt? script position = some (op, next) →
      op.pushValue? = some v →
        (op.isMinimalPush ↔ op = pushData v ∧ ¬HasOwnOpcode v) := by
  refine ⟨?_, fun script position op next hread hv =>
    isMinimalPush_iff_of_pushValue? (isReadable_of_decodeAt? hread) hv⟩
  rw [← isPushData_pushData_iff]
  refine ⟨fun h => by_contra fun hcode => ?_, isMinimalPush_pushData⟩
  have hcode := Bool.eq_false_iff.2 hcode
  obtain ⟨code, n, hpush, -⟩ := (pushData_cases v).resolve_left fun h => by
    rw [h.1, isPushData_opcodeForLength] at hcode
    cases hcode
  have hdata : (pushData v).data = [] := by rw [hpush]
  rw [isMinimalPush_of_not_isPushData hcode hdata] at h
  cases h

/-- A byte behind its length, and the same byte behind a length field that is not needed. -/
theorem isMinimalPush_iff_pushData_space :
    let script : Script := [0x01, 0x20, 0x4c, 0x01, 0x20]
    decodeAt? script 0 = some (⟨⟨0x01⟩, [0x20]⟩, 2) ∧
      decodeAt? script 2 = some (⟨.pushData1, [0x20]⟩, 5) ∧
      isMinimalPush ⟨⟨0x01⟩, [0x20]⟩ ∧ ¬isMinimalPush ⟨.pushData1, [0x20]⟩ := by
  intro script
  have hshort : decodeAt? script 0 = some (⟨⟨0x01⟩, [0x20]⟩, 2) := by decide
  have hwide : decodeAt? script 2 = some (⟨.pushData1, [0x20]⟩, 5) := by decide
  obtain ⟨-, hiff⟩ := isMinimalPush_iff_pushData [0x20]
  refine ⟨hshort, hwide, (hiff _ _ _ _ hshort rfl).2 (by decide), fun h => ?_⟩
  exact absurd ((hiff _ _ _ _ hwide rfl).1 h).1 (by decide)

/-- The value five is pushed in the shortest way by an opcode of its own, which is not accepted. -/
theorem not_isMinimalPush_five :
    decodeAt? [0x55] 0 = some (pushData [5], 1) ∧ (pushData [5]).pushValue? = some [5] ∧
      ¬(pushData [5]).isMinimalPush :=
  ⟨by decide, pushValue?_pushData [5], by decide⟩

end Instr

namespace Exec

variable {r : Rules} {script : Script} {s : State}

/-- Under the flag for minimal data an instruction that announces data is refused if it is not the
shortest push. -/
theorem step_of_not_isMinimalPush {op : Instr} {next : Nat}
    (hflag : r.flags.contains .minimalData) (hcode : op.code.isPushData = true)
    (hdata : op.data.length ≤ r.limits.itemSize) (hminimal : ¬op.isMinimalPush)
    (hs : s.branches.all id = true) :
    step r script op next s = .error (.error .minimalData) s := by
  have hpush := Opcode.isPush_of_isPushData hcode
  have hrefused : ¬(r.flags.contains .minimalData → op.isMinimalPush) := fun h => hminimal (h hflag)
  rw [step_eq, bind_of_ok (prepare_of_isPush hpush hdata), bind_isTaken, hs, act, hcode]
  exact bind_of_error (require_of_not _ hrefused)

/-- What becomes of an instruction that pushes a value under the flag for minimal data. -/
theorem step_of_minimalData {op : Instr} {v : Bytes} {next : Nat}
    (hflag : r.flags.contains .minimalData) (hread : op.IsReadable) (hv : op.pushValue? = some v)
    (hdata : op.data.length ≤ r.limits.itemSize) (hs : s.branches.all id = true) :
    step r script op next s =
      if op = Instr.pushData v then .ok () { s with stack := v :: s.stack }
      else .error (.error .minimalData) s := by
  split
  · rename_i heq
    refine step_of_pushValue? hv hdata (fun _ hcode => ?_) hs
    rw [heq] at hcode ⊢
    exact Instr.isMinimalPush_pushData hcode
  · rename_i hne
    obtain ⟨hcode, rfl⟩ | ⟨-, -, heq⟩ := Instr.pushValue?_cases hread hv
    · have hminimal := mt (Instr.isMinimalPush_iff_eq hcode).1 hne
      exact step_of_not_isMinimalPush hflag hcode hdata hminimal hs
    · exact absurd heq hne

end Exec

/-- What is built from a value is read back and pushes the value, and it is shorter than anything
else that is read from scripts and pushes the value. Under the flag for minimal data exactly this is
accepted: an instruction in a branch that is taken, with data that are not too long, puts its value
on the stack if its bytes are those of what is built from the value, and otherwise it fails. -/
theorem Exec.step_minimalData :
    (∀ v : Bytes, v.length ≤ 2 ^ 32 - 1 →
      (Instr.decodeAt? (Instr.pushData v).toBytes 0 =
          some (Instr.pushData v, (Instr.pushData v).toBytes.length) ∧
        (Instr.pushData v).pushValue? = some v) ∧
      ∀ script position op next, Instr.decodeAt? script position = some (op, next) →
        op.pushValue? = some v → op ≠ Instr.pushData v →
          (Instr.pushData v).toBytes.length < op.toBytes.length) ∧
    ∀ (r : Rules) (script : Script) position op next v (s : State),
      r.flags.contains .minimalData →
      Instr.decodeAt? script position = some (op, next) → op.pushValue? = some v →
      op.data.length ≤ r.limits.itemSize → s.branches.all id →
        step r script op next s =
          if op.toBytes = (Instr.pushData v).toBytes then .ok () { s with stack := v :: s.stack }
          else .error (.error .minimalData) s := by
  refine ⟨fun v hv => ⟨⟨?_, Instr.pushValue?_pushData v⟩, ?_⟩, ?_⟩
  · have hread : (Instr.pushData v).IsReadable := Instr.isReadable_pushData (by omega)
    have hat := Instr.decodeAt?_append hread [] []
    rw [List.append_nil, List.nil_append] at hat
    rw [Instr.length_toBytes, ← Nat.zero_add (Instr.pushData v).length]
    exact hat
  · intro script position op next hat hpush hne
    rw [Instr.length_toBytes, Instr.length_toBytes]
    exact Instr.length_pushData_lt (Instr.isReadable_of_decodeAt? hat) hpush hne
  · intro r script position op next v s hflag hat hpush hdata hs
    have hread := Instr.isReadable_of_decodeAt? hat
    rw [step_of_minimalData hflag hread hpush hdata hs]
    exact if_congr (Instr.toBytes_eq_pushData_iff hread hpush).symm rfl rfl

/-- Minus one by its own opcode, and as a byte behind its length. -/
theorem Exec.step_minimalData_minusOne :
    let r : Rules := ⟨.ofList [.minimalData], .consensus, .refusing, .standard⟩
    let script : Script := [0x4f, 0x01, 0x81]
    let announced : Instr := ⟨⟨0x01⟩, [0x81]⟩
    let s : State := { stack := [[7]] }
    step r script ⟨.oneNegate, []⟩ 1 s = .ok () { stack := [[0x81], [7]] } ∧
      step r script announced 3 s = .error (.error .minimalData) s ∧
      (Instr.pushData [0x81]).toBytes.length < announced.toBytes.length := by
  intro r script announced s
  have hown : Instr.decodeAt? script 0 = some (⟨.oneNegate, []⟩, 1) := by decide
  have hannounced : Instr.decodeAt? script 1 = some (announced, 3) := by decide
  have hvalue : (⟨.oneNegate, []⟩ : Instr).pushValue? = some [0x81] :=
    congrArg some Number.encode_neg_one
  have hflag : r.flags.contains .minimalData := by decide
  have hlonger : announced ≠ Instr.pushData [0x81] := by decide
  obtain ⟨hbuilt, hstep⟩ := step_minimalData
  refine ⟨?_, ?_, (hbuilt [0x81] (by decide)).2 _ _ _ _ hannounced rfl hlonger⟩
  · exact hstep r script 0 _ 1 [0x81] s hflag hown hvalue (by decide) rfl
  · exact hstep r script 1 announced 3 [0x81] s hflag hannounced rfl (by decide) rfl

end BitcoinScript
