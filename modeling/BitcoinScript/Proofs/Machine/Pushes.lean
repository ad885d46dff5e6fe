import BitcoinScript.Proofs.Machine.Stepping
import BitcoinScript.Proofs.Opcode.Table
import BitcoinScript.Proofs.Script.Filtering

/-!
# Pushes that are built

The shortest push of a value is read back as one instruction, it is minimal where that is asked for,
and what it pushes is the value: a few values have opcodes that push a number, and the number is
written as just that value. So where branches are taken, a script of such pushes puts its values on
the stack.
-/

namespace BitcoinScript

theorem Number.encode_of_lt {n : Nat} (hpos : 0 < n) (hlt : n < 0x80) :
    encode n = [UInt8.ofNat n] := by
  have hmagnitude : magnitudeBytes n = [UInt8.ofNat n] := by
    rw [magnitudeBytes, dif_neg (by omega), magnitudeBytes, dif_pos (by omega)]
  have hsign : ¬(n : Int) < 0 := by omega
  have hbyte : (UInt8.ofNat n).toNat = n := UInt8.toNat_ofNat_of_lt (Nat.lt_trans hlt (by decide))
  have htop : ¬0x80 ≤ (UInt8.ofNat n).toNat := by omega
  rw [encode, Int.natAbs_natCast, hmagnitude, decide_eq_false hsign, withSign, if_neg htop]
  rfl

theorem Number.encode_neg_one : encode (-1) = [0x81] := by
  have hmagnitude : magnitudeBytes 1 = [1] := by
    rw [magnitudeBytes, dif_neg (by decide), magnitudeBytes, dif_pos (by decide)]
    rfl
  show withSign true (magnitudeBytes 1) = [0x81]
  rw [hmagnitude]
  rfl

namespace Opcode

/-- The opcodes that push a number are that of minus one and the sixteen in a row from one on. -/
theorem smallInt?_cases {op : Opcode} {n : Int} (h : op.smallInt? = some n) :
    op = oneNegate ∧ n = -1 ∨ ∃ k : Fin 16, op = ⟨UInt8.ofNat (0x51 + k)⟩ ∧ n = k + 1 := by
  rw [smallInt?] at h
  split at h
  · exact Or.inl ⟨‹_›, (Option.some.inj h).symm⟩
  · split at h
    · rename_i hrange
      have hlow : 0x51 ≤ op.byte.toNat := UInt8.le_iff_toNat_le.1 hrange.1
      have hhigh : op.byte.toNat ≤ 0x60 := UInt8.le_iff_toNat_le.1 hrange.2
      refine Or.inr ⟨⟨op.byte.toNat - 0x51, by omega⟩, ?_, ?_⟩
      · rw [Nat.add_sub_cancel' hlow, UInt8.ofNat_toNat]
      · rw [← Option.some.inj h]
        show op.byte.toNat - (0x51 : Nat) + 1 = ((op.byte.toNat - 0x51 : Nat) : Int) + 1
        omega
    · cases h

theorem command_of_smallInt? {op : Opcode} {n : Int} (h : op.smallInt? = some n) :
    op.command = .pushNumber n := by
  have htable : ∀ k : Fin 16, (⟨UInt8.ofNat (0x51 + k)⟩ : Opcode).command =
      .pushNumber (k + 1) := by decide
  rcases smallInt?_cases h with ⟨rfl, rfl⟩ | ⟨k, rfl, rfl⟩
  · rfl
  · exact htable k

theorem isPush_of_smallInt? {op : Opcode} {n : Int} (h : op.smallInt? = some n) :
    op.isPush = true := by
  have htable : ∀ k : Fin 16, (⟨UInt8.ofNat (0x51 + k)⟩ : Opcode).isPush = true := by decide
  rcases smallInt?_cases h with ⟨rfl, -⟩ | ⟨k, rfl, -⟩
  · rfl
  · exact htable k

theorem not_lt_of_not_isPushData {op : Opcode} (h : op.isPushData = false) :
    ¬op.byte < pushData1.byte := by
  intro hlt
  have hle : op.byte ≤ pushData4.byte := UInt8.le_of_lt (UInt8.lt_of_lt_of_le hlt (by decide))
  rw [isPushData, decide_eq_true hle] at h
  cases h

theorem lengthWidth_of_not_isPushData {op : Opcode} (h : op.isPushData = false) :
    op.lengthWidth = 0 := by
  have hne : ∀ other : Opcode, other.isPushData = true → op ≠ other := by
    rintro other hother rfl
    rw [h] at hother
    cases hother
  rw [lengthWidth, if_neg (hne _ rfl), if_neg (hne _ rfl), if_neg (hne _ rfl)]

theorem isDisabled_of_isPush {op : Opcode} (h : op.isPush = true) : op.isDisabled = false := by
  have hle : op.byte ≤ op16.byte := of_decide_eq_true h
  have hne : ∀ b : UInt8, ¬b ≤ op16.byte → op.byte ≠ b := by
    rintro b hb rfl
    exact hb hle
  rw [isDisabled, decide_eq_false (hne 0x8d (by decide)), decide_eq_false (hne 0x8e (by decide))]
  rfl

end Opcode

namespace Instr

theorem isPushData_opcodeForLength (n : Nat) : (opcodeForLength n).isPushData = true := by
  rw [opcodeForLength]
  split
  · rename_i hlt
    have hbyte : (UInt8.ofNat n).toNat = n := UInt8.toNat_ofNat_of_lt (Nat.lt_trans hlt (by decide))
    refine decide_eq_true (UInt8.le_iff_toNat_le.2 ?_)
    rw [hbyte]
    exact Nat.le_trans (Nat.le_of_lt hlt) (by decide)
  · split
    · rfl
    · split
      · rfl
      · rfl

/-- The shortest push announces the length of its data, or its opcode stands for a number that is
written as the value. -/
theorem pushData_cases (data : Bytes) :
    pushData data = ⟨opcodeForLength data.length, data⟩ ∧
        minimalOpcode data = opcodeForLength data.length ∨
      ∃ code n, pushData data = ⟨code, []⟩ ∧ code.isPushData = false ∧ code.smallInt? = some n ∧
        Number.encode n = data := by
  have hlength : minimalOpcode data = opcodeForLength data.length →
      pushData data = ⟨opcodeForLength data.length, data⟩ ∧
        minimalOpcode data = opcodeForLength data.length := by
    intro h
    refine ⟨?_, h⟩
    simp only [pushData, h, isPushData_opcodeForLength, if_true]
  match data with
  | [] => exact Or.inl (hlength rfl)
  | _ :: _ :: _ => exact Or.inl (hlength rfl)
  | [b] =>
      -- Only a single byte can have an opcode of its own.
      by_cases hsmall : 1 ≤ b ∧ b ≤ 16
      · have hlow : 1 ≤ b.toNat := UInt8.le_iff_toNat_le.1 hsmall.1
        have hhigh : b.toNat ≤ 16 := UInt8.le_iff_toNat_le.1 hsmall.2
        have htable : ∀ k : Fin 16,
            (⟨Opcode.op1.byte + UInt8.ofNat (k + 1) - 1⟩ : Opcode).isPushData = false ∧
              (⟨Opcode.op1.byte + UInt8.ofNat (k + 1) - 1⟩ : Opcode).smallInt? =
                some ((k + 1 : Nat) : Int) := by decide
        have hb := htable ⟨b.toNat - 1, by omega⟩
        simp only [Nat.sub_add_cancel hlow, UInt8.ofNat_toNat] at hb
        have hcode : minimalOpcode [b] = ⟨Opcode.op1.byte + b - 1⟩ := if_pos hsmall
        refine Or.inr ⟨⟨Opcode.op1.byte + b - 1⟩, b.toNat, ?_, hb.1, hb.2, ?_⟩
        · simp only [pushData, hcode, hb.1]
          rfl
        · rw [Number.encode_of_lt (by omega) (by omega), UInt8.ofNat_toNat]
      · by_cases hneg : b = 0x81
        · subst hneg
          exact Or.inr ⟨.oneNegate, -1, rfl, rfl, rfl, Number.encode_neg_one⟩
        · refine Or.inl (hlength ?_)
          show (if 1 ≤ b ∧ b ≤ 16 then _ else if b = 0x81 then _ else opcodeForLength 1) = _
          rw [if_neg hsmall, if_neg hneg]
          rfl

/-- Two bytes or more are announced. -/
theorem pushData_of_two_le {data : Bytes} (h : 2 ≤ data.length) :
    pushData data = ⟨opcodeForLength data.length, data⟩ := by
  have hcode : minimalOpcode data = opcodeForLength data.length := by
    match data, h with
    | _ :: _ :: _, _ => rfl
  simp only [pushData, hcode, isPushData_opcodeForLength, if_true]

theorem pushValue?_pushData (data : Bytes) : (pushData data).pushValue? = some data := by
  rcases pushData_cases data with ⟨h, -⟩ | ⟨code, n, h, hcode, hn, hdata⟩
  · rw [h, pushValue?, isPushData_opcodeForLength]
    rfl
  · rw [h, pushValue?, hcode, hn, ← hdata]
    rfl

/-- The shortest push is minimal where it announces data. -/
theorem isMinimalPush_pushData {data : Bytes} (h : (pushData data).code.isPushData = true) :
    (pushData data).isMinimalPush = true := by
  rcases pushData_cases data with ⟨hpush, hcode⟩ | ⟨code, n, hpush, hcode, -, -⟩
  · rw [hpush]
    exact decide_eq_true hcode.symm
  · rw [hpush, hcode] at h
    exact nomatch h

theorem length_data_pushData_le (data : Bytes) : (pushData data).data.length ≤ data.length := by
  rcases pushData_cases data with ⟨h, -⟩ | ⟨code, n, h, -, -, -⟩
  · exact Nat.le_of_eq (congrArg (fun op => op.data.length) h)
  · rw [h]
    exact Nat.zero_le _

theorem length_le (op : Instr) : op.length ≤ op.data.length + 5 := by
  have hwidth : op.code.lengthWidth ≤ 4 := by
    rw [Opcode.lengthWidth]
    split
    · decide
    · split
      · decide
      · split
        · decide
        · decide
  rw [length]
  omega

theorem length_pushData_le (data : Bytes) : (pushData data).length ≤ data.length + 5 :=
  Nat.le_trans (length_le _) (Nat.add_le_add_right (length_data_pushData_le data) 5)

theorem isReadable_of_not_isPushData {code : Opcode} (h : code.isPushData = false) :
    (⟨code, []⟩ : Instr).IsReadable := by
  rw [IsReadable, if_neg (Opcode.not_lt_of_not_isPushData h),
    Opcode.lengthWidth_of_not_isPushData h]
  exact Nat.one_pos

theorem isReadable_pushData {data : Bytes} (h : data.length < 2 ^ 32) :
    (pushData data).IsReadable := by
  rcases pushData_cases data with ⟨hpush, -⟩ | ⟨code, n, hpush, hcode, -, -⟩
  · rw [hpush]
    exact Signature.isReadable_pushed h
  · rw [hpush]
    exact isReadable_of_not_isPushData hcode

theorem isPush_of_pushValue? {op : Instr} {v : Bytes} (h : op.pushValue? = some v) :
    op.code.isPush = true := by
  rw [pushValue?] at h
  split at h
  · exact Opcode.isPush_of_isPushData ‹_›
  · obtain ⟨n, hn, -⟩ := Option.map_eq_some_iff.1 h
    exact Opcode.isPush_of_smallInt? hn

end Instr

namespace Exec

variable {r : Rules} {script : Script} {s : State}

/-- Instructions that push are not counted. -/
theorem prepare_of_isPush {op : Instr} (h : op.code.isPush = true)
    (hdata : op.data.length ≤ r.limits.itemSize) : prepare r op s = .ok () s := by
  have henabled : (!op.code.isDisabled) = true := by
    rw [Opcode.isDisabled_of_isPush h]
    rfl
  rw [prepare, bind_of_ok (require_of _ hdata), chargeInstr, if_pos h]
  exact require_of _ henabled

/-- An instruction that pushes a value puts it on the stack. -/
theorem step_of_pushValue? {op : Instr} {v : Bytes} {next : Nat} (h : op.pushValue? = some v)
    (hdata : op.data.length ≤ r.limits.itemSize)
    (hminimal : r.flags.contains .minimalData → op.code.isPushData = true → op.isMinimalPush)
    (hs : s.branches.all id = true) :
    step r script op next s = .ok () { s with stack := v :: s.stack } := by
  rw [step_eq, bind_of_ok (prepare_of_isPush (Instr.isPush_of_pushValue? h) hdata), bind_isTaken,
    hs]
  rw [Instr.pushValue?] at h
  split at h
  · rename_i hpushData
    rw [act, hpushData, ← Option.some.inj h]
    have hminimal : r.flags.contains .minimalData → op.isMinimalPush :=
      fun hflag => hminimal hflag hpushData
    exact bind_of_ok (require_of _ hminimal)
  · rename_i hpushData
    obtain ⟨n, hn, rfl⟩ := Option.map_eq_some_iff.1 h
    rw [act, Bool.eq_false_iff.2 hpushData, Opcode.command_of_smallInt? hn]
    rfl

/-- Instructions that push values put them on the stack, if there is room for them. -/
theorem runFrom_of_pushValues {position : Nat} {ops : List Instr} {values : List Bytes}
    (h : ops.map Instr.pushValue? = values.map some)
    (hdata : ∀ op ∈ ops, op.data.length ≤ r.limits.itemSize)
    (hminimal : r.flags.contains .minimalData →
      ∀ op ∈ ops, op.code.isPushData = true → op.isMinimalPush)
    (hdepth : values.length + s.stack.length + s.alt.length ≤ r.limits.stackDepth)
    (hs : s.branches.all id = true) :
    runFrom r script position ops s = .ok () { s with stack := values.reverse ++ s.stack } := by
  induction ops generalizing position s values with
  | nil =>
      obtain rfl := List.map_eq_nil_iff.1 h.symm
      rfl
  | cons op ops ih =>
      obtain ⟨v, values, rfl, hv, hvalues⟩ := List.map_eq_cons_iff.1 h.symm
      rw [List.forall_mem_cons] at hdata
      rw [List.length_cons] at hdepth
      have hstep : step r script op (position + op.length) s =
          .ok () { s with stack := v :: s.stack } :=
        step_of_pushValue? hv.symm hdata.1 (fun hflag => hminimal hflag op List.mem_cons_self) hs
      have hroom : values.length + (v :: s.stack).length + s.alt.length ≤ r.limits.stackDepth := by
        rw [List.length_cons]
        omega
      have hkept : (v :: s.stack).length + s.alt.length ≤ r.limits.stackDepth := by omega
      have hrest : runFrom r script (position + op.length) ops { s with stack := v :: s.stack } =
          .ok () { s with stack := values.reverse ++ v :: s.stack } :=
        ih hvalues.symm hdata.2
          (fun hflag op hop => hminimal hflag op (List.mem_cons_of_mem _ hop)) hroom hs
      rw [runFrom_cons_of_ok hstep hkept, hrest, List.reverse_cons, List.append_assoc]
      rfl

end Exec

namespace Script

variable {items : List Bytes}

theorem parse_pushData (h : ∀ item ∈ items, item.length < 2 ^ 32) :
    parse (ofInstrs (items.map Instr.pushData)) = (items.map Instr.pushData, []) := by
  have hreadable : ∀ op ∈ items.map Instr.pushData, op.IsReadable := by
    intro op hop
    obtain ⟨item, hitem, rfl⟩ := List.mem_map.1 hop
    exact Instr.isReadable_pushData (h item hitem)
  have hnil : parse [] = ([], []) := parse_of_none rfl
  have hparse := parse_ofInstrs_append hreadable []
  rwa [List.append_nil, instrs, tail, hnil, List.append_nil] at hparse

section

variable {r : Rules} {script : Script} {stack : Stack Bytes} {calls : List SigCall}

/-- A script of instructions that push values leaves them on the stack. -/
theorem eval_of_pushValues {values : List Bytes}
    (h : script.instrs.map Instr.pushValue? = values.map some) (htail : script.tail = [])
    (hdata : ∀ op ∈ script.instrs, op.data.length ≤ r.limits.itemSize)
    (hminimal : r.flags.contains .minimalData →
      ∀ op ∈ script.instrs, op.code.isPushData = true → op.isMinimalPush)
    (hdepth : values.length + stack.length ≤ r.limits.stackDepth)
    (hsize : script.length ≤ r.limits.scriptSize) :
    eval r script ⟨stack, calls⟩ = .ok () ⟨values.reverse ++ stack, calls⟩ := by
  have hrun : Exec.runFrom r script 0 script.instrs { stack := stack, calls := calls } =
      .ok () { stack := values.reverse ++ stack, calls := calls } :=
    Exec.runFrom_of_pushValues h hdata hminimal hdepth rfl
  exact eval_of_runFrom_eq_ok hsize htail hrun rfl

/-- A script of shortest pushes leaves its values on the stack. -/
theorem eval_pushData (h : ∀ item ∈ items, item.length < 2 ^ 32)
    (hitems : ∀ item ∈ items, item.length ≤ r.limits.itemSize)
    (hdepth : items.length + stack.length ≤ r.limits.stackDepth)
    (hsize : (ofInstrs (items.map Instr.pushData)).length ≤ r.limits.scriptSize) :
    eval r (ofInstrs (items.map Instr.pushData)) ⟨stack, calls⟩ =
      .ok () ⟨items.reverse ++ stack, calls⟩ := by
  have hparse := parse_pushData h
  have hinstrs : instrs (ofInstrs (items.map Instr.pushData)) = items.map Instr.pushData :=
    congrArg Prod.fst hparse
  have hvalues : (items.map Instr.pushData).map Instr.pushValue? = items.map some := by
    rw [List.map_map]
    exact List.map_congr_left fun item _ => Instr.pushValue?_pushData item
  have hdata : ∀ op ∈ items.map Instr.pushData, op.data.length ≤ r.limits.itemSize := by
    intro op hop
    obtain ⟨item, hitem, rfl⟩ := List.mem_map.1 hop
    exact Nat.le_trans (Instr.length_data_pushData_le item) (hitems item hitem)
  have hminimal : ∀ op ∈ items.map Instr.pushData,
      op.code.isPushData = true → op.isMinimalPush := by
    intro op hop hcode
    obtain ⟨item, -, rfl⟩ := List.mem_map.1 hop
    exact Instr.isMinimalPush_pushData hcode
  rw [← hinstrs] at hvalues hdata hminimal
  exact eval_of_pushValues hvalues (congrArg Prod.snd hparse) hdata (fun _ => hminimal) hdepth hsize

end

theorem isPushOnly_pushData (h : ∀ item ∈ items, item.length < 2 ^ 32) :
    isPushOnly (ofInstrs (items.map Instr.pushData)) = true := by
  rw [isPushOnly, instrs, tail, parse_pushData h, List.isEmpty_nil, Bool.and_true, List.all_map]
  exact List.all_eq_true.2 fun item _ =>
    Instr.isPush_of_pushValue? (Instr.pushValue?_pushData item)

end Script

end BitcoinScript
