import BitcoinScript.Proofs.Machine.MinimalPushes

/-!
# Scripts that only push

Whether a script only pushes is told from its opcodes alone, whatever forms its pushes have. One of
these opcodes is reserved and pushes nothing. Every other one puts its value on the stack and leaves
the rest of the state as it is, so a script that only pushes asks the checker nothing and leaves its
values on what the stack held before. It can fail in five ways, and each of them can be seen in the
script and the depth of the stack.
-/

namespace BitcoinScript

namespace Opcode

/-- The opcode that counts as a push and has no meaning. -/
def reserved : Opcode := ⟨0x50⟩

/-- What counts as a push announces data, stands for a number, or is reserved. -/
theorem exists_smallInt? {op : Opcode} (hpush : op.isPush = true) (hdata : op.isPushData = false)
    (hne : op ≠ reserved) : ∃ n, op.smallInt? = some n := by
  rw [smallInt?]
  split
  · exact ⟨_, rfl⟩
  · rename_i hneg
    have hbyte : ∀ b : UInt8, op ≠ ⟨b⟩ → op.byte.toNat ≠ b.toNat :=
      fun b hop heq => hop (congrArg Opcode.mk (UInt8.toNat_inj.1 heq))
    have hlow : ¬op.byte.toNat ≤ 0x4e :=
      fun hle => of_decide_eq_false hdata (UInt8.le_iff_toNat_le.2 hle)
    have hneg : op.byte.toNat ≠ 0x4f := hbyte 0x4f hneg
    have hreserved : op.byte.toNat ≠ 0x50 := hbyte 0x50 hne
    have hop1 : op1.byte ≤ op.byte := UInt8.le_iff_toNat_le.2 (show 0x51 ≤ op.byte.toNat by omega)
    rw [if_pos ⟨hop1, of_decide_eq_true hpush⟩]
    exact ⟨_, rfl⟩

end Opcode

namespace Instr

theorem exists_pushValue? {op : Instr} (hpush : op.code.isPush = true)
    (hne : op.code ≠ .reserved) : ∃ v, op.pushValue? = some v := by
  rw [pushValue?]
  split
  · exact ⟨_, rfl⟩
  · obtain ⟨n, hn⟩ := Opcode.exists_smallInt? hpush (Bool.eq_false_iff.2 ‹_›) hne
    exact ⟨_, by rw [hn, Option.map_some]⟩

/-- Why an instruction that counts as a push fails where it is executed. -/
inductive IsRefused (r : Rules) (op : Instr) : ScriptError → Prop
  | pushSize : r.limits.itemSize < op.data.length → IsRefused r op .pushSize
  | minimalData : r.flags.contains .minimalData → op.code.isPushData → ¬op.isMinimalPush →
      IsRefused r op .minimalData
  | badOpcode : op.code = .reserved → IsRefused r op .badOpcode

end Instr

namespace Exec

variable {r : Rules} {script : Script} {s : State}

theorem step_of_lt {op : Instr} {next : Nat} (h : r.limits.itemSize < op.data.length) :
    step r script op next s = .error (.error .pushSize) s :=
  bind_of_error (require_of_not _ (Nat.not_le.2 h))

theorem step_of_reserved {op : Instr} {next : Nat} (h : op.code = .reserved)
    (hdata : op.data.length ≤ r.limits.itemSize) (hs : s.branches.all id = true) :
    step r script op next s = .error (.error .badOpcode) s := by
  have hpush : op.code.isPush = true := by rw [h]; rfl
  rw [step_eq, bind_of_ok (prepare_of_isPush hpush hdata), bind_isTaken, hs, act, h]
  rfl

/-- An instruction that counts as a push puts its value on the stack and changes nothing else, or
nothing at all where it fails. -/
theorem ends_step_of_isPush {op : Instr} {next : Nat} (hpush : op.code.isPush = true)
    (hs : s.branches.all id = true) :
    (step r script op next).Ends s
      (fun _ t => ∃ v, op.pushValue? = some v ∧ t = { s with stack := v :: s.stack })
      fun stop t => t = s ∧ ∃ e, stop = .error e ∧ op.IsRefused r e := by
  rw [Ends]
  rcases Nat.lt_or_ge r.limits.itemSize op.data.length with hlong | hdata
  · rw [step_of_lt hlong]
    exact ⟨rfl, _, rfl, .pushSize hlong⟩
  · by_cases hreserved : op.code = .reserved
    · rw [step_of_reserved hreserved hdata hs]
      exact ⟨rfl, _, rfl, .badOpcode hreserved⟩
    · obtain ⟨v, hv⟩ := Instr.exists_pushValue? hpush hreserved
      by_cases hminimal : r.flags.contains .minimalData → op.code.isPushData → op.isMinimalPush
      · rw [step_of_pushValue? hv hdata hminimal hs]
        exact ⟨v, hv, rfl⟩
      · simp only [Classical.not_imp] at hminimal
        obtain ⟨hflag, hcode, hminimal⟩ := hminimal
        rw [step_of_not_isMinimalPush hflag hcode hdata hminimal hs]
        exact ⟨rfl, _, rfl, .minimalData hflag hcode hminimal⟩

/-- Instructions that count as pushes put their values on the stack one after the other, until one
is refused or the stack is full. -/
theorem ends_runFrom_of_isPush {position : Nat} {ops : List Instr}
    (hops : ∀ op ∈ ops, op.code.isPush = true) (hs : s.branches.all id = true) :
    (runFrom r script position ops).Ends s
      (fun _ t => ∃ values : List Bytes, ops.map Instr.pushValue? = values.map some ∧
        t = { s with stack := values.reverse ++ s.stack })
      fun stop t => t.calls = s.calls ∧ ∃ e, stop = .error e ∧
        ((∃ op ∈ ops, op.IsRefused r e) ∨
          e = .stackSize ∧ r.limits.stackDepth < s.stack.length + s.alt.length + ops.length) := by
  induction ops generalizing position s with
  | nil => exact ⟨[], rfl, rfl⟩
  | cons op ops ih =>
      rw [List.forall_mem_cons] at hops
      refine (ends_bind _ _).2 ((ends_step_of_isPush hops.1 hs).mono ?_ ?_)
      · rintro _ _ ⟨v, hv, rfl⟩
        refine (ends_bind _ _).2 (ends_checkDepth.2 ⟨fun _ => ?_, fun hdepth => ?_⟩)
        · refine (ih (s := { s with stack := v :: s.stack }) hops.2 hs).mono ?_ ?_
          · rintro _ _ ⟨values, hvalues, rfl⟩
            refine ⟨v :: values, by rw [List.map_cons, hv, hvalues, List.map_cons], ?_⟩
            rw [List.reverse_cons, List.append_assoc, List.singleton_append]
          · rintro _ t ⟨hcalls, e, rfl, ⟨op', hop', hrefused⟩ | ⟨rfl, hdepth⟩⟩
            · exact ⟨hcalls, e, rfl, .inl ⟨op', List.mem_cons_of_mem op hop', hrefused⟩⟩
            · refine ⟨hcalls, _, rfl, .inr ⟨rfl, ?_⟩⟩
              have hfull : r.limits.stackDepth <
                  (v :: s.stack).length + s.alt.length + ops.length := hdepth
              rw [List.length_cons] at hfull ⊢
              omega
        · refine ⟨rfl, _, rfl, .inr ⟨rfl, ?_⟩⟩
          have hfull : ¬(v :: s.stack).length + s.alt.length ≤ r.limits.stackDepth := hdepth
          rw [List.length_cons] at hfull ⊢
          omega
      · rintro _ _ ⟨rfl, e, rfl, hrefused⟩
        exact ⟨rfl, e, rfl, .inl ⟨op, List.mem_cons_self, hrefused⟩⟩

end Exec

namespace Script

/-- Why a script that only pushes fails on a stack of a given depth. -/
inductive PushFailure (r : Rules) (script : Script) (depth : Nat) : ScriptError → Prop
  | scriptSize : r.limits.scriptSize < script.length → PushFailure r script depth .scriptSize
  | pushSize {op : Instr} : op ∈ script.instrs → r.limits.itemSize < op.data.length →
      PushFailure r script depth .pushSize
  | minimalData {op : Instr} : r.flags.contains .minimalData → op ∈ script.instrs →
      op.code.isPushData → ¬op.isMinimalPush → PushFailure r script depth .minimalData
  | stackSize : r.limits.stackDepth < depth + script.instrs.length →
      PushFailure r script depth .stackSize
  | badOpcode {op : Instr} : op ∈ script.instrs → op.code = .reserved →
      PushFailure r script depth .badOpcode

theorem PushFailure.of_isRefused {r : Rules} {script : Script} {depth : Nat} {op : Instr}
    {e : ScriptError} (hop : op ∈ script.instrs) (h : op.IsRefused r e) :
    PushFailure r script depth e := by
  cases h with
  | pushSize hlong => exact .pushSize hop hlong
  | minimalData hflag hcode hminimal => exact .minimalData hflag hop hcode hminimal
  | badOpcode hcode => exact .badOpcode hop hcode

theorem isPushOnly_iff {script : Script} :
    script.isPushOnly = true ↔
      (∀ op ∈ script.instrs, op.code.isPush = true) ∧ script.tail = [] := by
  rw [isPushOnly, Bool.and_eq_true, List.all_eq_true, List.isEmpty_iff]

/-- A script that only pushes makes no call of the checker. It leaves the values of its instructions
in order on what the stack held before, or it fails for one of the reasons that can be seen in
it. -/
theorem eval_of_isPushOnly (r : Rules) {script : Script} (h : script.isPushOnly)
    (stack : Stack Bytes) (calls : List SigCall) :
    match eval r script ⟨stack, calls⟩ with
    | .ok _ left => left.calls = calls ∧ ∃ values : List Bytes,
        script.instrs.map Instr.pushValue? = values.map some ∧
          left.stack = values.reverse ++ stack
    | .error e left => left.calls = calls ∧ PushFailure r script stack.length e := by
  obtain ⟨hops, htail⟩ := isPushOnly_iff.1 h
  have hrun : (Exec.run r script).Ends { stack := stack, calls := calls }
      (fun _ t => t.calls = calls ∧ ∃ values : List Bytes,
        script.instrs.map Instr.pushValue? = values.map some ∧ t.stack = values.reverse ++ stack)
      fun stop t => t.calls = calls ∧ ∃ e, stop = .error e ∧
        PushFailure r script stack.length e := by
    refine (Exec.ends_bind _ _).2 ((Exec.ends_require _ _).2 ⟨fun _ => ?_, fun hsize => ?_⟩)
    · refine (Exec.ends_bind _ _).2 ((Exec.ends_runFrom_of_isPush hops rfl).mono ?_ ?_)
      · rintro _ _ ⟨values, hvalues, rfl⟩
        -- There is no tail, and no branch has been opened.
        refine (Exec.ends_bind _ _).2 ((Exec.ends_require _ _).2 ⟨fun _ => ?_, absurd htail⟩)
        refine (Exec.ends_bind _ _).2 (Exec.ends_get.2 ((Exec.ends_require _ _).2 ?_))
        exact ⟨fun _ => ⟨rfl, values, hvalues, rfl⟩, absurd rfl⟩
      · rintro _ _ ⟨hcalls, e, rfl, ⟨op, hop, hrefused⟩ | ⟨rfl, hdepth⟩⟩
        · exact ⟨hcalls, e, rfl, .of_isRefused hop hrefused⟩
        · exact ⟨hcalls, _, rfl, .stackSize hdepth⟩
    · exact ⟨rfl, _, rfl, .scriptSize (Nat.not_le.1 hsize)⟩
  rw [Exec.Ends] at hrun
  rw [eval]
  split at hrun
  · rename_i heq
    rw [heq]
    exact hrun
  · rename_i heq
    rw [heq]
    obtain ⟨hcalls, e, rfl, hfailure⟩ := hrun
    exact ⟨hcalls, hfailure⟩

/-- A byte behind a length field that it does not need, under the flag for minimal data. -/
theorem eval_of_isPushOnly_wide :
    let r : Rules := ⟨.ofList [.minimalData], .consensus, .refusing, .standard⟩
    let script : Script := [0x51, 0x4c, 0x01, 0x20, 0x50]
    script.isPushOnly ∧ eval r script ⟨[[7]], []⟩ = .error .minimalData ⟨[[1], [7]], []⟩ ∧
      PushFailure r script 1 .minimalData := by
  intro r script
  have honly : script.isPushOnly := by decide +kernel
  have heval : eval r script ⟨[[7]], []⟩ = .error .minimalData ⟨[[1], [7]], []⟩ := by
    decide +kernel
  have h := eval_of_isPushOnly r honly [[7]] []
  rw [heval] at h
  exact ⟨honly, heval, h.2⟩

end Script

end BitcoinScript
