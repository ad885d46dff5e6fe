import BitcoinScript.Proofs.Machine.Conditionals
import BitcoinScript.Proofs.Machine.Faultless

/-!
# Instruction by instruction

How a script is followed by hand: what an operation does to a state that is known, how that carries
on through a list of instructions, and what it comes to for an evaluation and for a verification.
-/

namespace BitcoinScript

theorem Opcode.isPush_of_isPushData {op : Opcode} (h : op.isPushData = true) :
    op.isPush = true := by
  have hle : op.byte ≤ pushData4.byte := of_decide_eq_true h
  exact decide_eq_true (UInt8.le_trans hle (by decide))

namespace Exec

variable {r : Rules} {script : Script} {s : State}

/-- An operation is counted before anything else is done. -/
theorem prepare_of_operation {op : Instr} (hpush : op.code.isPush = false)
    (hdisabled : op.code.isDisabled = false) (hdata : op.data = []) :
    prepare r op = charge r 1 := by
  have hsize : op.data.length ≤ r.limits.itemSize := by rw [hdata]; exact Nat.zero_le _
  have hcharge : chargeInstr r op = charge r 1 := by
    rw [chargeInstr, hpush]
    rfl
  have henabled : (!op.code.isDisabled) = true := by rw [hdisabled]; rfl
  rw [prepare, require, if_pos hsize, pure_bind, hcharge, require, if_pos henabled]
  exact bind_pure _

/-- An operation that is taken is counted and executed. -/
theorem step_eq_charge {op : Instr} {next : Nat} (hpush : op.code.isPush = false)
    (hdisabled : op.code.isDisabled = false) (hdata : op.data = [])
    (hs : s.branches.all id = true) :
    step r script op next s =
      (charge r 1 >>= fun _ => execute r script true next op.code.command) s := by
  have hpushData : op.code.isPushData = false := by
    refine Bool.eq_false_iff.2 fun h => ?_
    rw [Opcode.isPush_of_isPushData h] at hpush
    cases hpush
  rw [step_eq, prepare_of_operation hpush hdisabled hdata]
  cases hcharge : charge r 1 s with
  | ok _ t =>
      have hbranches : t.branches = s.branches := by
        have hends : (charge r 1).Ends s (fun _ t => t.branches = s.branches) fun _ _ => True :=
          (ends_charge r 1).2 ⟨fun _ => rfl, fun _ => trivial⟩
        exact hends.of_ok hcharge
      rw [bind_of_ok hcharge, bind_of_ok hcharge, bind_isTaken, hbranches, hs, act, hpushData]
      rfl
  | error stop t => rw [bind_of_error hcharge, bind_of_error hcharge]

theorem step_of_operation {op : Instr} {next : Nat} (hpush : op.code.isPush = false)
    (hdisabled : op.code.isDisabled = false) (hdata : op.data = [])
    (hops : s.opCount + 1 ≤ r.limits.ops) (hs : s.branches.all id = true) :
    step r script op next s =
      execute r script true next op.code.command { s with opCount := s.opCount + 1 } := by
  rw [step_eq_charge hpush hdisabled hdata hs, bind_of_ok (charge_of_le hops)]

theorem runFrom_cons_of_ok {position : Nat} {op : Instr} {ops : List Instr} {t : State}
    (hstep : step r script op (position + op.length) s = .ok () t)
    (hdepth : t.stack.length + t.alt.length ≤ r.limits.stackDepth) :
    runFrom r script position (op :: ops) s =
      runFrom r script (position + op.length) ops t := by
  rw [runFrom, bind_of_ok hstep, bind_of_ok (checkDepth_of_le hdepth)]

theorem runFrom_cons_of_error {position : Nat} {op : Instr} {ops : List Instr} {stop : Stop}
    {t : State} (hstep : step r script op (position + op.length) s = .error stop t) :
    runFrom r script position (op :: ops) s = .error stop t := by
  rw [runFrom, bind_of_error hstep]

theorem ask_of_none {call : SigCall} (h : r.checker.checkSig s.calls call r.flags = none) :
    ask r call s = .error .fault { s with calls := s.calls ++ [call] } := by
  show ofOption (r.checker.checkSig s.calls call r.flags) _ = _
  rw [h]
  rfl

theorem checkSig_of_stack {sig key : Bytes} {rest : Stack Bytes} {verify : Bool}
    (hstack : s.stack = key :: sig :: rest) (hs : s.codeStart ≤ script.length) :
    checkSig r script verify s =
      (checkPair r (Signature.cleanCode r.flags (script.drop s.codeStart) sig) sig key >>=
        closeSig r verify sig) s := by
  have hneed : 2 ≤ s.stack.length := by
    rw [hstack, List.length_cons, List.length_cons]
    omega
  have hsig : s.stack[1]? = some sig := by rw [hstack]; rfl
  have hkey : s.stack[0]? = some key := by rw [hstack]; rfl
  rw [checkSig, bind_of_ok (need_of_le hneed), bind_of_ok (peek_of_getElem? hsig),
    bind_of_ok (peek_of_getElem? hkey), bind_of_ok (scriptCode_of_le hs),
    Signature.cleanCode?_eq]
  rfl

end Exec

namespace Script

section

variable {r : Rules} {script : Script} {stack : Stack Bytes} {calls : List SigCall}

/-- A script is evaluated by taking its instructions, if it is complete and not too long. -/
theorem eval_of_runFrom_eq_ok {t : State} (hsize : script.length ≤ r.limits.scriptSize)
    (htail : script.tail = [])
    (hrun : Exec.runFrom r script 0 script.instrs { stack := stack, calls := calls } = .ok () t)
    (ht : t.branches = []) : eval r script ⟨stack, calls⟩ = .ok () ⟨t.stack, t.calls⟩ := by
  have hget : (get : Exec State) t = .ok t t := rfl
  rw [eval, Exec.run, bind_of_ok (Exec.require_of _ hsize), bind_of_ok hrun,
    bind_of_ok (Exec.require_of _ htail), bind_of_ok hget, Exec.require_of _ ht]

/-- An instruction that fails ends an evaluation. -/
theorem eval_of_runFrom_eq_error {stop : Stop} {t : State}
    (hsize : script.length ≤ r.limits.scriptSize)
    (hrun : Exec.runFrom r script 0 script.instrs { stack := stack, calls := calls } =
      .error stop t) :
    eval r script ⟨stack, calls⟩ = .error stop.toError ⟨t.stack, t.calls⟩ := by
  rw [eval, Exec.run, bind_of_ok (Exec.require_of _ hsize), bind_of_error hrun]

end

theorem checkResult_ofBool (flags : Flags) (b : Bool) :
    checkResult flags [Operand.ofBool b] = if b then .ok () else .error .evalFalse := by
  cases b with
  | true =>
      have hclean : ¬(flags.contains .cleanStack && decide (([] : Stack Bytes) ≠ [])) = true := by
        simp
      exact if_neg hclean
  | false => rfl

/-- An unlocking script that nothing is wrong with leaves the given session. -/
structure Unlocks (r : Rules) (unlock : Script) (left : Session) : Prop where
  isPushOnly : r.flags.contains .sigPushOnly → unlock.isPushOnly
  eval_eq : eval r unlock {} = .ok () left

section

variable {r : Rules} {unlock lock : Script} {left : Session} (h : Unlocks r unlock left)

include h

theorem Unlocks.not_refused : ¬(r.flags.contains .sigPushOnly && !unlock.isPushOnly) = true := by
  intro hrefused
  rw [Bool.and_eq_true, Bool.not_eq_true'] at hrefused
  rw [h.isPushOnly hrefused.1] at hrefused
  cases hrefused.2

theorem Unlocks.verifyError?_of_error {e : ScriptError} {last : Session}
    (hlock : eval r lock left = .error e last) : verifyError? r unlock lock = some e := by
  have hreset : (modify fun session : Session => { session with stack := [] } :
      EStateM ScriptError Session PUnit) {} = .ok ⟨⟩ {} := rfl
  have hverify : verify r unlock lock {} = .error e last := by
    rw [verify, if_neg h.not_refused]
    refine (bind_of_ok hreset).trans ?_
    rw [bind_of_ok h.eval_eq, bind_of_error hlock]
  rw [verifyError?, hverify]

/-- A locking script that leaves a truth value alone decides the verification with it. -/
theorem Unlocks.verifyError?_of_ofBool {b : Bool} {calls : List SigCall}
    (hlock : eval r lock left = .ok () ⟨[Operand.ofBool b], calls⟩) :
    verifyError? r unlock lock = if b then none else some .evalFalse := by
  have hreset : (modify fun session : Session => { session with stack := [] } :
      EStateM ScriptError Session PUnit) {} = .ok ⟨⟩ {} := rfl
  have hget (session : Session) : (get : EStateM ScriptError Session Session) session =
      .ok session session := rfl
  have hresult := checkResult_ofBool r.flags b
  cases b with
  | true =>
      have hverify : verify r unlock lock {} = .ok () ⟨[Operand.ofBool true], calls⟩ := by
        rw [verify, if_neg h.not_refused]
        refine (bind_of_ok hreset).trans ?_
        rw [bind_of_ok h.eval_eq, bind_of_ok hlock, bind_of_ok (hget _), hresult]
        rfl
      rw [verifyError?, hverify]
      rfl
  | false =>
      have hverify : verify r unlock lock {} =
          .error .evalFalse ⟨[Operand.ofBool false], calls⟩ := by
        rw [verify, if_neg h.not_refused]
        refine (bind_of_ok hreset).trans ?_
        rw [bind_of_ok h.eval_eq, bind_of_ok hlock, bind_of_ok (hget _), hresult]
        rfl
      rw [verifyError?, hverify]
      rfl

end

end Script

end BitcoinScript
