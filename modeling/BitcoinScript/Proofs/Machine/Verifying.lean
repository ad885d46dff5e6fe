import BitcoinScript.Proofs.Machine.Stepping
import BitcoinScript.Proofs.Machine.Truth

/-!
# Opcodes that require their result

Four opcodes have a variant that requires the result to be true and does not push it. The variant
could as well be the opcode itself and `OP_VERIFY` behind it, but it is not carried out in that way:
two of the variants decide before there is a result on the stack, one behind the removal of its
operands, and one looks at the result that it has pushed. `Exec.Fuses` says what they have in common
with the two opcodes.
-/

namespace BitcoinScript

def Opcode.verify : Opcode := ⟨0x69⟩

/-- The opcodes with a variant that requires their result. -/
inductive Verified where
  | equal
  | numEqual
  | checkSig
  | checkMultiSig
  deriving DecidableEq, Repr

namespace Verified

def opcode : Verified → Opcode
  | .equal => ⟨0x87⟩
  | .numEqual => ⟨0x9c⟩
  | .checkSig => ⟨0xac⟩
  | .checkMultiSig => ⟨0xae⟩

def variant : Verified → Opcode
  | .equal => ⟨0x88⟩
  | .numEqual => ⟨0x9d⟩
  | .checkSig => ⟨0xad⟩
  | .checkMultiSig => ⟨0xaf⟩

/-- What the variant reports if the result is false. -/
def error : Verified → ScriptError
  | .equal => .equalVerify
  | .numEqual => .numEqualVerify
  | .checkSig => .checkSigVerify
  | .checkMultiSig => .checkMultiSigVerify

/-- Both opcodes are counted, and none is disabled. -/
theorem areOperations (x : Verified) :
    (x.opcode.isPush = false ∧ x.opcode.isDisabled = false) ∧
      x.variant.isPush = false ∧ x.variant.isDisabled = false := by
  cases x <;> decide

end Verified

namespace Exec

/-- A joint step comes to what two steps one after the other come to. If the second one fails, it
does so for its own reason, and the joint step reports another error and may leave another stack. -/
def Fuses (e : ScriptError) (first second joint : Exec Unit) (s : State) : Prop :=
  first.Ends s
    (fun _ t => second.Ends t
      (fun _ u => joint s = .ok () u)
      fun stop u => stop = .error .verify ∧
        ∃ stack, joint s = .error (.error e) { u with stack := stack })
    fun stop t => joint s = .error stop t

section

variable {α : Type} {r : Rules} {script : Script} {next : Nat} {s : State} {e : ScriptError}

/-- What comes before a joint step and before the first of two steps. -/
theorem Fuses.bind {m : Exec α} {first joint : α → Exec Unit} {second : Exec Unit}
    (h : ∀ a t, m s = .ok a t → Fuses e (first a) second (joint a) t) :
    Fuses e (m >>= first) second (m >>= joint) s := by
  cases hm : m s with
  | ok a t =>
      rw [Fuses, Ends, bind_of_ok hm, bind_of_ok hm]
      exact h a t hm
  | error stop t =>
      rw [Fuses, Ends, bind_of_error hm]
      exact bind_of_error hm

theorem execute_verify_of_cons {top : Bytes} {rest : Stack Bytes} (h : s.stack = top :: rest) :
    execute r script true next .verify s =
      if Operand.isTrue top then .ok () { s with stack := rest }
      else .error (.error .verify) s := by
  have hdeep : 1 ≤ s.stack.length := by simp [h]
  exact (bind_of_ok (need_of_le hdeep)).trans (verifyTop_of_cons h _)

/-- Requiring a result is pushing it and requiring the top item. -/
theorem fuses_conclude (result : Bool) (e' : ScriptError) :
    Fuses e (conclude false result e') (execute r script true next .verify)
      (conclude true result e) s := by
  have hpush : conclude false result e' s =
    .ok () { s with stack := Operand.ofBool result :: s.stack } := rfl
  rw [Fuses, Ends, hpush]
  show Ends _ { s with stack := Operand.ofBool result :: s.stack } _ _
  rw [Ends, execute_verify_of_cons rfl]
  cases result with
  | true => rfl
  | false => exact ⟨rfl, s.stack, rfl⟩

/-- Requiring the item that a step leaves on top. -/
theorem fuses_verifyTop {m : Exec Unit}
    (h : m.Ends s (fun _ t => t.stack ≠ []) fun _ _ => True) :
    Fuses e m (execute r script true next .verify) (m >>= fun _ => verifyTop e) s := by
  cases hm : m s with
  | ok _ t =>
      obtain ⟨top, rest, hstack⟩ := List.exists_cons_of_ne_nil (h.of_ok hm)
      rw [Fuses, Ends, hm, bind_of_ok hm]
      show Ends _ t _ _
      rw [Ends, execute_verify_of_cons hstack, verifyTop_of_cons hstack]
      by_cases htrue : Operand.isTrue top
      · rw [if_pos htrue, if_pos htrue]
      · rw [if_neg htrue, if_neg htrue]
        exact ⟨rfl, t.stack, rfl⟩
  | error stop t =>
      rw [Fuses, Ends, hm]
      exact bind_of_error hm

/-- A step that ends by pushing something leaves an item. -/
theorem ends_binary_ne_nil (op : BinaryOp) :
    (binary r op).Ends s (fun _ t => t.stack ≠ []) fun _ _ => True := by
  have hbehind : ∀ {α : Type} {m : Exec α} {f : α → Exec Unit} {s : State},
      (∀ a t, (f a).Ends t (fun _ u => u.stack ≠ []) fun _ _ => True) →
      (m >>= f).Ends s (fun _ u => u.stack ≠ []) fun _ _ => True := fun h =>
    Ends.bind (P := fun _ _ => True) (ends_of_forall_ok fun _ _ _ => trivial)
      fun a t _ _ => h a t
  rw [binary]
  repeat refine hbehind fun _ _ => ?_
  exact (ends_push _).2 (List.cons_ne_nil _ _)

/-! ## The four variants -/

theorem fuses_equal :
    Fuses .equalVerify (equal false) (execute r script true next .verify) (equal true) s := by
  rw [equal, equal]
  -- the two are the same up to the result
  repeat refine Fuses.bind fun _ _ _ => ?_
  exact fuses_conclude _ _

theorem fuses_closeSig (sig : Bytes) (result : Bool) :
    Fuses .checkSigVerify (closeSig r false sig result) (execute r script true next .verify)
      (closeSig r true sig result) s :=
  .bind fun _ _ _ => .bind fun _ _ _ => fuses_conclude _ _

theorem fuses_checkSig :
    Fuses .checkSigVerify (checkSig r script false) (execute r script true next .verify)
      (checkSig r script true) s := by
  rw [checkSig, checkSig]
  iterate 6 refine Fuses.bind fun _ _ _ => ?_
  exact fuses_closeSig _ _

theorem fuses_closeMultiSig (n m : Nat) (result : Bool) :
    Fuses .checkMultiSigVerify (closeMultiSig r false n m result)
      (execute r script true next .verify) (closeMultiSig r true n m result) s := by
  rw [closeMultiSig, closeMultiSig, dropDummy, dropDummy]
  repeat refine Fuses.bind fun _ _ _ => ?_
  exact fuses_conclude _ _

theorem fuses_checkMultiSig :
    Fuses .checkMultiSigVerify (checkMultiSig r script false)
      (execute r script true next .verify) (checkMultiSig r script true) s := by
  rw [checkMultiSig, checkMultiSig]
  iterate 9 refine Fuses.bind fun _ _ _ => ?_
  exact fuses_closeMultiSig _ _ _

/-- Every variant comes to what its opcode comes to with a look at the top item behind it. -/
theorem fuses_execute (x : Verified) (next' : Nat) :
    Fuses x.error (execute r script true next x.opcode.command)
      (execute r script true next' Opcode.verify.command)
      (execute r script true next x.variant.command) s := by
  cases x with
  | equal => exact fuses_equal
  | numEqual => exact fuses_verifyTop (ends_binary_ne_nil .equal)
  | checkSig => exact fuses_checkSig
  | checkMultiSig => exact fuses_checkMultiSig

/-- Outcomes at one state decide whether a step is joint. -/
theorem Fuses.congr {first first' second joint joint' : Exec Unit}
    (h : Fuses e first second joint s) (hfirst : first' s = first s)
    (hjoint : joint' s = joint s) : Fuses e first' second joint' s := by
  rw [Fuses, Ends, hfirst, hjoint]
  exact h

end

/-- A variant that requires its result comes to what its opcode and `OP_VERIFY` behind it come to:
the same state with the same calls of the checker, or the same error. Only where `OP_VERIFY` fails,
for which the one reason is a false item, the variant reports its own error instead, and the stack
may be another one. This is so where the opcodes are executed, and also where they are taken as
instructions, if the second one is not counted. Counting is all that taking it would add. -/
theorem step_verified (x : Verified) (r : Rules) (script : Script) (next next' : Nat) (s : State) :
    Fuses x.error (execute r script true next x.opcode.command)
      (execute r script true next' Opcode.verify.command)
      (execute r script true next x.variant.command) s ∧
    (s.branches.all id →
      Fuses x.error (step r script ⟨x.opcode, []⟩ next)
        (execute r script true next' Opcode.verify.command)
        (step r script ⟨x.variant, []⟩ next) s) ∧
    ∀ t : State, t.branches.all id →
      step r script ⟨.verify, []⟩ next' t =
        (charge r 1 >>= fun _ => execute r script true next' Opcode.verify.command) t := by
  refine ⟨fuses_execute x next', fun hs => ?_, fun t => step_eq_charge rfl rfl rfl⟩
  have hjoint : Fuses x.error (charge r 1 >>= fun _ => execute r script true next x.opcode.command)
      (execute r script true next' Opcode.verify.command)
      (charge r 1 >>= fun _ => execute r script true next x.variant.command) s :=
    .bind fun _ _ _ => fuses_execute x next'
  obtain ⟨⟨hpush, hdisabled⟩, hpush', hdisabled'⟩ := x.areOperations
  exact hjoint.congr (step_eq_charge hpush hdisabled rfl hs)
    (step_eq_charge hpush' hdisabled' rfl hs)

/-- A refused signature, which is reported after one call of the checker, and two forms of one
number, which are equal. -/
theorem step_verified_refused :
    let r : Rules := ⟨.ofList [.enableForkId], .consensus, .refusing, .standard⟩
    let refused : State := { stack := [[2], [0x41], [7]] }
    let equal : State := { stack := [[5, 0], [5], [7]] }
    (∃ stack, step r [0xad] ⟨⟨0xad⟩, []⟩ 1 refused =
        .error (.error .checkSigVerify)
          { stack := stack, opCount := 1, calls := [⟨[0x41], [2], [0xad]⟩] }) ∧
      step r [0x9d] ⟨⟨0x9d⟩, []⟩ 1 equal = .ok () { stack := [[7]], opCount := 1 } := by
  intro r refused equal
  have hsig : step r [0xad] ⟨⟨0xac⟩, []⟩ 1 refused =
      .ok () { stack := [[], [7]], opCount := 1, calls := [⟨[0x41], [2], [0xad]⟩] } := by
    decide
  have hnumber : step r [0x9d] ⟨⟨0x9c⟩, []⟩ 1 equal =
      .ok () { stack := [[1], [7]], opCount := 1 } := by
    decide +kernel
  have hchecked := (step_verified .checkSig r [0xad] 1 1 refused).2.1 rfl
  have hcompared := (step_verified .numEqual r [0x9d] 1 1 equal).2.1 rfl
  exact ⟨((hchecked.of_ok hsig).of_error rfl).2, (hcompared.of_ok hnumber).of_ok rfl⟩

end Exec

end BitcoinScript
