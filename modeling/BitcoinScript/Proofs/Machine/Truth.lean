import BitcoinScript.Proofs.Machine.Arithmetic
import BitcoinScript.Proofs.Number.Resize

/-!
# Truth and zero

The truth of an item is looked for from its first byte on, and its value is read from its last one.
They agree on all items: an item is false if its value is zero, however it is padded and whatever
its sign. So truth is kept by all that keeps the value, and the opcodes that look at the truth of
an item decide as those that read it as a number.
-/

namespace BitcoinScript

namespace Operand

open Number

theorem isTrue_cons (b : UInt8) {tail : Bytes} (h : tail ≠ []) :
    isTrue (b :: tail) = (decide (b ≠ 0) || isTrue tail) := by
  cases tail with
  | nil => exact absurd rfl h
  | cons c rest => rfl

theorem isTrue_eq_false_iff (d : Bytes) : isTrue d = false ↔ value d = 0 := by
  rw [value_eq_zero_iff]
  -- from the front: each byte is a digit, but for the last one, which holds the sign as well
  induction d with
  | nil => exact iff_of_true rfl rfl
  | cons b tail ih =>
      by_cases hnil : tail = []
      · subst hnil
        have hb : b.toNat < 256 := b.toNat_lt
        show decide (b ≠ 0 ∧ b ≠ 0x80) = false ↔ b.toNat % 0x80 = 0
        rw [decide_eq_false_iff_not, Ne, Ne, ← UInt8.toNat_inj, ← UInt8.toNat_inj]
        show ¬(b.toNat ≠ 0 ∧ b.toNat ≠ 0x80) ↔ _
        omega
      · rw [isTrue_cons b hnil, signMagnitude_cons b hnil, Bool.or_eq_false_iff, ih,
          decide_eq_false_iff_not, not_not, ← UInt8.toNat_inj]
        show b.toNat = 0 ∧ _ ↔ b.toNat + 256 * _ = 0
        omega

theorem isTrue_eq_decide (d : Bytes) : isTrue d = decide (value d ≠ 0) := by
  by_cases hzero : value d = 0
  · rw [(isTrue_eq_false_iff d).2 hzero, decide_eq_false (not_not_intro hzero)]
  · rw [decide_eq_true hzero]
    exact Bool.of_not_eq_false fun hfalse => hzero ((isTrue_eq_false_iff d).1 hfalse)

theorem isTrue_congr {d e : Bytes} (h : value d = value e) : isTrue d = isTrue e := by
  rw [isTrue_eq_decide, isTrue_eq_decide, h]

theorem minimal?_eq_nil_iff (d : Bytes) : minimal? d = some [] ↔ value d = 0 := by
  rw [minimal?_eq, minimal_eq_encode, Option.some_inj, encode_eq_nil_iff]

theorem isTrue_encode (n : Int) : isTrue (encode n) = decide (n ≠ 0) := by
  rw [isTrue_eq_decide, value_encode]

theorem isTrue_of_decode {strict : Bool} {limit : Nat} {d : Bytes} {n : Int}
    (h : decode strict limit d = .ok n) : isTrue d = decide (n ≠ 0) := by
  obtain ⟨-, -, -, rfl⟩ := decode_eq_ok_iff.1 h
  exact isTrue_eq_decide d

end Operand

namespace Exec

/-- What looks at the truth of the top item `d`, above `rest`, takes it for `b`: the opcode that
compares it with zero, those that require it, copy it and branch on it, and the last look at what
the scripts leave. Where branches take nothing but the two plain truth values, `d` must be one. -/
structure TakenFor (b : Bool) (r : Rules) (d : Bytes) (rest : Stack Bytes) (s : State) : Prop where
  /-- Opcode `OP_0NOTEQUAL`. -/
  nonZero (script : Script) (next : Nat) : execute r script true next (Opcode.command ⟨0x92⟩) s =
    .ok () { s with stack := Operand.ofBool b :: rest }
  /-- Opcode `OP_VERIFY`. -/
  verify (script : Script) (next : Nat) : execute r script true next (Opcode.command ⟨0x69⟩) s =
    if b then .ok () { s with stack := rest } else .error (.error .verify) s
  /-- Opcode `OP_IFDUP`. -/
  copyIfTrue (script : Script) (next : Nat) :
    execute r script true next (Opcode.command ⟨0x73⟩) s =
      .ok () { s with stack := if b then d :: d :: rest else d :: rest }
  /-- Opcode `OP_IF`. -/
  ifTrue (script : Script) (next : Nat)
    (hminimal : r.flags.contains .minimalIf → d = [] ∨ d = [1]) :
    execute r script true next (Opcode.command .ifTrue) s =
      .ok () { s with stack := rest, branches := b :: s.branches }
  /-- Opcode `OP_NOTIF`. -/
  ifFalse (script : Script) (next : Nat)
    (hminimal : r.flags.contains .minimalIf → d = [] ∨ d = [1]) :
    execute r script true next (Opcode.command .ifFalse) s =
      .ok () { s with stack := rest, branches := (!b) :: s.branches }
  checkResult : Script.checkResult r.flags s.stack =
    if !b then .error .evalFalse
    else if r.flags.contains .cleanStack && rest ≠ [] then .error .cleanStack
    else .ok ()

section

variable {r : Rules} {s : State} {d : Bytes} {rest : Stack Bytes}

theorem verifyTop_of_cons (hstack : s.stack = d :: rest) (e : ScriptError) :
    verifyTop e s =
      if Operand.isTrue d then .ok () { s with stack := rest } else .error (.error e) s := by
  have htop : s.stack[0]? = some d := by simp [hstack]
  rw [verifyTop, bind_of_ok (peek_of_getElem? htop)]
  split
  · rename_i htrue
    rw [bind_of_ok (require_of _ htrue), bind_of_ok (pop_of_cons hstack)]
    rfl
  · rename_i hfalse
    rw [bind_of_error (require_of_not _ hfalse)]

theorem execute_openBranch_of_cons (hstack : s.stack = d :: rest)
    (hminimal : r.flags.contains .minimalIf → d = [] ∨ d = [1]) (script : Script) (next : Nat)
    (negated : Bool) :
    execute r script true next (.openBranch negated) s =
      .ok () { s with stack := rest, branches := (Operand.isTrue d != negated) :: s.branches } := by
  rw [execute_openBranch, if_pos rfl, bind_of_ok (popCondition_of_cons hstack hminimal)]
  rfl

/-- An item that is read as a number is taken for false if the number is zero. -/
theorem takenFor_of_decode (hstack : s.stack = d :: rest) {n : Int}
    (h : Number.decode (r.flags.contains .minimalData) r.limits.numberLength d = .ok n) :
    TakenFor (decide (n ≠ 0)) r d rest s := by
  have htrue : Operand.isTrue d = decide (n ≠ 0) := Operand.isTrue_of_decode h
  have hdeep : 1 ≤ s.stack.length := by simp [hstack]
  have htop : s.stack[0]? = some d := by simp [hstack]
  constructor
  case nonZero =>
    intro script next
    rw [← Number.encode_ofBool]
    exact unary_of_decode hstack h .nonZero
  case verify =>
    intro script next
    rw [← htrue]
    exact (bind_of_ok (need_of_le hdeep)).trans (verifyTop_of_cons hstack _)
  case copyIfTrue =>
    intro script next
    rw [← htrue]
    refine (bind_of_ok (need_of_le hdeep)).trans ?_
    refine (bind_of_ok (peek_of_getElem? htop)).trans ?_
    split
    · have hcopy : s.stack.copyBlock? 0 1 = some (d :: d :: rest) := by rw [hstack]; rfl
      exact rearrange_of_eq_some hcopy
    · rw [← hstack]
      rfl
  case ifTrue =>
    intro script next hminimal
    rw [← htrue, ← Bool.xor_false (Operand.isTrue d)]
    exact execute_openBranch_of_cons hstack hminimal script next false
  case ifFalse =>
    intro script next hminimal
    rw [← htrue, ← Bool.xor_true]
    exact execute_openBranch_of_cons hstack hminimal script next true
  case checkResult =>
    rw [hstack, ← htrue]
    rfl

end

end Exec

namespace Operand

open Number

/-- Truth agrees with value. An item of any length is false if its value is zero, which is if there
is nothing left of it when it is trimmed. Trimming and resizing do not change its truth, a number is
written as a true item unless it is zero, and an item that is read as a number is taken for false
by all that looks at truth if the number is zero. -/
theorem isTrue_number :
    (∀ d : Bytes, (isTrue d = false ↔ value d = 0) ∧
      (isTrue d = false ↔ minimal? d = some []) ∧
      (∃ e, minimal? d = some e ∧ isTrue e = isTrue d) ∧
      ∀ size e, resize d size = .ok e → isTrue e = isTrue d) ∧
    (∀ n : Int, isTrue (encode n) = decide (n ≠ 0)) ∧
    (∀ strict limit d n, decode strict limit d = .ok n → isTrue d = decide (n ≠ 0)) ∧
    ∀ (r : Rules) (s : State) (d : Bytes) (rest : Stack Bytes) (n : Int), s.stack = d :: rest →
      decode (r.flags.contains .minimalData) r.limits.numberLength d = .ok n →
      Exec.TakenFor (decide (n ≠ 0)) r d rest s := by
  refine ⟨fun d => ⟨isTrue_eq_false_iff d, ?_, ?_, fun size e h => ?_⟩, isTrue_encode,
    fun _ _ _ _ h => isTrue_of_decode h, fun _ _ _ _ _ hstack h => Exec.takenFor_of_decode hstack h⟩
  · rw [isTrue_eq_false_iff, minimal?_eq_nil_iff]
  · exact ⟨minimal d, minimal?_eq d, isTrue_congr (value_minimal d)⟩
  · exact isTrue_congr (value_of_resize h)

/-- Zero with a negative sign and two bytes of padding is not true: it opens the branch that is
taken for a false item. -/
theorem isTrue_number_negative_zero :
    let r : Rules := ⟨.ofList [], .consensus, .refusing, .standard⟩
    decode false 4 [0, 0, 0x80] = .ok 0 ∧ isTrue [0, 0, 0x80] = false ∧
      Exec.execute r [] true 1 (Opcode.command .ifFalse) { stack := [[0, 0, 0x80], [7]] } =
        .ok () { stack := [[7]], branches := [true] } := by
  intro r
  have hread : decode false 4 [0, 0, 0x80] = .ok 0 := decode_eq_ok_iff.2 (by decide)
  obtain ⟨-, -, htrue, htaken⟩ := isTrue_number
  exact ⟨hread, htrue false 4 _ 0 hread,
    (htaken r { stack := [[0, 0, 0x80], [7]] } _ [[7]] 0 rfl hread).ifFalse [] 1
      (fun h => absurd h (by decide))⟩

end Operand

end BitcoinScript
