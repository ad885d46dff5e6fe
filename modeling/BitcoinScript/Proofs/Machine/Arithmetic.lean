import BitcoinScript.Proofs.Machine.Stepping
import BitcoinScript.Proofs.Number.Codec

/-!
# Arithmetic of scripts

What the numeric opcodes compute is said over all integers, in `UnaryOp.exact`, `BinaryOp.exact` and
`Arithmetic.result`. `Arithmetic.outcome` says how such an operation is carried out on a stack, and
`Arithmetic.opcodes` lists the opcodes.

The interpreter computes with 64-bit integers, and an operation is exact if that makes no difference
for any operands. With a limit of at most seven bytes no sum, difference or quotient of operands
leaves the range, so that nothing but products can wrap around. With a limit of four bytes they
cannot either.
-/

namespace BitcoinScript

/-- The function over all integers. A truth value is one or zero. -/
def UnaryOp.exact : UnaryOp → Int → Int
  | .addOne, n => n + 1
  | .subOne, n => n - 1
  | .negate, n => -n
  | .abs, n => n.natAbs
  | .not, n => if n = 0 then 1 else 0
  | .nonZero, n => if n ≠ 0 then 1 else 0

/-- The function over all integers. A quotient is rounded towards zero, a remainder has the sign of
the dividend, and a truth value is one or zero. -/
def BinaryOp.exact : BinaryOp → (a b : Int) → Except Stop Int
  | .add, a, b => .ok (a + b)
  | .sub, a, b => .ok (a - b)
  | .mul, a, b => .ok (a * b)
  | .div, a, b => if b = 0 then .error (.error .divByZero) else .ok (a.tdiv b)
  | .mod, a, b => if b = 0 then .error (.error .modByZero) else .ok (a.tmod b)
  | .boolAnd, a, b => .ok (if a ≠ 0 ∧ b ≠ 0 then 1 else 0)
  | .boolOr, a, b => .ok (if a ≠ 0 ∨ b ≠ 0 then 1 else 0)
  | .equal, a, b => .ok (if a = b then 1 else 0)
  | .notEqual, a, b => .ok (if a ≠ b then 1 else 0)
  | .less, a, b => .ok (if a < b then 1 else 0)
  | .greater, a, b => .ok (if b < a then 1 else 0)
  | .lessOrEqual, a, b => .ok (if a ≤ b then 1 else 0)
  | .greaterOrEqual, a, b => .ok (if b ≤ a then 1 else 0)
  | .min, a, b => .ok (if a ≤ b then a else b)
  | .max, a, b => .ok (if a ≤ b then b else a)

inductive Arithmetic where
  | unary (op : UnaryOp)
  | binary (op : BinaryOp)
  | within
  deriving DecidableEq, Repr

namespace Arithmetic

def command : Arithmetic → Command
  | .unary op => .unary op
  | .binary op => .binary op
  | .within => .within

def arity : Arithmetic → Nat
  | .unary _ => 1
  | .binary _ => 2
  | .within => 3

/-- The result for operands that are listed from the deepest one on. Another number of them than
the operation has is a fault. -/
def result : Arithmetic → List Int → Except Stop Int
  | .unary op, [n] => .ok (op.exact n)
  | .binary op, [a, b] => op.exact a b
  | .within, [x, low, high] => .ok (if low ≤ x ∧ x < high then 1 else 0)
  | _, _ => .error .fault

/-- How an operation is carried out. The stack must be deep enough, and each operand must be read as
a number, the deepest one first. The operands give way to the shortest byte string of the result. -/
def outcome (a : Arithmetic) (r : Rules) (s : State) : EStateM.Result Stop State Unit :=
  if s.stack.length < a.arity then .error (.error .invalidStackOperation) s
  else
    let rest := s.stack.drop a.arity
    match (s.stack.take a.arity).reverse.mapM
        (Number.decode (r.flags.contains .minimalData) r.limits.numberLength) with
    | .error stop => .error stop s
    | .ok operands =>
        match a.result operands with
        | .error stop => .error stop { s with stack := rest }
        | .ok n => .ok () { s with stack := Number.encode n :: rest }

structure Entry where
  opcode : Opcode
  name : String
  operation : Arithmetic
  deriving DecidableEq, Repr

def opcodes : List Entry :=
  [⟨⟨0x8b⟩, "OP_1ADD", .unary .addOne⟩,
   ⟨⟨0x8c⟩, "OP_1SUB", .unary .subOne⟩,
   ⟨⟨0x8f⟩, "OP_NEGATE", .unary .negate⟩,
   ⟨⟨0x90⟩, "OP_ABS", .unary .abs⟩,
   ⟨⟨0x91⟩, "OP_NOT", .unary .not⟩,
   ⟨⟨0x92⟩, "OP_0NOTEQUAL", .unary .nonZero⟩,
   ⟨⟨0x93⟩, "OP_ADD", .binary .add⟩,
   ⟨⟨0x94⟩, "OP_SUB", .binary .sub⟩,
   ⟨⟨0x95⟩, "OP_MUL", .binary .mul⟩,
   ⟨⟨0x96⟩, "OP_DIV", .binary .div⟩,
   ⟨⟨0x97⟩, "OP_MOD", .binary .mod⟩,
   ⟨⟨0x9a⟩, "OP_BOOLAND", .binary .boolAnd⟩,
   ⟨⟨0x9b⟩, "OP_BOOLOR", .binary .boolOr⟩,
   ⟨⟨0x9c⟩, "OP_NUMEQUAL", .binary .equal⟩,
   ⟨⟨0x9e⟩, "OP_NUMNOTEQUAL", .binary .notEqual⟩,
   ⟨⟨0x9f⟩, "OP_LESSTHAN", .binary .less⟩,
   ⟨⟨0xa0⟩, "OP_GREATERTHAN", .binary .greater⟩,
   ⟨⟨0xa1⟩, "OP_LESSTHANOREQUAL", .binary .lessOrEqual⟩,
   ⟨⟨0xa2⟩, "OP_GREATERTHANOREQUAL", .binary .greaterOrEqual⟩,
   ⟨⟨0xa3⟩, "OP_MIN", .binary .min⟩,
   ⟨⟨0xa4⟩, "OP_MAX", .binary .max⟩,
   ⟨⟨0xa5⟩, "OP_WITHIN", .within⟩]

variable {a : Arithmetic} {r : Rules} {s : State}

theorem outcome_of_lt (h : s.stack.length < a.arity) :
    a.outcome r s = .error (.error .invalidStackOperation) s :=
  if_pos h

/-- The outcome on a stack with operands on top, listed from the deepest one on. -/
theorem outcome_append {items rest : List Bytes} (hstack : s.stack = items.reverse ++ rest)
    (harity : items.length = a.arity) :
    a.outcome r s =
      match items.mapM (Number.decode (r.flags.contains .minimalData) r.limits.numberLength) with
      | .error stop => .error stop s
      | .ok operands =>
          match a.result operands with
          | .error stop => .error stop { s with stack := rest }
          | .ok n => .ok () { s with stack := Number.encode n :: rest } := by
  have hlength : items.reverse.length = a.arity := by rw [List.length_reverse, harity]
  have hdeep : ¬s.stack.length < a.arity := by
    rw [hstack, List.length_append]
    omega
  have htake : (s.stack.take a.arity).reverse = items := by
    rw [hstack, List.take_left' hlength, List.reverse_reverse]
  have hdrop : s.stack.drop a.arity = rest := by rw [hstack, List.drop_left' hlength]
  rw [outcome, if_neg hdeep, htake, hdrop]

end Arithmetic

/-! ## Nothing wraps around -/

/-- The number is read from some operand. -/
def Rules.Reads (r : Rules) (n : Int) : Prop :=
  ∃ d, Number.decode (r.flags.contains .minimalData) r.limits.numberLength d = .ok n

/-- In 64 bits the operation gives the result over all integers, whatever operands are read. -/
def Arithmetic.IsExact (r : Rules) : Arithmetic → Prop
  | .unary op => ∀ n, r.Reads n → op.eval n = op.exact n
  | .binary op => ∀ a b, r.Reads a → r.Reads b → op.eval a b = op.exact a b
  | .within => True

namespace Number

def InRange (n : Int) : Prop := -0x8000000000000000 ≤ n ∧ n < 0x8000000000000000

instance (n : Int) : Decidable (InRange n) :=
  inferInstanceAs (Decidable (_ ∧ _))

/-- The number is so small that two of them have a sum in the range of 64-bit integers. -/
def IsSummand (n : Int) : Prop := n.natAbs < 0x4000000000000000

instance (n : Int) : Decidable (IsSummand n) :=
  inferInstanceAs (Decidable (n.natAbs < 0x4000000000000000))

def IsShort (n : Int) : Prop := n.natAbs < 0x80000000

theorem two_mul_natAbs_lt_of_reads {r : Rules} {n : Int} (h : r.Reads n) {width : Nat}
    (hlimit : r.limits.numberLength ≤ width) : 2 * n.natAbs < Bytes.capacity width := by
  obtain ⟨d, hd⟩ := h
  obtain ⟨hlength, -, -, rfl⟩ := decode_eq_ok_iff.1 hd
  exact Nat.lt_of_lt_of_le (two_mul_natAbs_value_lt_capacity d)
    (Bytes.capacity_le (Nat.le_trans hlength hlimit))

theorem isShort_of_reads {r : Rules} {n : Int} (hlimit : r.limits.numberLength ≤ 4)
    (h : r.Reads n) : IsShort n := by
  have hbound := two_mul_natAbs_lt_of_reads h hlimit
  have hcapacity : Bytes.capacity 4 = 0x100000000 := rfl
  rw [IsShort]
  omega

theorem isSummand_of_reads {r : Rules} {n : Int} (hlimit : r.limits.numberLength ≤ 7)
    (h : r.Reads n) : IsSummand n := by
  have hbound := two_mul_natAbs_lt_of_reads h hlimit
  have hcapacity : Bytes.capacity 7 = 0x100000000000000 := rfl
  rw [IsSummand]
  omega

theorem ofBool_decide (p : Prop) [Decidable p] : ofBool (decide p) = if p then 1 else 0 := by
  simp only [ofBool, decide_eq_true_eq]

theorem encode_ofBool (b : Bool) : encode (ofBool b) = Operand.ofBool b := by
  cases b with
  | false => exact encode_zero
  | true => exact encode_value (d := [1]) rfl

section

variable {a b n : Int}

theorem add_of_isSummand (ha : IsSummand a) (hb : IsSummand b) : add a b = a + b := by
  rw [IsSummand] at ha hb
  exact wrap_of_bounds (by omega) (by omega)

theorem sub_of_isSummand (ha : IsSummand a) (hb : IsSummand b) : sub a b = a - b := by
  rw [IsSummand] at ha hb
  exact wrap_of_bounds (by omega) (by omega)

theorem mul_of_inRange (h : InRange (a * b)) : mul a b = a * b := wrap_of_bounds h.1 h.2

theorem neg_of_isSummand (hn : IsSummand n) : neg n = -n := by
  rw [IsSummand] at hn
  exact wrap_of_bounds (by omega) (by omega)

theorem abs_of_isSummand (hn : IsSummand n) : abs n = n.natAbs := by
  rw [abs]
  split
  · rw [neg_of_isSummand hn]
    omega
  · omega

theorem divide_of_isSummand (ha : IsSummand a) (hb : b ≠ 0) : divide a b = .ok (a.tdiv b) := by
  have hle : (a.tdiv b).natAbs ≤ a.natAbs := Int.natAbs_tdiv_le_natAbs a b
  rw [IsSummand] at ha
  rw [divide, if_neg hb, wrap_of_bounds (by omega) (by omega)]

theorem remainder_of_isSummand (ha : IsSummand a) (hb : b ≠ 0) :
    remainder a b = .ok (a.tmod b) := by
  have hle : (a.tmod b).natAbs ≤ a.natAbs := by
    rw [Int.natAbs_tmod]
    exact Nat.mod_le _ _
  rw [IsSummand] at ha
  rw [remainder, if_neg hb, wrap_of_bounds (by omega) (by omega)]

theorem inRange_mul_of_isShort (ha : IsShort a) (hb : IsShort b) : InRange (a * b) := by
  have hmul : (a * b).natAbs < 0x80000000 * 0x80000000 := by
    rw [Int.natAbs_mul]
    exact Nat.mul_lt_mul'' ha hb
  exact ⟨by omega, by omega⟩

end

end Number

open Number in
theorem UnaryOp.eval_of_isSummand (op : UnaryOp) {n : Int} (hn : IsSummand n) :
    op.eval n = op.exact n := by
  cases op with
  | addOne => exact add_of_isSummand hn (by decide)
  | subOne => exact sub_of_isSummand hn (by decide)
  | negate => exact neg_of_isSummand hn
  | abs => exact abs_of_isSummand hn
  | not | nonZero => exact ofBool_decide _

open Number in
theorem BinaryOp.eval_of_isSummand (op : BinaryOp) {a b : Int} (ha : IsSummand a)
    (hb : IsSummand b) (hmul : op = .mul → InRange (a * b)) : op.eval a b = op.exact a b := by
  cases op with
  | add => exact congrArg Except.ok (add_of_isSummand ha hb)
  | sub => exact congrArg Except.ok (sub_of_isSummand ha hb)
  | mul => exact congrArg Except.ok (mul_of_inRange (hmul rfl))
  | div => exact ite_congr rfl (fun _ => rfl) (divide_of_isSummand ha)
  | mod => exact ite_congr rfl (fun _ => rfl) (remainder_of_isSummand ha)
  | min => exact congrArg Except.ok (Int.min_def a b)
  | max => exact congrArg Except.ok (Int.max_def a b)
  | boolAnd | boolOr | equal | notEqual | less | greater | lessOrEqual | greaterOrEqual =>
      exact congrArg Except.ok (ofBool_decide _)

/-- Under a limit of at most seven bytes nothing but products can wrap around. -/
theorem Arithmetic.isExact_of_ne_mul {r : Rules} (hlimit : r.limits.numberLength ≤ 7)
    {a : Arithmetic} (hmul : a ≠ .binary .mul) : a.IsExact r := by
  cases a with
  | unary op => exact fun n hn => op.eval_of_isSummand (Number.isSummand_of_reads hlimit hn)
  | binary op =>
      intro a b ha hb
      exact op.eval_of_isSummand (Number.isSummand_of_reads hlimit ha)
        (Number.isSummand_of_reads hlimit hb) fun hop => absurd (hop ▸ rfl) hmul
  | within => trivial

/-- Under a limit of at most four bytes products do not wrap around either. -/
theorem Arithmetic.isExact_of_short {r : Rules} (hlimit : r.limits.numberLength ≤ 4)
    (a : Arithmetic) : a.IsExact r := by
  by_cases hmul : a = .binary .mul
  · subst hmul
    intro a b ha hb
    exact congrArg Except.ok (Number.mul_of_inRange (Number.inRange_mul_of_isShort
      (Number.isShort_of_reads hlimit ha) (Number.isShort_of_reads hlimit hb)))
  · exact isExact_of_ne_mul (by omega) hmul

/-! ## Numeric opcodes -/

namespace Exec

variable {r : Rules} {s : State}

theorem bind_number {α : Type} {n : Nat} {item : Bytes} (hitem : s.stack[n]? = some item)
    (f : Int → Exec α) :
    (number r n >>= f) s =
      match Number.decode (r.flags.contains .minimalData) r.limits.numberLength item with
      | .error stop => .error stop s
      | .ok v => f v s := by
  cases hread : Number.decode (r.flags.contains .minimalData) r.limits.numberLength item with
  | error stop => rw [bind_of_error (number_of_error hitem hread)]
  | ok v => rw [bind_of_ok (number_of_ok hitem hread)]

theorem unary_of_decode {d : Bytes} {rest : Stack Bytes} {n : Int} (hstack : s.stack = d :: rest)
    (h : Number.decode (r.flags.contains .minimalData) r.limits.numberLength d = .ok n)
    (op : UnaryOp) :
    unary r op s = .ok () { s with stack := Number.encode (op.eval n) :: rest } := by
  have hdeep : 1 ≤ s.stack.length := by simp [hstack]
  have hd : s.stack[0]? = some d := by simp [hstack]
  rw [unary, bind_of_ok (need_of_le hdeep), bind_of_ok (number_of_ok hd h),
    bind_of_ok (pop_of_cons hstack)]
  rfl

theorem unary_eq_outcome {op : UnaryOp} (h : (Arithmetic.unary op).IsExact r) :
    unary r op s = (Arithmetic.unary op).outcome r s := by
  match hstack : s.stack with
  | [] =>
      have hshort : s.stack.length < 1 := by simp [hstack]
      rw [unary, bind_of_error (need_of_lt hshort), Arithmetic.outcome_of_lt hshort]
  | d :: rest =>
      have hdeep : 1 ≤ s.stack.length := by simp [hstack]
      have hd : s.stack[0]? = some d := by simp [hstack]
      have hitems : s.stack = [d].reverse ++ rest := hstack
      rw [Arithmetic.outcome_append hitems rfl]
      simp only [List.mapM_cons, List.mapM_nil]
      cases hn : Number.decode (r.flags.contains .minimalData) r.limits.numberLength d with
      | error stop =>
          rw [unary, bind_of_ok (need_of_le hdeep), bind_of_error (number_of_error hd hn)]
          rfl
      | ok n =>
          rw [unary_of_decode hstack hn, h n ⟨d, hn⟩]
          rfl

theorem binary_of_decode {first second : Bytes} {rest : Stack Bytes} {a b : Int}
    (hstack : s.stack = second :: first :: rest)
    (ha : Number.decode (r.flags.contains .minimalData) r.limits.numberLength first = .ok a)
    (hb : Number.decode (r.flags.contains .minimalData) r.limits.numberLength second = .ok b)
    (op : BinaryOp) :
    binary r op s =
      match op.eval a b with
      | .error stop => .error stop { s with stack := rest }
      | .ok n => .ok () { s with stack := Number.encode n :: rest } := by
  have hdeep : 2 ≤ s.stack.length := by simp [hstack]
  have hfirst : s.stack[1]? = some first := by simp [hstack]
  have hsecond : s.stack[0]? = some second := by simp [hstack]
  rw [binary, bind_of_ok (need_of_le hdeep), bind_of_ok (number_of_ok hfirst ha),
    bind_of_ok (number_of_ok hsecond hb), bind_of_ok (discard_of_le hdeep), hstack]
  cases op.eval a b with
  | error stop => rfl
  | ok n => rfl

theorem binary_eq_outcome {op : BinaryOp} (h : (Arithmetic.binary op).IsExact r) :
    binary r op s = (Arithmetic.binary op).outcome r s := by
  match hstack : s.stack with
  | [] | [_] =>
      have hshort : s.stack.length < 2 := by simp [hstack]
      rw [binary, bind_of_error (need_of_lt hshort), Arithmetic.outcome_of_lt hshort]
  | second :: first :: rest =>
      have hdeep : 2 ≤ s.stack.length := by simp [hstack]
      have hfirst : s.stack[1]? = some first := by simp [hstack]
      have hsecond : s.stack[0]? = some second := by simp [hstack]
      have hitems : s.stack = [first, second].reverse ++ rest := hstack
      rw [Arithmetic.outcome_append hitems rfl]
      simp only [List.mapM_cons, List.mapM_nil]
      cases ha : Number.decode (r.flags.contains .minimalData) r.limits.numberLength first with
      | error stop =>
          rw [binary, bind_of_ok (need_of_le hdeep), bind_of_error (number_of_error hfirst ha)]
          rfl
      | ok a =>
          cases hb : Number.decode (r.flags.contains .minimalData) r.limits.numberLength second with
          | error stop =>
              rw [binary, bind_of_ok (need_of_le hdeep), bind_of_ok (number_of_ok hfirst ha),
                bind_of_error (number_of_error hsecond hb)]
              rfl
          | ok b =>
              -- both operands are read, so that the 64-bit result is the exact one
              rw [binary_of_decode hstack ha hb, h a b ⟨first, ha⟩ ⟨second, hb⟩]
              rfl

theorem within_eq_outcome : within r s = Arithmetic.within.outcome r s := by
  match hstack : s.stack with
  | [] | [_] | [_, _] =>
      have hshort : s.stack.length < 3 := by simp [hstack]
      rw [within, bind_of_error (need_of_lt hshort), Arithmetic.outcome_of_lt hshort]
  | third :: second :: first :: rest =>
      have hdeep : 3 ≤ s.stack.length := by simp [hstack]
      have hfirst : s.stack[2]? = some first := by simp [hstack]
      have hsecond : s.stack[1]? = some second := by simp [hstack]
      have hthird : s.stack[0]? = some third := by simp [hstack]
      have hitems : s.stack = [first, second, third].reverse ++ rest := hstack
      rw [within, bind_of_ok (need_of_le hdeep), bind_number hfirst,
        Arithmetic.outcome_append hitems rfl]
      simp only [List.mapM_cons, List.mapM_nil]
      cases Number.decode (r.flags.contains .minimalData) r.limits.numberLength first with
      | error stop => rfl
      | ok x =>
          refine (bind_number hsecond _).trans ?_
          cases Number.decode (r.flags.contains .minimalData) r.limits.numberLength second with
          | error stop => rfl
          | ok low =>
              refine (bind_number hthird _).trans ?_
              cases Number.decode (r.flags.contains .minimalData) r.limits.numberLength third with
              | error stop => rfl
              | ok high =>
                  refine (bind_of_ok (discard_of_le hdeep)).trans ?_
                  rw [hstack, ← Number.encode_ofBool, Number.ofBool_decide]
                  rfl

/-- An operation that is exact is carried out as it is over all integers. -/
theorem execute_of_isExact {a : Arithmetic} (h : a.IsExact r) (script : Script) (next : Nat) :
    execute r script true next a.command s = a.outcome r s := by
  cases a with
  | unary op => exact unary_eq_outcome h
  | binary op => exact binary_eq_outcome h
  | within => exact within_eq_outcome

theorem execute_eq_outcome (hlimit : r.limits.numberLength ≤ 4) (script : Script) (next : Nat)
    (a : Arithmetic) : execute r script true next a.command s = a.outcome r s :=
  execute_of_isExact (a.isExact_of_short hlimit) script next

end Exec

namespace Arithmetic

theorem command_of_mem_opcodes : ∀ e ∈ opcodes, e.opcode.command = e.operation.command := by
  decide +kernel

/-- The opcodes have their names, and are operations that no script is refused for. -/
theorem name_of_mem_opcodes : ∀ e ∈ opcodes,
    e.opcode.name = e.name ∧ e.opcode.isPush = false ∧ e.opcode.isDisabled = false := by
  decide +kernel

end Arithmetic

/-- Numeric opcodes are exact if operands have at most four bytes: executed as a command, or taken
as an instruction that is counted, each of them does what its operation does to numbers, and the
result is written as a minimal byte string that has it for a value. -/
theorem Exec.numeric_exact {r : Rules} (hlimit : r.limits.numberLength ≤ 4) :
    (∀ e ∈ Arithmetic.opcodes, e.opcode.name = e.name ∧
      (∀ script next s,
        execute r script true next e.opcode.command s = e.operation.outcome r s) ∧
      ∀ script next s (op : Instr), op.code = e.opcode → op.data = [] →
        s.opCount + 1 ≤ r.limits.ops → s.branches.all id = true →
        step r script op next s = e.operation.outcome r { s with opCount := s.opCount + 1 }) ∧
    ∀ n, Number.isMinimal (Number.encode n) = true ∧ Number.value (Number.encode n) = n := by
  refine ⟨fun e he => ?_, fun n => ⟨Number.isMinimal_encode n, Number.value_encode n⟩⟩
  have hexecute (script : Script) (next : Nat) (s : State) :
      execute r script true next e.opcode.command s = e.operation.outcome r s := by
    rw [Arithmetic.command_of_mem_opcodes e he, execute_eq_outcome hlimit]
  obtain ⟨hname, hpush, hdisabled⟩ := Arithmetic.name_of_mem_opcodes e he
  refine ⟨hname, hexecute, ?_⟩
  rintro script next s ⟨code, data⟩ rfl rfl hops hs
  rw [step_of_operation hpush hdisabled rfl hops hs, hexecute]

/-- The product of the largest and the smallest number of four bytes takes eight bytes. -/
theorem Exec.numeric_exact_mul :
    let r : Rules := ⟨.ofList [.minimalData], .consensus, .refusing, .standard⟩
    r.limits.numberLength ≤ 4 ∧
      execute r [] true 1 (Opcode.command ⟨0x95⟩)
          { stack := [[0xff, 0xff, 0xff, 0xff], [0xff, 0xff, 0xff, 0x7f], [7]] } =
        .ok () { stack := [[1, 0, 0, 0, 0xff, 0xff, 0xff, 0xbf], [7]] } := by
  intro r
  have hlimit : r.limits.numberLength ≤ 4 := by decide
  have hmul := ((numeric_exact hlimit).1 ⟨⟨0x95⟩, "OP_MUL", .binary .mul⟩ (by decide)).2.1
  -- writing a number does not compute, but reading the expected bytes does
  have hproduct : Number.encode (-0x3fffffff00000001) = [1, 0, 0, 0, 0xff, 0xff, 0xff, 0xbf] :=
    Number.encode_value (d := [1, 0, 0, 0, 0xff, 0xff, 0xff, 0xbf]) rfl
  let items : List Bytes := [[0xff, 0xff, 0xff, 0x7f], [0xff, 0xff, 0xff, 0xff]]
  have hread : items.mapM (Number.decode true 4) = .ok [0x7fffffff, -0x7fffffff] := by
    have hlargest : Number.decode true 4 [0xff, 0xff, 0xff, 0x7f] = .ok 0x7fffffff :=
      Number.decode_eq_ok_iff.2 (by decide)
    have hsmallest : Number.decode true 4 [0xff, 0xff, 0xff, 0xff] = .ok (-0x7fffffff) :=
      Number.decode_eq_ok_iff.2 (by decide)
    simp only [items, List.mapM_cons, List.mapM_nil, hlargest, hsmallest]
    rfl
  refine ⟨hlimit, (hmul [] 1 _).trans ?_⟩
  have hdecode : Number.decode (r.flags.contains .minimalData) r.limits.numberLength =
    Number.decode true 4 := rfl
  have hstack : [[0xff, 0xff, 0xff, 0xff], [0xff, 0xff, 0xff, 0x7f], [7]] =
    items.reverse ++ [[7]] := rfl
  rw [Arithmetic.outcome_append (a := .binary .mul) hstack rfl, hdecode, hread, ← hproduct]
  rfl

end BitcoinScript
