import BitcoinScript.Proofs.Opcode.Table
import BitcoinScript.Script.Basic

/-!
# Nesting of conditionals

The instructions of a conditional are read as brackets: two open one, one closes it, and one in
between switches from its first part to its second. A sequence of instructions is *balanced* if all
conditionals that it opens are closed again and it neither closes nor switches any other.
-/

namespace BitcoinScript

def Opcode.otherwise : Opcode := ⟨0x67⟩

def Command.IsBranching : Command → Prop
  | .openBranch _ | .switchBranch | .closeBranch => True
  | _ => False

instance : DecidablePred Command.IsBranching := fun c => by
  cases c <;> first | exact isTrue trivial | exact isFalse id

/-- The number of conditionals that are open behind an instruction, if `depth` are open in front of
it. There is none if it closes or switches a conditional where none is open. -/
def Instr.depthAfter? (depth : Nat) (op : Instr) : Option Nat :=
  if op.code = .ifTrue ∨ op.code = .ifFalse then some (depth + 1)
  else if op.code = .otherwise then if depth = 0 then none else some depth
  else if op.code = .endIf then if depth = 0 then none else some (depth - 1)
  else some depth

/-- The same as `Instr.depthAfter?`, told by the command of an instruction. -/
def Command.depthAfter? (depth : Nat) : Command → Option Nat
  | .openBranch _ => some (depth + 1)
  | .switchBranch => if depth = 0 then none else some depth
  | .closeBranch => if depth = 0 then none else some (depth - 1)
  | _ => some depth

theorem Command.depthAfter?_of_not_isBranching {c : Command} (h : ¬c.IsBranching) (depth : Nat) :
    c.depthAfter? depth = some depth := by
  cases c with
  | openBranch | switchBranch | closeBranch => exact absurd trivial h
  | _ => rfl

namespace Script

def depthAfter? (depth : Nat) (ops : List Instr) : Option Nat := ops.foldlM Instr.depthAfter? depth

/-- The conditionals are well nested, and none is switched from outside of it. -/
def Balanced (ops : List Instr) : Prop := depthAfter? 0 ops = some 0

instance : DecidablePred Balanced := fun ops =>
  inferInstanceAs (Decidable (depthAfter? 0 ops = some 0))

@[simp] theorem depthAfter?_nil (depth : Nat) : depthAfter? depth [] = some depth := rfl

theorem depthAfter?_cons_eq_some_iff {depth last : Nat} {op : Instr} {ops : List Instr} :
    depthAfter? depth (op :: ops) = some last ↔
      ∃ next, op.depthAfter? depth = some next ∧ depthAfter? next ops = some last := by
  rw [depthAfter?, List.foldlM_cons]
  exact Option.bind_eq_some_iff

end Script

theorem Script.depthAfter?_append (depth : Nat) (ops ops' : List Instr) :
    depthAfter? depth (ops ++ ops') = (depthAfter? depth ops).bind (depthAfter? · ops') :=
  List.foldlM_append

namespace Opcode

/-- The opcodes of conditionals are looked at everywhere, count as operations and push nothing. -/
theorem classes_of_isBranching {op : Opcode} (h : op.command.IsBranching) :
    op.isConditional = true ∧ op.isPush = false ∧ op.isPushData = false ∧ op.isDisabled = false :=
  command_of_entries
    (P := fun b c => c.IsBranching → (⟨b⟩ : Opcode).isConditional = true ∧
      (⟨b⟩ : Opcode).isPush = false ∧ (⟨b⟩ : Opcode).isPushData = false ∧
      (⟨b⟩ : Opcode).isDisabled = false)
    (fun _ => False.elim) (by decide) op h

/-- What is looked at everywhere belongs to a conditional, or is one of the two reserved opcodes
among those. -/
theorem isConditional_cases {op : Opcode} (h : op.isConditional) (hverIf : op ≠ ⟨0x65⟩)
    (hverNotIf : op ≠ ⟨0x66⟩) :
    op = ifTrue ∨ op = ifFalse ∨ op = otherwise ∨ op = endIf := by
  have heq : ∀ b : UInt8, op.byte.toNat = b.toNat → op = ⟨b⟩ := fun b hb =>
    congrArg Opcode.mk (UInt8.toNat_inj.1 hb)
  rw [isConditional, Bool.and_eq_true, decide_eq_true_eq, decide_eq_true_eq, UInt8.le_iff_toNat_le,
    UInt8.le_iff_toNat_le] at h
  have hlow : 0x63 ≤ op.byte.toNat := h.1
  have hhigh : op.byte.toNat ≤ 0x68 := h.2
  have hbyte : op.byte.toNat = 0x63 ∨ op.byte.toNat = 0x64 ∨ op.byte.toNat = 0x65 ∨
      op.byte.toNat = 0x66 ∨ op.byte.toNat = 0x67 ∨ op.byte.toNat = 0x68 := by omega
  rcases hbyte with hbyte | hbyte | hbyte | hbyte | hbyte | hbyte
  · exact Or.inl (heq 0x63 hbyte)
  · exact Or.inr (Or.inl (heq 0x64 hbyte))
  · exact absurd (heq 0x65 hbyte) hverIf
  · exact absurd (heq 0x66 hbyte) hverNotIf
  · exact Or.inr (Or.inr (Or.inl (heq 0x67 hbyte)))
  · exact Or.inr (Or.inr (Or.inr (heq 0x68 hbyte)))

theorem isBranching_of_isConditional {op : Opcode} (h : op.isConditional) (hverIf : op ≠ ⟨0x65⟩)
    (hverNotIf : op ≠ ⟨0x66⟩) : op.command.IsBranching := by
  rcases isConditional_cases h hverIf hverNotIf with rfl | rfl | rfl | rfl
  all_goals exact trivial

end Opcode

namespace Instr

theorem depthAfter?_eq (depth : Nat) (op : Instr) :
    op.depthAfter? depth = op.code.command.depthAfter? depth := by
  by_cases h : op.code.command.IsBranching
  · have hreserved : ∀ code : Opcode, code.command = .invalid → op.code ≠ code := by
      rintro code hcode rfl
      rw [hcode] at h
      exact h
    rcases Opcode.isConditional_cases (Opcode.classes_of_isBranching h).1 (hreserved ⟨0x65⟩ rfl)
      (hreserved ⟨0x66⟩ rfl) with hcode | hcode | hcode | hcode
    all_goals
      rw [depthAfter?, hcode]
      rfl
  · have hne : ∀ code : Opcode, code.command.IsBranching → op.code ≠ code := by
      rintro code hcode rfl
      exact h hcode
    rw [depthAfter?, if_neg (not_or.2 ⟨hne .ifTrue trivial, hne .ifFalse trivial⟩),
      if_neg (hne .otherwise trivial), if_neg (hne .endIf trivial),
      Command.depthAfter?_of_not_isBranching h]

/-- What an instruction with a known depth behind it does to the open branches. -/
theorem nesting_cases {depth next : Nat} {op : Instr} (h : op.depthAfter? depth = some next) :
    (∃ negated, op.code.command = .openBranch negated ∧ next = depth + 1) ∨
      (op.code.command = .switchBranch ∧ 0 < depth ∧ next = depth) ∨
      (op.code.command = .closeBranch ∧ depth = next + 1) ∨
      (¬op.code.command.IsBranching ∧ next = depth) := by
  rw [depthAfter?_eq] at h
  cases hc : op.code.command with
  | openBranch negated =>
      rw [hc] at h
      exact Or.inl ⟨negated, rfl, (Option.some.inj h).symm⟩
  | switchBranch =>
      simp only [hc, Command.depthAfter?, Option.ite_none_left_eq_some, Option.some.injEq] at h
      exact Or.inr (Or.inl ⟨rfl, Nat.pos_of_ne_zero h.1, h.2.symm⟩)
  | closeBranch =>
      simp only [hc, Command.depthAfter?, Option.ite_none_left_eq_some, Option.some.injEq] at h
      exact Or.inr (Or.inr (Or.inl ⟨rfl, by omega⟩))
  | _ =>
      rw [hc] at h
      exact Or.inr (Or.inr (Or.inr ⟨id, (Option.some.inj h).symm⟩))

end Instr

end BitcoinScript
