import BitcoinScript.Proofs.Machine.Operations
import Mathlib.Algebra.BigOperators.Group.List.Basic

/-!
# Resources of a run

A script of a stranger must not make the machine use more than its limits allow. Behind every
instruction the two stacks hold a bounded number of items of bounded length, and the operations
counted are those of the instructions taken, in whatever branch, and the keys of the multiple
signature checks that were executed.
-/

namespace BitcoinScript

namespace Exec

section

variable {r : Rules} {script : Script} {start s : State} {taken : List Taken} {left : List Instr}

/-- The operations that instructions count for when they are taken. -/
def operations (r : Rules) (taken : List Taken) : Nat :=
  taken.countP (fun p => !p.op.code.isPush) + (taken.map (Taken.keyCount r)).sum

theorem operations_append (taken : List Taken) (p : Taken) :
    operations r (taken ++ [p]) = operations r taken + (p.op.cost + p.keyCount r) := by
  have hcost : [p].countP (fun p => !p.op.code.isPush) = p.op.cost := by
    rw [List.countP_singleton, Instr.cost]
    cases p.op.code.isPush with
    | false => rfl
    | true => rfl
  rw [operations, operations, List.countP_append, List.map_append, List.sum_append, hcost,
    List.map_singleton, List.sum_singleton]
  omega

/-- Between two instructions the count is that of the instructions taken. -/
theorem Takes.opCount_eq (hcount : start.opCount = 0) (h : Takes r script start taken left s) :
    s.opCount = operations r taken ∧ s.opCount ≤ r.limits.ops := by
  induction h with
  | start =>
      rw [hcount]
      exact ⟨rfl, Nat.zero_le _⟩
  | @next taken op left s t u _ hstep hdepth ih =>
      have ht := (ends_step_count ih.2).of_ok hstep
      rw [eq_of_checkDepth hdepth, operations_append, ← ih.1]
      exact ⟨ht.1, ht.2.1⟩

end

end Exec

namespace Script

/-- Behind every instruction that an evaluation has taken, the stacks together hold no more items
than they may, no item on them is longer than it may be, and no more operations are counted than
there may be: one for each opcode above the one that pushes sixteen, executed or not, and the keys
of each multiple signature check that was executed. The state is the one that the instructions
taken lead to from the stack of the session. -/
theorem takes_withinLimits {r : Rules} {script : Script} {session : Session}
    {taken : List Exec.Taken} {left : List Instr} {s : State}
    (hlimit : 32 ≤ r.limits.itemSize)
    (hitems : ∀ item ∈ session.stack, item.length ≤ r.limits.itemSize)
    (h : Exec.Takes r script { stack := session.stack, calls := session.calls } taken left s) :
    script.instrs = taken.map (·.op) ++ left ∧
      Exec.runFrom r script 0 (taken.map (·.op))
        { stack := session.stack, calls := session.calls } = .ok () s ∧
      (taken ≠ [] → s.stack.length + s.alt.length ≤ r.limits.stackDepth) ∧
      (∀ item ∈ s.stack ++ s.alt, item.length ≤ r.limits.itemSize) ∧
      s.opCount ≤ r.limits.ops ∧
      s.opCount = taken.countP (fun p => !p.op.code.isPush) +
        (taken.map (Exec.Taken.keyCount r)).sum := by
  have hstart : State.ItemsWithin { stack := session.stack, calls := session.calls }
      r.limits.itemSize := ⟨hitems, fun _ hitem => nomatch hitem⟩
  have hwithin := h.itemsWithin (Nat.le_refl _) hlimit hstart
  obtain ⟨hcount, hops⟩ := h.opCount_eq rfl
  refine ⟨h.instrs_eq, h.runFrom_eq, h.depth_le, fun item hitem => ?_, hops, hcount⟩
  rcases List.mem_append.1 hitem with hitem | hitem
  · exact hwithin.stack item hitem
  · exact hwithin.alt item hitem

/-- A branch that is not taken, and a multiple signature check of no signature and one key. -/
def oneKey : Script := [0x00, 0x63, 0x61, 0x68, 0x00, 0x00, 0x51, 0x51, 0xae]

theorem takes_withinLimits_oneKey :
    32 ≤ plainRules.limits.itemSize ∧ ∃ taken s,
      Exec.Takes plainRules oneKey { stack := [[7]] } taken [] s ∧ s.stack = [[1], [7]] ∧
        s.opCount = 5 ∧
        s.opCount = taken.countP (fun p => !p.op.code.isPush) +
          (taken.map (Exec.Taken.keyCount plainRules)).sum := by
  have hlimit : 32 ≤ plainRules.limits.itemSize := by decide
  have hitems : ∀ item ∈ ([[7]] : Stack Bytes), item.length ≤ plainRules.limits.itemSize := by
    decide
  have hrun : Exec.runFrom plainRules oneKey 0 oneKey.instrs { stack := [[7]] } =
      .ok () { stack := [[1], [7]], opCount := 5 } := by decide +kernel
  obtain ⟨taken, -, htakes⟩ :=
    Exec.exists_takes_of_runFrom (List.append_nil oneKey.instrs).symm hrun
  obtain ⟨-, -, -, -, -, hcount⟩ :=
    @takes_withinLimits plainRules oneKey { stack := [[7]] } taken [] _ hlimit hitems htakes
  exact ⟨hlimit, taken, _, htakes, rfl, rfl, hcount⟩

end Script

end BitcoinScript
