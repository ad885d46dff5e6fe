import BitcoinScript.Proofs.Machine.Conditionals
import Mathlib.Data.List.Basic
import Mathlib.Data.List.Induction

/-!
# What a run has taken

`Exec.Takes r script start taken left s` says that a run that starts in `start` comes to the state
`s` between two instructions, having taken `taken`, with `left` still to come. Everything that is
taken is kept together with the state that it was taken in, so what an instruction found on the
stack can be told behind it.

What holds in every such state is shown by induction on `Takes`. What holds where the run stops as
well follows with `Exec.ends_run`, which asks for it of single instructions only.
-/

namespace BitcoinScript.Exec

/-- An instruction that a run has taken, and the state that it was taken in. -/
structure Taken where
  op : Instr
  before : State

def positionOf (taken : List Taken) : Nat := (Script.ofInstrs (taken.map (·.op))).length

/-- The states that a run is in between two instructions, with everything that it has taken and the
instructions that are left. -/
inductive Takes (r : Rules) (script : Script) (start : State) :
    List Taken → List Instr → State → Prop
  | start : Takes r script start [] script.instrs start
  | next {taken : List Taken} {op : Instr} {left : List Instr} {s t u : State} :
      Takes r script start taken (op :: left) s →
      step r script op (positionOf taken + op.length) s = .ok () t →
      checkDepth r t = .ok () u →
      Takes r script start (taken ++ [⟨op, s⟩]) left u

section

variable {r : Rules} {script : Script} {start s t : State} {taken : List Taken} {op : Instr}
  {left : List Instr}

theorem positionOf_append (taken : List Taken) (p : Taken) :
    positionOf (taken ++ [p]) = positionOf taken + p.op.length := by
  rw [positionOf, List.map_append, Script.ofInstrs_append, List.length_append]
  exact congrArg _ ((congrArg List.length (List.append_nil _)).trans (Instr.length_toBytes p.op))

namespace Takes

/-- What is taken and what is left make up the script. -/
theorem instrs_eq (h : Takes r script start taken left s) :
    script.instrs = taken.map (·.op) ++ left := by
  induction h with
  | start => rfl
  | next _ _ _ ih =>
      rw [ih, List.map_append, List.append_assoc]
      rfl

/-- Everything that was taken was taken from a state of the run, and did not stop there. -/
theorem split {before after : List Taken} {p : Taken}
    (h : Takes r script start (before ++ p :: after) left s) :
    Takes r script start before (p.op :: (after.map (·.op) ++ left)) p.before ∧
      ∃ t, step r script p.op (positionOf before + p.op.length) p.before = .ok () t := by
  generalize htaken : before ++ p :: after = taken at h
  induction h generalizing after with
  | start => exact absurd htaken (by simp)
  | @next taken op left s t u h hstep hdepth ih =>
      rcases List.eq_nil_or_concat' after with rfl | ⟨after, last, rfl⟩
      · obtain ⟨rfl, hp⟩ := List.append_inj' htaken rfl
        obtain rfl : p = ⟨op, s⟩ := List.head_eq_of_cons_eq hp
        exact ⟨h, t, hstep⟩
      · have hsplit : (before ++ p :: after) ++ [last] = taken ++ [⟨op, s⟩] := by
          rw [← htaken, List.append_assoc]
          rfl
        obtain ⟨hbefore, hlast⟩ := List.append_inj' hsplit rfl
        obtain rfl : last = ⟨op, s⟩ := List.head_eq_of_cons_eq hlast
        have hat := ih hbefore
        rw [List.map_append, List.append_assoc]
        exact hat

/-- Taking the instructions one by one is running them. -/
theorem runFrom_eq (h : Takes r script start taken left s) :
    runFrom r script 0 (taken.map (·.op)) start = .ok () s := by
  induction h with
  | start => rfl
  | next _ hstep hdepth ih =>
      rw [List.map_append, runFrom_append, bind_of_ok ih, Nat.zero_add]
      exact (bind_of_ok hstep).trans (bind_of_ok hdepth)

/-- Behind an instruction the stacks together are within their limit. -/
theorem depth_le (h : Takes r script start taken left s) (htaken : taken ≠ []) :
    s.stack.length + s.alt.length ≤ r.limits.stackDepth := by
  cases h with
  | start => exact absurd rfl htaken
  | next _ _ hdepth =>
      rw [eq_of_checkDepth hdepth]
      exact depth_le_of_checkDepth hdepth

end Takes

/-- A run of the first instructions of a script takes them one by one. -/
theorem exists_takes_of_runFrom {ops : List Instr} (hinstrs : script.instrs = ops ++ left)
    (hrun : runFrom r script 0 ops start = .ok () s) :
    ∃ taken, taken.map (·.op) = ops ∧ Takes r script start taken left s := by
  induction ops using List.reverseRecOn generalizing left s with
  | nil =>
      obtain rfl : start = s := (EStateM.Result.ok.inj hrun).2
      obtain rfl : script.instrs = left := hinstrs
      exact ⟨[], rfl, .start⟩
  | append_singleton ops op ih =>
      rw [List.append_assoc] at hinstrs
      rw [runFrom_append] at hrun
      obtain ⟨_, t, hfirst, hlast⟩ := exists_of_bind_eq_ok hrun
      obtain ⟨taken, rfl, htakes⟩ := ih hinstrs hfirst
      rw [Nat.zero_add] at hlast
      obtain ⟨_, u, hstep, hcheck⟩ := exists_of_bind_eq_ok hlast
      obtain ⟨_, v, hdepth, hend⟩ := exists_of_bind_eq_ok hcheck
      obtain rfl : v = s := (EStateM.Result.ok.inj hend).2
      exact ⟨taken ++ [⟨op, t⟩], by rw [List.map_append]; rfl, htakes.next hstep hdepth⟩

/-! ## Where a run ends -/

/-- What every instruction keeps, also when it stops, holds at the end of a run. -/
theorem Takes.ends_runFrom {E : State → Prop} (h : Takes r script start taken left s) (hs : E s)
    (hstep : ∀ taken op left s, Takes r script start taken (op :: left) s → E s →
      (step r script op (positionOf taken + op.length)).Ends s (fun _ t => E t) fun _ t => E t) :
    (runFrom r script (positionOf taken) left).Ends s
      (fun _ t => E t ∧ ∃ taken, Takes r script start taken [] t) fun _ t => E t := by
  induction left generalizing taken s with
  | nil => exact ⟨hs, taken, h⟩
  | cons op left ih =>
      refine (hstep taken op left s h hs).bind fun _ t hok ht => ?_
      have hcheck : (checkDepth r).Ends t (fun _ u => E u) fun _ u => E u :=
        ends_checkDepth.2 ⟨fun _ => ht, fun _ => ht⟩
      refine hcheck.bind fun _ u hdepth hu => ?_
      rw [← positionOf_append taken ⟨op, s⟩]
      exact ih (h.next hok hdepth) hu

theorem ends_run {E : State → Prop} (hstart : E start)
    (hstep : ∀ taken op left s, Takes r script start taken (op :: left) s → E s →
      (step r script op (positionOf taken + op.length)).Ends s (fun _ t => E t) fun _ t => E t) :
    (run r script).Ends start
      (fun _ t => E t ∧ script.length ≤ r.limits.scriptSize ∧ script.tail = [] ∧
        t.branches = [] ∧ ∃ taken, Takes r script start taken [] t)
      fun _ t => E t := by
  refine (ends_bind _ _).2 ((ends_require _ _).2 ⟨fun hsize => ?_, fun _ => hstart⟩)
  refine (Takes.start.ends_runFrom hstart hstep).bind fun _ t _ ht => ?_
  refine (ends_bind _ _).2 ((ends_require _ _).2 ⟨fun htail => ?_, fun _ => ht.1⟩)
  refine (ends_bind _ _).2 ((ends_require _ _).2 ⟨fun hbranches => ?_, fun _ => ht.1⟩)
  exact ⟨ht.1, hsize, htail, hbranches, ht.2⟩

/-- A run that succeeds has taken all instructions of a script that is not too long and ends with
the last of them, and leaves no branch open. -/
theorem exists_takes_of_run (h : run r script start = .ok () t) :
    script.length ≤ r.limits.scriptSize ∧ script.tail = [] ∧ t.branches = [] ∧
      ∃ taken, Takes r script start taken [] t := by
  have hstep : ∀ taken op left s, Takes r script start taken (op :: left) s → True →
      (step r script op (positionOf taken + op.length)).Ends s (fun _ _ => True) fun _ _ => True :=
    fun _ _ _ _ _ _ => ends_of_forall_ok fun _ _ _ => trivial
  exact ((ends_run (E := fun _ => True) trivial hstep).of_ok h).2

end

end BitcoinScript.Exec
