import BitcoinScript.Proofs.Machine.Resources

/-!
# Scripts that can succeed

What becomes of most instructions depends on the stack, but some things can be told from a script
alone. A script that succeeds can be read to its end, its conditionals are balanced, and it
holds nothing that fails in every branch. Instructions outside of all conditionals are always
executed, so none of them is one that fails when it is.

Behind every instruction as many branches are open as conditionals are among those passed. That
makes the depth at which an instruction stands a fact about the state in which it is taken.
-/

namespace BitcoinScript

/-- The opcodes that fail a script wherever they stand. -/
def Opcode.IsForbidden (op : Opcode) : Prop := op.byte ∈ ([0x65, 0x66, 0x8d, 0x8e] : List UInt8)

/-- The opcodes that fail a script where they are executed: the one for that, the reserved ones,
and those behind the last one in use. -/
def Opcode.IsFailing (op : Opcode) : Prop :=
  op.byte ∈ ([0x50, 0x62, 0x6a, 0x89, 0x8a] : List UInt8) ∨ 0xba ≤ op.byte

instance : DecidablePred Opcode.IsFailing := fun op =>
  inferInstanceAs (Decidable
    (op.byte ∈ ([0x50, 0x62, 0x6a, 0x89, 0x8a] : List UInt8) ∨ 0xba ≤ op.byte))

/-- What can be told from a script that succeeds. -/
structure Script.WellFormed (limits : Limits) (script : Script) : Prop where
  size : script.length ≤ limits.scriptSize
  /-- Instructions can be read up to the end. -/
  tail : script.tail = []
  balanced : Script.Balanced script.instrs
  allowed : ∀ op ∈ script.instrs, ¬op.code.IsForbidden
  /-- No instruction outside of all conditionals fails. -/
  outside : ∀ before op after, script.instrs = before ++ op :: after →
    Script.depthAfter? 0 before = some 0 → ¬op.code.IsFailing
  data : ∀ op ∈ script.instrs, op.data.length ≤ limits.itemSize
  operations : script.instrs.countP (fun op => !op.code.isPush) ≤ limits.ops

namespace Opcode

/-- The failing opcodes push no data, and fail or have no meaning. -/
theorem classes_of_isFailing {op : Opcode} (h : op.IsFailing) :
    op.isPushData = false ∧ (op.command = .abort ∨ op.command = .invalid) := by
  have hlarge : ∀ b : UInt8, (⟨b⟩ : Opcode).IsFailing → 0x50 ≤ b := by
    rintro b (hb | hb)
    · simp only [List.mem_cons, List.not_mem_nil, or_false] at hb
      rcases hb with rfl | rfl | rfl | rfl | rfl
      all_goals decide
    · exact UInt8.le_trans (by decide) hb
  constructor
  · have hop := hlarge op.byte h
    rw [isPushData, decide_eq_false_iff_not]
    exact fun hle => absurd (UInt8.le_trans hop hle) (by decide)
  · exact command_of_entries
      (P := fun b c => (⟨b⟩ : Opcode).IsFailing → c = .abort ∨ c = .invalid)
      (fun _ _ => Or.inr rfl) (by decide) op h

theorem not_isForbidden {op : Opcode} (hdisabled : op.isDisabled = false)
    (hreserved : ¬(op = ⟨0x65⟩ ∨ op = ⟨0x66⟩)) : ¬op.IsForbidden := by
  intro h
  obtain ⟨byte⟩ := op
  simp only [IsForbidden, List.mem_cons, List.not_mem_nil, or_false] at h
  rcases h with rfl | rfl | rfl | rfl
  · exact hreserved (Or.inl rfl)
  · exact hreserved (Or.inr rfl)
  · exact nomatch hdisabled
  · exact nomatch hdisabled

end Opcode

namespace Exec

section

variable {r : Rules} {script : Script} {start s t : State} {taken : List Taken} {op : Instr}
  {left : List Instr} {next : Nat}

/-! ## Single instructions -/

/-- The opcodes that are reserved among those of conditionals fail in every branch. -/
theorem ends_act_reserved (hop : op.code = ⟨0x65⟩ ∨ op.code = ⟨0x66⟩) (taken : Bool) :
    (act r script op next taken).Ends s (fun _ _ => False) fun _ _ => True := by
  have hact : act r script op next taken = fail .badOpcode := by
    rcases hop with hcode | hcode
    all_goals
      rw [act, hcode]
      cases taken with
      | false => rfl
      | true => rfl
  rw [hact]
  exact trivial

theorem ends_act_failing (hop : op.code.IsFailing) :
    (act r script op next true).Ends s (fun _ _ => False) fun _ _ => True := by
  obtain ⟨hdata, hcommand⟩ := Opcode.classes_of_isFailing hop
  have hact : act r script op next true = execute r script true next op.code.command := by
    rw [act, hdata]
    rfl
  rw [hact]
  rcases hcommand with hcommand | hcommand
  all_goals
    rw [hcommand]
    exact trivial

/-- What an instruction does to the open branches is what it does to the depth. -/
theorem ends_act_depth (taken : Bool) :
    (act r script op next taken).Ends s
      (fun _ t => op.depthAfter? s.branches.length = some t.branches.length)
      fun _ _ => True := by
  rw [Instr.depthAfter?_eq]
  by_cases hop : op.code.command.IsBranching
  · rw [act_of_isBranching hop]
    cases hc : op.code.command with
    | openBranch negated =>
        rw [execute_openBranch]
        refine (ends_bind _ _).2 (Ends.mono onlyStacks_condition (fun condition t ht => ?_)
          fun _ _ _ => trivial)
        have hbranches : t.branches = s.branches := congrArg Prod.fst ht
        show some (s.branches.length + 1) = some (t.branches.length + 1)
        rw [hbranches]
    | switchBranch =>
        refine ends_switchBranch.2 ⟨fun b rest hbranches => ?_, fun _ => trivial⟩
        rw [hbranches]
        rfl
    | closeBranch =>
        refine ends_closeBranch.2 ⟨fun b rest hbranches => ?_, fun _ => trivial⟩
        rw [hbranches]
        rfl
    | _ =>
        rw [hc] at hop
        exact hop.elim
  · -- other commands do not touch the branches
    rw [Command.depthAfter?_of_not_isBranching hop]
    refine ends_of_forall_ok fun _ t hact => ?_
    rw [(ignoresBranches_act hop next taken).branches_eq hact]

/-- What holds of an instruction that leads from one state to another. -/
structure Admits (r : Rules) (op : Instr) (s t : State) : Prop where
  data : op.data.length ≤ r.limits.itemSize
  allowed : ¬op.code.IsForbidden
  outside : s.branches = [] → ¬op.code.IsFailing
  depth : op.depthAfter? s.branches.length = some t.branches.length

theorem ends_step_admits :
    (step r script op next).Ends s (fun _ t => Admits r op s t) fun _ _ => True := by
  rw [step_eq]
  refine (ends_bind _ _).2 ((ends_prepare op).mono ?_ fun _ _ _ => trivial)
  rintro _ _ ⟨rfl, hdata, hdisabled, -⟩
  refine (ends_bind _ _).2 (ends_isTaken.2 ?_)
  by_cases hreserved : op.code = ⟨0x65⟩ ∨ op.code = ⟨0x66⟩
  · exact (ends_act_reserved hreserved _).mono (fun _ _ h => h.elim) fun _ _ _ => trivial
  · by_cases hfailing : s.branches = [] ∧ op.code.IsFailing
    · -- with no branch open everything is executed
      have htaken : ({ s with opCount := s.opCount + op.cost } : State).branches.all id = true := by
        rw [hfailing.1]
        rfl
      rw [htaken]
      exact (ends_act_failing hfailing.2).mono (fun _ _ h => h.elim) fun _ _ _ => trivial
    · have hallowed : ¬op.code.IsForbidden := Opcode.not_isForbidden hdisabled hreserved
      have houtside : s.branches = [] → ¬op.code.IsFailing :=
        fun hbranches hop => hfailing ⟨hbranches, hop⟩
      exact (ends_act_depth _).mono (fun _ t ht => ⟨hdata, hallowed, houtside, ht⟩)
        fun _ _ _ => trivial

/-! ## Runs -/

/-- As many branches are open as conditionals are among the instructions passed. -/
theorem Takes.depth_eq (hbranches : start.branches = []) (h : Takes r script start taken left s) :
    Script.depthAfter? 0 (taken.map (·.op)) = some s.branches.length := by
  induction h with
  | start => rw [hbranches]; rfl
  | @next taken op left s t u _ hstep hdepth ih =>
      have hop := (ends_step_admits.of_ok hstep).depth
      rw [eq_of_checkDepth hdepth, List.map_append, Script.depthAfter?_append, ih]
      exact Script.depthAfter?_cons_eq_some_iff.2 ⟨_, hop, rfl⟩

/-- A run that has taken all instructions shows what they are like. -/
theorem Takes.wellFormed (hbranches : start.branches = []) (hcount : start.opCount = 0)
    (h : Takes r script start taken [] s) (hend : s.branches = [])
    (hsize : script.length ≤ r.limits.scriptSize) (htail : script.tail = []) :
    script.WellFormed r.limits := by
  have hinstrs : script.instrs = taken.map (·.op) := by rw [h.instrs_eq, List.append_nil]
  have hmem : ∀ op ∈ script.instrs,
      op.data.length ≤ r.limits.itemSize ∧ ¬op.code.IsForbidden := by
    intro op hop
    rw [hinstrs] at hop
    obtain ⟨p, hp, rfl⟩ := List.mem_map.1 hop
    obtain ⟨before, after, rfl⟩ := List.append_of_mem hp
    obtain ⟨-, t, hstep⟩ := h.split
    have hadmits := ends_step_admits.of_ok hstep
    exact ⟨hadmits.data, hadmits.allowed⟩
  refine ⟨hsize, htail, ?_, fun op hop => (hmem op hop).2, ?_, fun op hop => (hmem op hop).1, ?_⟩
  · rw [Script.Balanced, hinstrs, h.depth_eq hbranches, hend]
    rfl
  · intro before op after heq hdepth
    rw [hinstrs, List.map_eq_append_iff] at heq
    obtain ⟨first, rest, rfl, rfl, hrest⟩ := heq
    obtain ⟨p, last, rfl, rfl, rfl⟩ := List.map_eq_cons_iff.1 hrest
    obtain ⟨hfirst, t, hstep⟩ := h.split
    -- nothing is open in front of `p`, so it was taken with no branch open
    rw [hfirst.depth_eq hbranches, Option.some.injEq, List.length_eq_zero_iff] at hdepth
    exact (ends_step_admits.of_ok hstep).outside hdepth
  · obtain ⟨heq, hops⟩ := h.opCount_eq hcount
    rw [hinstrs, List.countP_map]
    rw [heq, operations] at hops
    exact Nat.le_trans (Nat.le_add_right _ _) hops

end

end Exec

namespace Script

/-- Scripts that start with a return, or with one behind a false item, have one that stands outside
of all conditionals. -/
theorem not_wellFormed_of_isReturn {limits : Limits} {script : Script}
    (h : script.isReturn ∨ script.isSafeReturn) : ¬script.WellFormed limits := by
  intro hscript
  rcases h with h | h
  · obtain ⟨rest, rfl⟩ := List.head?_eq_some_iff.1 (of_decide_eq_true h)
    have hdecode : Instr.decode? (Opcode.opReturn.byte :: rest) = some (⟨.opReturn, []⟩, rest) :=
      rfl
    have hinstrs : Script.instrs (Opcode.opReturn.byte :: rest) =
        [] ++ ⟨.opReturn, []⟩ :: instrs rest := congrArg Prod.fst (parse_of_some hdecode)
    exact hscript.outside _ _ _ hinstrs rfl (by decide)
  · obtain ⟨rest, rfl⟩ := List.isPrefixOf_iff_prefix.1 h
    have hfirst : Instr.decode? (Opcode.op0.byte :: Opcode.opReturn.byte :: rest) =
        some (⟨.op0, []⟩, Opcode.opReturn.byte :: rest) := rfl
    have hsecond : Instr.decode? (Opcode.opReturn.byte :: rest) = some (⟨.opReturn, []⟩, rest) :=
      rfl
    have hinstrs : Script.instrs (Opcode.op0.byte :: Opcode.opReturn.byte :: rest) =
        [⟨.op0, []⟩] ++ ⟨.opReturn, []⟩ :: instrs rest :=
      (congrArg Prod.fst (parse_of_some hfirst)).trans
        (congrArg (⟨.op0, []⟩ :: ·) (congrArg Prod.fst (parse_of_some hsecond)))
    exact hscript.outside _ _ _ hinstrs rfl (by decide)

theorem exists_run_of_eval {r : Rules} {script : Script} {session left : Session}
    (h : eval r script session = .ok () left) :
    ∃ t, Exec.run r script { stack := session.stack, calls := session.calls } = .ok () t := by
  rw [eval] at h
  cases hrun : Exec.run r script { stack := session.stack, calls := session.calls } with
  | ok _ t => exact ⟨t, rfl⟩
  | error stop t =>
      rw [hrun] at h
      cases h

/-- A verification that succeeds has evaluated the locking script. -/
theorem exists_eval_of_verify {r : Rules} {unlock lock : Script} {session left : Session}
    (h : verify r unlock lock session = .ok () left) :
    ∃ between last, eval r lock between = .ok () last := by
  rw [verify] at h
  by_cases hpush : (r.flags.contains .sigPushOnly && !unlock.isPushOnly) = true
  · rw [if_pos hpush] at h
    exact nomatch h
  · rw [if_neg hpush] at h
    obtain ⟨_, start, -, hunlock⟩ := exists_of_bind_eq_ok h
    obtain ⟨_, between, -, hlock⟩ := exists_of_bind_eq_ok hunlock
    obtain ⟨_, last, hlast, -⟩ := exists_of_bind_eq_ok hlock
    exact ⟨between, last, hlast⟩

/-- A script that an evaluation succeeds with is well formed, whatever the stack, the flags and the
checker are. So nothing can satisfy a locking script that starts with a return, or with one behind a
false item. -/
theorem wellFormed_of_eval (r : Rules) (script : Script) :
    (∀ session left, eval r script session = .ok () left → script.WellFormed r.limits) ∧
      (script.isReturn ∨ script.isSafeReturn →
        ∀ unlock session, ∃ e left, verify r unlock script session = .error e left) := by
  have hwell : ∀ session left, eval r script session = .ok () left →
      script.WellFormed r.limits := by
    intro session left heval
    obtain ⟨t, hrun⟩ := exists_run_of_eval heval
    obtain ⟨hsize, htail, hbranches, taken, htaken⟩ := Exec.exists_takes_of_run hrun
    exact htaken.wellFormed rfl rfl hbranches hsize htail
  refine ⟨hwell, fun hreturn unlock session => ?_⟩
  cases hverify : verify r unlock script session with
  | error e left => exact ⟨e, left, rfl⟩
  | ok _ left =>
      obtain ⟨between, last, hlast⟩ := exists_eval_of_verify hverify
      exact absurd (hwell between last hlast) (not_wellFormed_of_isReturn hreturn)

def skippedReturn : Script := [0x00, 0x63, 0x6a, 0x67, 0x51, 0x68]

theorem wellFormed_of_eval_skippedReturn :
    eval plainRules skippedReturn {} = .ok () { stack := [[1]] } ∧
      skippedReturn.WellFormed plainRules.limits ∧
      Script.isSafeReturn [0x00, 0x6a] ∧
      ∃ e left, verify plainRules [0x51] [0x00, 0x6a] {} = .error e left := by
  have heval : eval plainRules skippedReturn {} = .ok () { stack := [[1]] } := by decide +kernel
  have hreturn : Script.isSafeReturn [0x00, 0x6a] := by decide
  exact ⟨heval, (wellFormed_of_eval plainRules skippedReturn).1 _ _ heval, hreturn,
    (wellFormed_of_eval plainRules [0x00, 0x6a]).2 (Or.inr hreturn) _ _⟩

end Script

end BitcoinScript
