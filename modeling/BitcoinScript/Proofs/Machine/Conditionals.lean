import BitcoinScript.Machine.Eval
import BitcoinScript.Proofs.Machine.Branches
import BitcoinScript.Proofs.Script.Parsing

/-!
# Conditionals as blocks

The machine knows no blocks: it keeps a list of open branches, and takes an instruction if all of
them are taken. Two facts about balanced instructions make blocks of it. Inside a further branch
that is taken they do what they do outside of it, up to the count of operations. Inside one that is
not taken they do nothing but count, if nothing in them fails even there.

So a conditional does what the chosen one of its parts does where it stands.
-/

namespace BitcoinScript

/-- The instruction is not refused in a branch that is not taken. -/
structure Instr.Skippable (limits : Limits) (op : Instr) : Prop where
  data : op.data.length ≤ limits.itemSize
  disabled : op.code.isDisabled = false
  verIf : op.code ≠ ⟨0x65⟩
  verNotIf : op.code ≠ ⟨0x66⟩

instance (limits : Limits) : DecidablePred (Instr.Skippable limits) := fun op =>
  decidable_of_iff (op.data.length ≤ limits.itemSize ∧ op.code.isDisabled = false ∧
      op.code ≠ ⟨0x65⟩ ∧ op.code ≠ ⟨0x66⟩)
    ⟨fun h => ⟨h.1, h.2.1, h.2.2.1, h.2.2.2⟩,
      fun h => ⟨h.data, h.disabled, h.verIf, h.verNotIf⟩⟩

def Script.ifElse (negated : Bool) (first second : List Instr) : List Instr :=
  ⟨if negated then .ifFalse else .ifTrue, []⟩ ::
    (first ++ ⟨.otherwise, []⟩ :: (second ++ [⟨.endIf, []⟩]))

namespace Exec

section

variable {α β : Type} {r : Rules} {script : Script} {s : State}

/-! ## Runs in parts -/

theorem ignoresBranches_prepare (op : Instr) : IgnoresBranches (prepare r op) := by
  refine (ignoresBranches_require _ _).bind fun _ => .bind ?_ fun _ => ignoresBranches_require _ _
  exact .ite (ignoresBranches_pure ()) (ignoresBranches_charge r 1)

theorem ignoresBranches_act {op : Instr} (hop : ¬op.code.command.IsBranching) (next : Nat)
    (taken : Bool) : IgnoresBranches (act r script op next taken) := by
  have hpush : IgnoresBranches (pushInstr r op) :=
    (ignoresBranches_require _ _).bind fun _ => ignoresBranches_push _
  exact .ite hpush (.ite (ignoresBranches_execute hop) (ignoresBranches_pure ()))

theorem ignoresBranches_checkDepth : IgnoresBranches (checkDepth r) :=
  .bind_get (fun _ _ _ => rfl) fun _ => ignoresBranches_require _ _

theorem runFrom_append (position : Nat) (ops ops' : List Instr) :
    runFrom r script position (ops ++ ops') =
      runFrom r script position ops >>= fun _ =>
        runFrom r script (position + (Script.ofInstrs ops).length) ops' := by
  induction ops generalizing position with
  | nil => rfl
  | cons op ops ih =>
      have hposition : position + op.length + (Script.ofInstrs ops).length =
          position + (Script.ofInstrs (op :: ops)).length := by
        rw [Script.ofInstrs_cons, List.length_append, Instr.length_toBytes, Nat.add_assoc]
      rw [List.cons_append, runFrom, runFrom, bind_assoc]
      simp only [bind_assoc, ih, hposition]

theorem checkDepth_of_le (h : s.stack.length + s.alt.length ≤ r.limits.stackDepth) :
    checkDepth r s = .ok () s := require_of _ h

/-- Behind every instruction the stacks hold no more items than they may. -/
theorem depth_le_of_runFrom {position : Nat} {ops : List Instr} {t : State}
    (h : s.stack.length + s.alt.length ≤ r.limits.stackDepth)
    (hrun : runFrom r script position ops s = .ok () t) :
    t.stack.length + t.alt.length ≤ r.limits.stackDepth := by
  induction ops generalizing position s with
  | nil =>
      obtain rfl : s = t := (EStateM.Result.ok.inj hrun).2
      exact h
  | cons op ops ih =>
      rw [runFrom] at hrun
      obtain ⟨_, u, -, hcheck⟩ := exists_of_bind_eq_ok hrun
      obtain ⟨_, v, hdepth, hrest⟩ := exists_of_bind_eq_ok hcheck
      have hu := depth_le_of_checkDepth hdepth
      rw [← eq_of_checkDepth hdepth] at hu
      exact ih hu hrest

theorem act_of_isBranching {op : Instr} (hop : op.code.command.IsBranching) (next : Nat)
    (taken : Bool) :
    act r script op next taken = execute r script taken next op.code.command := by
  obtain ⟨hcond, -, hdata, -⟩ := Opcode.classes_of_isBranching hop
  rw [act, hdata, hcond, Bool.and_false, Bool.or_true]
  rfl

theorem switchBranch_of_cons {b : Bool} {rest : List Bool} (h : s.branches = b :: rest) :
    switchBranch s = .ok () { s with branches := (!b) :: rest } := by
  rw [switchBranch, bind_of_ok (rfl : (get : Exec State) s = .ok s s), h]
  rfl

theorem closeBranch_of_cons {b : Bool} {rest : List Bool} (h : s.branches = b :: rest) :
    closeBranch s = .ok () { s with branches := rest } := by
  rw [closeBranch, bind_of_ok (rfl : (get : Exec State) s = .ok s s), h]
  rfl

/-! ## Inside a branch that is taken -/

variable {outer : List Bool} {depth extra : Nat}

/-- The second outcome is the first one inside a further branch that is taken, with `depth` branches
open in that, or it exceeds the count. -/
inductive Deepens (outer : List Bool) (depth extra : Nat) :
    EStateM.Result Stop State α → EStateM.Result Stop State α → Prop
  | ok (a : α) (inner : List Bool) (t : State) (hlen : inner.length = depth)
      (hbranches : t.branches = inner ++ outer) :
      Deepens outer depth extra (.ok a t) (.ok a (t.under (inner ++ true :: outer) extra))
  | error (stop : Stop) (t : State) (branches : List Bool) :
      Deepens outer depth extra (.error stop t) (.error stop (t.under branches extra))
  | exceeds (x y : EStateM.Result Stop State α) (h : ExceedsCount y) :
      Deepens outer depth extra x y

theorem Deepens.bind {m : Exec α} {f : α → Exec β} {s' : State} {depth' : Nat}
    (h : Deepens outer depth extra (m s) (m s'))
    (hf : ∀ (a : α) (inner : List Bool) (t : State), inner.length = depth →
      t.branches = inner ++ outer →
      Deepens outer depth' extra (f a t) (f a (t.under (inner ++ true :: outer) extra))) :
    Deepens outer depth' extra ((m >>= f) s) ((m >>= f) s') := by
  generalize hx : m s = x at h
  generalize hy : m s' = y at h
  cases h with
  | ok a inner t hlen hbranches =>
      rw [bind_of_ok hx, bind_of_ok hy]
      exact hf a inner t hlen hbranches
  | error stop t branches =>
      rw [bind_of_error hx, bind_of_error hy]
      exact .error stop t branches
  | exceeds _ _ h =>
      obtain ⟨t, rfl⟩ := h
      rw [bind_of_error hy]
      exact .exceeds _ _ ⟨t, rfl⟩

theorem IgnoresBranches.deepens {m : Exec α} (h : IgnoresBranches m) {inner : List Bool}
    (hs : s.branches = inner ++ outer) :
    Deepens outer inner.length extra (m s) (m (s.under (inner ++ true :: outer) extra)) := by
  rcases h s (inner ++ true :: outer) extra with hcount | heq
  · exact .exceeds _ _ hcount
  · rw [heq]
    cases hm : m s with
    | ok a t => exact .ok a inner t rfl ((h.branches_eq hm).trans hs)
    | error stop t => exact .error stop t _

/-- Switching and closing reach only branches that are open further inside. -/
theorem deepens_act {op : Instr} {next depth' : Nat} {taken : Bool} {inner : List Bool}
    (hop : op.depthAfter? inner.length = some depth') (hs : s.branches = inner ++ outer) :
    Deepens outer depth' extra (act r script op next taken s)
      (act r script op next taken (s.under (inner ++ true :: outer) extra)) := by
  rcases Instr.nesting_cases hop with ⟨negated, hc, rfl⟩ | ⟨hc, hpos, rfl⟩ | ⟨hc, hlen⟩ | ⟨hc, rfl⟩
  · rw [act_of_isBranching (by rw [hc]; trivial), hc]
    have hcondition : IgnoresBranches (if taken then popCondition r negated else pure false) :=
      .ite (ignoresBranches_popCondition negated) (ignoresBranches_pure false)
    rw [execute_openBranch]
    refine (hcondition.deepens hs).bind fun condition inner' t hlen ht => ?_
    refine .ok () (condition :: inner') { t with branches := condition :: t.branches } ?_ ?_
    · rw [List.length_cons, hlen]
    · rw [ht, List.cons_append]
  · rw [act_of_isBranching (by rw [hc]; trivial), hc]
    cases inner with
    | nil => exact absurd hpos (Nat.lt_irrefl 0)
    | cons b inner =>
        have hunder : (s.under (b :: inner ++ true :: outer) extra).branches =
            b :: (inner ++ true :: outer) := rfl
        rw [execute, switchBranch_of_cons hs, switchBranch_of_cons hunder]
        exact .ok () ((!b) :: inner) { s with branches := (!b) :: (inner ++ outer) } rfl rfl
  · rw [act_of_isBranching (by rw [hc]; trivial), hc]
    cases inner with
    | nil => exact nomatch hlen
    | cons b inner =>
        have hunder : (s.under (b :: inner ++ true :: outer) extra).branches =
            b :: (inner ++ true :: outer) := rfl
        rw [execute, closeBranch_of_cons hs, closeBranch_of_cons hunder]
        exact .ok () inner { s with branches := inner ++ outer } (Nat.succ.inj hlen) rfl
  · exact (ignoresBranches_act hc next taken).deepens hs

/-- An instruction does the same inside a further branch that is taken. -/
theorem deepens_step {op : Instr} {next depth' : Nat} {inner : List Bool}
    (hop : op.depthAfter? inner.length = some depth') (hs : s.branches = inner ++ outer) :
    Deepens outer depth' extra (step r script op next s)
      (step r script op next (s.under (inner ++ true :: outer) extra)) := by
  rw [step_eq]
  refine ((ignoresBranches_prepare op).deepens hs).bind fun _ inner' t hlen ht => ?_
  have htaken : (t.under (inner' ++ true :: outer) extra).branches.all id = t.branches.all id := by
    rw [ht]
    show (inner' ++ true :: outer).all id = _
    rw [List.all_append, List.all_append, List.all_cons, id, Bool.true_and]
  rw [bind_isTaken, bind_isTaken, htaken]
  rw [← hlen] at hop
  exact deepens_act hop ht

theorem deepens_runFrom {position last : Nat} {ops : List Instr} {inner : List Bool}
    (hops : Script.depthAfter? inner.length ops = some last) (hs : s.branches = inner ++ outer) :
    Deepens outer last extra (runFrom r script position ops s)
      (runFrom r script position ops (s.under (inner ++ true :: outer) extra)) := by
  induction ops generalizing position s inner with
  | nil =>
      rw [Script.depthAfter?_nil, Option.some.injEq] at hops
      exact .ok () inner s hops hs
  | cons op ops ih =>
      obtain ⟨next, hop, hrest⟩ := Script.depthAfter?_cons_eq_some_iff.1 hops
      refine (deepens_step hop hs).bind fun _ inner' t hlen ht => ?_
      refine (ignoresBranches_checkDepth.deepens ht).bind fun _ inner'' u hlen' hu => ?_
      rw [← hlen, ← hlen'] at hrest
      exact ih hrest hu

/-! ## Inside a branch that is not taken -/

/-- The step does nothing but replace the open branches by such as `P` holds of, and count, where it
may exceed the count. -/
def Idles (m : Exec Unit) (s : State) (P : List Bool → Prop) : Prop :=
  ExceedsCount (m s) ∨ ∃ branches extra, P branches ∧ m s = .ok () (s.under branches extra)

variable {P P' : List Bool → Prop}

theorem Idles.bind {m f : Exec Unit} (h : Idles m s P)
    (hf : ∀ branches extra, P branches → Idles f (s.under branches extra) P') :
    Idles (m >>= fun _ => f) s P' := by
  rcases h with ⟨t, hcount⟩ | ⟨branches, extra, hP, hm⟩
  · exact Or.inl ⟨t, bind_of_error hcount⟩
  · rw [Idles, bind_of_ok hm]
    rcases hf branches extra hP with hcount | ⟨branches', extra', hP', hok⟩
    · exact Or.inl hcount
    · exact Or.inr ⟨branches', extra + extra', hP', by rw [hok, State.under_under]⟩

theorem idles_prepare {op : Instr} (hdata : op.data.length ≤ r.limits.itemSize)
    (hdisabled : op.code.isDisabled = false) : Idles (prepare r op) s (· = s.branches) := by
  have hallowed : (!op.code.isDisabled) = true := by rw [hdisabled]; rfl
  rw [Idles, prepare, bind_of_ok (require_of _ hdata)]
  by_cases hpush : op.code.isPush = true
  · have hcharge : chargeInstr r op s = .ok () s := by rw [chargeInstr, if_pos hpush]; rfl
    rw [bind_of_ok hcharge, require_of _ hallowed]
    exact Or.inr ⟨s.branches, 0, rfl, rfl⟩
  · have hcharge : chargeInstr r op = charge r 1 := by rw [chargeInstr, if_neg hpush]
    rw [hcharge]
    by_cases hle : s.opCount + 1 ≤ r.limits.ops
    · rw [bind_of_ok (charge_of_le hle), require_of _ hallowed]
      exact Or.inr ⟨s.branches, 1, rfl, rfl⟩
    · have hcount : charge r 1 s = .error (.error .opCount) _ := require_of_not _ hle
      exact Or.inl ⟨_, bind_of_error hcount⟩

/-- Behind the instruction, `depth` branches are open inside the one that is not taken. -/
def SkipsTo (outer : List Bool) (depth : Nat) (branches : List Bool) : Prop :=
  ∃ inner : List Bool, inner.length = depth ∧ branches = inner ++ false :: outer

theorem idles_act {op : Instr} (hskip : op.Skippable r.limits) {next depth' : Nat}
    {inner : List Bool} (hop : op.depthAfter? inner.length = some depth')
    (hs : s.branches = inner ++ false :: outer) :
    Idles (act r script op next false) s (SkipsTo outer depth') := by
  rcases Instr.nesting_cases hop with ⟨negated, hc, rfl⟩ | ⟨hc, hpos, rfl⟩ | ⟨hc, hlen⟩ | ⟨hc, rfl⟩
  · rw [act_of_isBranching (by rw [hc]; trivial), hc]
    exact Or.inr ⟨false :: s.branches, 0, ⟨false :: inner, rfl, by rw [hs]; rfl⟩, rfl⟩
  · rw [act_of_isBranching (by rw [hc]; trivial), hc]
    cases inner with
    | nil => exact absurd hpos (Nat.lt_irrefl 0)
    | cons b inner =>
        rw [Idles, execute, switchBranch_of_cons hs]
        exact Or.inr ⟨_, 0, ⟨(!b) :: inner, rfl, rfl⟩, rfl⟩
  · rw [act_of_isBranching (by rw [hc]; trivial), hc]
    cases inner with
    | nil => exact nomatch hlen
    | cons b inner =>
        rw [Idles, execute, closeBranch_of_cons hs]
        exact Or.inr ⟨_, 0, ⟨inner, Nat.succ.inj hlen, rfl⟩, rfl⟩
  · have hcond : op.code.isConditional = false := by
      refine Bool.eq_false_iff.2 fun hcond => hc ?_
      exact Opcode.isBranching_of_isConditional hcond hskip.verIf hskip.verNotIf
    rw [Idles, act, hcond]
    exact Or.inr ⟨s.branches, 0, ⟨inner, rfl, hs⟩, rfl⟩

theorem idles_step {op : Instr} (hskip : op.Skippable r.limits) {next depth' : Nat}
    {inner : List Bool} (hop : op.depthAfter? inner.length = some depth')
    (hs : s.branches = inner ++ false :: outer) :
    Idles (step r script op next) s (SkipsTo outer depth') := by
  have htaken : (inner ++ false :: outer).all id = false := by
    rw [List.all_append, List.all_cons, id, Bool.false_and, Bool.and_false]
  rw [step_eq]
  refine (idles_prepare hskip.data hskip.disabled).bind fun branches extra hbranches => ?_
  rw [hs] at hbranches
  subst hbranches
  have hskipped : Idles (act r script op next false) (s.under (inner ++ false :: outer) extra)
      (SkipsTo outer depth') := idles_act hskip hop rfl
  rw [Idles, bind_isTaken]
  rw [show (s.under (inner ++ false :: outer) extra).branches.all id = false from htaken]
  exact hskipped

theorem idles_runFrom_cons {position : Nat} {op : Instr} {ops : List Instr}
    (hdepth : s.stack.length + s.alt.length ≤ r.limits.stackDepth)
    (hop : Idles (step r script op (position + op.length)) s P)
    (hops : ∀ branches extra, P branches →
      Idles (runFrom r script (position + op.length) ops) (s.under branches extra) P') :
    Idles (runFrom r script position (op :: ops)) s P' := by
  rw [runFrom]
  refine hop.bind fun branches extra hP => ?_
  have hcheck : checkDepth r (s.under branches extra) = .ok () _ := checkDepth_of_le hdepth
  rw [Idles, bind_of_ok hcheck]
  exact hops branches extra hP

/-- Instructions in a branch that is not taken are skipped. -/
theorem idles_runFrom {position last : Nat} {ops : List Instr} {inner : List Bool}
    (hskip : ∀ op ∈ ops, op.Skippable r.limits)
    (hdepth : s.stack.length + s.alt.length ≤ r.limits.stackDepth)
    (hops : Script.depthAfter? inner.length ops = some last)
    (hs : s.branches = inner ++ false :: outer) :
    Idles (runFrom r script position ops) s (SkipsTo outer last) := by
  induction ops generalizing position s inner with
  | nil =>
      rw [Script.depthAfter?_nil, Option.some.injEq] at hops
      exact Or.inr ⟨s.branches, 0, ⟨inner, hops, hs⟩, rfl⟩
  | cons op ops ih =>
      obtain ⟨next, hop, hrest⟩ := Script.depthAfter?_cons_eq_some_iff.1 hops
      rw [List.forall_mem_cons] at hskip
      refine idles_runFrom_cons hdepth (idles_step hskip.1 hop hs) ?_
      rintro branches extra ⟨inner', rfl, rfl⟩
      exact ih hskip.2 hdepth hrest rfl

theorem idles_runFrom_balanced {position : Nat} {ops : List Instr} (hops : Script.Balanced ops)
    (hskip : ∀ op ∈ ops, op.Skippable r.limits)
    (hdepth : s.stack.length + s.alt.length ≤ r.limits.stackDepth)
    (hs : s.branches = false :: outer) :
    Idles (runFrom r script position ops) s (· = false :: outer) := by
  have hdepthAfter : Script.depthAfter? ([] : List Bool).length ops = some 0 := hops
  have hskipped : Idles (runFrom r script position ops) s (SkipsTo outer 0) :=
    idles_runFrom hskip hdepth hdepthAfter hs
  rcases hskipped with hcount | ⟨_, extra, ⟨inner, hlen, rfl⟩, hok⟩
  · exact Or.inl hcount
  · obtain rfl := List.length_eq_zero_iff.1 hlen
    exact Or.inr ⟨_, extra, rfl, hok⟩

/-! ## The two parts of a conditional -/

theorem step_of_isBranching {code : Opcode} (h : code.command.IsBranching) (next : Nat) :
    ExceedsCount (step r script ⟨code, []⟩ next s) ∨
      ∃ extra, step r script ⟨code, []⟩ next s =
        execute r script (s.branches.all id) next code.command (s.under s.branches extra) := by
  have hdisabled := (Opcode.classes_of_isBranching h).2.2.2
  have hprepare : Idles (prepare r ⟨code, []⟩) s (· = s.branches) :=
    idles_prepare (Nat.zero_le _) hdisabled
  rw [step_eq]
  rcases hprepare with ⟨t, hcount⟩ | ⟨_, extra, rfl, hok⟩
  · exact Or.inl ⟨t, bind_of_error hcount⟩
  · right
    refine ⟨extra, ?_⟩
    have hact := @act_of_isBranching r script ⟨code, []⟩ h next
    rw [bind_of_ok hok, bind_isTaken, hact]
    rfl

theorem idles_otherwise {b : Bool} (hs : s.branches = b :: outer) (next : Nat) :
    Idles (step r script ⟨.otherwise, []⟩ next) s (· = (!b) :: outer) := by
  have hbranching : Opcode.otherwise.command.IsBranching := trivial
  rcases step_of_isBranching hbranching next with hcount | ⟨extra, heq⟩
  · exact Or.inl hcount
  · have hunder : (s.under s.branches extra).branches = b :: outer := hs
    refine Or.inr ⟨_, extra, rfl, ?_⟩
    rw [heq]
    exact switchBranch_of_cons hunder

theorem idles_endIf {b : Bool} (hs : s.branches = b :: outer) (next : Nat) :
    Idles (step r script ⟨.endIf, []⟩ next) s (· = outer) := by
  have hbranching : Opcode.endIf.command.IsBranching := trivial
  rcases step_of_isBranching hbranching next with hcount | ⟨extra, heq⟩
  · exact Or.inl hcount
  · have hunder : (s.under s.branches extra).branches = b :: outer := hs
    refine Or.inr ⟨_, extra, rfl, ?_⟩
    rw [heq]
    exact closeBranch_of_cons hunder

theorem popCondition_of_cons {negated : Bool} {top : Bytes} {rest : Stack Bytes}
    (hstack : s.stack = top :: rest)
    (hminimal : r.flags.contains .minimalIf → top = [] ∨ top = [1]) :
    popCondition r negated s =
      .ok (Operand.isTrue top != negated) { s with stack := rest } := by
  rw [popCondition, bind_of_ok (rfl : (get : Exec State) s = .ok s s), hstack]
  show (require _ _ >>= fun _ => pure _) { s with stack := rest } = _
  rw [bind_of_ok (require_of _ hminimal)]
  rfl

/-- The first instruction of a conditional takes its argument and opens a branch. -/
theorem step_open {code : Opcode} {negated : Bool} {top : Bytes} {rest : Stack Bytes}
    (hcode : code.command = .openBranch negated) (hopen : s.branches.all id = true)
    (hstack : s.stack = top :: rest)
    (hminimal : r.flags.contains .minimalIf → top = [] ∨ top = [1]) (next : Nat) :
    ExceedsCount (step r script ⟨code, []⟩ next s) ∨
      ∃ extra, step r script ⟨code, []⟩ next s =
        .ok () ({ s with stack := rest }.under
          ((Operand.isTrue top != negated) :: s.branches) extra) := by
  have hbranching : code.command.IsBranching := by
    rw [hcode]
    trivial
  rcases step_of_isBranching hbranching next with hcount | ⟨extra, heq⟩
  · exact Or.inl hcount
  · have hunder : (s.under s.branches extra).stack = top :: rest := hstack
    right
    refine ⟨extra, ?_⟩
    rw [heq, hcode, hopen, execute_openBranch, if_pos rfl,
      bind_of_ok (popCondition_of_cons hunder hminimal)]
    rfl

/-- The second outcome is the first one but for the count of operations and, if they stop, the open
branches. -/
inductive SameOutcome :
    EStateM.Result Stop State Unit → EStateM.Result Stop State Unit → Prop
  | ok (t : State) (extra : Nat) : SameOutcome (.ok () t) (.ok () (t.under t.branches extra))
  | error (stop : Stop) (t : State) (branches : List Bool) (extra : Nat) :
      SameOutcome (.error stop t) (.error stop (t.under branches extra))

/-- What remains of a conditional behind its chosen part does nothing but close it. -/
theorem Deepens.sameOutcome {m f : Exec Unit} {s' : State}
    (h : Deepens outer 0 extra (m s) (m s'))
    (hf : ∀ t, m s = .ok () t → Idles f (t.under (true :: outer) extra) (· = outer)) :
    ExceedsCount ((m >>= fun _ => f) s') ∨ SameOutcome (m s) ((m >>= fun _ => f) s') := by
  generalize hx : m s = x at h hf
  generalize hy : m s' = y at h
  cases h with
  | ok _ inner t hlen hbranches =>
      obtain rfl := List.length_eq_zero_iff.1 hlen
      rw [bind_of_ok hy]
      rcases hf t rfl with hcount | ⟨_, extra', heq, hok⟩
      · exact Or.inl hcount
      · rw [heq] at hok
        rw [List.nil_append, hok, State.under_under]
        have hclosed : t.branches = outer := hbranches
        rw [← hclosed]
        exact Or.inr (.ok t (extra + extra'))
  | error stop t branches =>
      rw [bind_of_error hy]
      exact Or.inr (.error stop t branches extra)
  | exceeds _ _ h =>
      obtain ⟨t, rfl⟩ := h
      exact Or.inl ⟨t, bind_of_error hy⟩

theorem idles_runFrom_endIf {b : Bool} {position : Nat}
    (hdepth : s.stack.length + s.alt.length ≤ r.limits.stackDepth) (hs : s.branches = b :: outer) :
    Idles (runFrom r script position [⟨.endIf, []⟩]) s (· = outer) := by
  refine idles_runFrom_cons hdepth (idles_endIf hs _) ?_
  rintro _ extra rfl
  exact Or.inr ⟨_, 0, rfl, rfl⟩

/-- What stands behind the first part passes over the second one, if the first one is taken. -/
theorem idles_second {position : Nat} {second : List Instr} (hsecond : Script.Balanced second)
    (hskip : ∀ op ∈ second, op.Skippable r.limits)
    (hdepth : s.stack.length + s.alt.length ≤ r.limits.stackDepth)
    (hs : s.branches = true :: outer) :
    Idles (runFrom r script position (⟨.otherwise, []⟩ :: (second ++ [⟨.endIf, []⟩]))) s
      (· = outer) := by
  refine idles_runFrom_cons hdepth (idles_otherwise hs _) ?_
  rintro _ extra rfl
  rw [runFrom_append]
  refine Idles.bind (idles_runFrom_balanced hsecond hskip hdepth rfl) ?_
  rintro _ extra' rfl
  exact idles_runFrom_endIf hdepth rfl

/-- The first part is passed over up to the second one, if it is not taken. -/
theorem idles_first {position : Nat} {first : List Instr} (hfirst : Script.Balanced first)
    (hskip : ∀ op ∈ first, op.Skippable r.limits)
    (hdepth : s.stack.length + s.alt.length ≤ r.limits.stackDepth)
    (hs : s.branches = false :: outer) :
    Idles (runFrom r script position (first ++ [⟨.otherwise, []⟩])) s (· = true :: outer) := by
  rw [runFrom_append]
  refine (idles_runFrom_balanced hfirst hskip hdepth hs).bind ?_
  rintro _ extra rfl
  refine idles_runFrom_cons hdepth (idles_otherwise rfl _) ?_
  rintro _ extra' rfl
  exact Or.inr ⟨true :: outer, 0, rfl, rfl⟩

theorem deepens_runFrom_balanced {position : Nat} {ops : List Instr} (hops : Script.Balanced ops) :
    Deepens s.branches 0 extra (runFrom r script position ops s)
      (runFrom r script position ops (s.under (true :: s.branches) extra)) :=
  deepens_runFrom (show Script.depthAfter? ([] : List Bool).length ops = some 0 from hops) rfl

/-- Behind an open branch that is taken, a conditional does what its first part does. -/
theorem sameOutcome_first {position : Nat} {first second : List Instr}
    (hfirst : Script.Balanced first) (hsecond : Script.Balanced second)
    (hskip : ∀ op ∈ second, op.Skippable r.limits)
    (hdepth : s.stack.length + s.alt.length ≤ r.limits.stackDepth)
    (hcount : ¬ExceedsCount (runFrom r script position
      (first ++ ⟨.otherwise, []⟩ :: (second ++ [⟨.endIf, []⟩]))
      (s.under (true :: s.branches) extra))) :
    SameOutcome (runFrom r script position first s)
      (runFrom r script position (first ++ ⟨.otherwise, []⟩ :: (second ++ [⟨.endIf, []⟩]))
        (s.under (true :: s.branches) extra)) := by
  rw [runFrom_append] at hcount ⊢
  refine ((deepens_runFrom_balanced hfirst).sameOutcome fun t ht => ?_).resolve_left hcount
  have hleft := depth_le_of_runFrom hdepth ht
  exact idles_second hsecond hskip hleft rfl

/-- Behind one that is not taken, it does what its second part does. -/
theorem sameOutcome_second {position : Nat} {first second : List Instr}
    (hfirst : Script.Balanced first) (hsecond : Script.Balanced second)
    (hskip : ∀ op ∈ first, op.Skippable r.limits)
    (hdepth : s.stack.length + s.alt.length ≤ r.limits.stackDepth)
    (hcount : ¬ExceedsCount (runFrom r script position
      (first ++ ⟨.otherwise, []⟩ :: (second ++ [⟨.endIf, []⟩]))
      (s.under (false :: s.branches) extra))) :
    SameOutcome (runFrom r script (position + (Script.ofInstrs first).length + 1) second s)
      (runFrom r script position (first ++ ⟨.otherwise, []⟩ :: (second ++ [⟨.endIf, []⟩]))
        (s.under (false :: s.branches) extra)) := by
  have hposition : position + (Script.ofInstrs (first ++ [⟨.otherwise, []⟩])).length =
      position + (Script.ofInstrs first).length + 1 := by
    rw [Script.ofInstrs_append, List.length_append]
    rfl
  have hpassed : Idles (runFrom r script position (first ++ [⟨.otherwise, []⟩]))
      (s.under (false :: s.branches) extra) (· = true :: s.branches) :=
    idles_first hfirst hskip hdepth rfl
  rw [List.append_cons, runFrom_append, hposition] at hcount ⊢
  rcases hpassed with ⟨t, ht⟩ | ⟨_, extra', rfl, hok⟩
  · exact absurd ⟨t, bind_of_error ht⟩ hcount
  · rw [bind_of_ok hok, State.under_under, runFrom_append] at hcount ⊢
    refine ((deepens_runFrom_balanced hsecond).sameOutcome fun t ht => ?_).resolve_left hcount
    have hleft := depth_le_of_runFrom hdepth ht
    exact idles_runFrom_endIf hleft rfl

/-- A conditional does what the chosen one of its parts does where it stands, up to the count of
operations, if nothing in the other part is refused even there. -/
theorem runFrom_ifElse {negated : Bool} {first second : List Instr} {position : Nat} {top : Bytes}
    {rest : Stack Bytes} (hfirst : Script.Balanced first) (hsecond : Script.Balanced second)
    (hopen : s.branches.all id = true)
    (hdepth : s.stack.length + s.alt.length ≤ r.limits.stackDepth)
    (hstack : s.stack = top :: rest)
    (hminimal : r.flags.contains .minimalIf → top = [] ∨ top = [1])
    (hskip : ∀ op ∈ if Operand.isTrue top != negated then second else first,
      op.Skippable r.limits)
    (hcount : ¬ExceedsCount (runFrom r script position (Script.ifElse negated first second) s)) :
    SameOutcome
      ((pop >>= fun _ =>
        if Operand.isTrue top != negated then runFrom r script (position + 1) first
        else runFrom r script (position + 1 + (Script.ofInstrs first).length + 1) second) s)
      (runFrom r script position (Script.ifElse negated first second) s) := by
  have hcommand : (if negated then Opcode.ifFalse else Opcode.ifTrue).command =
      .openBranch negated := by
    cases negated with
    | false => rfl
    | true => rfl
  have hlength : (⟨if negated then .ifFalse else .ifTrue, []⟩ : Instr).length = 1 := by
    cases negated with
    | false => rfl
    | true => rfl
  have hrest : rest.length + s.alt.length ≤ r.limits.stackDepth := by
    rw [hstack, List.length_cons] at hdepth
    omega
  rw [bind_of_ok (pop_of_cons hstack)]
  rw [Script.ifElse, runFrom, hlength] at hcount ⊢
  rcases step_open hcommand hopen hstack hminimal (position + 1) with ⟨t, ht⟩ | ⟨extra, hok⟩
  · exact absurd ⟨t, bind_of_error ht⟩ hcount
  · have hcheck : checkDepth r ({ s with stack := rest }.under
        ((Operand.isTrue top != negated) :: s.branches) extra) = .ok () _ := checkDepth_of_le hrest
    rw [bind_of_ok hok, bind_of_ok hcheck] at hcount ⊢
    cases hchosen : Operand.isTrue top != negated with
    | true =>
        rw [hchosen] at hskip hcount
        rw [if_pos rfl]
        exact sameOutcome_first hfirst hsecond hskip hrest hcount
    | false =>
        rw [hchosen] at hskip hcount
        rw [if_neg Bool.false_ne_true]
        exact sameOutcome_second hfirst hsecond hskip hrest hcount

/-- Failing opcodes in branches inside a part that is not chosen. -/
def hiddenReturns : List Instr :=
  [⟨.ifTrue, []⟩, ⟨.opReturn, []⟩, ⟨.otherwise, []⟩, ⟨.opReturn, []⟩, ⟨.endIf, []⟩]

def minimalIfRules : Rules := ⟨.ofList [.minimalIf], .consensus, .refusing, .standard⟩

/-- A conditional that they stand in, behind the push of its argument. -/
def guardedReturns : List Instr :=
  ⟨.op1, []⟩ :: Script.ifElse false [⟨.codeSeparator, []⟩, ⟨.dup, []⟩] hiddenReturns

/-- They are not reached, so behind the argument the first part marks its place in the script and
copies the item below. -/
theorem runFrom_ifElse_hiddenReturns :
    (Script.ofInstrs guardedReturns).instrs = guardedReturns ∧
      SameOutcome
        (runFrom minimalIfRules (Script.ofInstrs guardedReturns) 2
          [⟨.codeSeparator, []⟩, ⟨.dup, []⟩] { stack := [[7]] })
        (runFrom minimalIfRules (Script.ofInstrs guardedReturns) 1
          (Script.ifElse false [⟨.codeSeparator, []⟩, ⟨.dup, []⟩] hiddenReturns)
          { stack := [[1], [7]] }) ∧
      runFrom minimalIfRules (Script.ofInstrs guardedReturns) 2
          [⟨.codeSeparator, []⟩, ⟨.dup, []⟩] { stack := [[7]] } =
        .ok () { stack := [[7], [7]], codeStart := 3, opCount := 2 } := by
  refine ⟨by decide +kernel, ?_, rfl⟩
  have hsame := @runFrom_ifElse minimalIfRules (Script.ofInstrs guardedReturns)
    { stack := [[1], [7]] } false [⟨.codeSeparator, []⟩, ⟨.dup, []⟩] hiddenReturns 1 [1] [[7]]
    (by decide) (by decide) rfl (by decide) rfl (fun _ => Or.inr rfl) (by decide)
    (fun ⟨t, ht⟩ => nomatch ht)
  exact hsame

end

end Exec

end BitcoinScript
