import BitcoinScript.Proofs.Machine.Calls
import BitcoinScript.Proofs.Machine.History
import BitcoinScript.Proofs.Machine.Sizes
import BitcoinScript.Proofs.Script.Filtering
import Mathlib.Data.List.DropRight

/-!
# The script code that signatures commit to

Between two instructions a run has taken some of the instructions of its script, and it remembers
where the last code separator among those that it took ends. So the script code is what stands
behind that, and the instructions in it are whole ones, those of the script.

A signature check leaves out of them the pushes of its signatures, of all of them before it asks
about the first. `Script.eval_calls` says so of every call that an evaluation makes, whatever its
checker answers.
-/

namespace BitcoinScript

namespace Exec

/-- The instruction is a code separator that was executed. -/
def Taken.separates (p : Taken) : Bool :=
  p.before.branches.all id && p.op.code = .codeSeparator

/-- The state that a step leaves, whether it stops or not. -/
def stateAfter {α : Type} (m : Exec α) (s : State) : State :=
  match m s with
  | .ok _ t => t
  | .error _ t => t

section

variable {α β : Type} {m : Exec α} {f : α → Exec β} {s t : State}

theorem stateAfter_of_ok {a : α} (h : m s = .ok a t) : stateAfter m s = t := by
  rw [stateAfter, h]

theorem stateAfter_of_error {stop : Stop} (h : m s = .error stop t) : stateAfter m s = t := by
  rw [stateAfter, h]

theorem stateAfter_bind_of_ok {a : α} (h : m s = .ok a t) :
    stateAfter (m >>= f) s = stateAfter (f a) t := by
  rw [stateAfter, bind_of_ok h]
  rfl

theorem stateAfter_bind_of_error {stop : Stop} (h : m s = .error stop t) :
    stateAfter (m >>= f) s = t :=
  stateAfter_of_error (bind_of_error h)

theorem Ends.stateAfter {P : State → Prop} (h : m.Ends s (fun _ t => P t) fun _ t => P t) :
    P (stateAfter m s) := by
  cases hm : m s with
  | ok a t =>
      rw [stateAfter_of_ok hm]
      exact h.of_ok hm
  | error stop t =>
      rw [stateAfter_of_error hm]
      exact h.of_error hm

end

def callsOf {α : Type} (m : Exec α) (s : State) : List SigCall :=
  (stateAfter m s).calls.drop s.calls.length

/-- The instructions behind the last code separator that was executed, or all if none was. -/
def codeInstrs (taken : List Taken) (left : List Instr) : List Instr :=
  (taken.rtakeWhile fun p => !p.separates).map (·.op) ++ left

/-- The script code that a check of some signatures commits to: the instructions behind the last
code separator that was executed, except those that one of the signatures removes, and what is left
of the script where no instruction can be read. -/
def signedCode (flags : Flags) (script : Script) (taken : List Taken) (left : List Instr)
    (sigs : List Bytes) : Script :=
  Script.ofInstrs ((codeInstrs taken left).filter fun op =>
    !sigs.any (Signature.removes flags · op)) ++ script.tail

section

variable {r : Rules} {script : Script} {start s t : State} {taken : List Taken}
  {left : List Instr} {op : Instr}

theorem codeInstrs_of_separates {p : Taken} (h : p.separates = true) (taken : List Taken)
    (left : List Instr) : codeInstrs (taken ++ [p]) left = left := by
  rw [codeInstrs, List.rtakeWhile_concat_neg _ _ _ (by rw [h]; decide)]
  rfl

theorem codeInstrs_of_not_separates {p : Taken} (h : p.separates = false) (taken : List Taken)
    (left : List Instr) : codeInstrs (taken ++ [p]) left = codeInstrs taken (p.op :: left) := by
  rw [codeInstrs, List.rtakeWhile_concat_pos _ _ _ (by rw [h]; rfl), List.map_append,
    List.append_assoc]
  rfl

theorem mem_of_mem_codeInstrs (hop : op ∈ codeInstrs taken left) :
    op ∈ taken.map (·.op) ++ left := by
  rcases List.mem_append.1 hop with hop | hop
  · obtain ⟨p, hp, rfl⟩ := List.mem_map.1 hop
    have hmem : p ∈ taken := List.rtakeWhile_suffix _ _ |>.subset hp
    exact List.mem_append_left _ (List.mem_map_of_mem hmem)
  · exact List.mem_append_right _ hop

/-- Behind some of the instructions of a script stand the others and the tail. -/
theorem drop_length_ofInstrs {ops ops' : List Instr} (h : script.instrs = ops ++ ops') :
    script.drop (Script.ofInstrs ops).length = Script.ofInstrs ops' ++ script.tail := by
  have hscript := Script.ofInstrs_instrs_append_tail script
  rw [h, Script.ofInstrs_append, List.append_assoc] at hscript
  calc script.drop (Script.ofInstrs ops).length
      = (Script.ofInstrs ops ++ (Script.ofInstrs ops' ++ script.tail)).drop
          (Script.ofInstrs ops).length := by rw [hscript]
    _ = Script.ofInstrs ops' ++ script.tail := List.drop_left

namespace Takes

/-- The script code is what stands behind the last code separator that was executed. -/
theorem drop_codeStart (hcode : start.codeStart = 0) (h : Takes r script start taken left s) :
    script.drop s.codeStart = Script.ofInstrs (codeInstrs taken left) ++ script.tail := by
  induction h with
  | start =>
      rw [hcode, List.drop_zero]
      exact (Script.ofInstrs_instrs_append_tail script).symm
  | @next taken op left s t u h hstep hdepth ih =>
      have hcodeStart := ((ends_step op _).of_ok hstep).1
      rw [eq_of_checkDepth hdepth]
      by_cases hop : s.branches.all id = true ∧ op.code = .codeSeparator
      · have hseparates : (⟨op, s⟩ : Taken).separates = true := by
          rw [Taken.separates, hop.1, decide_eq_true hop.2]
          rfl
        rw [if_pos hop] at hcodeStart
        rw [hcodeStart, codeInstrs_of_separates hseparates, ← positionOf_append taken ⟨op, s⟩]
        exact drop_length_ofInstrs (h.next hstep hdepth).instrs_eq
      · have hseparates : (⟨op, s⟩ : Taken).separates = false := by
          rw [Taken.separates, Bool.and_eq_false_iff, decide_eq_false_iff_not, ← Bool.not_eq_true]
          exact not_and_or.1 hop
        rw [if_neg hop] at hcodeStart
        rw [hcodeStart, codeInstrs_of_not_separates hseparates]
        exact ih

/-- No item is longer than `n` if none is at the start. -/
theorem itemsWithin {n : Nat} (hlimit : r.limits.itemSize ≤ n) (hn : 32 ≤ n)
    (hitems : start.ItemsWithin n) (h : Takes r script start taken left s) : s.ItemsWithin n := by
  induction h with
  | start => exact hitems
  | next _ hstep hdepth ih =>
      rw [eq_of_checkDepth hdepth]
      exact ((staysWithin_step hlimit hn _ _ _ ih).of_ok hstep).2

/-- Cleaning the script code of signatures, in whatever order. -/
theorem foldl_cleanCode (hcode : start.codeStart = 0) (h : Takes r script start taken left s)
    {sigs : List Bytes} (hsigs : ∀ sig ∈ sigs, sig.length < 2 ^ 32) :
    sigs.foldl (Signature.cleanCode r.flags) (script.drop s.codeStart) =
      signedCode r.flags script taken left sigs := by
  have hparse : Script.parse (script.drop s.codeStart) =
      (codeInstrs taken left, script.tail) := by
    rw [h.drop_codeStart hcode]
    refine Script.parse_ofInstrs_tail fun op hop => ?_
    rw [h.instrs_eq]
    exact mem_of_mem_codeInstrs hop
  rw [Signature.foldl_cleanCode_eq hsigs, Script.keep, Script.instrs, Script.tail, hparse]
  rfl

end Takes

theorem signedCode_of_perm {flags : Flags} {sigs sigs' : List Bytes} (h : sigs'.Perm sigs) :
    signedCode flags script taken left sigs' = signedCode flags script taken left sigs := by
  simp only [signedCode, h.any_eq]

theorem Takes.call_code {n : Nat} (hn : n < 2 ^ 32) (hcode : start.codeStart = 0)
    (hitems : s.ItemsWithin n) (h : Takes r script start taken left s) {c : Command}
    {call : SigCall} (hcall : CallOf r c s.stack (script.drop s.codeStart) call) :
    ∃ sigs, SigOperands r c s.stack sigs ∧
      call.code = signedCode r.flags script taken left sigs ∧
      ∀ sigs' : List Bytes, sigs'.Perm sigs →
        sigs'.foldl (Signature.cleanCode r.flags) (script.drop s.codeStart) = call.code := by
  obtain ⟨sigs, hoperands, hcallCode⟩ := hcall.code
  have hsigs : ∀ sig ∈ sigs, sig.length < 2 ^ 32 := fun sig hsig =>
    Nat.lt_of_le_of_lt (hitems.stack sig (hoperands.subset hsig)) hn
  rw [hcallCode, h.foldl_cleanCode hcode hsigs]
  refine ⟨sigs, hoperands, rfl, fun sigs' hperm => ?_⟩
  rw [h.foldl_cleanCode hcode fun sig hsig => hsigs sig (hperm.subset hsig),
    signedCode_of_perm hperm]

/-! ## Runs -/

/-- The call is made by an instruction that a run reaches, and belongs to it. -/
def MadeIn (r : Rules) (script : Script) (start : State) (call : SigCall) : Prop :=
  ∃ taken op left s, Takes r script start taken (op :: left) s ∧
    call ∈ callsOf (step r script op (positionOf taken + op.length)) s ∧
    CallOf r op.code.command s.stack (script.drop s.codeStart) call

theorem callsOf_of_adds {m : Exec Unit} {P : SigCall → Prop} {s t : State}
    (ht : stateAfter m s = t) (h : Adds P s t) :
    Adds (fun call => call ∈ callsOf m s ∧ P call) s t := by
  obtain ⟨made, hmade, hP⟩ := h
  refine ⟨made, hmade, fun call hcall => ⟨?_, hP call hcall⟩⟩
  rwa [callsOf, ht, hmade, List.drop_left]

theorem adds_step (h : Takes r script start taken (op :: left) s) :
    (step r script op (positionOf taken + op.length)).Ends s
      (fun _ t => Adds (MadeIn r script start) s t)
      fun _ t => Adds (MadeIn r script start) s t := by
  have hstep := @ends_step r script s op (positionOf taken + op.length)
  have hmade : ∀ t, stateAfter (step r script op (positionOf taken + op.length)) s = t →
      Adds (CallOf r op.code.command s.stack (script.drop s.codeStart)) s t →
        Adds (MadeIn r script start) s t := fun t ht hadds =>
    (callsOf_of_adds ht hadds).mono fun call hcall => ⟨taken, op, left, s, h, hcall⟩
  rw [Ends] at hstep ⊢
  cases hm : step r script op (positionOf taken + op.length) s with
  | ok _ t =>
      rw [hm] at hstep
      exact hmade t (by rw [stateAfter, hm]) hstep.2
  | error stop t =>
      rw [hm] at hstep
      exact hmade t (by rw [stateAfter, hm]) hstep

/-- Whatever a run asks is asked by an instruction that it reaches. -/
theorem adds_run :
    (run r script).Ends start (fun _ t => Adds (MadeIn r script start) start t)
      fun _ t => Adds (MadeIn r script start) start t := by
  have hstep : ∀ taken op left s, Takes r script start taken (op :: left) s →
      Adds (MadeIn r script start) start s →
      (step r script op (positionOf taken + op.length)).Ends s
        (fun _ t => Adds (MadeIn r script start) start t)
        fun _ t => Adds (MadeIn r script start) start t := fun _ _ _ _ h hs =>
    (adds_step h).mono (fun _ _ ht => hs.trans ht) fun _ _ ht => hs.trans ht
  exact (ends_run (.refl start) hstep).mono (fun _ _ ht => ht.1) fun _ _ ht => ht

end

end Exec

namespace Script

/-- What an evaluation leaves, whether it succeeds or not. -/
def sessionAfter (r : Rules) (script : Script) (session : Session) : Session :=
  match eval r script session with
  | .ok _ left => left
  | .error _ left => left

theorem calls_sessionAfter (r : Rules) (script : Script) (session : Session) :
    (sessionAfter r script session).calls = (Exec.stateAfter (Exec.run r script)
      { stack := session.stack, calls := session.calls }).calls := by
  rw [sessionAfter, eval, Exec.stateAfter]
  cases Exec.run r script { stack := session.stack, calls := session.calls } with
  | ok _ t => rfl
  | error stop t => rfl

/-- Every call that an evaluation makes commits to the instructions behind the last code separator
that was executed, without those that push a signature which the same instruction checks and which
does not keep the code, and to the end of the script where no instruction can be read. The order in
which the script code is cleaned of the signatures makes no difference. -/
theorem eval_calls {r : Rules} {session : Session} (hlimit : r.limits.itemSize < 2 ^ 32)
    (hitems : ∀ item ∈ session.stack, item.length < 2 ^ 32) (script : Script) :
    ∃ made, (sessionAfter r script session).calls = session.calls ++ made ∧
      ∀ call ∈ made, ∃ taken op left s sigs,
        Exec.Takes r script { stack := session.stack, calls := session.calls } taken
            (op :: left) s ∧
          call ∈ Exec.callsOf
            (Exec.step r script op (Exec.positionOf taken + op.length)) s ∧
          Exec.SigOperands r op.code.command s.stack sigs ∧
          call.code = Exec.signedCode r.flags script taken (op :: left) sigs ∧
          ∀ sigs' : List Bytes, sigs'.Perm sigs →
            sigs'.foldl (Signature.cleanCode r.flags) (script.drop s.codeStart) = call.code := by
  let start : State := { stack := session.stack, calls := session.calls }
  have hstart : start.ItemsWithin (2 ^ 32 - 1) :=
    ⟨fun item hitem => Nat.le_sub_one_of_lt (hitems item hitem), fun _ hitem => nomatch hitem⟩
  have hadds : Exec.Adds (Exec.MadeIn r script start) start
      (Exec.stateAfter (Exec.run r script) start) := Exec.adds_run.stateAfter
  obtain ⟨made, hmade, hcalls⟩ := hadds
  refine ⟨made, (calls_sessionAfter r script session).trans hmade, fun call hcall => ?_⟩
  obtain ⟨taken, op, left, s, htakes, hmadeIn, hcallOf⟩ := hcalls call hcall
  have hwithin := htakes.itemsWithin (Nat.le_sub_one_of_lt hlimit) (by decide) hstart
  obtain ⟨sigs, hoperands, hcode, hperm⟩ := htakes.call_code (by decide) rfl hwithin hcallOf
  exact ⟨taken, op, left, s, sigs, htakes, hmadeIn, hoperands, hcode, hperm⟩

def plainRules : Rules := ⟨.none, .consensus, .refusing, .standard⟩

/-- A code separator, a push, which is removed, and a check of the signature that it pushes. -/
def ownPush : Script := [0xab, 0x01, 0xaa, 0x75, 0xac]

theorem eval_calls_ownPush :
    (sessionAfter plainRules ownPush { stack := [[0x02], [0xaa]] }).calls =
        [⟨[0xaa], [0x02], [0x75, 0xac]⟩] ∧
      ∃ taken left s sigs,
        Exec.Takes plainRules ownPush { stack := [[0x02], [0xaa]] } taken left s ∧
          [0x75, 0xac] = Exec.signedCode plainRules.flags ownPush taken left sigs := by
  have hmadeCalls : (sessionAfter plainRules ownPush { stack := [[0x02], [0xaa]] }).calls =
      [⟨[0xaa], [0x02], [0x75, 0xac]⟩] := by decide +kernel
  refine ⟨hmadeCalls, ?_⟩
  obtain ⟨made, hmade, hcalls⟩ := @eval_calls plainRules { stack := [[0x02], [0xaa]] } (by decide)
    (by decide) ownPush
  rw [hmadeCalls, List.nil_append] at hmade
  have hcall : ⟨[0xaa], [0x02], [0x75, 0xac]⟩ ∈ made := by
    rw [← hmade]
    exact List.mem_singleton.2 rfl
  obtain ⟨taken, op, left, s, sigs, htakes, -, -, hcode, -⟩ := hcalls _ hcall
  exact ⟨taken, op :: left, s, sigs, htakes, hcode⟩

end Script

end BitcoinScript
