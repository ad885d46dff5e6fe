import BitcoinScript.Proofs.Machine.Safety
import BitcoinScript.Proofs.Script.Parsing

/-!
# Evaluations without faults

A multiple signature check reads with counters that move. What keeps them inside the stack is that
the places of the keys and of the signatures that are left lie in it and that there are never more
signatures left than keys. The script code is cut out of the script at a position that a run has
passed, which lies inside the script.

Between two instructions a run stands at a position behind which exactly the instructions that are
left can be read. The step from there has no fault, so the only errors an evaluation reports are
errors of the script.
-/

namespace BitcoinScript

namespace Exec

section

variable {β : Type} {I : State → Prop} {r : Rules} {t : State} {code : Script}

theorem safe_checkPair (hr : r.checker.Answers) {sig key : Bytes} {Q : Bool → State → Prop}
    (hI : ∀ calls, I { t with calls }) (hQ : ∀ a calls, Q a { t with calls }) :
    Safe I (checkPair r code sig key) t Q := by
  have hform {stop : Stop} : Signature.checkForm sig r.crypto r.flags = .error stop →
      stop.IsClean := Signature.failsOnly_checkForm.isClean (by decide)
  have hkeyForm {stop : Stop} : Signature.checkKeyForm key r.flags = .error stop → stop.IsClean :=
    Signature.failsOnly_checkKeyForm.isClean (by decide)
  refine safe_bind_ofExcept (hI t.calls) hform fun _ _ => ?_
  refine safe_bind_ofExcept (hI t.calls) hkeyForm fun _ _ => ?_
  refine (ends_ask r _).2 ⟨fun a _ => hQ a _, fun hnone => ?_⟩
  exact absurd hnone (Option.isSome_iff_ne_none.1 (hr _ _ _))

theorem safe_bind_count {place bound : Nat} {e : ScriptError} {f : Nat → Exec β}
    {Q : β → State → Prop} (hplace : place < t.stack.length) (he : (Stop.error e).IsClean)
    (h : I t) (hf : ∀ n, n ≤ bound → Safe I (f n) t Q) :
    Safe I (count r place bound e >>= f) t Q := by
  rw [count, bind_assoc]
  refine safe_bind_number hplace h fun n => ?_
  rw [bind_assoc]
  exact safe_bind_require he h fun hn => hf n.toNat hn.2

/-- Cleaning reads the signatures and changes nothing. -/
theorem cleanCodes_eq {count place : Nat} (h : place + count ≤ t.stack.length) :
    cleanCodes r count place code t =
      .ok (((t.stack.drop place).take count).foldl (Signature.cleanCode r.flags) code) t := by
  induction count generalizing place code with
  | zero => rfl
  | succ count ih =>
      have hplace : place < t.stack.length := by omega
      have hclean : ofOption (Signature.cleanCode? r.flags code t.stack[place]) t =
          .ok (Signature.cleanCode r.flags code t.stack[place]) t := by
        rw [Signature.cleanCode?_eq]
        rfl
      rw [cleanCodes, bind_of_ok (peek_of_getElem? (List.getElem?_eq_getElem hplace)),
        bind_of_ok hclean, ih (by omega), List.drop_eq_getElem_cons hplace, List.take_succ_cons,
        List.foldl_cons]

theorem safe_bind_cleanCodes {count place : Nat} {f : Script → Exec β} {Q : β → State → Prop}
    (h : place + count ≤ t.stack.length) (hf : ∀ code, Safe I (f code) t Q) :
    Safe I (cleanCodes r count place code >>= f) t Q := by
  refine (ends_bind _ f).2 ?_
  rw [Ends, cleanCodes_eq h]
  exact hf _

theorem safe_tryPair (hr : r.checker.Answers) {sigPlace keyPlace : Nat} {Q : Bool → State → Prop}
    (hsig : sigPlace < t.stack.length) (hkey : keyPlace < t.stack.length)
    (hI : ∀ calls, I { t with calls }) (hQ : ∀ a calls, Q a { t with calls }) :
    Safe I (tryPair r code sigPlace keyPlace) t Q :=
  safe_bind_peek hsig fun _ _ => safe_bind_peek hkey fun _ _ => safe_checkPair hr hI hQ

/-- The places of the keys and signatures that are left lie in the stack, and with no more
signatures than keys left the keys do not run out. -/
theorem safe_matchSigs (hr : r.checker.Answers) {keysLeft sigsLeft keyPlace sigPlace : Nat}
    {Q : Bool → State → Prop} (hle : sigsLeft ≤ keysLeft)
    (hkeys : keyPlace + keysLeft ≤ t.stack.length) (hsigs : sigPlace + sigsLeft ≤ t.stack.length)
    (hI : ∀ calls, I { t with calls }) (hQ : ∀ a calls, Q a { t with calls }) :
    Safe I (matchSigs r code keysLeft sigsLeft keyPlace sigPlace) t Q := by
  induction keysLeft generalizing t sigsLeft keyPlace sigPlace with
  | zero =>
      cases sigsLeft with
      | zero => exact hQ true t.calls
      | succ sigsLeft => omega
  | succ keysLeft ih =>
      cases sigsLeft with
      | zero => exact hQ true t.calls
      | succ sigsLeft =>
          refine Safe.bind (P := fun _ u => ∃ calls, u = { t with calls }) ?_ ?_
          · exact safe_tryPair hr (by omega) (by omega) hI fun _ calls => ⟨calls, rfl⟩
          · rintro accepted u ⟨calls, rfl⟩
            cases accepted with
            | false =>
                show Safe I (if keysLeft < sigsLeft + 1 then pure false
                  else matchSigs r code keysLeft (sigsLeft + 1) (keyPlace + 1) sigPlace) _ Q
                split
                · exact hQ false calls
                · exact ih (by omega) (by simpa only using by omega)
                    (by simpa only using by omega) hI hQ
            | true =>
                show Safe I (if keysLeft < sigsLeft then pure false
                  else matchSigs r code keysLeft sigsLeft (keyPlace + 1) (sigPlace + 1)) _ Q
                split
                · exact hQ false calls
                · exact ih (by omega) (by simpa only using by omega)
                    (by simpa only using by omega) hI hQ

theorem safe_requireNull {asked : Bool} {Q : Unit → State → Prop} (h : 1 ≤ t.stack.length)
    (hI : I t) (hQ : Q () t) : Safe I (requireNull asked) t Q := by
  cases asked with
  | false => exact hQ
  | true => exact safe_bind_peek h fun _ _ => safe_require (by decide) hI fun _ => hQ

/-- Unwinding reads and removes no more items than it counts. -/
theorem safe_unwind {result : Bool} {items others : Nat} {Q : Unit → State → Prop}
    (h : items ≤ t.stack.length) (hI : ∀ stack, I { t with stack })
    (hQ : ∀ stack, Q () { t with stack }) : Safe I (unwind r result items others) t Q := by
  induction items generalizing t others with
  | zero => exact hQ t.stack
  | succ items ih =>
      have hone : 1 ≤ t.stack.length := by omega
      refine Safe.bind (safe_requireNull (Q := fun _ u => u = t) hone (hI t.stack) rfl) ?_
      rintro _ u rfl
      refine safe_bind_pop (hI u.stack) fun item rest hstack => ?_
      rw [hstack, List.length_cons] at h
      exact ih (Nat.le_of_succ_le_succ h) hI hQ

end

section

variable {r : Rules} {script : Script} {s : State}

theorem safe_closeSig {verify : Bool} {sig : Bytes} {result : Bool} (h : 2 ≤ s.stack.length) :
    Safe (fun _ => True) (closeSig r verify sig result) s
      fun _ t => t.codeStart = s.codeStart := by
  refine safe_bind_require (by decide) trivial fun _ => ?_
  exact safe_bind_discard h fun _ => safe_conclude (by decide) trivial fun _ => rfl

theorem safe_checkSig (hr : r.checker.Answers) (hs : s.codeStart ≤ script.length)
    {verify : Bool} : Safe (fun _ => True) (checkSig r script verify) s
      fun _ t => t.codeStart = s.codeStart := by
  refine safe_bind_need trivial fun h => ?_
  refine safe_bind_peek (by omega) fun sig _ => safe_bind_peek (by omega) fun key _ => ?_
  refine safe_bind_scriptCode hs ?_
  refine safe_bind_ofOption (by rw [Signature.cleanCode?_eq]; rfl) fun code _ => ?_
  refine Safe.bind (P := fun _ u => ∃ calls, u = { s with calls }) ?_ ?_
  · exact safe_checkPair hr (fun _ => trivial) fun _ calls => ⟨calls, rfl⟩
  · rintro result u ⟨calls, rfl⟩
    exact safe_closeSig h

theorem safe_closeMultiSig {verify result : Bool} {n m : Nat} (h : n + m + 2 ≤ s.stack.length) :
    Safe (fun _ => True) (closeMultiSig r verify n m result) s
      fun _ t => t.codeStart = s.codeStart := by
  refine Safe.bind (P := fun _ t => t.codeStart = s.codeStart) ?_ ?_
  · exact safe_unwind h (fun _ => trivial) fun _ => rfl
  · intro _ t ht
    refine safe_bind_need trivial fun hone => safe_bind_peek hone fun dummy _ => ?_
    refine safe_bind_require (by decide) trivial fun _ => safe_bind_pop trivial fun _ _ _ => ?_
    exact safe_conclude (by decide) trivial fun _ => ht

/-- The depth that is asked for after each count covers the items that are read. -/
theorem safe_checkMultiSig (hr : r.checker.Answers) (hs : s.codeStart ≤ script.length)
    {verify : Bool} : Safe (fun _ => True) (checkMultiSig r script verify) s
      fun _ t => t.codeStart = s.codeStart := by
  refine safe_bind_need trivial fun _ => ?_
  refine safe_bind_count (by omega) (by decide) trivial fun n _ => ?_
  refine safe_bind_charge trivial ?_
  refine safe_bind_need trivial fun hkeys => ?_
  refine safe_bind_count (by omega) (by decide) trivial fun m hm => ?_
  refine safe_bind_need trivial fun hitems => ?_
  refine safe_bind_scriptCode hs (safe_bind_cleanCodes (by omega) fun code => ?_)
  have hmatch : Safe (fun _ => True) (matchSigs r code n m 1 (n + 2))
      { s with opCount := s.opCount + n } fun _ u =>
        n + m + 3 ≤ u.stack.length ∧ u.codeStart = s.codeStart :=
    safe_matchSigs hr hm (by omega) (by omega) (fun _ => trivial) fun _ _ => ⟨hitems, rfl⟩
  refine hmatch.bind fun result u hu => ?_
  exact (safe_closeMultiSig (by omega)).mono (fun _ _ ht => ht.trans hu.2) fun _ h => h

/-- A command has no fault. The script code starts where it did, or behind the instruction. -/
theorem safe_execute (hr : r.checker.Answers) (hs : s.codeStart ≤ script.length) {taken : Bool}
    {next : Nat} {c : Command} : Safe (fun _ => True) (execute r script taken next c) s
      fun _ t => t.codeStart = s.codeStart ∨ t.codeStart = next := by
  by_cases hc : c.IsPlain
  · refine (onlyStacks_execute hc).mono (fun _ t ht => Or.inl ?_) fun _ _ => trivial
    exact congrArg (·.2.1) ht
  · cases c with
    | openBranch negated =>
        cases taken with
        | false => exact Or.inl rfl
        | true =>
            refine Safe.bind (onlyStacks_popCondition.mono (fun _ _ h => h) fun _ _ => trivial) ?_
            exact fun _ t ht => Or.inl (congrArg (·.2.1) ht)
    | switchBranch =>
        exact ends_switchBranch.2 ⟨fun _ _ _ => Or.inl rfl, fun _ => ⟨by decide, trivial⟩⟩
    | closeBranch =>
        exact ends_closeBranch.2 ⟨fun _ _ _ => Or.inl rfl, fun _ => ⟨by decide, trivial⟩⟩
    | codeSeparator => exact Or.inr rfl
    | checkSig verify =>
        exact (safe_checkSig hr hs).mono (fun _ _ h => Or.inl h) fun _ h => h
    | checkMultiSig verify =>
        exact (safe_checkMultiSig hr hs).mono (fun _ _ h => Or.inl h) fun _ h => h
    | _ => exact absurd trivial hc

theorem safe_chargeInstr {op : Instr} : Safe (fun _ => True) (chargeInstr r op) s
    fun _ t => t.codeStart = s.codeStart := by
  rw [chargeInstr]
  split
  · exact rfl
  · exact (ends_charge r 1).2 ⟨fun _ => rfl, fun _ => ⟨by decide, trivial⟩⟩

theorem safe_step (hr : r.checker.Answers) (hs : s.codeStart ≤ script.length) {op : Instr}
    {next : Nat} : Safe (fun _ => True) (step r script op next) s
      fun _ t => t.codeStart = s.codeStart ∨ t.codeStart = next := by
  refine safe_bind_require (by decide) trivial fun _ => safe_chargeInstr.bind fun _ t ht => ?_
  refine safe_bind_require (by decide) trivial fun _ => (ends_bind _ _).2 ?_
  show Safe _ (if t.branches.all id && op.code.isPushData then pushInstr r op
    else if t.branches.all id || op.code.isConditional then
      execute r script (t.branches.all id) next op.code.command
    else pure ()) t _
  split
  · exact safe_bind_require (by decide) trivial fun _ => Or.inl ht
  · split
    · rw [← ht] at hs ⊢
      exact safe_execute hr hs
    · exact Or.inl ht

/-! ## Runs -/

/-- The states that a run is in between two instructions, with the position in the script and the
instructions that are left. -/
inductive Reaches (r : Rules) (script : Script) (start : State) : Nat → List Instr → State → Prop
  | start : Reaches r script start 0 script.instrs start
  | next {position : Nat} {op : Instr} {ops : List Instr} {s t u : State} :
      Reaches r script start position (op :: ops) s →
      step r script op (position + op.length) s = .ok () t → checkDepth r t = .ok () u →
      Reaches r script start (position + op.length) ops u

/-- What holds between two instructions: the instructions that are left are the ones behind the
position, and the script code starts at a position that has been passed. -/
structure AtPosition (script : Script) (position : Nat) (ops : List Instr) (s : State) : Prop where
  position_le : position ≤ script.length
  instrs_drop : Script.instrs (script.drop position) = ops
  codeStart_le : s.codeStart ≤ position

theorem atPosition_start (hs : s.codeStart = 0) : AtPosition script 0 script.instrs s where
  position_le := Nat.zero_le _
  instrs_drop := by rw [List.drop_zero]
  codeStart_le := Nat.le_of_eq hs

theorem safe_checkDepth {Q : Unit → State → Prop} (hQ : Q () s) :
    Safe (fun _ => True) (checkDepth r) s Q :=
  safe_bind_get (safe_require (by decide) trivial fun _ => hQ)

/-- A step from a position has no fault and leads to the position behind its instruction. -/
theorem safe_step_atPosition (hr : r.checker.Answers) {position : Nat} {op : Instr}
    {ops : List Instr} (h : AtPosition script position (op :: ops) s) :
    Safe (fun _ => True) (step r script op (position + op.length)) s
      fun _ t => AtPosition script (position + op.length) ops t := by
  obtain ⟨hat, hdrop⟩ := Script.decodeAt?_of_instrs_drop h.instrs_drop
  have hs : s.codeStart ≤ script.length := Nat.le_trans h.codeStart_le h.position_le
  refine (safe_step hr hs).mono (fun _ t ht => ?_) fun _ hu => hu
  refine ⟨Instr.le_length_of_decodeAt? hat, hdrop, ?_⟩
  rcases ht with ht | ht
  · rw [ht]
    exact Nat.le_trans h.codeStart_le (Nat.le_add_right _ _)
  · exact Nat.le_of_eq ht

theorem AtPosition.of_reaches (hr : r.checker.Answers) (hs : s.codeStart = 0) {position : Nat}
    {ops : List Instr} {t : State} (h : Reaches r script s position ops t) :
    AtPosition script position ops t := by
  induction h with
  | start => exact atPosition_start hs
  | next _ hstep hdepth ih =>
      have hat := (safe_step_atPosition hr ih).of_ok hstep
      have hsafe : Safe (fun _ => True) (checkDepth r) _ fun _ u => AtPosition script _ _ u :=
        safe_checkDepth hat
      exact hsafe.of_ok hdepth

theorem safe_runFrom (hr : r.checker.Answers) {position : Nat} {ops : List Instr}
    (h : AtPosition script position ops s) :
    Safe (fun _ => True) (runFrom r script position ops) s fun _ _ => True := by
  induction ops generalizing position s with
  | nil => exact trivial
  | cons op ops ih =>
      refine (safe_step_atPosition hr h).bind fun _ t ht => ?_
      exact (safe_checkDepth ht).bind fun _ u hu => ih hu

theorem safe_run (hr : r.checker.Answers) (hs : s.codeStart = 0) :
    Safe (fun _ => True) (run r script) s fun _ _ => True := by
  refine safe_bind_require (by decide) trivial fun _ => ?_
  refine (safe_runFrom hr (atPosition_start hs)).bind fun _ t _ => ?_
  refine safe_bind_require (by decide) trivial fun _ => safe_bind_get ?_
  exact safe_require (by decide) trivial fun _ => trivial

end

end Exec

/-- With a checker that always answers, an evaluation gives a result or a proper error of the
script. Every state that it reaches stands in front of an instruction of the script that is taken
without a fault, and no more instructions are left than bytes. -/
theorem Script.eval_faultless {r : Rules} (hr : r.checker.Answers) (script : Script)
    (session : Session) :
    ((∃ left, eval r script session = .ok () left) ∨
      ∃ e left, eval r script session = .error e left ∧ e ≠ .unknownError) ∧
    ∀ position ops s,
      Exec.Reaches r script { stack := session.stack, calls := session.calls } position ops s →
      position + ops.length ≤ script.length ∧ s.codeStart ≤ position ∧
      ∀ op rest, ops = op :: rest →
        Instr.decodeAt? script position = some (op, position + op.length) ∧
        ∀ stop t, Exec.step r script op (position + op.length) s = .error stop t →
          stop.IsClean := by
  constructor
  · have hrun : Exec.Safe (fun _ => True) (Exec.run r script)
        { stack := session.stack, calls := session.calls } fun _ _ => True :=
      Exec.safe_run hr rfl
    rw [eval]
    cases h : Exec.run r script { stack := session.stack, calls := session.calls } with
    | ok _ s => exact Or.inl ⟨_, rfl⟩
    | error stop s => exact Or.inr ⟨_, _, rfl, (hrun.of_error h).1.toError_ne⟩
  · intro position ops s h
    have hat := Exec.AtPosition.of_reaches hr rfl h
    have hlen := length_instrs_le (script.drop position)
    rw [hat.instrs_drop, List.length_drop] at hlen
    refine ⟨by have := hat.position_le; omega, hat.codeStart_le, ?_⟩
    rintro op rest rfl
    refine ⟨(decodeAt?_of_instrs_drop hat.instrs_drop).1, fun stop t hstop => ?_⟩
    exact ((Exec.safe_step_atPosition hr hat).of_error hstop).1

/-- A check of one signature under one key, with nothing to check it against. -/
theorem Script.eval_faultless_checkMultiSig :
    Checker.refusing.Answers ∧
      ((∃ left, eval ⟨.ofList Flag.all, .consensus, .refusing, .standard⟩
          [0x00, 0x00, 0x51, 0x00, 0x51, 0xae] {} = .ok () left) ∨
        ∃ e left, eval ⟨.ofList Flag.all, .consensus, .refusing, .standard⟩
          [0x00, 0x00, 0x51, 0x00, 0x51, 0xae] {} = .error e left ∧ e ≠ .unknownError) := by
  have hanswers : Checker.refusing.Answers := fun _ _ _ => rfl
  exact ⟨hanswers, (eval_faultless hanswers _ _).1⟩

end BitcoinScript
