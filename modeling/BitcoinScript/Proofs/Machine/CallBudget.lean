import BitcoinScript.Proofs.Machine.Resources

/-!
# The budget of calls

Checking a signature is the one thing a script can ask for that takes long, and the limit on
operations is what bounds it. At every moment of an evaluation no more calls have been made than
operations counted.

The moments between two instructions are states of the run. The moment of a call lies inside of an
instruction, and is seen by letting the checker fall silent there: the run does what it did before
up to this call and stops at it, as `Exec.CutsOff` says.
-/

namespace BitcoinScript

/-- The checker that answers the first `n` calls only. -/
def Checker.silentAfter (checker : Checker) (n : Nat) : Checker where
  checkSig before call flags :=
    if before.length < n then checker.checkSig before call flags else none
  checkLockTime := checker.checkLockTime
  checkSequence := checker.checkSequence

def Rules.silentAfter (r : Rules) (n : Nat) : Rules := { r with checker := r.checker.silentAfter n }

namespace Exec

section

variable {α β : Type} {n : Nat} {r : Rules} {script code : Script} {s : State}

/-! ## Stopping at a call -/

/-- The second step does what the first one does, unless that makes more than `n` calls: then it
stops at the first of the further ones. -/
structure CutsOff (n : Nat) (m m' : Exec α) : Prop where
  grows : ∀ s, s.calls <+: (stateAfter m s).calls
  same : ∀ s, s.calls.length ≤ n → (stateAfter m s).calls.length ≤ n → m' s = m s
  stops : ∀ s, s.calls.length ≤ n → n < (stateAfter m s).calls.length →
    ∃ t, m' s = .error .fault t ∧ t.calls = (stateAfter m s).calls.take (n + 1)

namespace CutsOff

theorem bind {m m' : Exec α} {f f' : α → Exec β} (h : CutsOff n m m')
    (hf : ∀ a, CutsOff n (f a) (f' a)) : CutsOff n (m >>= f) (m' >>= f') where
  grows s := by
    have hgrows := h.grows s
    cases hm : m s with
    | error stop t =>
        rw [stateAfter_of_error hm] at hgrows
        rwa [stateAfter_bind_of_error hm]
    | ok a t =>
        rw [stateAfter_of_ok hm] at hgrows
        rw [stateAfter_bind_of_ok hm]
        exact hgrows.trans ((hf a).grows t)
  same s hs hle := by
    have hsame := h.same s hs
    cases hm : m s with
    | error stop t =>
        rw [stateAfter_bind_of_error hm] at hle
        rw [stateAfter_of_error hm, hm] at hsame
        rw [bind_of_error hm, bind_of_error (hsame hle)]
    | ok a t =>
        rw [stateAfter_bind_of_ok hm] at hle
        rw [stateAfter_of_ok hm, hm] at hsame
        have ht : t.calls.length ≤ n := Nat.le_trans ((hf a).grows t).length_le hle
        rw [bind_of_ok hm, bind_of_ok (hsame ht)]
        exact (hf a).same t ht hle
  stops s hs hlt := by
    cases hm : m s with
    | error stop t =>
        rw [stateAfter_bind_of_error hm] at hlt ⊢
        have hstops := h.stops s hs
        rw [stateAfter_of_error hm] at hstops
        obtain ⟨u, hu, hcalls⟩ := hstops hlt
        exact ⟨u, bind_of_error hu, hcalls⟩
    | ok a t =>
        have hsame := h.same s hs
        have hstops := h.stops s hs
        rw [stateAfter_bind_of_ok hm] at hlt ⊢
        rw [stateAfter_of_ok hm] at hsame hstops
        -- the call where it stops is one of the second step, or already of the first
        by_cases ht : t.calls.length ≤ n
        · obtain ⟨u, hu, hcalls⟩ := (hf a).stops t ht hlt
          exact ⟨u, (bind_of_ok ((hsame ht).trans hm)).trans hu, hcalls⟩
        · obtain ⟨u, hu, hcalls⟩ := hstops (Nat.lt_of_not_le ht)
          refine ⟨u, bind_of_error hu, hcalls.trans ?_⟩
          obtain ⟨made, hmade⟩ := (hf a).grows t
          rw [← hmade, List.take_append_of_le_length (Nat.lt_of_not_le ht)]

theorem ite {p : Prop} [Decidable p] {m₁ m₁' m₂ m₂' : Exec α} (h : CutsOff n m₁ m₁')
    (h' : CutsOff n m₂ m₂') : CutsOff n (if p then m₁ else m₂) (if p then m₁' else m₂') := by
  split
  · exact h
  · exact h'

/-- A step that makes no call. -/
theorem of_keeps {m : Exec α} (h : ∀ calls, Keeps (fun t => t.calls = calls) m) :
    CutsOff n m m := by
  have hcalls : ∀ s, (stateAfter m s).calls = s.calls := fun s => Ends.stateAfter (h s.calls s rfl)
  refine ⟨fun s => ⟨[], by rw [hcalls, List.append_nil]⟩, fun s _ _ => rfl, fun s hs hlt => ?_⟩
  rw [hcalls] at hlt
  exact absurd hs (Nat.not_le.2 hlt)

end CutsOff

theorem ignoresStack_calls {calls : List SigCall} : IgnoresStack fun t => t.calls = calls :=
  fun _ _ h => h

/-! ## Signature checks under a checker that falls silent -/

theorem cutsOff_ask (call : SigCall) : CutsOff n (ask r call) (ask (r.silentAfter n) call) := by
  have hafter : ∀ s, stateAfter (ask r call) s = { s with calls := s.calls ++ [call] } := fun s =>
    Ends.stateAfter (P := fun t => t = { s with calls := s.calls ++ [call] })
      ((ends_ask r call).2 ⟨fun _ _ => rfl, fun _ => rfl⟩)
  refine ⟨fun s => ?_, fun s hs hle => ?_, fun s hs hlt => ?_⟩
  · rw [hafter]
    exact List.prefix_append _ _
  · rw [hafter, List.length_append] at hle
    have hanswer : (r.silentAfter n).checker.checkSig s.calls call (r.silentAfter n).flags =
        r.checker.checkSig s.calls call r.flags := if_pos hle
    show ofOption _ _ = ofOption _ _
    rw [hanswer]
  · rw [hafter, List.length_append] at hlt
    have hlength : (s.calls ++ [call]).length = n + 1 := by
      rw [List.length_append, List.length_singleton]
      exact Nat.le_antisymm (Nat.succ_le_succ hs) hlt
    have hanswer : (r.silentAfter n).checker.checkSig s.calls call (r.silentAfter n).flags = none :=
      if_neg (Nat.not_lt.2 (Nat.le_of_lt_succ hlt))
    refine ⟨{ s with calls := s.calls ++ [call] }, ?_, ?_⟩
    · show ofOption _ _ = _
      rw [hanswer]
      rfl
    · rw [hafter, ← hlength, List.take_length]

theorem cutsOff_checkPair (sig key : Bytes) :
    CutsOff n (checkPair r code sig key) (checkPair (r.silentAfter n) code sig key) :=
  .bind (.of_keeps fun _ => keeps_ofExcept _) fun _ =>
    .bind (.of_keeps fun _ => keeps_ofExcept _) fun _ => cutsOff_ask _

theorem cutsOff_tryPair (sigPlace keyPlace : Nat) :
    CutsOff n (tryPair r code sigPlace keyPlace)
      (tryPair (r.silentAfter n) code sigPlace keyPlace) :=
  .bind (.of_keeps fun _ => keeps_peek _) fun sig =>
    .bind (.of_keeps fun _ => keeps_peek _) fun key => cutsOff_checkPair sig key

theorem cutsOff_matchSigs (keysLeft sigsLeft keyPlace sigPlace : Nat) :
    CutsOff n (matchSigs r code keysLeft sigsLeft keyPlace sigPlace)
      (matchSigs (r.silentAfter n) code keysLeft sigsLeft keyPlace sigPlace) := by
  induction keysLeft generalizing sigsLeft keyPlace sigPlace with
  | zero =>
      cases sigsLeft with
      | zero => exact .of_keeps fun _ => keeps_pure true
      | succ sigsLeft =>
          exact .bind (cutsOff_tryPair sigPlace keyPlace) fun _ => .of_keeps fun _ => keeps_fault
  | succ keysLeft ih =>
      cases sigsLeft with
      | zero => exact .of_keeps fun _ => keeps_pure true
      | succ sigsLeft =>
          exact .bind (cutsOff_tryPair sigPlace keyPlace) fun _ =>
            .ite (.of_keeps fun _ => keeps_pure false) (ih _ _ _)

theorem cutsOff_checkSig (verify : Bool) :
    CutsOff n (checkSig r script verify) (checkSig (r.silentAfter n) script verify) := by
  refine .bind (.of_keeps fun _ => keeps_need 2) fun _ => ?_
  refine .bind (.of_keeps fun _ => keeps_peek 1) fun sig => ?_
  refine .bind (.of_keeps fun _ => keeps_peek 0) fun key => ?_
  refine .bind (.of_keeps fun _ => keeps_scriptCode script) fun code => ?_
  refine .bind (.of_keeps fun _ => keeps_ofOption _) fun code => ?_
  exact .bind (cutsOff_checkPair sig key) fun result =>
    .of_keeps fun _ => keeps_closeSig ignoresStack_calls verify sig result

theorem cutsOff_cleanCodes (count place : Nat) (code : Script) :
    CutsOff n (cleanCodes r count place code) (cleanCodes (r.silentAfter n) count place code) := by
  induction count generalizing place code with
  | zero => exact .of_keeps fun _ => keeps_pure code
  | succ count ih =>
      exact .bind (.of_keeps fun _ => keeps_peek place) fun _ =>
        .bind (.of_keeps fun _ => keeps_ofOption _) fun _ => ih _ _

theorem cutsOff_unwind (result : Bool) (items others : Nat) :
    CutsOff n (unwind r result items others) (unwind (r.silentAfter n) result items others) := by
  induction items generalizing others with
  | zero => exact .of_keeps fun _ => keeps_pure ()
  | succ items ih =>
      exact .bind (.of_keeps fun _ => keeps_requireNull _) fun _ =>
        .bind (.of_keeps fun _ => keeps_pop ignoresStack_calls) fun _ => ih _

theorem cutsOff_closeMultiSig (verify : Bool) (keys sigs : Nat) (result : Bool) :
    CutsOff n (closeMultiSig r verify keys sigs result)
      (closeMultiSig (r.silentAfter n) verify keys sigs result) :=
  .bind (cutsOff_unwind _ _ _) fun _ =>
    .of_keeps fun _ => keeps_dropDummy ignoresStack_calls verify result

theorem keeps_charge {calls : List SigCall} (k : Nat) :
    Keeps (fun t => t.calls = calls) (charge r k) := fun _ hs =>
  (ends_charge r k).2 ⟨fun _ => hs, fun _ => hs⟩

theorem cutsOff_checkMultiSig (verify : Bool) :
    CutsOff n (checkMultiSig r script verify) (checkMultiSig (r.silentAfter n) script verify) := by
  refine .bind (.of_keeps fun _ => keeps_need 1) fun _ => ?_
  refine .bind (.of_keeps fun _ => keeps_count _ _ _) fun keys => ?_
  refine .bind (.of_keeps fun _ => keeps_charge keys) fun _ => ?_
  refine .bind (.of_keeps fun _ => keeps_need _) fun _ => ?_
  refine .bind (.of_keeps fun _ => keeps_count _ _ _) fun sigs => ?_
  refine .bind (.of_keeps fun _ => keeps_need _) fun _ => ?_
  refine .bind (.of_keeps fun _ => keeps_scriptCode script) fun code => ?_
  refine .bind (cutsOff_cleanCodes _ _ _) fun code => ?_
  exact .bind (cutsOff_matchSigs _ _ _ _) fun result =>
    cutsOff_closeMultiSig verify keys sigs result

/-- Only signature checks ask the checker. -/
theorem execute_silentAfter {taken : Bool} {next : Nat} {c : Command} (hc : ¬c.checksSigs) :
    execute (r.silentAfter n) script taken next c = execute r script taken next c := by
  cases c with
  | checkSig verify => exact absurd rfl hc
  | checkMultiSig verify => exact absurd rfl hc
  | _ => rfl

theorem cutsOff_execute (taken : Bool) (next : Nat) (c : Command) :
    CutsOff n (execute r script taken next c) (execute (r.silentAfter n) script taken next c) := by
  by_cases hc : c.checksSigs
  · cases c with
    | checkSig verify => exact cutsOff_checkSig verify
    | checkMultiSig verify => exact cutsOff_checkMultiSig verify
    | _ => exact nomatch hc
  · rw [execute_silentAfter hc]
    refine .of_keeps fun calls s hs => ?_
    exact (ends_execute_of_not_checksSigs hc).mono (fun _ t ht => ht.2.trans hs)
      fun _ t ht => ht.2.trans hs

/-! ## Runs under a checker that falls silent -/

theorem cutsOff_step (op : Instr) (next : Nat) :
    CutsOff n (step r script op next) (step (r.silentAfter n) script op next) := by
  rw [step_eq, step_eq]
  refine .bind (.of_keeps fun calls s hs => ?_) fun _ =>
    .bind (.of_keeps fun _ _ hs => ends_isTaken.2 hs) fun taken => ?_
  · refine (ends_prepare op).mono ?_ ?_
    · rintro _ _ ⟨rfl, -⟩
      exact hs
    · rintro _ _ ⟨_, rfl⟩
      exact hs
  · have hpush : ∀ calls, Keeps (fun t => t.calls = calls) (pushInstr r op) := fun calls =>
      (keeps_require _ _).bind fun _ _ hs => hs
    exact .ite (.of_keeps hpush) (.ite (cutsOff_execute taken next op.code.command)
      (.of_keeps fun _ => keeps_pure ()))

theorem cutsOff_runFrom (position : Nat) (ops : List Instr) :
    CutsOff n (runFrom r script position ops)
      (runFrom (r.silentAfter n) script position ops) := by
  induction ops generalizing position with
  | nil => exact .of_keeps fun _ => keeps_pure ()
  | cons op ops ih =>
      have hcheck : ∀ calls, Keeps (fun t => t.calls = calls) (checkDepth r) :=
        fun _ _ hs => ends_checkDepth.2 ⟨fun _ => hs, fun _ => hs⟩
      exact .bind (cutsOff_step op _) fun _ => .bind (.of_keeps hcheck) fun _ => ih _

theorem cutsOff_run : CutsOff n (run r script) (run (r.silentAfter n) script) := by
  refine .bind (.of_keeps fun _ => keeps_require _ _) fun _ => ?_
  refine .bind (cutsOff_runFrom 0 script.instrs) fun _ => ?_
  refine .of_keeps fun _ => (keeps_require _ _).bind fun _ s hs => ?_
  exact (ends_bind _ _).2 ((ends_require _ _).2 ⟨fun _ => hs, fun _ => hs⟩)

/-! ## Calls and operations -/

/-- The calls made since `start` are paid for, by operations within the limit. -/
def PaidSince (r : Rules) (start s : State) : Prop :=
  s.calls.length ≤ start.calls.length + min s.opCount r.limits.ops

theorem PaidSince.trans {start s t : State} (h : PaidSince r start s) (ht : Pays r 0 s t) :
    PaidSince r start t := by
  have hmin : min s.opCount r.limits.ops ≤ s.opCount := Nat.min_le_left _ _
  rw [PaidSince] at h ⊢
  rw [Pays] at ht
  omega

theorem Takes.paidSince {start : State} {taken : List Taken} {left : List Instr}
    (hcount : start.opCount = 0) (h : Takes r script start taken left s) :
    PaidSince r start s := by
  induction h with
  | start => exact Nat.le_add_right _ _
  | next h hstep hdepth ih =>
      rw [eq_of_checkDepth hdepth]
      exact ih.trans ((ends_step_count (h.opCount_eq hcount).2).of_ok hstep).2.2

theorem paidSince_run {start : State} (hcount : start.opCount = 0) :
    PaidSince r start (stateAfter (run r script) start) := by
  have hstep : ∀ taken op left s, Takes r script start taken (op :: left) s → PaidSince r start s →
      (step r script op (positionOf taken + op.length)).Ends s (fun _ t => PaidSince r start t)
        fun _ t => PaidSince r start t := fun taken op left s h hs =>
    (ends_step_count (h.opCount_eq hcount).2).mono (fun _ _ ht => hs.trans ht.2.2)
      fun _ _ ht => hs.trans ht
  have hrun := ends_run (E := PaidSince r start) (Nat.le_add_right _ _) hstep
  exact Ends.stateAfter (hrun.mono (fun _ _ ht => ht.1) fun _ _ ht => ht)

end

end Exec

namespace Script

/-- An evaluation makes no more calls than there may be operations, whatever comes out of it. Where
it is between two instructions and where it ends, no more calls have been made than operations
counted, and neither have at any of its calls, where it stops if the checker does not answer. -/
theorem calls_le_opCount (r : Rules) (script : Script) (session : Session) :
    ∃ made, (sessionAfter r script session).calls = session.calls ++ made ∧
      made.length ≤ r.limits.ops ∧
      (∀ taken left s, Exec.Takes r script { stack := session.stack, calls := session.calls } taken
          left s → s.calls.length ≤ session.calls.length + s.opCount) ∧
      made.length ≤ (Exec.stateAfter (Exec.run r script)
        { stack := session.stack, calls := session.calls }).opCount ∧
      ∀ k < made.length, ∃ s,
        Exec.run (r.silentAfter (session.calls.length + k)) script
            { stack := session.stack, calls := session.calls } = .error .fault s ∧
          s.calls = session.calls ++ made.take (k + 1) ∧ k + 1 ≤ s.opCount := by
  let start : State := { stack := session.stack, calls := session.calls }
  have hcut : ∀ n, Exec.CutsOff n (Exec.run r script) (Exec.run (r.silentAfter n) script) :=
    fun _ => Exec.cutsOff_run
  have hpaid : ∀ r : Rules,
      Exec.PaidSince r start (Exec.stateAfter (Exec.run r script) start) :=
    fun _ => Exec.paidSince_run rfl
  obtain ⟨made, hmade⟩ := (hcut 0).grows start
  have hlength : made.length ≤
      min (Exec.stateAfter (Exec.run r script) start).opCount r.limits.ops := by
    have hle := hpaid r
    rw [Exec.PaidSince, ← hmade, List.length_append] at hle
    exact Nat.le_of_add_le_add_left hle
  refine ⟨made, (calls_sessionAfter r script session).trans hmade.symm,
    Nat.le_trans hlength (Nat.min_le_right _ _), fun taken left s h => ?_,
    Nat.le_trans hlength (Nat.min_le_left _ _), fun k hk => ?_⟩
  · exact Nat.le_trans (h.paidSince rfl) (Nat.add_le_add_left (Nat.min_le_left _ _) _)
  · have hmore : session.calls.length + k <
        (Exec.stateAfter (Exec.run r script) start).calls.length := by
      rw [← hmade, List.length_append]
      exact Nat.add_lt_add_left hk _
    obtain ⟨s, hs, hcalls⟩ := (hcut _).stops start (Nat.le_add_right _ _) hmore
    rw [← hmade, Nat.add_assoc, List.take_length_add_append] at hcalls
    have hle := hpaid (r.silentAfter (session.calls.length + k))
    rw [Exec.stateAfter_of_error hs, Exec.PaidSince, hcalls, List.length_append,
      List.length_take_of_le hk] at hle
    refine ⟨s, hs, hcalls, ?_⟩
    exact Nat.le_trans (Nat.le_of_add_le_add_left hle) (Nat.min_le_left _ _)

/-- A check of one empty signature under two keys. -/
def twoKeys : Script := [0x00, 0x00, 0x51, 0x51, 0x51, 0x52, 0xae]

/-- The second call is made with three operations counted. -/
theorem calls_le_opCount_twoKeys :
    (sessionAfter plainRules twoKeys {}).calls.length = 2 ∧ 2 ≤ plainRules.limits.ops ∧
      ∃ s, Exec.run (plainRules.silentAfter 1) twoKeys { stack := [] } = .error .fault s ∧
        s.calls = (sessionAfter plainRules twoKeys {}).calls ∧ 2 ≤ s.opCount := by
  have hcalls : (sessionAfter plainRules twoKeys {}).calls.length = 2 := by decide +kernel
  obtain ⟨made, hmade, hops, -, -, hfrozen⟩ := calls_le_opCount plainRules twoKeys {}
  rw [List.nil_append] at hmade
  have hlength : made.length = 2 := by rw [← hmade, hcalls]
  rw [hlength] at hops
  obtain ⟨s, hs, hat, hcount⟩ := hfrozen 1 (by rw [hlength]; decide)
  rw [List.nil_append, List.take_of_length_le (Nat.le_of_eq hlength), ← hmade] at hat
  exact ⟨hcalls, hops, s, hs, hat, hcount⟩

end Script

end BitcoinScript
