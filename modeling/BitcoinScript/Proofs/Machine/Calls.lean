import BitcoinScript.Proofs.Machine.Branches
import BitcoinScript.Proofs.Machine.Operands

/-!
# What the checker is asked

Commands other than those that check signatures do not ask the checker, and only the code separator
moves the start of the script code. A check of signatures cleans the script code of all of its
signature operands before it asks, and every call that it makes holds this code and a pair of a
signature and a key whose forms it has checked.

`Exec.Asked P s t` says that a state `t` that is reached from `s` holds further calls only that `P`
holds of. It is kept whether a step stops or not, so it holds of whatever the checker has been asked
when a script fails.
-/

namespace BitcoinScript

namespace Exec

/-- From one state to the other the checker is asked for nothing but what `P` holds of. -/
def Adds (P : SigCall → Prop) (s t : State) : Prop :=
  ∃ made, t.calls = s.calls ++ made ∧ ∀ call ∈ made, P call

/-- Besides, the script code starts where it did. -/
structure Asked (P : SigCall → Prop) (s t : State) : Prop where
  codeStart : t.codeStart = s.codeStart
  calls : Adds P s t

section

variable {α β : Type} {P : SigCall → Prop} {s t u : State} {r : Rules}

namespace Adds

theorem refl (s : State) : Adds P s s :=
  ⟨[], by rw [List.append_nil], fun _ hcall => nomatch hcall⟩

theorem trans (h : Adds P s t) (h' : Adds P t u) : Adds P s u := by
  obtain ⟨made, hmade, hP⟩ := h
  obtain ⟨made', hmade', hP'⟩ := h'
  refine ⟨made ++ made', ?_, ?_⟩
  · rw [hmade', hmade, List.append_assoc]
  · intro call hcall
    rcases List.mem_append.1 hcall with hcall | hcall
    · exact hP call hcall
    · exact hP' call hcall

theorem mono {P' : SigCall → Prop} (h : Adds P s t) (hP : ∀ call, P call → P' call) :
    Adds P' s t := by
  obtain ⟨made, hmade, hmem⟩ := h
  exact ⟨made, hmade, fun call hcall => hP call (hmem call hcall)⟩

end Adds

namespace Asked

theorem refl (s : State) : Asked P s s := ⟨rfl, .refl s⟩

theorem of_control_eq (h : t.control = s.control) : Asked P s t := by
  simp only [State.control, Prod.mk.injEq] at h
  exact ⟨h.2.1, [], by rw [h.2.2.2, List.append_nil], fun _ hcall => nomatch hcall⟩

theorem ask (h : Asked P s t) {call : SigCall} (hcall : P call) :
    Asked P s { t with calls := t.calls ++ [call] } :=
  ⟨h.codeStart, h.calls.trans ⟨[call], rfl, fun _ hmem => List.mem_singleton.1 hmem ▸ hcall⟩⟩

end Asked

/-- Whether it stops or not, the step asks for nothing but what `P` holds of, and neither did what
led to it from `s`. -/
def Asks (P : SigCall → Prop) (s : State) (m : Exec α) (t : State) : Prop :=
  m.Ends t (fun _ u => Asked P s u) fun _ u => Asked P s u

theorem Asks.bind {m : Exec α} {f : α → Exec β} (h : Asks P s m t)
    (hf : ∀ a u, Asked P s u → Asks P s (f a) u) : Asks P s (m >>= f) t :=
  (ends_bind m f).2 (Ends.mono h hf fun _ _ hu => hu)

theorem Asks.ite {p : Prop} [Decidable p] {m m' : Exec α} (h : p → Asks P s m t)
    (h' : ¬p → Asks P s m' t) : Asks P s (if p then m else m') t := by
  split
  · exact h ‹p›
  · exact h' ‹¬p›

theorem ignoresStack_asked : IgnoresStack (Asked P s) :=
  fun _ _ h => ⟨h.codeStart, h.calls⟩

end

/-! ## Signature operands -/

/-- The signatures that a command checks, given the stack on which it finds them. -/
inductive SigOperands (r : Rules) : Command → Stack Bytes → List Bytes → Prop
  | checkSig (verify : Bool) (sig key : Bytes) (rest : Stack Bytes) :
      SigOperands r (.checkSig verify) (key :: sig :: rest) [sig]
  | checkMultiSig (verify : Bool) (n m : Bytes) (keys sigs rest : List Bytes)
      (hkeys : Number.decode (r.flags.contains .minimalData) r.limits.numberLength n =
        .ok keys.length)
      (hsigs : Number.decode (r.flags.contains .minimalData) r.limits.numberLength m =
        .ok sigs.length) :
      SigOperands r (.checkMultiSig verify) (n :: (keys ++ m :: (sigs ++ rest))) sigs

theorem SigOperands.subset {r : Rules} {c : Command} {stack : Stack Bytes} {sigs : List Bytes}
    (h : SigOperands r c stack sigs) : sigs ⊆ stack := by
  cases h with
  | checkSig verify sig key rest =>
      intro item hitem
      exact List.mem_cons_of_mem _ (List.mem_cons.2 (Or.inl (List.mem_singleton.1 hitem)))
  | checkMultiSig verify n m keys sigs rest =>
      intro item hitem
      have hsigs : item ∈ sigs ++ rest := List.mem_append_left _ hitem
      exact List.mem_cons_of_mem _ (List.mem_append_right _ (List.mem_cons_of_mem _ hsigs))

/-- The call commits to the script code without the pushes of the signatures that the command finds
on the stack, and its signature and key have the forms that the flags ask for. -/
structure CallOf (r : Rules) (c : Command) (stack : Stack Bytes) (code : Script)
    (call : SigCall) : Prop where
  code : ∃ sigs, SigOperands r c stack sigs ∧
    call.code = sigs.foldl (Signature.cleanCode r.flags) code
  sigForm : Signature.checkForm call.sig r.crypto r.flags = .ok ()
  keyForm : Signature.checkKeyForm call.pubkey r.flags = .ok ()

section

variable {r : Rules} {script : Script} {s : State}

theorem asks_checkSig (verify : Bool) :
    Asks (CallOf r (.checkSig verify) s.stack (script.drop s.codeStart)) s
      (checkSig r script verify) s := by
  have h := @Asked.refl (CallOf r (.checkSig verify) s.stack (script.drop s.codeStart)) s
  refine (ends_bind _ _).2 ((ends_need 2).2 ⟨fun _ => ?_, fun _ => h⟩)
  refine (ends_bind _ _).2 ((ends_peek 1).2 ⟨fun sig hsig => ?_, fun _ => h⟩)
  refine (ends_bind _ _).2 ((ends_peek 0).2 ⟨fun key hkey => ?_, fun _ => h⟩)
  refine (ends_bind _ _).2 ((ends_scriptCode script).2 ⟨fun _ => ?_, fun _ => h⟩)
  refine (ends_bind _ _).2 ((ends_ofOption _).2 ⟨fun code hcode => ?_, fun _ => h⟩)
  have hoperands : SigOperands r (.checkSig verify) s.stack [sig] := by
    obtain ⟨rest, hstack⟩ := exists_stack_of_getElem? hkey hsig
    exact hstack ▸ .checkSig verify sig key rest
  rw [Signature.cleanCode?_eq, Option.some.injEq] at hcode
  refine (keeps_checkPair fun hform hkeyForm _ hu => ?_).bind
    (keeps_closeSig ignoresStack_asked verify sig) s h
  exact hu.ask ⟨⟨[sig], hoperands, hcode.symm⟩, hform, hkeyForm⟩

theorem FindsOperands.sigOperands {n m dummy : Bytes} {keys sigs : List Bytes}
    {rest : Stack Bytes} (h : FindsOperands r script s n keys m sigs dummy rest) (verify : Bool) :
    SigOperands r (.checkMultiSig verify) s.stack sigs :=
  h.stack ▸ .checkMultiSig verify n m keys sigs (dummy :: rest) h.keyCount h.sigCount

/-- The script code is cleaned of all signatures before the first of them is tried. -/
theorem asks_checkMultiSig (verify : Bool) :
    Asks (CallOf r (.checkMultiSig verify) s.stack (script.drop s.codeStart)) s
      (checkMultiSig r script verify) s := by
  have hcharged : ∀ n, Asked (CallOf r (.checkMultiSig verify) s.stack
      (script.drop s.codeStart)) s { s with opCount := s.opCount + n } :=
    fun _ => ⟨rfl, .refl s⟩
  refine ends_checkMultiSig (fun _ n _ => hcharged n) fun _ keys _ sigs _ _ hfinds => ?_
  refine (keeps_matchSigs fun sig key hform hkeyForm _ hu => ?_).bind
    (keeps_closeMultiSig ignoresStack_asked verify _ _) _ (hcharged keys.length)
  exact hu.ask ⟨⟨sigs, hfinds.sigOperands verify, rfl⟩, hform, hkeyForm⟩

/-- Every command but the code separator leaves the start of the script code where it is, and asks
the checker about its own operands only. -/
theorem asks_execute {taken : Bool} {next : Nat} {c : Command} (hc : c ≠ .codeSeparator) :
    Asks (CallOf r c s.stack (script.drop s.codeStart)) s (execute r script taken next c) s := by
  have hplain : c.IsPlain → Asks (CallOf r c s.stack (script.drop s.codeStart)) s
      (execute r script taken next c) s := fun h =>
    Ends.mono (onlyStacks_execute h) (fun _ _ ht => .of_control_eq ht)
      fun _ _ ht => .of_control_eq ht.2
  cases c with
  | openBranch negated =>
      rw [execute_openBranch]
      refine Asks.bind (Ends.mono onlyStacks_condition (fun _ _ ht => .of_control_eq ht)
        fun _ _ ht => .of_control_eq ht.2) fun condition u hu => ?_
      exact ⟨hu.codeStart, hu.calls⟩
  | switchBranch =>
      exact ends_switchBranch.2 ⟨fun _ _ _ => ⟨rfl, .refl s⟩, fun _ => .refl s⟩
  | closeBranch =>
      exact ends_closeBranch.2 ⟨fun _ _ _ => ⟨rfl, .refl s⟩, fun _ => .refl s⟩
  | codeSeparator => exact absurd rfl hc
  | checkSig verify => exact asks_checkSig verify
  | checkMultiSig verify => exact asks_checkMultiSig verify
  | _ => exact hplain trivial

/-! ## Instructions -/

theorem asks_act {op : Instr} {next : Nat} {taken : Bool}
    (hop : ¬(taken = true ∧ op.code = .codeSeparator)) :
    Asks (CallOf r op.code.command s.stack (script.drop s.codeStart)) s
      (act r script op next taken) s := by
  refine .ite (fun _ => ?_) fun _ => .ite (fun hact => ?_) fun _ => .refl s
  · have hpush : Asks (CallOf r op.code.command s.stack (script.drop s.codeStart)) s
        (require (r.flags.contains .minimalData → op.isMinimalPush) .minimalData) s :=
      keeps_require _ _ s (.refl s)
    exact hpush.bind fun _ u hu => ⟨hu.codeStart, hu.calls⟩
  · refine asks_execute fun hcommand => ?_
    have hcode := Opcode.command_eq_codeSeparator_iff.1 hcommand
    rw [hcode] at hact
    have htaken : taken = true := by
      cases taken with
      | false => exact nomatch hact
      | true => rfl
    exact hop ⟨htaken, hcode⟩

/-- An instruction moves the start of the script code behind itself if it is a code separator that
is taken. -/
theorem ends_step (op : Instr) (next : Nat) : (step r script op next).Ends s
    (fun _ t => t.codeStart =
        (if s.branches.all id ∧ op.code = .codeSeparator then next else s.codeStart) ∧
      Adds (CallOf r op.code.command s.stack (script.drop s.codeStart)) s t)
    fun _ t => Adds (CallOf r op.code.command s.stack (script.drop s.codeStart)) s t := by
  rw [step_eq]
  refine (ends_bind _ _).2 ((ends_prepare op).mono ?_ ?_)
  · rintro _ _ ⟨rfl, -⟩
    refine (ends_bind _ _).2 (ends_isTaken.2 ?_)
    by_cases hop : s.branches.all id = true ∧ op.code = .codeSeparator
    · have hact : act r script op next true = setCodeStart next := by
        rw [act, hop.2]
        rfl
      have htaken : { s with opCount := s.opCount + op.cost }.branches.all id = true := hop.1
      rw [if_pos hop, htaken, hact]
      exact ⟨rfl, .refl s⟩
    · rw [if_neg hop]
      exact Ends.mono (asks_act hop) (fun _ t ht => ⟨ht.codeStart, ht.calls⟩)
        fun _ t ht => ht.calls
  · rintro _ _ ⟨_, rfl⟩
    exact .refl s

end

end Exec

end BitcoinScript
