import BitcoinScript.Proofs.Machine.Outcome
import BitcoinScript.Proofs.Script.Nesting

/-!
# Steps under other open branches

Only the opcodes of conditionals look at the open branches, and the count of operations matters
only when it exceeds its limit. `Exec.IgnoresBranches m` says so of a step: under other open
branches and behind more counted operations it either stops with the error of the count or ends as
before.

A step with this property leaves the open branches as they are, because the branches may be replaced
by themselves.
-/

namespace BitcoinScript

/-- The state under other open branches, behind `extra` more counted operations. -/
def State.under (s : State) (branches : List Bool) (extra : Nat) : State :=
  { s with branches, opCount := s.opCount + extra }

theorem State.under_self (s : State) : s.under s.branches 0 = s := rfl

theorem State.under_under (s : State) (branches branches' : List Bool) (extra extra' : Nat) :
    (s.under branches extra).under branches' extra' = s.under branches' (extra + extra') := by
  simp only [under, Nat.add_assoc]

namespace Exec

section

variable {α β : Type} {branches : List Bool} {extra : Nat}

def resultUnder (branches : List Bool) (extra : Nat) :
    EStateM.Result Stop State α → EStateM.Result Stop State α
  | .ok a t => .ok a (t.under branches extra)
  | .error stop t => .error stop (t.under branches extra)

theorem resultUnder_self {a : α} {t : State} {x : EStateM.Result Stop State α} {s : State}
    (h : resultUnder s.branches 0 x = x) (hx : x = .ok a t) : t.branches = s.branches := by
  subst hx
  rw [resultUnder, EStateM.Result.ok.injEq] at h
  rw [← h.2]
  rfl

def ExceedsCount (x : EStateM.Result Stop State α) : Prop := ∃ t, x = .error (.error .opCount) t

/-- The step does not depend on the open branches, and on the operations counted only through their
limit. -/
def IgnoresBranches (m : Exec α) : Prop :=
  ∀ s branches extra, ExceedsCount (m (s.under branches extra)) ∨
    m (s.under branches extra) = resultUnder branches extra (m s)

namespace IgnoresBranches

theorem branches_eq {m : Exec α} (h : IgnoresBranches m) {s t : State} {a : α}
    (hm : m s = .ok a t) : t.branches = s.branches := by
  rcases h s s.branches 0 with ⟨t', hcount⟩ | heq
  · rw [State.under_self, hm] at hcount
    exact nomatch hcount
  · rw [State.under_self] at heq
    exact resultUnder_self heq.symm hm

theorem of_eq {m : Exec α}
    (h : ∀ s branches extra, m (s.under branches extra) = resultUnder branches extra (m s)) :
    IgnoresBranches m := fun s branches extra => Or.inr (h s branches extra)

theorem bind {m : Exec α} {f : α → Exec β} (h : IgnoresBranches m)
    (hf : ∀ a, IgnoresBranches (f a)) : IgnoresBranches (m >>= f) := by
  intro s branches extra
  rcases h s branches extra with ⟨t, hcount⟩ | heq
  · exact Or.inl ⟨t, bind_of_error hcount⟩
  · cases hm : m s with
    | error stop t =>
        rw [hm] at heq
        rw [bind_of_error hm, bind_of_error heq]
        exact Or.inr rfl
    | ok a t =>
        rw [hm] at heq
        rw [bind_of_ok hm, bind_of_ok heq]
        exact hf a t branches extra

/-- Reading the state is harmless if what follows does not use its open branches and its count. -/
theorem bind_get {f : State → Exec α}
    (heq : ∀ s branches extra, f (s.under branches extra) = f s)
    (hf : ∀ s, IgnoresBranches (f s)) : IgnoresBranches (get >>= f) := by
  intro s branches extra
  have hget : ∀ t, (get >>= f) t = f t t := fun _ => rfl
  rw [hget, hget, heq]
  exact hf s s branches extra

theorem ite {p : Prop} [Decidable p] {m m' : Exec α} (h : IgnoresBranches m)
    (h' : IgnoresBranches m') : IgnoresBranches (if p then m else m') := by
  split
  · exact h
  · exact h'

end IgnoresBranches

theorem ignoresBranches_pure (a : α) : IgnoresBranches (pure a) := .of_eq fun _ _ _ => rfl

theorem ignoresBranches_fail (e : ScriptError) : IgnoresBranches (fail e : Exec α) :=
  .of_eq fun _ _ _ => rfl

theorem ignoresBranches_fault : IgnoresBranches (fault : Exec α) := .of_eq fun _ _ _ => rfl

theorem ignoresBranches_ofExcept (x : Except Stop α) : IgnoresBranches (ofExcept x) := by
  cases x with
  | ok a => exact ignoresBranches_pure a
  | error stop => exact .of_eq fun _ _ _ => rfl

theorem ignoresBranches_ofOption (x : Option α) : IgnoresBranches (ofOption x) := by
  cases x with
  | some a => exact ignoresBranches_pure a
  | none => exact ignoresBranches_fault

theorem ignoresBranches_require (p : Prop) [Decidable p] (e : ScriptError) :
    IgnoresBranches (require p e) :=
  .ite (ignoresBranches_pure ()) (ignoresBranches_fail e)

theorem ignoresBranches_need (n : Nat) : IgnoresBranches (need n) :=
  .bind_get (fun _ _ _ => rfl) fun _ => ignoresBranches_require _ _

theorem ignoresBranches_peek (n : Nat) : IgnoresBranches (peek n) :=
  .bind_get (fun _ _ _ => rfl) fun _ => ignoresBranches_ofOption _

theorem ignoresBranches_push (item : Bytes) : IgnoresBranches (push item) :=
  .of_eq fun _ _ _ => rfl

theorem ignoresBranches_pop : IgnoresBranches pop := by
  refine .of_eq ?_
  rintro ⟨stack, alt, opened, codeStart, opCount, calls⟩ branches extra
  cases stack with
  | nil => rfl
  | cons item rest => rfl

theorem ignoresBranches_rearrange (f : Stack Bytes → Option (Stack Bytes)) :
    IgnoresBranches (rearrange f) := by
  refine .of_eq fun s branches extra => ?_
  show (ofOption (f s.stack) >>= fun stack => set { s.under branches extra with stack }) _ =
    resultUnder branches extra ((ofOption (f s.stack) >>= fun stack => set { s with stack }) s)
  cases f s.stack with
  | none => rfl
  | some stack => rfl

theorem ignoresBranches_discard (n : Nat) : IgnoresBranches (discard n) :=
  ignoresBranches_rearrange _

theorem ignoresBranches_number (r : Rules) (n : Nat) : IgnoresBranches (number r n) :=
  (ignoresBranches_peek n).bind fun _ => ignoresBranches_ofExcept _

/-- The only step that looks at the operations counted. -/
theorem ignoresBranches_charge (r : Rules) (n : Nat) : IgnoresBranches (charge r n) := by
  intro s branches extra
  by_cases hunder : s.opCount + extra + n ≤ r.limits.ops
  · have hle : s.opCount + n ≤ r.limits.ops := by omega
    have hswap : s.opCount + extra + n = s.opCount + n + extra := Nat.add_right_comm _ _ _
    right
    rw [charge_of_le hle, charge_of_le hunder]
    simp only [resultUnder, State.under, hswap]
  · exact Or.inl ⟨_, require_of_not _ hunder⟩

theorem ignoresBranches_pushAlt (item : Bytes) : IgnoresBranches (pushAlt item) :=
  .of_eq fun _ _ _ => rfl

theorem ignoresBranches_popAlt : IgnoresBranches popAlt := by
  refine .of_eq ?_
  rintro ⟨stack, alt, opened, codeStart, opCount, calls⟩ branches extra
  cases alt with
  | nil => rfl
  | cons item rest => rfl

theorem ignoresBranches_setCodeStart (position : Nat) : IgnoresBranches (setCodeStart position) :=
  .of_eq fun _ _ _ => rfl

theorem ignoresBranches_scriptCode (script : Script) : IgnoresBranches (scriptCode script) :=
  .bind_get (fun _ _ _ => rfl) fun _ => .ite (ignoresBranches_pure _) ignoresBranches_fault

theorem ignoresBranches_ask (r : Rules) (call : SigCall) : IgnoresBranches (ask r call) := by
  refine .of_eq fun s branches extra => ?_
  show ofOption (r.checker.checkSig s.calls call r.flags) _ =
    resultUnder branches extra (ofOption (r.checker.checkSig s.calls call r.flags) _)
  cases r.checker.checkSig s.calls call r.flags with
  | none => rfl
  | some a => rfl

end

/-! ## Commands -/

section

variable {r : Rules}

theorem ignoresBranches_reservedNop : IgnoresBranches (reservedNop r) :=
  ignoresBranches_require _ _

/-- Taking an argument is taking the top item, with another error if there is none. -/
theorem popCondition_eq (negated : Bool) : popCondition r negated = (do
    let s ← get
    require (s.stack ≠ []) .unbalancedConditional
    let item ← pop
    require (r.flags.contains .minimalIf → item = [] ∨ item = [1]) .minimalIf
    return Operand.isTrue item != negated) := by
  funext s
  obtain ⟨stack, alt, opened, codeStart, opCount, calls⟩ := s
  cases stack with
  | nil => rfl
  | cons item rest => rfl

theorem ignoresBranches_popCondition (negated : Bool) :
    IgnoresBranches (popCondition r negated) := by
  rw [popCondition_eq]
  refine .bind_get (fun _ _ _ => rfl) fun s => ?_
  refine (ignoresBranches_require _ _).bind fun _ => ignoresBranches_pop.bind fun item => ?_
  exact (ignoresBranches_require _ _).bind fun _ => ignoresBranches_pure _

theorem ignoresBranches_verifyTop (e : ScriptError) : IgnoresBranches (verifyTop e) := by
  refine (ignoresBranches_peek 0).bind fun top => (ignoresBranches_require _ _).bind fun _ => ?_
  exact ignoresBranches_pop.bind fun _ => ignoresBranches_pure ()

theorem ignoresBranches_select (f : Nat → Stack Bytes → Option (Stack Bytes)) :
    IgnoresBranches (select r f) := by
  refine (ignoresBranches_need 2).bind fun _ => (ignoresBranches_number r 0).bind fun n => ?_
  refine ignoresBranches_pop.bind fun _ => .bind_get (fun _ _ _ => rfl) fun s => ?_
  exact (ignoresBranches_require _ _).bind fun _ => ignoresBranches_rearrange _

theorem ignoresBranches_concat : IgnoresBranches (concat r) := by
  refine (ignoresBranches_need 2).bind fun _ => (ignoresBranches_peek 1).bind fun first => ?_
  refine (ignoresBranches_peek 0).bind fun second => (ignoresBranches_require _ _).bind fun _ => ?_
  exact ignoresBranches_pop.bind fun b => ignoresBranches_pop.bind fun a => ignoresBranches_push _

theorem ignoresBranches_split : IgnoresBranches (split r) := by
  refine (ignoresBranches_need 2).bind fun _ => (ignoresBranches_number r 0).bind fun n => ?_
  refine ignoresBranches_pop.bind fun _ => ignoresBranches_pop.bind fun item => ?_
  refine (ignoresBranches_require _ _).bind fun _ => ?_
  refine (ignoresBranches_ofExcept _).bind fun parts => ?_
  exact (ignoresBranches_push _).bind fun _ => ignoresBranches_push _

theorem ignoresBranches_resize : IgnoresBranches (resize r) := by
  refine (ignoresBranches_need 2).bind fun _ => (ignoresBranches_number r 0).bind fun n => ?_
  refine (ignoresBranches_require _ _).bind fun _ => ignoresBranches_pop.bind fun _ => ?_
  refine ignoresBranches_pop.bind fun item => (ignoresBranches_ofExcept _).bind fun resized => ?_
  exact ignoresBranches_push _

theorem ignoresBranches_minimize : IgnoresBranches (minimize r) := by
  refine ignoresBranches_pop.bind fun item => (ignoresBranches_ofOption _).bind fun trimmed => ?_
  exact (ignoresBranches_require _ _).bind fun _ => ignoresBranches_push _

theorem ignoresBranches_bitwise (op : Operand.Bitwise) : IgnoresBranches (bitwise op) := by
  refine (ignoresBranches_need 2).bind fun _ => ignoresBranches_pop.bind fun b => ?_
  refine ignoresBranches_pop.bind fun a => (ignoresBranches_ofExcept _).bind fun combined => ?_
  exact ignoresBranches_push _

theorem ignoresBranches_shift (left : Bool) : IgnoresBranches (shift r left) := by
  refine (ignoresBranches_need 2).bind fun _ => (ignoresBranches_number r 0).bind fun n => ?_
  refine (ignoresBranches_require _ _).bind fun _ => ignoresBranches_pop.bind fun _ => ?_
  refine ignoresBranches_pop.bind fun item => (ignoresBranches_ofOption _).bind fun shifted => ?_
  exact ignoresBranches_push _

theorem ignoresBranches_conclude (verify result : Bool) (e : ScriptError) :
    IgnoresBranches (conclude verify result e) :=
  .ite (ignoresBranches_require _ _) (ignoresBranches_push _)

theorem ignoresBranches_equal (verify : Bool) : IgnoresBranches (equal verify) := by
  refine (ignoresBranches_need 2).bind fun _ => ignoresBranches_pop.bind fun b => ?_
  exact ignoresBranches_pop.bind fun a => ignoresBranches_conclude _ _ _

theorem ignoresBranches_unary (op : UnaryOp) : IgnoresBranches (unary r op) := by
  refine (ignoresBranches_need 1).bind fun _ => (ignoresBranches_number r 0).bind fun n => ?_
  exact ignoresBranches_pop.bind fun _ => ignoresBranches_push _

theorem ignoresBranches_binary (op : BinaryOp) : IgnoresBranches (binary r op) := by
  refine (ignoresBranches_need 2).bind fun _ => (ignoresBranches_number r 1).bind fun a => ?_
  refine (ignoresBranches_number r 0).bind fun b => (ignoresBranches_discard 2).bind fun _ => ?_
  exact (ignoresBranches_ofExcept _).bind fun result => ignoresBranches_push _

theorem ignoresBranches_within : IgnoresBranches (within r) := by
  refine (ignoresBranches_need 3).bind fun _ => (ignoresBranches_number r 2).bind fun x => ?_
  refine (ignoresBranches_number r 1).bind fun low => ?_
  refine (ignoresBranches_number r 0).bind fun high => ?_
  exact (ignoresBranches_discard 3).bind fun _ => ignoresBranches_push _

theorem execute_openBranch (script : Script) (taken : Bool) (next : Nat) (negated : Bool) :
    execute r script taken next (.openBranch negated) =
      (if taken then popCondition r negated else pure false) >>= openBranch := by
  cases taken with
  | false => rfl
  | true => rfl

/-! ### Signature checks -/

variable {script code : Script}

theorem ignoresBranches_checkPair (sig key : Bytes) :
    IgnoresBranches (checkPair r code sig key) := by
  refine (ignoresBranches_ofExcept _).bind fun _ => (ignoresBranches_ofExcept _).bind fun _ => ?_
  exact ignoresBranches_ask r _

theorem ignoresBranches_closeSig (verify : Bool) (sig : Bytes) (result : Bool) :
    IgnoresBranches (closeSig r verify sig result) :=
  (ignoresBranches_require _ _).bind fun _ => (ignoresBranches_discard 2).bind fun _ =>
    ignoresBranches_conclude _ _ _

theorem ignoresBranches_checkSig (verify : Bool) : IgnoresBranches (checkSig r script verify) := by
  refine (ignoresBranches_need 2).bind fun _ => (ignoresBranches_peek 1).bind fun sig => ?_
  refine (ignoresBranches_peek 0).bind fun key => ?_
  refine (ignoresBranches_scriptCode script).bind fun code => ?_
  refine (ignoresBranches_ofOption _).bind fun code => ?_
  exact (ignoresBranches_checkPair sig key).bind fun result =>
    ignoresBranches_closeSig verify sig result

theorem ignoresBranches_count (place bound : Nat) (e : ScriptError) :
    IgnoresBranches (count r place bound e) := by
  refine (ignoresBranches_number r place).bind fun n => ?_
  exact (ignoresBranches_require _ _).bind fun _ => ignoresBranches_pure _

theorem ignoresBranches_cleanCodes (count place : Nat) :
    IgnoresBranches (cleanCodes r count place code) := by
  induction count generalizing place code with
  | zero => exact ignoresBranches_pure code
  | succ count ih =>
      refine (ignoresBranches_peek place).bind fun sig => ?_
      exact (ignoresBranches_ofOption _).bind fun cleaned => ih (place + 1)

theorem ignoresBranches_tryPair (sigPlace keyPlace : Nat) :
    IgnoresBranches (tryPair r code sigPlace keyPlace) := by
  refine (ignoresBranches_peek sigPlace).bind fun sig => ?_
  exact (ignoresBranches_peek keyPlace).bind fun key => ignoresBranches_checkPair sig key

theorem ignoresBranches_matchSigs (keysLeft sigsLeft keyPlace sigPlace : Nat) :
    IgnoresBranches (matchSigs r code keysLeft sigsLeft keyPlace sigPlace) := by
  induction keysLeft generalizing sigsLeft keyPlace sigPlace with
  | zero =>
      cases sigsLeft with
      | zero => exact ignoresBranches_pure true
      | succ sigsLeft =>
          exact (ignoresBranches_tryPair _ _).bind fun _ => ignoresBranches_fault
  | succ keysLeft ih =>
      cases sigsLeft with
      | zero => exact ignoresBranches_pure true
      | succ sigsLeft =>
          refine (ignoresBranches_tryPair _ _).bind fun accepted => ?_
          exact .ite (ignoresBranches_pure false) (ih _ _ _)

theorem ignoresBranches_requireNull (asked : Bool) : IgnoresBranches (requireNull asked) :=
  .ite ((ignoresBranches_peek 0).bind fun _ => ignoresBranches_require _ _)
    (ignoresBranches_pure ())

theorem ignoresBranches_unwind (result : Bool) (items others : Nat) :
    IgnoresBranches (unwind r result items others) := by
  induction items generalizing others with
  | zero => exact ignoresBranches_pure ()
  | succ items ih =>
      refine (ignoresBranches_requireNull _).bind fun _ => ignoresBranches_pop.bind fun _ => ?_
      exact ih (others - 1)

theorem ignoresBranches_closeMultiSig (verify : Bool) (n m : Nat) (result : Bool) :
    IgnoresBranches (closeMultiSig r verify n m result) := by
  refine (ignoresBranches_unwind _ _ _).bind fun _ => (ignoresBranches_need 1).bind fun _ => ?_
  refine (ignoresBranches_peek 0).bind fun dummy => (ignoresBranches_require _ _).bind fun _ => ?_
  exact ignoresBranches_pop.bind fun _ => ignoresBranches_conclude _ _ _

theorem ignoresBranches_checkMultiSig (verify : Bool) :
    IgnoresBranches (checkMultiSig r script verify) := by
  refine (ignoresBranches_need 1).bind fun _ => (ignoresBranches_count _ _ _).bind fun n => ?_
  refine (ignoresBranches_charge r n).bind fun _ => (ignoresBranches_need _).bind fun _ => ?_
  refine (ignoresBranches_count _ _ _).bind fun m => (ignoresBranches_need _).bind fun _ => ?_
  refine (ignoresBranches_scriptCode script).bind fun code => ?_
  refine (ignoresBranches_cleanCodes m _).bind fun code => ?_
  exact (ignoresBranches_matchSigs _ _ _ _).bind fun result =>
    ignoresBranches_closeMultiSig verify n m result

end

end Exec

/-- Only the commands of conditionals look at the open branches. -/
theorem Exec.ignoresBranches_execute {r : Rules} {script : Script} {taken : Bool} {next : Nat}
    {c : Command} (hc : ¬c.IsBranching) : IgnoresBranches (execute r script taken next c) := by
  cases c with
  | pushNumber n => exact ignoresBranches_push _
  | nop => exact ignoresBranches_pure ()
  | reservedNop => exact ignoresBranches_reservedNop
  | lockTime => exact .ite (ignoresBranches_pure ()) ignoresBranches_reservedNop
  | relativeLockTime => exact .ite (ignoresBranches_pure ()) ignoresBranches_reservedNop
  | openBranch negated => exact absurd trivial hc
  | switchBranch => exact absurd trivial hc
  | closeBranch => exact absurd trivial hc
  | verify => exact (ignoresBranches_need 1).bind fun _ => ignoresBranches_verifyTop _
  | abort => exact ignoresBranches_fail _
  | toAltStack => exact ignoresBranches_pop.bind fun item => ignoresBranches_pushAlt item
  | fromAltStack => exact ignoresBranches_popAlt.bind fun item => ignoresBranches_push item
  | shuffle m => exact (ignoresBranches_need _).bind fun _ => ignoresBranches_rearrange _
  | copyIfTrue =>
      refine (ignoresBranches_need 1).bind fun _ => (ignoresBranches_peek 0).bind fun top => ?_
      exact .ite (ignoresBranches_rearrange _) (ignoresBranches_pure ())
  | pushDepth => exact .bind_get (fun _ _ _ => rfl) fun s => ignoresBranches_push _
  | pick => exact ignoresBranches_select _
  | roll => exact ignoresBranches_select _
  | concat => exact ignoresBranches_concat
  | split => exact ignoresBranches_split
  | resize => exact ignoresBranches_resize
  | minimize => exact ignoresBranches_minimize
  | pushSize =>
      refine (ignoresBranches_need 1).bind fun _ => (ignoresBranches_peek 0).bind fun top => ?_
      exact ignoresBranches_push _
  | invert => exact ignoresBranches_pop.bind fun item => ignoresBranches_push _
  | bitwise op => exact ignoresBranches_bitwise op
  | shift left => exact ignoresBranches_shift left
  | equal verify => exact ignoresBranches_equal verify
  | unary op => exact ignoresBranches_unary op
  | binary op => exact ignoresBranches_binary op
  | numEqualVerify => exact (ignoresBranches_binary _).bind fun _ => ignoresBranches_verifyTop _
  | within => exact ignoresBranches_within
  | hash op => exact ignoresBranches_pop.bind fun item => ignoresBranches_push _
  | codeSeparator => exact ignoresBranches_setCodeStart next
  | checkSig verify => exact ignoresBranches_checkSig verify
  | checkMultiSig verify => exact ignoresBranches_checkMultiSig verify
  | invalid => exact ignoresBranches_fail _

end BitcoinScript
