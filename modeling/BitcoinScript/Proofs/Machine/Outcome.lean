import BitcoinScript.Machine.Eval

/-!
# Outcomes of steps

`Exec.Ends m s Q E` says how the step `m` ends from the state `s`: with a value and a state that
`Q` holds of, or stopped with a reason and a state that `E` holds of. For every step that the
commands are put together from it comes down to a condition on `s`, so that a command is taken
apart by rewriting. A stop is *clean* if it is a proper error of the script.
-/

namespace BitcoinScript

/-- A reason to stop that is an error of the script, and neither a fault nor the error that reports
one. -/
def Stop.IsClean : Stop → Prop
  | .error e => e ≠ .unknownError
  | .fault => False

instance : DecidablePred Stop.IsClean
  | .error e => inferInstanceAs (Decidable (e ≠ .unknownError))
  | .fault => inferInstanceAs (Decidable False)

theorem Stop.IsClean.toError_ne {stop : Stop} (h : stop.IsClean) :
    stop.toError ≠ .unknownError := by
  cases stop with
  | error e => exact h
  | fault => exact h.elim

theorem Stop.require_eq_ok_iff {p : Prop} [Decidable p] {e : ScriptError} {u : Unit} :
    Stop.require p e = .ok u ↔ p := by
  rw [Stop.require]
  split
  · exact ⟨fun _ => ‹p›, fun _ => rfl⟩
  · exact ⟨(nomatch ·), fun h => absurd h ‹¬p›⟩

/-- Outcomes can be compared, so that runs on given inputs can be computed. -/
instance decidableEqResult {ε σ α : Type} [DecidableEq ε] [DecidableEq σ] [DecidableEq α] :
    DecidableEq (EStateM.Result ε σ α)
  | .ok a s, .ok b t => decidable_of_iff (a = b ∧ s = t) (EStateM.Result.ok.injEq a s b t ▸ Iff.rfl)
  | .error e s, .error e' t =>
      decidable_of_iff (e = e' ∧ s = t) (EStateM.Result.error.injEq e s e' t ▸ Iff.rfl)
  | .ok _ _, .error _ _ => isFalse (nomatch ·)
  | .error _ _, .ok _ _ => isFalse (nomatch ·)

theorem except_bind_eq_ok_iff {ε α β : Type} {x : Except ε α} {f : α → Except ε β} {b : β} :
    x >>= f = .ok b ↔ ∃ a, x = .ok a ∧ f a = .ok b := by
  cases x with
  | error e => exact ⟨(nomatch ·), fun ⟨_, h, _⟩ => (nomatch h)⟩
  | ok a => exact ⟨fun h => ⟨a, rfl, h⟩, fun ⟨_, h, hf⟩ => Except.ok.inj h ▸ hf⟩

theorem except_check_bind_eq_ok_iff {ε β : Type} {x : Except ε Unit} {f : Unit → Except ε β}
    {b : β} : x >>= f = .ok b ↔ x = .ok () ∧ f () = .ok b :=
  except_bind_eq_ok_iff.trans ⟨fun ⟨_, h⟩ => h, fun h => ⟨(), h⟩⟩

section

variable {ε σ α β : Type} {s t : σ}

theorem bind_of_ok {m : EStateM ε σ α} {f : α → EStateM ε σ β} {a : α} (h : m s = .ok a t) :
    (m >>= f) s = f a t := by
  simp only [bind, EStateM.bind, h]

theorem bind_of_error {m : EStateM ε σ α} {f : α → EStateM ε σ β} {e : ε} (h : m s = .error e t) :
    (m >>= f) s = .error e t := by
  simp only [bind, EStateM.bind, h]

theorem exists_of_bind_eq_ok {m : EStateM ε σ α} {f : α → EStateM ε σ β} {b : β}
    (h : (m >>= f) s = .ok b t) : ∃ a u, m s = .ok a u ∧ f a u = .ok b t := by
  cases hm : m s with
  | ok a u =>
      rw [bind_of_ok hm] at h
      exact ⟨a, u, rfl, h⟩
  | error e u =>
      rw [bind_of_error hm] at h
      exact nomatch h

end

namespace Exec

section

variable {α β : Type} {s : State} {Q : α → State → Prop} {E : Stop → State → Prop}

/-- What holds of the value and the state that a step ends with, or of the reason and the state that
it stops with. -/
def Ends (m : Exec α) (s : State) (Q : α → State → Prop) (E : Stop → State → Prop) : Prop :=
  match m s with
  | .ok a t => Q a t
  | .error stop t => E stop t

theorem Ends.mono {m : Exec α} {Q' : α → State → Prop} {E' : Stop → State → Prop}
    (h : m.Ends s Q E) (hQ : ∀ a t, Q a t → Q' a t) (hE : ∀ stop t, E stop t → E' stop t) :
    m.Ends s Q' E' := by
  unfold Ends at h ⊢
  cases hm : m s with
  | ok a t =>
      rw [hm] at h
      exact hQ a t h
  | error stop t =>
      rw [hm] at h
      exact hE stop t h

theorem Ends.of_ok {m : Exec α} {a : α} {t : State} (h : m.Ends s Q E) (hm : m s = .ok a t) :
    Q a t := by
  rwa [Ends, hm] at h

theorem Ends.of_error {m : Exec α} {stop : Stop} {t : State} (h : m.Ends s Q E)
    (hm : m s = .error stop t) : E stop t := by
  rwa [Ends, hm] at h

theorem ends_of_forall_ok {m : Exec α} (h : ∀ a t, m s = .ok a t → Q a t) :
    m.Ends s Q fun _ _ => True := by
  rw [Ends]
  cases hm : m s with
  | ok a t => exact h a t hm
  | error stop t => trivial

@[simp] theorem ends_pure (a : α) : Ends (pure a) s Q E ↔ Q a s := Iff.rfl

@[simp] theorem ends_bind (m : Exec α) (f : α → Exec β) {Q : β → State → Prop} :
    Ends (m >>= f) s Q E ↔ m.Ends s (fun a t => (f a).Ends t Q E) E := by
  simp only [Ends, bind, EStateM.bind]
  cases m s <;> rfl

theorem Ends.bind {m : Exec α} {f : α → Exec β} {P : α → State → Prop} {Q : β → State → Prop}
    (h : m.Ends s P E) (hf : ∀ a t, m s = .ok a t → P a t → (f a).Ends t Q E) :
    Ends (m >>= f) s Q E := by
  rw [ends_bind, Ends]
  cases hm : m s with
  | ok a t => exact hf a t hm (h.of_ok hm)
  | error stop t => exact h.of_error hm

theorem Ends.bind_of_ok {m : Exec α} {f : α → Exec β} {a : α} {t : State}
    {Q : β → State → Prop} (hm : m s = .ok a t) (h : (f a).Ends t Q E) :
    Ends (m >>= f) s Q E := by
  rw [ends_bind, Ends, hm]
  exact h

@[simp] theorem ends_map (m : Exec α) (f : α → β) {Q : β → State → Prop} :
    Ends (f <$> m) s Q E ↔ m.Ends s (fun a t => Q (f a) t) E := by
  simp only [Ends, Functor.map, EStateM.map]
  cases m s <;> rfl

@[simp] theorem ends_fail (e : ScriptError) :
    Ends (fail e : Exec α) s Q E ↔ E (.error e) s := Iff.rfl

@[simp] theorem ends_fault : Ends (fault : Exec α) s Q E ↔ E .fault s := Iff.rfl

@[simp] theorem ends_get {Q : State → State → Prop} : Ends get s Q E ↔ Q s s := Iff.rfl

@[simp] theorem ends_set (t : State) {Q : PUnit → State → Prop} :
    Ends (set t) s Q E ↔ Q ⟨⟩ t := Iff.rfl

@[simp] theorem ends_modify (f : State → State) {Q : PUnit → State → Prop} :
    Ends (modify f) s Q E ↔ Q ⟨⟩ (f s) := Iff.rfl

@[simp] theorem ends_ofOption (x : Option α) :
    Ends (ofOption x) s Q E ↔ (∀ a, x = some a → Q a s) ∧ (x = none → E .fault s) := by
  cases x <;> simp [ofOption]

@[simp] theorem ends_ofExcept (x : Except Stop α) :
    Ends (ofExcept x) s Q E ↔
      (∀ a, x = .ok a → Q a s) ∧ (∀ stop, x = .error stop → E stop s) := by
  cases x with
  | ok a => simp [ofExcept]
  | error stop =>
      have hstop : Ends (ofExcept (.error stop : Except Stop α)) s Q E ↔ E stop s := Iff.rfl
      simp [hstop]

end

section

variable {s : State} {Q : Unit → State → Prop} {E : Stop → State → Prop}

@[simp] theorem ends_require (p : Prop) [Decidable p] (e : ScriptError) :
    Ends (require p e) s Q E ↔ (p → Q () s) ∧ (¬p → E (.error e) s) := by
  by_cases h : p <;> simp [require, h]

@[simp] theorem ends_isTaken {Q : Bool → State → Prop} :
    Ends isTaken s Q E ↔ Q (s.branches.all id) s := Iff.rfl

@[simp] theorem ends_need (n : Nat) :
    Ends (need n) s Q E ↔
      (n ≤ s.stack.length → Q () s) ∧
        (¬n ≤ s.stack.length → E (.error .invalidStackOperation) s) := by
  simp [need]

@[simp] theorem ends_peek (n : Nat) {Q : Bytes → State → Prop} :
    Ends (peek n) s Q E ↔
      (∀ a, s.stack[n]? = some a → Q a s) ∧ (s.stack[n]? = none → E .fault s) := by
  simp [peek, Stack.peek?]

@[simp] theorem ends_push (item : Bytes) :
    Ends (push item) s Q E ↔ Q () { s with stack := item :: s.stack } := Iff.rfl

@[simp] theorem ends_pop {Q : Bytes → State → Prop} :
    Ends pop s Q E ↔
      (∀ item rest, s.stack = item :: rest → Q item { s with stack := rest }) ∧
        (s.stack = [] → E (.error .invalidStackOperation) s) := by
  rw [pop, ends_bind, ends_get]
  cases s.stack <;> simp

@[simp] theorem ends_rearrange (f : Stack Bytes → Option (Stack Bytes)) :
    Ends (rearrange f) s Q E ↔
      (∀ stack, f s.stack = some stack → Q () { s with stack }) ∧
        (f s.stack = none → E .fault s) := by
  simp [rearrange]

@[simp] theorem ends_number (r : Rules) (n : Nat) {Q : Int → State → Prop} :
    Ends (number r n) s Q E ↔
      Ends (peek n) s (fun item s => Ends (ofExcept (Number.decode
        (r.flags.contains .minimalData) r.limits.numberLength item)) s Q E) E := by
  rw [number, ends_bind]

@[simp] theorem ends_charge (r : Rules) (n : Nat) :
    Ends (charge r n) s Q E ↔
      (s.opCount + n ≤ r.limits.ops → Q () { s with opCount := s.opCount + n }) ∧
        (¬s.opCount + n ≤ r.limits.ops →
          E (.error .opCount) { s with opCount := s.opCount + n }) := by
  simp [charge]

@[simp] theorem ends_popAlt {Q : Bytes → State → Prop} :
    Ends popAlt s Q E ↔
      (∀ item rest, s.alt = item :: rest → Q item { s with alt := rest }) ∧
        (s.alt = [] → E (.error .invalidAltstackOperation) s) := by
  rw [popAlt, ends_bind, ends_get]
  cases s.alt <;> simp

@[simp] theorem ends_switchBranch :
    Ends switchBranch s Q E ↔
      (∀ taken rest, s.branches = taken :: rest → Q () { s with branches := (!taken) :: rest }) ∧
        (s.branches = [] → E (.error .unbalancedConditional) s) := by
  rw [switchBranch, ends_bind, ends_get]
  cases s.branches <;> simp

@[simp] theorem ends_closeBranch :
    Ends closeBranch s Q E ↔
      (∀ taken rest, s.branches = taken :: rest → Q () { s with branches := rest }) ∧
        (s.branches = [] → E (.error .unbalancedConditional) s) := by
  rw [closeBranch, ends_bind, ends_get]
  cases s.branches <;> simp

@[simp] theorem ends_scriptCode (script : Script) {Q : Script → State → Prop} :
    Ends (scriptCode script) s Q E ↔
      (s.codeStart ≤ script.length → Q (script.drop s.codeStart) s) ∧
        (¬s.codeStart ≤ script.length → E .fault s) := by
  rw [scriptCode, ends_bind, ends_get]
  by_cases h : s.codeStart ≤ script.length <;> simp [h]

@[simp] theorem ends_ask (r : Rules) (call : SigCall) {Q : Bool → State → Prop} :
    Ends (ask r call) s Q E ↔
      (∀ a, r.checker.checkSig s.calls call r.flags = some a →
          Q a { s with calls := s.calls ++ [call] }) ∧
        (r.checker.checkSig s.calls call r.flags = none →
          E .fault { s with calls := s.calls ++ [call] }) := by
  simp [ask]

@[simp] theorem ends_conclude (verify result : Bool) (e : ScriptError) :
    Ends (conclude verify result e) s Q E ↔
      (verify = true → (result = true → Q () s) ∧ (result = false → E (.error e) s)) ∧
        (verify = false → Q () { s with stack := Operand.ofBool result :: s.stack }) := by
  cases verify <;> simp [conclude]

end

/-! ## Steps that give a value

Where it is known what a step reads, its outcome is an equation, and a chain of steps is computed by
rewriting with one equation after the other. -/

section

variable {α : Type} {s t : State}

theorem require_of {p : Prop} [Decidable p] (e : ScriptError) (h : p) :
    require p e s = .ok () s := by
  rw [require, if_pos h]
  rfl

theorem require_of_not {p : Prop} [Decidable p] (e : ScriptError) (h : ¬p) :
    require p e s = .error (.error e) s := by
  rw [require, if_neg h]
  rfl

theorem need_of_le {n : Nat} (h : n ≤ s.stack.length) : need n s = .ok () s :=
  require_of _ h

theorem need_of_lt {n : Nat} (h : s.stack.length < n) :
    need n s = .error (.error .invalidStackOperation) s :=
  require_of_not _ (Nat.not_le.2 h)

theorem peek_of_getElem? {n : Nat} {item : Bytes} (h : s.stack[n]? = some item) :
    peek n s = .ok item s := by
  have hpeek : s.stack.peek? n = some item := h
  show ofOption (s.stack.peek? n) s = _
  rw [hpeek]
  rfl

theorem pop_of_cons {item : Bytes} {rest : Stack Bytes} (h : s.stack = item :: rest) :
    pop s = .ok item { s with stack := rest } := by
  rw [pop, bind_of_ok (rfl : (get : Exec State) s = .ok s s), h]
  rfl

theorem number_of_ok {r : Rules} {n : Nat} {item : Bytes} {v : Int} (h : s.stack[n]? = some item)
    (hv : Number.decode (r.flags.contains .minimalData) r.limits.numberLength item = .ok v) :
    number r n s = .ok v s := by
  rw [number, bind_of_ok (peek_of_getElem? h), hv]
  rfl

theorem number_of_error {r : Rules} {n : Nat} {item : Bytes} {stop : Stop}
    (h : s.stack[n]? = some item)
    (hv : Number.decode (r.flags.contains .minimalData) r.limits.numberLength item =
      .error stop) : number r n s = .error stop s := by
  rw [number, bind_of_ok (peek_of_getElem? h), hv]
  rfl

theorem rearrange_of_eq_some {f : Stack Bytes → Option (Stack Bytes)} {stack : Stack Bytes}
    (h : f s.stack = some stack) : rearrange f s = .ok () { s with stack := stack } := by
  rw [rearrange, bind_of_ok (rfl : (get : Exec State) s = .ok s s), h]
  rfl

theorem discard_of_le {n : Nat} (h : n ≤ s.stack.length) :
    discard n s = .ok () { s with stack := s.stack.drop n } := by
  have hdrop : s.stack.dropBlock? 0 n = some (s.stack.drop n) := by
    rw [Stack.dropBlock?, Nat.zero_add, if_pos h]
    rfl
  exact rearrange_of_eq_some hdrop

theorem charge_of_le {r : Rules} {n : Nat} (h : s.opCount + n ≤ r.limits.ops) :
    charge r n s = .ok () { s with opCount := s.opCount + n } :=
  require_of _ h

theorem scriptCode_of_le {script : Script} (h : s.codeStart ≤ script.length) :
    scriptCode script s = .ok (script.drop s.codeStart) s := by
  rw [scriptCode, bind_of_ok (rfl : (get : Exec State) s = .ok s s), if_pos h]
  rfl

theorem ask_of_some {r : Rules} {call : SigCall} {a : Bool}
    (h : r.checker.checkSig s.calls call r.flags = some a) :
    ask r call s = .ok a { s with calls := s.calls ++ [call] } := by
  show ofOption (r.checker.checkSig s.calls call r.flags) _ = _
  rw [h]
  rfl

end

end Exec

/-! ## An instruction in parts -/

/-- The operations that an instruction counts for by itself. -/
def Instr.cost (op : Instr) : Nat := if op.code.isPush then 0 else 1

namespace Exec

section

variable {α : Type} {r : Rules} {script : Script} {s : State}

/-- What is looked at even in branches that are not taken. -/
def prepare (r : Rules) (op : Instr) : Exec Unit := do
  require (op.data.length ≤ r.limits.itemSize) .pushSize
  chargeInstr r op
  require (!op.code.isDisabled) .disabledOpcode

def act (r : Rules) (script : Script) (op : Instr) (next : Nat) (taken : Bool) : Exec Unit :=
  if taken && op.code.isPushData then pushInstr r op
  else if taken || op.code.isConditional then execute r script taken next op.code.command
  else pure ()

theorem step_eq (op : Instr) (next : Nat) :
    step r script op next =
      prepare r op >>= fun _ => isTaken >>= fun taken => act r script op next taken := by
  simp only [step, prepare, act, bind_assoc]

/-- Only the count of operations changes before an instruction is looked at closer. -/
theorem ends_prepare (op : Instr) : (prepare r op).Ends s
    (fun _ t => t = { s with opCount := s.opCount + op.cost } ∧
      op.data.length ≤ r.limits.itemSize ∧ op.code.isDisabled = false ∧
      (s.opCount ≤ r.limits.ops → t.opCount ≤ r.limits.ops))
    fun _ t => ∃ n, t = { s with opCount := s.opCount + n } := by
  have hcharge : (chargeInstr r op).Ends s
      (fun _ t => t = { s with opCount := s.opCount + op.cost } ∧
        (s.opCount ≤ r.limits.ops → t.opCount ≤ r.limits.ops))
      fun _ t => ∃ n, t = { s with opCount := s.opCount + n } := by
    rw [chargeInstr, Instr.cost]
    split
    · exact ⟨rfl, fun hops => hops⟩
    · exact (ends_charge r 1).2 ⟨fun hops => ⟨rfl, fun _ => hops⟩, fun _ => ⟨1, rfl⟩⟩
  refine (ends_bind _ _).2 ((ends_require _ _).2 ⟨fun hdata => ?_, fun _ => ⟨0, rfl⟩⟩)
  refine (ends_bind _ _).2 (hcharge.mono (fun _ t ht => ?_) fun _ _ ht => ht)
  refine (ends_require _ _).2 ⟨fun hdisabled => ⟨ht.1, hdata, ?_, ht.2⟩, fun _ => ⟨_, ht.1⟩⟩
  rwa [Bool.not_eq_true'] at hdisabled

@[simp] theorem ends_checkDepth {Q : Unit → State → Prop} {E : Stop → State → Prop} :
    Ends (checkDepth r) s Q E ↔
      (s.stack.length + s.alt.length ≤ r.limits.stackDepth → Q () s) ∧
        (¬s.stack.length + s.alt.length ≤ r.limits.stackDepth → E (.error .stackSize) s) := by
  simp [checkDepth]

theorem eq_of_checkDepth {t : State} (h : checkDepth r s = .ok () t) : t = s := by
  have hends : (checkDepth r).Ends s (fun _ u => u = s) fun _ _ => True :=
    ends_checkDepth.2 ⟨fun _ => rfl, fun _ => trivial⟩
  exact hends.of_ok h

theorem depth_le_of_checkDepth {t : State} (h : checkDepth r s = .ok () t) :
    s.stack.length + s.alt.length ≤ r.limits.stackDepth := by
  have hends : (checkDepth r).Ends s
      (fun _ _ => s.stack.length + s.alt.length ≤ r.limits.stackDepth) fun _ _ => True :=
    ends_checkDepth.2 ⟨fun hdepth => hdepth, fun _ => trivial⟩
  exact hends.of_ok h

theorem bind_isTaken (f : Bool → Exec α) : (isTaken >>= f) s = f (s.branches.all id) s := rfl

end

end Exec

end BitcoinScript
