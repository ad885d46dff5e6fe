import BitcoinScript.Proofs.Machine.Values

/-!
# Steps without faults

`Exec.Safe I m t Q` says that the step `m`, taken from the state `t`, does not fault: it gives a
value and a state that `Q` holds of, or it stops with a proper error and a state that `I` holds of.
There is one rule for each step that commands are put together from, and it asks for what the step
relies on: reading below the top asks for that many items, counting and comparing ask for nothing.
A command is safe because the depth that it has checked covers what it reads.

Commands that are not about branches, code separators or signatures touch nothing but the two
stacks.
-/

namespace BitcoinScript

/-- What a state holds besides the two stacks. -/
def State.control (s : State) : List Bool × Nat × Nat × List SigCall :=
  (s.branches, s.codeStart, s.opCount, s.calls)

namespace Exec

section

variable {α β : Type} {I : State → Prop} {r : Rules} {t : State}

/-- A step that does not fault. -/
def Safe (I : State → Prop) (m : Exec α) (t : State) (Q : α → State → Prop) : Prop :=
  m.Ends t Q fun stop u => stop.IsClean ∧ I u

theorem Safe.mono {J : State → Prop} {m : Exec α} {Q Q' : α → State → Prop} (h : Safe I m t Q)
    (hQ : ∀ a u, Q a u → Q' a u) (hI : ∀ u, I u → J u) : Safe J m t Q' :=
  Ends.mono h hQ fun _ u hu => ⟨hu.1, hI u hu.2⟩

theorem Safe.bind {m : Exec α} {f : α → Exec β} {P : α → State → Prop} {Q : β → State → Prop}
    (h : Safe I m t P) (hf : ∀ a u, P a u → Safe I (f a) u Q) : Safe I (m >>= f) t Q :=
  (ends_bind m f).2 (Ends.mono h hf fun _ _ hu => hu)

variable {Q : β → State → Prop}

theorem safe_fail {e : ScriptError} (he : (Stop.error e).IsClean) (h : I t) :
    Safe I (fail e) t Q := ⟨he, h⟩

theorem safe_require {p : Prop} [Decidable p] {e : ScriptError} {Q : Unit → State → Prop}
    (he : (Stop.error e).IsClean) (h : I t) (hQ : p → Q () t) : Safe I (require p e) t Q :=
  (ends_require p e).2 ⟨hQ, fun _ => ⟨he, h⟩⟩

theorem safe_bind_require {p : Prop} [Decidable p] {e : ScriptError} {f : Unit → Exec β}
    (he : (Stop.error e).IsClean) (h : I t) (hf : p → Safe I (f ()) t Q) :
    Safe I (require p e >>= f) t Q :=
  (safe_require he h hf).bind fun _ _ hu => hu

theorem safe_bind_get {f : State → Exec β} (hf : Safe I (f t) t Q) :
    Safe I (get >>= f) t Q :=
  (ends_bind get f).2 hf

theorem safe_bind_need {n : Nat} {f : Unit → Exec β} (h : I t)
    (hf : n ≤ t.stack.length → Safe I (f ()) t Q) : Safe I (need n >>= f) t Q :=
  (ends_bind _ f).2 ((ends_need n).2 ⟨hf, fun _ => ⟨by decide, h⟩⟩)

theorem safe_bind_peek {n : Nat} {f : Bytes → Exec β} (hn : n < t.stack.length)
    (hf : ∀ item, t.stack[n]? = some item → Safe I (f item) t Q) :
    Safe I (peek n >>= f) t Q :=
  (ends_bind _ f).2 ((ends_peek n).2 ⟨hf, fun hnone =>
    absurd (List.getElem?_eq_none_iff.1 hnone) (Nat.not_le.2 hn)⟩)

theorem safe_bind_pop {f : Bytes → Exec β} (h : I t)
    (hf : ∀ item rest, t.stack = item :: rest → Safe I (f item) { t with stack := rest } Q) :
    Safe I (pop >>= f) t Q :=
  (ends_bind _ f).2 (ends_pop.2 ⟨hf, fun _ => ⟨by decide, h⟩⟩)

theorem safe_bind_ofExcept {α : Type} {x : Except Stop α} {f : α → Exec β} (h : I t)
    (hx : ∀ {stop}, x = .error stop → stop.IsClean) (hf : ∀ a, x = .ok a → Safe I (f a) t Q) :
    Safe I (ofExcept x >>= f) t Q :=
  (ends_bind _ f).2 ((ends_ofExcept x).2 ⟨hf, fun _ hstop => ⟨hx hstop, h⟩⟩)

theorem safe_bind_ofOption {α : Type} {x : Option α} {f : α → Exec β} (hx : x.isSome)
    (hf : ∀ a, x = some a → Safe I (f a) t Q) : Safe I (ofOption x >>= f) t Q :=
  (ends_bind _ f).2 ((ends_ofOption x).2
    ⟨hf, fun hnone => absurd hnone (Option.isSome_iff_ne_none.1 hx)⟩)

theorem safe_rearrange {f : Stack Bytes → Option (Stack Bytes)} {Q : Unit → State → Prop}
    (hs : (f t.stack).isSome) (hQ : ∀ stack, Q () { t with stack }) :
    Safe I (rearrange f) t Q :=
  (ends_rearrange f).2
    ⟨fun stack _ => hQ stack, fun hnone => absurd hnone (Option.isSome_iff_ne_none.1 hs)⟩

theorem safe_bind_discard {n : Nat} {f : Unit → Exec β} (hn : n ≤ t.stack.length)
    (hf : ∀ stack, Safe I (f ()) { t with stack } Q) : Safe I (discard n >>= f) t Q := by
  have hsome : (Stack.dropBlock? 0 n t.stack).isSome := Stack.isSome_dropBlock? (by omega)
  have hdiscard : Safe I (discard n) t fun _ u => Safe I (f ()) u Q := safe_rearrange hsome hf
  exact hdiscard.bind fun _ _ hu => hu

theorem safe_bind_number {n : Nat} {f : Int → Exec β} (hn : n < t.stack.length) (h : I t)
    (hf : ∀ v, Safe I (f v) t Q) : Safe I (number r n >>= f) t Q := by
  rw [number, bind_assoc]
  exact safe_bind_peek hn fun item _ =>
    safe_bind_ofExcept h (Number.failsOnly_decode.isClean (by decide)) fun v _ => hf v

theorem safe_bind_charge {n : Nat} {f : Unit → Exec β} (h : I { t with opCount := t.opCount + n })
    (hf : Safe I (f ()) { t with opCount := t.opCount + n } Q) :
    Safe I (charge r n >>= f) t Q :=
  (ends_bind _ f).2 ((ends_charge r n).2 ⟨fun _ => hf, fun _ => ⟨by decide, h⟩⟩)

theorem safe_bind_scriptCode {script : Script} {f : Script → Exec β}
    (hs : t.codeStart ≤ script.length) (hf : Safe I (f (script.drop t.codeStart)) t Q) :
    Safe I (scriptCode script >>= f) t Q :=
  (ends_bind _ f).2 ((ends_scriptCode script).2 ⟨fun _ => hf, fun hnot => absurd hs hnot⟩)

theorem safe_conclude {verify result : Bool} {e : ScriptError} {Q : Unit → State → Prop}
    (he : (Stop.error e).IsClean) (h : I t) (hQ : ∀ stack, Q () { t with stack }) :
    Safe I (conclude verify result e) t Q :=
  (ends_conclude verify result e).2
    ⟨fun _ => ⟨fun _ => hQ t.stack, fun _ => ⟨he, h⟩⟩, fun _ => hQ _⟩

end

/-! ## Commands on the stacks -/

section

variable {s : State} {r : Rules}

/-- A step that does not fault and changes nothing but the two stacks. -/
abbrev OnlyStacks {α : Type} (m : Exec α) (s : State) : Prop :=
  Safe (fun t => t.control = s.control) m s fun _ t => t.control = s.control

theorem onlyStacks_reservedNop : OnlyStacks (reservedNop r) s :=
  safe_require (by decide) rfl fun _ => rfl

theorem onlyStacks_popCondition {negated : Bool} : OnlyStacks (popCondition r negated) s := by
  refine safe_bind_get ?_
  cases s.stack with
  | nil => exact safe_fail (by decide) rfl
  | cons item rest =>
      exact (ends_bind _ _).2 (safe_bind_require (by decide) rfl fun _ => rfl)

/-- The condition of a branch, which is not looked at where branches are not taken. -/
theorem onlyStacks_condition {taken negated : Bool} :
    OnlyStacks (if taken then popCondition r negated else pure false) s := by
  split
  · exact onlyStacks_popCondition
  · exact rfl

theorem onlyStacks_verifyTop {e : ScriptError} (he : (Stop.error e).IsClean)
    (h : 1 ≤ s.stack.length) : OnlyStacks (verifyTop e) s := by
  refine safe_bind_peek h fun top _ => safe_bind_require he rfl fun _ => ?_
  exact safe_bind_pop rfl fun _ _ _ => rfl

/-- The place that is asked for lies in the stack that is left below the number. -/
theorem onlyStacks_select {f : Nat → Stack Bytes → Option (Stack Bytes)}
    (hf : ∀ {n : Nat} {stack : Stack Bytes}, n < stack.length → (f n stack).isSome) :
    OnlyStacks (select r f) s := by
  refine safe_bind_need rfl fun h => safe_bind_number (by omega) rfl fun n => ?_
  refine safe_bind_pop rfl fun _ rest _ => safe_bind_get ?_
  refine safe_bind_require (by decide) rfl fun hn => ?_
  exact safe_rearrange (hf hn.2) fun _ => rfl

theorem onlyStacks_concat : OnlyStacks (concat r) s := by
  refine safe_bind_need rfl fun h => ?_
  refine safe_bind_peek (by omega) fun first _ => safe_bind_peek (by omega) fun second _ => ?_
  refine safe_bind_require (by decide) rfl fun _ => ?_
  exact safe_bind_pop rfl fun _ _ _ => safe_bind_pop rfl fun _ _ _ => rfl

theorem onlyStacks_split : OnlyStacks (split r) s := by
  refine safe_bind_need rfl fun h => safe_bind_number (by omega) rfl fun position => ?_
  refine safe_bind_pop rfl fun _ _ _ => safe_bind_pop rfl fun item _ _ => ?_
  refine safe_bind_require (by decide) rfl fun _ => ?_
  exact safe_bind_ofExcept rfl (Operand.failsOnly_split.isClean (by decide)) fun _ _ => rfl

theorem onlyStacks_resize : OnlyStacks (resize r) s := by
  refine safe_bind_need rfl fun h => safe_bind_number (by omega) rfl fun size => ?_
  refine safe_bind_require (by decide) rfl fun _ => ?_
  refine safe_bind_pop rfl fun _ _ _ => safe_bind_pop rfl fun item _ _ => ?_
  exact safe_bind_ofExcept rfl (Operand.failsOnly_resize.isClean (by decide)) fun _ _ => rfl

theorem onlyStacks_minimize : OnlyStacks (minimize r) s := by
  refine safe_bind_pop rfl fun item _ _ => ?_
  refine safe_bind_ofOption (by rw [Number.minimal?_eq]; rfl) fun _ _ => ?_
  exact safe_bind_require (by decide) rfl fun _ => rfl

theorem onlyStacks_bitwise {op : Operand.Bitwise} : OnlyStacks (bitwise op) s := by
  refine safe_bind_need rfl fun _ => ?_
  refine safe_bind_pop rfl fun b _ _ => safe_bind_pop rfl fun a _ _ => ?_
  exact safe_bind_ofExcept rfl (Operand.failsOnly_bitwise.isClean (by decide)) fun _ _ => rfl

theorem onlyStacks_shift {left : Bool} : OnlyStacks (shift r left) s := by
  refine safe_bind_need rfl fun h => safe_bind_number (by omega) rfl fun n => ?_
  refine safe_bind_require (by decide) rfl fun _ => ?_
  refine safe_bind_pop rfl fun _ _ _ => safe_bind_pop rfl fun item _ _ => ?_
  exact safe_bind_ofOption (Bytes.isSome_shift? left item n.toNat) fun _ _ => rfl

theorem onlyStacks_equal {verify : Bool} : OnlyStacks (equal verify) s := by
  refine safe_bind_need rfl fun _ => ?_
  refine safe_bind_pop rfl fun b _ _ => safe_bind_pop rfl fun a _ _ => ?_
  exact safe_conclude (by decide) rfl fun _ => rfl

theorem onlyStacks_unary {op : UnaryOp} : OnlyStacks (unary r op) s := by
  refine safe_bind_need rfl fun h => safe_bind_number (by omega) rfl fun n => ?_
  exact safe_bind_pop rfl fun _ _ _ => rfl

/-- A function of two numbers leaves its result on top. -/
theorem safe_binary {op : BinaryOp} : Safe (fun t => t.control = s.control) (binary r op) s
    fun _ t => t.control = s.control ∧ 1 ≤ t.stack.length := by
  refine safe_bind_need rfl fun h => ?_
  refine safe_bind_number (by omega) rfl fun a => safe_bind_number (by omega) rfl fun b => ?_
  refine safe_bind_discard (by omega) fun stack => ?_
  exact safe_bind_ofExcept rfl (BinaryOp.failsOnly_eval.isClean (by decide)) fun _ _ =>
    ⟨rfl, Nat.succ_le_of_lt (Nat.succ_pos _)⟩

theorem onlyStacks_within : OnlyStacks (within r) s := by
  refine safe_bind_need rfl fun h => ?_
  refine safe_bind_number (by omega) rfl fun x => safe_bind_number (by omega) rfl fun low => ?_
  refine safe_bind_number (by omega) rfl fun high => ?_
  exact safe_bind_discard (by omega) fun _ => rfl

end

end Exec

/-- The commands that are not about branches, code separators or signatures. -/
def Command.IsPlain : Command → Prop
  | .openBranch _ | .switchBranch | .closeBranch | .codeSeparator | .checkSig _
  | .checkMultiSig _ => False
  | _ => True

/-- Plain commands do not fault and change nothing but the two stacks. -/
theorem Exec.onlyStacks_execute {r : Rules} {script : Script} {taken : Bool} {next : Nat}
    {c : Command} {s : State} (hc : c.IsPlain) :
    OnlyStacks (execute r script taken next c) s := by
  cases c with
  | pushNumber n => exact rfl
  | nop => exact rfl
  | reservedNop => exact onlyStacks_reservedNop
  | lockTime =>
      show OnlyStacks (if r.flags.contains .checkLockTimeVerify then pure () else reservedNop r) s
      split
      · exact rfl
      · exact onlyStacks_reservedNop
  | relativeLockTime =>
      show OnlyStacks (if r.flags.contains .checkSequenceVerify then pure () else reservedNop r) s
      split
      · exact rfl
      · exact onlyStacks_reservedNop
  | openBranch negated => exact hc.elim
  | switchBranch => exact hc.elim
  | closeBranch => exact hc.elim
  | verify => exact safe_bind_need rfl fun h => onlyStacks_verifyTop (by decide) h
  | abort => exact safe_fail (by decide) rfl
  | toAltStack => exact safe_bind_pop rfl fun _ _ _ => rfl
  | fromAltStack =>
      refine (ends_bind _ _).2 (ends_popAlt.2 ⟨fun _ _ _ => rfl, fun _ => ⟨by decide, rfl⟩⟩)
  | shuffle m =>
      exact safe_bind_need rfl fun h => safe_rearrange (Shuffle.isSome_run? h) fun _ => rfl
  | copyIfTrue =>
      refine safe_bind_need rfl fun h => safe_bind_peek h fun top _ => ?_
      split
      · exact safe_rearrange (Stack.isSome_copyBlock? h) fun _ => rfl
      · exact rfl
  | pushDepth => exact rfl
  | pick => exact onlyStacks_select fun h => Stack.isSome_copyBlock? h
  | roll => exact onlyStacks_select fun h => Stack.isSome_raiseBlock? h
  | concat => exact onlyStacks_concat
  | split => exact onlyStacks_split
  | resize => exact onlyStacks_resize
  | minimize => exact onlyStacks_minimize
  | pushSize => exact safe_bind_need rfl fun h => safe_bind_peek h fun _ _ => rfl
  | invert => exact safe_bind_pop rfl fun _ _ _ => rfl
  | bitwise op => exact onlyStacks_bitwise
  | shift left => exact onlyStacks_shift
  | equal verify => exact onlyStacks_equal
  | unary op => exact onlyStacks_unary
  | binary op => exact safe_binary.mono (fun _ _ h => h.1) fun _ h => h
  | numEqualVerify =>
      refine safe_binary.bind fun _ t ht => ?_
      exact (onlyStacks_verifyTop (by decide) ht.2).mono (fun _ _ h => h.trans ht.1)
        fun _ h => h.trans ht.1
  | within => exact onlyStacks_within
  | hash op => exact safe_bind_pop rfl fun _ _ _ => rfl
  | codeSeparator => exact hc.elim
  | checkSig verify => exact hc.elim
  | checkMultiSig verify => exact hc.elim
  | invalid => exact safe_fail (by decide) rfl

end BitcoinScript
