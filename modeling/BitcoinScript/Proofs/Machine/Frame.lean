import BitcoinScript.Proofs.Machine.Branches
import BitcoinScript.Proofs.Machine.Faultless
import BitcoinScript.Proofs.Machine.Keeping
import BitcoinScript.Proofs.Opcode.Table

/-!
# Items below the stack

Every command asks for the items that it reads, moves or removes, and reaches no item below those.
Further items below the stack are therefore left as they are, and what happens on top of them is
what happened without them.

There are two exceptions. A command that fails for want of items may succeed with more of them, and
the depth of the stack can be asked for. `Exec.Framed below m s` leaves room for the first one: from
the state `s` the step `m` either fails for want of items, or does the same on top of the items
`below`. The second one is about a single opcode.
-/

namespace BitcoinScript

def Opcode.depth : Opcode := ⟨0x74⟩

theorem Opcode.command_eq_pushDepth_iff {op : Opcode} : op.command = .pushDepth ↔ op = .depth := by
  refine ⟨eq_of_command (by decide) (by decide), ?_⟩
  rintro rfl
  rfl

/-! ## Moves of blocks -/

namespace Stack

variable {α : Type} {depth count : Nat} {s : Stack α}

theorem block?_append (h : depth + count ≤ s.length) (below : Stack α) :
    block? depth count (s ++ below) = block? depth count s := by
  have hdrop : depth ≤ s.length := by omega
  have htake : count ≤ (s.drop depth).length := by rw [List.length_drop]; omega
  rw [block?, block?, if_pos (by rw [List.length_append]; omega), if_pos h,
    List.drop_append_of_le_length hdrop, List.take_append_of_le_length htake]

theorem dropBlock?_append (h : depth + count ≤ s.length) (below : Stack α) :
    dropBlock? depth count (s ++ below) = (dropBlock? depth count s).map (· ++ below) := by
  rw [dropBlock?, dropBlock?, if_pos (by rw [List.length_append]; omega), if_pos h, Option.map_some,
    List.take_append_of_le_length (by omega), List.drop_append_of_le_length h, List.append_assoc]

theorem copyBlock?_append (h : depth + count ≤ s.length) (below : Stack α) :
    copyBlock? depth count (s ++ below) = (copyBlock? depth count s).map (· ++ below) := by
  rw [copyBlock?, copyBlock?, block?_append h, Option.map_map]
  exact congrArg (Option.map · _) (funext fun block => (List.append_assoc _ _ _).symm)

theorem raiseBlock?_append (h : depth + count ≤ s.length) (below : Stack α) :
    raiseBlock? depth count (s ++ below) = (raiseBlock? depth count s).map (· ++ below) := by
  rw [raiseBlock?, raiseBlock?, block?_append h, dropBlock?_append h]
  cases block? depth count s with
  | none => rfl
  | some block =>
      cases dropBlock? depth count s with
      | none => rfl
      | some rest => exact congrArg some (List.append_assoc _ _ _).symm

end Stack

/-- A shuffle moves only the items that it needs. -/
theorem Shuffle.run?_append {α : Type} {m : Shuffle} {s : Stack α} (h : m.depth ≤ s.length)
    (below : Stack α) : m.run? (s ++ below) = (m.run? s).map (· ++ below) := by
  cases m with
  | drop depth count => exact Stack.dropBlock?_append h below
  | copy depth count => exact Stack.copyBlock?_append h below
  | raise depth count => exact Stack.raiseBlock?_append h below
  | tuck =>
      have hblock : 1 + 1 ≤ s.length := h
      show (Stack.raiseBlock? 1 1 (s ++ below)).bind _ =
        ((Stack.raiseBlock? 1 1 s).bind _).map (· ++ below)
      rw [Stack.raiseBlock?_append hblock]
      cases hraise : Stack.raiseBlock? 1 1 s with
      | none => rfl
      | some raised =>
          refine Stack.copyBlock?_append ?_ below
          rw [Stack.length_of_raiseBlock? hraise]
          exact h

/-! ## Steps on top of further items -/

def State.onto (s : State) (below : Stack Bytes) : State := { s with stack := s.stack ++ below }

theorem State.stack_onto (s : State) (below : Stack Bytes) :
    (s.onto below).stack = s.stack ++ below := rfl

/-- An error of a script that may find too few items. -/
def ScriptError.IsShallow (e : ScriptError) : Prop :=
  e = .invalidStackOperation ∨ e = .unbalancedConditional

namespace Exec

section

variable {α β : Type} {below : Stack Bytes}

def resultOnto (below : Stack Bytes) :
    EStateM.Result Stop State α → EStateM.Result Stop State α
  | .ok a t => .ok a (t.onto below)
  | .error stop t => .error stop (t.onto below)

/-- The second outcome is the first one on top of further items, unless the first one fails for want
of items. -/
def Over (below : Stack Bytes) (x y : EStateM.Result Stop State α) : Prop :=
  (∃ e t, e.IsShallow ∧ x = .error (.error e) t) ∨ y = resultOnto below x

/-- The step does the same on top of further items, unless it fails for want of items. -/
def Framed (below : Stack Bytes) (m : Exec α) (s : State) : Prop :=
  Over below (m s) (m (s.onto below))

theorem Over.bind {m m' : Exec α} {f f' : α → Exec β} {s s' : State}
    (h : Over below (m s) (m' s'))
    (hf : ∀ a t, m s = .ok a t → Over below (f a t) (f' a (t.onto below))) :
    Over below ((m >>= f) s) ((m' >>= f') s') := by
  rcases h with ⟨e, t, he, hm⟩ | h
  · exact Or.inl ⟨e, t, he, bind_of_error hm⟩
  · cases hm : m s with
    | error stop t =>
        rw [hm] at h
        rw [bind_of_error hm, bind_of_error h]
        exact Or.inr rfl
    | ok a t =>
        rw [hm] at h
        rw [bind_of_ok hm, bind_of_ok h]
        exact hf a t hm

variable {s : State}

theorem Framed.bind {m : Exec α} {f : α → Exec β} (h : Framed below m s)
    (hf : ∀ a t, m s = .ok a t → Framed below (f a) t) : Framed below (m >>= f) s :=
  Over.bind h hf

/-- What follows a step that leaves the stack as it is. -/
theorem Framed.bind_of_keeps {m : Exec α} {f : α → Exec β} (h : Framed below m s)
    (hm : Keeps (fun t => t.stack = s.stack) m)
    (hf : ∀ a t, t.stack = s.stack → Framed below (f a) t) : Framed below (m >>= f) s :=
  h.bind fun a t hok => hf a t ((hm s rfl).of_ok hok)

theorem Framed.ite {p : Prop} [Decidable p] {m m' : Exec α} (h : Framed below m s)
    (h' : Framed below m' s) : Framed below (if p then m else m') s := by
  split
  · exact h
  · exact h'

theorem framed_pure (a : α) : Framed below (pure a) s := Or.inr rfl

theorem framed_fail (e : ScriptError) : Framed below (fail e : Exec α) s := Or.inr rfl

theorem framed_fault : Framed below (fault : Exec α) s := Or.inr rfl

theorem framed_ofOption (x : Option α) : Framed below (ofOption x) s := by
  cases x with
  | some a => exact framed_pure a
  | none => exact framed_fault

theorem framed_require (p : Prop) [Decidable p] (e : ScriptError) : Framed below (require p e) s :=
  .ite (framed_pure ()) (framed_fail e)

theorem framed_push (item : Bytes) : Framed below (push item) s := Or.inr rfl

theorem framed_pushAlt (item : Bytes) : Framed below (pushAlt item) s := Or.inr rfl

theorem framed_openBranch (taken : Bool) : Framed below (openBranch taken) s := Or.inr rfl

theorem framed_setCodeStart (position : Nat) : Framed below (setCodeStart position) s := Or.inr rfl

theorem framed_popAlt : Framed below popAlt s := by
  obtain ⟨stack, alt, branches, codeStart, opCount, calls⟩ := s
  cases alt with
  | nil => exact Or.inr rfl
  | cons item rest => exact Or.inr rfl

theorem framed_switchBranch : Framed below switchBranch s := by
  obtain ⟨stack, alt, branches, codeStart, opCount, calls⟩ := s
  cases branches with
  | nil => exact Or.inr rfl
  | cons taken rest => exact Or.inr rfl

theorem framed_closeBranch : Framed below closeBranch s := by
  obtain ⟨stack, alt, branches, codeStart, opCount, calls⟩ := s
  cases branches with
  | nil => exact Or.inr rfl
  | cons taken rest => exact Or.inr rfl

theorem framed_charge (r : Rules) (n : Nat) : Framed below (charge r n) s :=
  framed_require (s := { s with opCount := s.opCount + n }) (s.opCount + n ≤ r.limits.ops) .opCount

theorem framed_scriptCode (script : Script) : Framed below (scriptCode script) s := by
  show Framed below
    (if s.codeStart ≤ script.length then pure (script.drop s.codeStart) else fault) s
  exact .ite (framed_pure _) framed_fault

theorem framed_ask (r : Rules) (call : SigCall) : Framed below (ask r call) s :=
  framed_ofOption (s := { s with calls := s.calls ++ [call] })
    (r.checker.checkSig s.calls call r.flags)

/-! ### Steps that need items

A step that reads below the top has to find the item in its own part of the stack. The rules pass
what has been asked for on to what follows. -/

theorem framed_bind_need {n : Nat} {f : Unit → Exec β}
    (hf : n ≤ s.stack.length → Framed below (f ()) s) : Framed below (need n >>= f) s := by
  by_cases h : n ≤ s.stack.length
  · have hbelow : n ≤ (s.onto below).stack.length := by
      rw [State.stack_onto, List.length_append]
      omega
    rw [Framed, bind_of_ok (need_of_le h), bind_of_ok (need_of_le hbelow)]
    exact hf h
  · exact Or.inl ⟨_, s, Or.inl rfl, bind_of_error (require_of_not _ h)⟩

theorem framed_bind_peek {n : Nat} {f : Bytes → Exec β} (hn : n < s.stack.length)
    (hf : ∀ item, Framed below (f item) s) : Framed below (peek n >>= f) s := by
  have hitem : s.stack[n]? = some s.stack[n] := List.getElem?_eq_getElem hn
  have hbelow : (s.onto below).stack[n]? = some s.stack[n] := by
    rw [State.stack_onto, List.getElem?_append_left hn, hitem]
  rw [Framed, bind_of_ok (peek_of_getElem? hitem), bind_of_ok (peek_of_getElem? hbelow)]
  exact hf _

theorem framed_bind_pop {f : Bytes → Exec β}
    (hf : ∀ item rest, s.stack = item :: rest → Framed below (f item) { s with stack := rest }) :
    Framed below (pop >>= f) s := by
  cases hstack : s.stack with
  | nil =>
      have hpop : pop s = .error (.error .invalidStackOperation) s := by
        rw [pop, bind_of_ok (rfl : (get : Exec State) s = .ok s s), hstack]
        rfl
      exact Or.inl ⟨_, s, Or.inl rfl, bind_of_error hpop⟩
  | cons item rest =>
      have hbelow : (s.onto below).stack = item :: (rest ++ below) := by
        rw [State.stack_onto, hstack, List.cons_append]
      rw [Framed, bind_of_ok (pop_of_cons hstack), bind_of_ok (pop_of_cons hbelow)]
      exact hf item rest hstack

theorem framed_pop : Framed below pop s := by
  have h : Framed below (pop >>= pure) s := framed_bind_pop fun item _ _ => framed_pure item
  rwa [bind_pure] at h

theorem framed_rearrange {f : Stack Bytes → Option (Stack Bytes)}
    (h : f (s.stack ++ below) = (f s.stack).map (· ++ below)) : Framed below (rearrange f) s := by
  show Over below ((ofOption (f s.stack) >>= fun stack => set { s with stack }) s)
    ((ofOption (f (s.stack ++ below)) >>= fun stack => set { s.onto below with stack })
      (s.onto below))
  rw [h]
  cases f s.stack with
  | none => exact Or.inr rfl
  | some stack => exact Or.inr rfl

theorem framed_bind_discard {n : Nat} {f : Unit → Exec β} (hn : n ≤ s.stack.length)
    (hf : ∀ stack, Framed below (f ()) { s with stack }) : Framed below (discard n >>= f) s := by
  have hdiscard : Framed below (discard n) s :=
    framed_rearrange (Stack.dropBlock?_append (by omega) below)
  refine hdiscard.bind fun _ t hok => ?_
  have hends : (discard n).Ends s (fun _ u => ∃ stack, u = { s with stack }) fun _ _ => True :=
    (ends_rearrange _).2 ⟨fun stack _ => ⟨stack, rfl⟩, fun _ => trivial⟩
  obtain ⟨stack, rfl⟩ := hends.of_ok hok
  exact hf stack

theorem framed_bind_require {p : Prop} [Decidable p] {e : ScriptError} {f : Unit → Exec β}
    (hf : p → Framed below (f ()) s) : Framed below (require p e >>= f) s := by
  by_cases h : p
  · rw [Framed, bind_of_ok (require_of e h), bind_of_ok (require_of e h)]
    exact hf h
  · rw [Framed, bind_of_error (require_of_not e h), bind_of_error (require_of_not e h)]
    exact Or.inr rfl

theorem framed_bind_ofExcept {x : Except Stop α} {f : α → Exec β}
    (hf : ∀ a, Framed below (f a) s) : Framed below (ofExcept x >>= f) s := by
  cases x with
  | ok a => exact hf a
  | error stop => exact Or.inr rfl

theorem framed_bind_ofOption {x : Option α} {f : α → Exec β} (hf : ∀ a, Framed below (f a) s) :
    Framed below (ofOption x >>= f) s := by
  cases x with
  | some a => exact hf a
  | none => exact Or.inr rfl

theorem framed_bind_charge {r : Rules} {n : Nat} {f : Unit → Exec β}
    (hf : Framed below (f ()) { s with opCount := s.opCount + n }) :
    Framed below (charge r n >>= f) s := by
  refine (framed_charge r n).bind fun _ t hok => ?_
  have hends : (charge r n).Ends s (fun _ u => u = { s with opCount := s.opCount + n })
      fun _ _ => True := (ends_charge r n).2 ⟨fun _ => rfl, fun _ => trivial⟩
  rw [hends.of_ok hok]
  exact hf

theorem framed_bind_number {r : Rules} {n : Nat} {f : Int → Exec β} (hn : n < s.stack.length)
    (hf : ∀ v, Framed below (f v) s) : Framed below (number r n >>= f) s := by
  rw [number, bind_assoc]
  exact framed_bind_peek hn fun item => framed_bind_ofExcept hf

end

/-! ## Commands -/

section

variable {below : Stack Bytes} {s : State} {r : Rules}

theorem framed_reservedNop : Framed below (reservedNop r) s := framed_require _ _

theorem framed_popCondition (negated : Bool) : Framed below (popCondition r negated) s := by
  obtain ⟨stack, alt, branches, codeStart, opCount, calls⟩ := s
  cases stack with
  | nil => exact Or.inl ⟨_, _, Or.inr rfl, rfl⟩
  | cons item rest =>
      have hrest : Framed below (do
          require (r.flags.contains .minimalIf → item = [] ∨ item = [1]) .minimalIf
          pure (Operand.isTrue item != negated))
          ⟨rest, alt, branches, codeStart, opCount, calls⟩ :=
        framed_bind_require fun _ => framed_pure _
      exact hrest

theorem framed_verifyTop {e : ScriptError} (h : 1 ≤ s.stack.length) :
    Framed below (verifyTop e) s :=
  framed_bind_peek h fun _ => framed_bind_require fun _ =>
    framed_pop.bind fun _ _ _ => framed_pure ()

/-- The place that is asked for lies in the stack that is left below the number. -/
theorem framed_select {f : Nat → Stack Bytes → Option (Stack Bytes)}
    (hf : ∀ {n : Nat} {stack : Stack Bytes}, n < stack.length →
      f n (stack ++ below) = (f n stack).map (· ++ below)) : Framed below (select r f) s := by
  refine framed_bind_need fun h => framed_bind_number (by omega) fun n => ?_
  refine framed_bind_pop fun _ rest _ => ?_
  by_cases hn : 0 ≤ n ∧ n.toNat < rest.length
  · have hbelow : 0 ≤ n ∧ n.toNat < (rest ++ below).length := by
      rw [List.length_append]
      omega
    show Over below ((require (0 ≤ n ∧ n.toNat < rest.length) .invalidStackOperation >>= fun _ =>
        rearrange (f n.toNat)) _)
      ((require (0 ≤ n ∧ n.toNat < (rest ++ below).length) .invalidStackOperation >>= fun _ =>
        rearrange (f n.toNat)) _)
    rw [bind_of_ok (require_of _ hn), bind_of_ok (require_of _ hbelow)]
    exact framed_rearrange (s := { s with stack := rest }) (hf hn.2)
  · have hstop : (require (0 ≤ n ∧ n.toNat < rest.length) .invalidStackOperation >>= fun _ =>
        rearrange (f n.toNat)) { s with stack := rest } =
          .error (.error .invalidStackOperation) { s with stack := rest } :=
      bind_of_error (require_of_not _ hn)
    exact Or.inl ⟨_, _, Or.inl rfl, hstop⟩

theorem framed_concat : Framed below (concat r) s := by
  refine framed_bind_need fun h => framed_bind_peek (by omega) fun first => ?_
  refine framed_bind_peek (by omega) fun second => framed_bind_require fun _ => ?_
  exact framed_bind_pop fun _ _ _ => framed_bind_pop fun _ _ _ => framed_push _

theorem framed_split : Framed below (split r) s := by
  refine framed_bind_need fun h => framed_bind_number (by omega) fun position => ?_
  refine framed_bind_pop fun _ _ _ => framed_bind_pop fun item _ _ => ?_
  refine framed_bind_require fun _ => framed_bind_ofExcept fun parts => ?_
  exact (framed_push _).bind fun _ _ _ => framed_push _

theorem framed_resize : Framed below (resize r) s := by
  refine framed_bind_need fun h => framed_bind_number (by omega) fun size => ?_
  refine framed_bind_require fun _ => framed_bind_pop fun _ _ _ => ?_
  exact framed_bind_pop fun item _ _ => framed_bind_ofExcept fun _ => framed_push _

theorem framed_minimize : Framed below (minimize r) s := by
  refine framed_bind_pop fun item _ _ => framed_bind_ofOption fun trimmed => ?_
  exact framed_bind_require fun _ => framed_push _

theorem framed_bitwise (op : Operand.Bitwise) : Framed below (bitwise op) s := by
  refine framed_bind_need fun _ => framed_bind_pop fun b _ _ => framed_bind_pop fun a _ _ => ?_
  exact framed_bind_ofExcept fun _ => framed_push _

theorem framed_shift (left : Bool) : Framed below (shift r left) s := by
  refine framed_bind_need fun h => framed_bind_number (by omega) fun n => ?_
  refine framed_bind_require fun _ => framed_bind_pop fun _ _ _ => ?_
  exact framed_bind_pop fun item _ _ => framed_bind_ofOption fun _ => framed_push _

theorem framed_conclude (verify result : Bool) (e : ScriptError) :
    Framed below (conclude verify result e) s :=
  .ite (framed_require _ _) (framed_push _)

theorem framed_equal (verify : Bool) : Framed below (equal verify) s := by
  refine framed_bind_need fun _ => framed_bind_pop fun b _ _ => framed_bind_pop fun a _ _ => ?_
  exact framed_conclude _ _ _

theorem framed_unary (op : UnaryOp) : Framed below (unary r op) s := by
  refine framed_bind_need fun h => framed_bind_number h fun n => ?_
  exact framed_bind_pop fun _ _ _ => framed_push _

theorem framed_binary (op : BinaryOp) : Framed below (binary r op) s := by
  refine framed_bind_need fun h => framed_bind_number (by omega) fun a => ?_
  refine framed_bind_number (by omega) fun b => framed_bind_discard h fun _ => ?_
  exact framed_bind_ofExcept fun _ => framed_push _

theorem framed_within : Framed below (within r) s := by
  refine framed_bind_need fun h => framed_bind_number (by omega) fun x => ?_
  refine framed_bind_number (by omega) fun low => framed_bind_number (by omega) fun high => ?_
  exact framed_bind_discard h fun _ => framed_push _

/-! ### Signature checks -/

variable {script code : Script}

theorem framed_checkPair (sig key : Bytes) : Framed below (checkPair r code sig key) s :=
  framed_bind_ofExcept fun _ => framed_bind_ofExcept fun _ => framed_ask r _

theorem framed_closeSig {verify : Bool} {sig : Bytes} {result : Bool} (h : 2 ≤ s.stack.length) :
    Framed below (closeSig r verify sig result) s :=
  framed_bind_require fun _ => framed_bind_discard h fun _ => framed_conclude _ _ _

theorem framed_checkSig (verify : Bool) : Framed below (checkSig r script verify) s := by
  refine framed_bind_need fun h => framed_bind_peek (by omega) fun sig => ?_
  refine framed_bind_peek (by omega) fun key => ?_
  refine (framed_scriptCode script).bind_of_keeps (keeps_scriptCode script) fun code t ht => ?_
  rw [← ht] at h
  refine framed_bind_ofOption fun code => ?_
  refine (framed_checkPair sig key).bind_of_keeps
    (keeps_checkPair fun _ _ _ hu => hu) fun result u hu => ?_
  rw [← hu] at h
  exact framed_closeSig h

theorem framed_bind_count {α : Type} {place bound : Nat} {e : ScriptError} {f : Nat → Exec α}
    (hplace : place < s.stack.length) (hf : ∀ n, n ≤ bound → Framed below (f n) s) :
    Framed below (count r place bound e >>= f) s := by
  rw [count, bind_assoc]
  refine framed_bind_number hplace fun n => ?_
  rw [bind_assoc]
  exact framed_bind_require fun hn => hf n.toNat hn.2

/-- The signatures that the script code is cleaned of lie in the stack. -/
theorem framed_bind_cleanCodes {α : Type} {count place : Nat} {f : Script → Exec α}
    (h : place + count ≤ s.stack.length) (hf : ∀ code, Framed below (f code) s) :
    Framed below (cleanCodes r count place code >>= f) s := by
  have hbelow : place + count ≤ (s.onto below).stack.length := by
    rw [State.stack_onto, List.length_append]
    omega
  have hsigs : ((s.onto below).stack.drop place).take count = (s.stack.drop place).take count := by
    rw [State.stack_onto, List.drop_append_of_le_length (by omega),
      List.take_append_of_le_length (by rw [List.length_drop]; omega)]
  rw [Framed, bind_of_ok (cleanCodes_eq h), bind_of_ok (cleanCodes_eq hbelow), hsigs]
  exact hf _

theorem framed_tryPair {sigPlace keyPlace : Nat} (hsig : sigPlace < s.stack.length)
    (hkey : keyPlace < s.stack.length) : Framed below (tryPair r code sigPlace keyPlace) s :=
  framed_bind_peek hsig fun _ => framed_bind_peek hkey fun _ => framed_checkPair _ _

/-- The keys and signatures that are left lie in the stack, which the check leaves as it is. -/
theorem framed_matchSigs {keysLeft sigsLeft keyPlace sigPlace : Nat} (hle : sigsLeft ≤ keysLeft)
    (hkeys : keyPlace + keysLeft ≤ s.stack.length) (hsigs : sigPlace + sigsLeft ≤ s.stack.length) :
    Framed below (matchSigs r code keysLeft sigsLeft keyPlace sigPlace) s := by
  -- No more signatures than keys are left at any time, so the keys do not run out, and the next of
  -- both is always one of those that have been counted.
  induction keysLeft generalizing s sigsLeft keyPlace sigPlace with
  | zero =>
      cases sigsLeft with
      | zero => exact framed_pure true
      | succ sigsLeft => omega
  | succ keysLeft ih =>
      cases sigsLeft with
      | zero => exact framed_pure true
      | succ sigsLeft =>
          have htry : Framed below (tryPair r code sigPlace keyPlace) s :=
            framed_tryPair (by omega) (by omega)
          refine htry.bind_of_keeps (keeps_tryPair fun _ _ _ _ _ hu => hu) fun accepted t ht => ?_
          rw [← ht] at hkeys hsigs
          cases accepted with
          | true =>
              show Framed below (if keysLeft < sigsLeft then pure false
                else matchSigs r code keysLeft sigsLeft (keyPlace + 1) (sigPlace + 1)) t
              split
              · exact framed_pure false
              · exact ih (by omega) (by omega) (by omega)
          | false =>
              show Framed below (if keysLeft < sigsLeft + 1 then pure false
                else matchSigs r code keysLeft (sigsLeft + 1) (keyPlace + 1) sigPlace) t
              split
              · exact framed_pure false
              · exact ih (by omega) (by omega) (by omega)

theorem framed_requireNull {asked : Bool} (h : 1 ≤ s.stack.length) :
    Framed below (requireNull asked) s :=
  .ite (framed_bind_peek h fun _ => framed_require _ _) (framed_pure ())

/-- Unwinding stays in the items that it counts. -/
theorem framed_unwind {result : Bool} {items others : Nat} (h : items ≤ s.stack.length) :
    Framed below (unwind r result items others) s := by
  induction items generalizing s others with
  | zero => exact framed_pure ()
  | succ items ih =>
      have hnull : Framed below (requireNull (!result && r.flags.contains .nullFail && others = 0))
          s := framed_requireNull (by omega)
      refine hnull.bind_of_keeps (keeps_requireNull _) fun _ t ht => ?_
      refine framed_bind_pop fun item rest hstack => ih ?_
      rw [← ht, hstack, List.length_cons] at h
      exact Nat.le_of_succ_le_succ h

theorem framed_closeMultiSig {verify result : Bool} {n m : Nat}
    (h : n + m + 2 ≤ s.stack.length) : Framed below (closeMultiSig r verify n m result) s := by
  refine (framed_unwind h).bind fun _ _ _ => framed_bind_need fun hone => ?_
  refine framed_bind_peek hone fun dummy => framed_bind_require fun _ => ?_
  exact framed_bind_pop fun _ _ _ => framed_conclude _ _ _

theorem framed_checkMultiSig (verify : Bool) : Framed below (checkMultiSig r script verify) s := by
  refine framed_bind_need fun h => framed_bind_count h fun n _ => framed_bind_charge ?_
  refine framed_bind_need fun hkeys => framed_bind_count (by omega) fun m hm => ?_
  refine framed_bind_need fun hitems => ?_
  refine (framed_scriptCode script).bind_of_keeps (keeps_scriptCode script) fun code t ht => ?_
  rw [← ht] at hitems
  refine framed_bind_cleanCodes (by omega) fun code => ?_
  refine (framed_matchSigs hm (by omega) (by omega)).bind_of_keeps
    (keeps_matchSigs fun _ _ _ _ _ hu => hu) fun result u hu => ?_
  rw [← hu] at hitems
  exact framed_closeMultiSig (by omega)

end

/-! ### Instructions -/

section

variable {below : Stack Bytes} {s : State} {r : Rules} {script : Script}

/-- Only one command looks at the depth of the stack. -/
theorem framed_execute {taken : Bool} {next : Nat} {c : Command} (hc : c ≠ .pushDepth) :
    Framed below (execute r script taken next c) s := by
  cases c with
  | pushNumber n => exact framed_push _
  | nop => exact framed_pure ()
  | reservedNop => exact framed_reservedNop
  | lockTime => exact .ite (framed_pure ()) framed_reservedNop
  | relativeLockTime => exact .ite (framed_pure ()) framed_reservedNop
  | openBranch negated =>
      rw [execute_openBranch]
      have hcondition : Framed below (if taken then popCondition r negated else pure false) s :=
        .ite (framed_popCondition negated) (framed_pure false)
      exact hcondition.bind fun _ _ _ => framed_openBranch _
  | switchBranch => exact framed_switchBranch
  | closeBranch => exact framed_closeBranch
  | verify => exact framed_bind_need fun h => framed_verifyTop h
  | abort => exact framed_fail _
  | toAltStack => exact framed_bind_pop fun _ _ _ => framed_pushAlt _
  | fromAltStack => exact framed_popAlt.bind fun _ _ _ => framed_push _
  | shuffle m =>
      exact framed_bind_need fun h => framed_rearrange (Shuffle.run?_append h below)
  | copyIfTrue =>
      refine framed_bind_need fun h => framed_bind_peek h fun top => ?_
      exact .ite (framed_rearrange (Stack.copyBlock?_append h below)) (framed_pure ())
  | pushDepth => exact absurd rfl hc
  | pick => exact framed_select fun h => Stack.copyBlock?_append h below
  | roll => exact framed_select fun h => Stack.raiseBlock?_append h below
  | concat => exact framed_concat
  | split => exact framed_split
  | resize => exact framed_resize
  | minimize => exact framed_minimize
  | pushSize =>
      exact framed_bind_need fun h => framed_bind_peek h fun _ => framed_push _
  | invert => exact framed_bind_pop fun _ _ _ => framed_push _
  | bitwise op => exact framed_bitwise op
  | shift left => exact framed_shift left
  | equal verify => exact framed_equal verify
  | unary op => exact framed_unary op
  | binary op => exact framed_binary op
  | numEqualVerify =>
      refine (framed_binary .equal).bind fun _ t ht => framed_verifyTop ?_
      exact (safe_binary.of_ok ht).2
  | within => exact framed_within
  | hash op => exact framed_bind_pop fun _ _ _ => framed_push _
  | codeSeparator => exact framed_setCodeStart next
  | checkSig verify => exact framed_checkSig verify
  | checkMultiSig verify => exact framed_checkMultiSig verify
  | invalid => exact framed_fail _

theorem framed_prepare (op : Instr) : Framed below (prepare r op) s := by
  refine framed_bind_require fun _ => ?_
  have hcharge : Framed below (chargeInstr r op) s :=
    .ite (framed_pure ()) (framed_charge r 1)
  exact hcharge.bind fun _ _ _ => framed_require _ _

theorem framed_step {op : Instr} {next : Nat} (hop : op.code ≠ .depth) :
    Framed below (step r script op next) s := by
  have hcommand : op.code.command ≠ .pushDepth := mt Opcode.command_eq_pushDepth_iff.1 hop
  rw [step_eq]
  refine (framed_prepare op).bind fun _ t _ => ?_
  have hact : ∀ taken, Framed below (act r script op next taken) t := fun taken =>
    .ite (framed_bind_require fun _ => framed_push _)
      (.ite (framed_execute hcommand) (framed_pure ()))
  exact hact (t.branches.all id)

end

end Exec

/-! ## Runs

Under limits that leave room for the items below, a run goes the same way. No instruction asks for
the limit by itself: it is looked at between two of them. -/

def Rules.deepen (r : Rules) (n : Nat) : Rules :=
  { r with limits := { r.limits with stackDepth := r.limits.stackDepth + n } }

namespace Exec

section

variable {below : Stack Bytes} {s : State} {r : Rules} {script : Script}

theorem cleanCodes_deepen (n count place : Nat) (code : Script) :
    cleanCodes (r.deepen n) count place code = cleanCodes r count place code := by
  induction count generalizing place code with
  | zero => rfl
  | succ count ih => exact bind_congr fun sig => bind_congr fun code => ih (place + 1) code

theorem matchSigs_deepen (n : Nat) (code : Script) (keysLeft sigsLeft keyPlace sigPlace : Nat) :
    matchSigs (r.deepen n) code keysLeft sigsLeft keyPlace sigPlace =
      matchSigs r code keysLeft sigsLeft keyPlace sigPlace := by
  induction keysLeft generalizing sigsLeft keyPlace sigPlace with
  | zero =>
      cases sigsLeft with
      | zero => rfl
      | succ sigsLeft => rfl
  | succ keysLeft ih =>
      cases sigsLeft with
      | zero => rfl
      | succ sigsLeft =>
          rw [matchSigs, matchSigs]
          simp only [ih]
          rfl

theorem unwind_deepen (n : Nat) (result : Bool) (items others : Nat) :
    unwind (r.deepen n) result items others = unwind r result items others := by
  induction items generalizing others with
  | zero => rfl
  | succ items ih => exact bind_congr fun _ => bind_congr fun _ => ih (others - 1)

theorem closeMultiSig_deepen (n : Nat) (verify : Bool) (keys sigs : Nat) :
    closeMultiSig (r.deepen n) verify keys sigs = closeMultiSig r verify keys sigs := by
  funext result
  rw [closeMultiSig, closeMultiSig, unwind_deepen]
  rfl

theorem checkMultiSig_deepen (n : Nat) (verify : Bool) :
    checkMultiSig (r.deepen n) script verify = checkMultiSig r script verify := by
  rw [checkMultiSig, checkMultiSig]
  simp only [cleanCodes_deepen, matchSigs_deepen, closeMultiSig_deepen]
  rfl

theorem execute_deepen (n : Nat) (taken : Bool) (next : Nat) (c : Command) :
    execute (r.deepen n) script taken next c = execute r script taken next c := by
  cases c with
  | checkMultiSig verify => exact checkMultiSig_deepen n verify
  | _ => rfl

theorem step_deepen (n : Nat) (op : Instr) (next : Nat) :
    step (r.deepen n) script op next = step r script op next := by
  rw [step_eq, step_eq]
  refine bind_congr fun _ => bind_congr fun taken => ?_
  rw [act, act, execute_deepen]
  rfl

/-- The items below are the ones that there is more room for. -/
theorem over_checkDepth :
    Over below (checkDepth r s) (checkDepth (r.deepen below.length) (s.onto below)) := by
  have hroom : s.stack.length + s.alt.length ≤ r.limits.stackDepth ↔
      (s.stack ++ below).length + s.alt.length ≤ r.limits.stackDepth + below.length := by
    rw [List.length_append]
    omega
  by_cases h : s.stack.length + s.alt.length ≤ r.limits.stackDepth
  · have hcheck : checkDepth r s = .ok () s := require_of _ h
    have hbelow : checkDepth (r.deepen below.length) (s.onto below) = .ok () (s.onto below) :=
      require_of _ (hroom.1 h)
    exact Or.inr (by rw [hcheck, hbelow]; rfl)
  · have hcheck : checkDepth r s = .error (.error .stackSize) s := require_of_not _ h
    have hbelow : checkDepth (r.deepen below.length) (s.onto below) =
        .error (.error .stackSize) (s.onto below) := require_of_not _ (mt hroom.2 h)
    exact Or.inr (by rw [hcheck, hbelow]; rfl)

theorem over_runFrom {position : Nat} {ops : List Instr} (hops : ∀ op ∈ ops, op.code ≠ .depth) :
    Over below (runFrom r script position ops s)
      (runFrom (r.deepen below.length) script position ops (s.onto below)) := by
  induction ops generalizing position s with
  | nil => exact framed_pure ()
  | cons op ops ih =>
      rw [List.forall_mem_cons] at hops
      rw [runFrom, runFrom, step_deepen]
      exact Over.bind (framed_step hops.1) fun _ t _ =>
        over_checkDepth.bind fun _ u _ => ih hops.2

theorem over_run (hops : ∀ op ∈ script.instrs, op.code ≠ .depth) :
    Over below (run r script s) (run (r.deepen below.length) script (s.onto below)) := by
  rw [run, run]
  refine Over.bind (framed_require (script.length ≤ r.limits.scriptSize) _) fun _ t _ => ?_
  refine (over_runFrom hops).bind fun _ u _ => framed_bind_require fun _ => ?_
  exact framed_require (s := u) (u.branches = []) .unbalancedConditional

end

end Exec

def Session.onto (session : Session) (below : Stack Bytes) : Session :=
  { session with stack := session.stack ++ below }

/-- The frame rule: a script that does not ask for the depth of the stack does the same on top of
further items that there is room for, and leaves them as they are. That is, it ends with the same
stack on top of them, or it stops with the same error, unless it has stopped for want of items. The
checker is asked the same either way. -/
theorem Script.eval_onto (r : Rules) (below : Stack Bytes) {script : Script}
    (hops : ∀ op ∈ script.instrs, op.code ≠ .depth) (session : Session) :
    (∀ left, eval r script session = .ok () left →
      eval (r.deepen below.length) script (session.onto below) = .ok () (left.onto below)) ∧
    ∀ e left, eval r script session = .error e left →
      e ≠ .invalidStackOperation → e ≠ .unbalancedConditional →
      eval (r.deepen below.length) script (session.onto below) = .error e (left.onto below) := by
  have hrun : Exec.Over below
      (Exec.run r script { stack := session.stack, calls := session.calls })
      (Exec.run (r.deepen below.length) script
        { stack := session.stack ++ below, calls := session.calls }) := Exec.over_run hops
  simp only [eval, Session.onto]
  cases h : Exec.run r script { stack := session.stack, calls := session.calls } with
  | ok _ t =>
      rcases hrun with ⟨e, u, -, hstop⟩ | hbelow
      · rw [h] at hstop
        cases hstop
      · rw [hbelow, h]
        refine ⟨fun left hleft => ?_, fun e left hleft => by cases hleft⟩
        obtain ⟨-, rfl⟩ := EStateM.Result.ok.inj hleft
        rfl
  | error stop t =>
      refine ⟨fun left hleft => (by cases hleft), fun e left hleft hstack hbranches => ?_⟩
      obtain ⟨rfl, rfl⟩ := EStateM.Result.error.inj hleft
      rcases hrun with ⟨e, u, he, hstop⟩ | hbelow
      · obtain ⟨rfl, -⟩ := EStateM.Result.error.inj (h.symm.trans hstop)
        exact absurd he (not_or.2 ⟨hstack, hbranches⟩)
      · rw [hbelow, h]
        rfl

/-- The key and the number of keys are swapped by a move whose distance is on the stack, and then
the signature is checked, with two items below the dummy. It is accepted by one checker and refused
by another. -/
theorem Script.eval_onto_multiSig :
    (∀ op ∈ instrs [0x51, 0x7a, 0xaf], op.code ≠ .depth) ∧
      eval (Rules.deepen ⟨.none, { stackDepth := 6 }, .accepting [([9], [7])] false, .standard⟩ 2)
        [0x51, 0x7a, 0xaf] ⟨[[7], [1], [1], [9], [], [5], [6]], []⟩ =
        .ok () ⟨[[5], [6]], [⟨[9], [7], [0x51, 0x7a, 0xaf]⟩]⟩ ∧
      eval (Rules.deepen ⟨.none, { stackDepth := 6 }, .refusing, .standard⟩ 2)
        [0x51, 0x7a, 0xaf] ⟨[[7], [1], [1], [9], [], [5], [6]], []⟩ =
        .error .checkMultiSigVerify ⟨[[5], [6]], [⟨[9], [7], [0x51, 0x7a, 0xaf]⟩]⟩ := by
  have hops : ∀ op ∈ instrs [0x51, 0x7a, 0xaf], op.code ≠ .depth := by decide +kernel
  have haccepted := (eval_onto
    ⟨.none, { stackDepth := 6 }, .accepting [([9], [7])] false, .standard⟩ [[5], [6]] hops
    ⟨[[7], [1], [1], [9], []], []⟩).1 ⟨[], [⟨[9], [7], [0x51, 0x7a, 0xaf]⟩]⟩ (by decide +kernel)
  have hrefused := (eval_onto ⟨.none, { stackDepth := 6 }, .refusing, .standard⟩ [[5], [6]] hops
    ⟨[[7], [1], [1], [9], []], []⟩).2 .checkMultiSigVerify ⟨[], [⟨[9], [7], [0x51, 0x7a, 0xaf]⟩]⟩
    (by decide +kernel) (by decide) (by decide)
  exact ⟨hops, haccepted, hrefused⟩

end BitcoinScript
