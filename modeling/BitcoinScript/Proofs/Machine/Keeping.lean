import BitcoinScript.Proofs.Machine.Outcome

/-!
# Conditions that steps keep

`Exec.Keeps I m` says that the step `m` leads from states with the condition `I` to states with it,
whether it stops or not. Most steps of a signature check only look at the main stack or change it,
so they keep every condition that is not about it. Asking the checker adds a call, which the
condition must allow for.
-/

namespace BitcoinScript.Exec

section

variable {α β : Type} {I : State → Prop} {r : Rules}

/-- The step keeps the condition, whether it stops or not. -/
def Keeps (I : State → Prop) (m : Exec α) : Prop :=
  ∀ s, I s → m.Ends s (fun _ t => I t) fun _ t => I t

def IgnoresStack (I : State → Prop) : Prop := ∀ s stack, I s → I { s with stack }

namespace Keeps

theorem bind {m : Exec α} {f : α → Exec β} (h : Keeps I m) (hf : ∀ a, Keeps I (f a)) :
    Keeps I (m >>= f) := fun s hs =>
  (ends_bind m f).2 ((h s hs).mono (fun a t ht => hf a t ht) fun _ _ ht => ht)

theorem ite {p : Prop} [Decidable p] {m m' : Exec α} (h : Keeps I m) (h' : Keeps I m') :
    Keeps I (if p then m else m') := by
  split
  · exact h
  · exact h'

end Keeps

theorem keeps_pure (a : α) : Keeps I (pure a) := fun _ hs => hs

theorem keeps_fault : Keeps I (fault : Exec α) := fun _ hs => hs

theorem keeps_ofExcept (x : Except Stop α) : Keeps I (ofExcept x) := fun _ hs =>
  (ends_ofExcept x).2 ⟨fun _ _ => hs, fun _ _ => hs⟩

theorem keeps_ofOption (x : Option α) : Keeps I (ofOption x) := fun _ hs =>
  (ends_ofOption x).2 ⟨fun _ _ => hs, fun _ => hs⟩

theorem keeps_require (p : Prop) [Decidable p] (e : ScriptError) : Keeps I (require p e) :=
  fun _ hs => (ends_require p e).2 ⟨fun _ => hs, fun _ => hs⟩

theorem keeps_need (n : Nat) : Keeps I (need n) := fun _ hs =>
  (ends_need n).2 ⟨fun _ => hs, fun _ => hs⟩

theorem keeps_peek (n : Nat) : Keeps I (peek n) := fun _ hs =>
  (ends_peek n).2 ⟨fun _ _ => hs, fun _ => hs⟩

theorem keeps_count {I : State → Prop} (place bound : Nat) (e : ScriptError) :
    Keeps I (count r place bound e) :=
  .bind ((keeps_peek place).bind fun _ => keeps_ofExcept _) fun _ =>
    (keeps_require _ _).bind fun _ => keeps_pure _

theorem keeps_scriptCode (script : Script) : Keeps I (scriptCode script) := fun _ hs =>
  (ends_scriptCode script).2 ⟨fun _ => hs, fun _ => hs⟩

theorem keeps_pop (hI : IgnoresStack I) : Keeps I pop := fun s hs =>
  ends_pop.2 ⟨fun _ rest _ => hI s rest hs, fun _ => hs⟩

theorem keeps_discard (hI : IgnoresStack I) (n : Nat) : Keeps I (discard n) := fun s hs =>
  (ends_rearrange _).2 ⟨fun stack _ => hI s stack hs, fun _ => hs⟩

theorem keeps_conclude (hI : IgnoresStack I) (verify result : Bool) (e : ScriptError) :
    Keeps I (conclude verify result e) := fun s hs =>
  (ends_conclude verify result e).2 ⟨fun _ => ⟨fun _ => hs, fun _ => hs⟩, fun _ => hI s _ hs⟩

theorem keeps_requireNull (asked : Bool) : Keeps I (requireNull asked) :=
  .ite ((keeps_peek 0).bind fun _ => keeps_require _ _) (keeps_pure ())

theorem keeps_unwind (hI : IgnoresStack I) (result : Bool) (items others : Nat) :
    Keeps I (unwind r result items others) := by
  induction items generalizing others with
  | zero => exact keeps_pure ()
  | succ items ih =>
      refine (keeps_requireNull _).bind fun _ => (keeps_pop hI).bind fun _ => ?_
      exact ih (others - 1)

/-! ## Asking the checker -/

variable {code : Script}

theorem keeps_ask {call : SigCall} (h : ∀ s, I s → I { s with calls := s.calls ++ [call] }) :
    Keeps I (ask r call) := fun s hs =>
  (ends_ask r call).2 ⟨fun _ _ => h s hs, fun _ => h s hs⟩

/-- The checker is asked about forms that have been checked. -/
theorem keeps_checkPair {sig key : Bytes}
    (h : Signature.checkForm sig r.crypto r.flags = .ok () →
      Signature.checkKeyForm key r.flags = .ok () →
        ∀ s, I s → I { s with calls := s.calls ++ [⟨sig, key, code⟩] }) :
    Keeps I (checkPair r code sig key) := by
  intro s hs
  refine (ends_bind _ _).2 ((ends_ofExcept _).2 ⟨fun _ hsig => ?_, fun _ _ => hs⟩)
  refine (ends_bind _ _).2 ((ends_ofExcept _).2 ⟨fun _ hkey => ?_, fun _ _ => hs⟩)
  exact keeps_ask (h hsig hkey) s hs

theorem keeps_tryPair {sigPlace keyPlace : Nat}
    (h : ∀ sig key, Signature.checkForm sig r.crypto r.flags = .ok () →
      Signature.checkKeyForm key r.flags = .ok () →
        ∀ s, I s → I { s with calls := s.calls ++ [⟨sig, key, code⟩] }) :
    Keeps I (tryPair r code sigPlace keyPlace) :=
  (keeps_peek sigPlace).bind fun sig => (keeps_peek keyPlace).bind fun key =>
    keeps_checkPair (h sig key)

theorem keeps_matchSigs {keysLeft sigsLeft keyPlace sigPlace : Nat}
    (h : ∀ sig key, Signature.checkForm sig r.crypto r.flags = .ok () →
      Signature.checkKeyForm key r.flags = .ok () →
        ∀ s, I s → I { s with calls := s.calls ++ [⟨sig, key, code⟩] }) :
    Keeps I (matchSigs r code keysLeft sigsLeft keyPlace sigPlace) := by
  induction keysLeft generalizing sigsLeft keyPlace sigPlace with
  | zero =>
      cases sigsLeft with
      | zero => exact keeps_pure true
      | succ sigsLeft => exact (keeps_tryPair h).bind fun _ => keeps_fault
  | succ keysLeft ih =>
      cases sigsLeft with
      | zero => exact keeps_pure true
      | succ sigsLeft => exact (keeps_tryPair h).bind fun accepted => .ite (keeps_pure false) ih

/-! ## The ends of checks -/

theorem keeps_closeSig (hI : IgnoresStack I) (verify : Bool) (sig : Bytes) (result : Bool) :
    Keeps I (closeSig r verify sig result) :=
  (keeps_require _ _).bind fun _ => (keeps_discard hI 2).bind fun _ => keeps_conclude hI _ _ _

theorem keeps_dropDummy (hI : IgnoresStack I) (verify result : Bool) :
    Keeps I (dropDummy r verify result) := by
  refine (keeps_need 1).bind fun _ => (keeps_peek 0).bind fun dummy => ?_
  refine (keeps_require _ _).bind fun _ => (keeps_pop hI).bind fun _ => ?_
  exact keeps_conclude hI _ _ _

theorem keeps_closeMultiSig (hI : IgnoresStack I) (verify : Bool) (n m : Nat) (result : Bool) :
    Keeps I (closeMultiSig r verify n m result) :=
  (keeps_unwind hI _ _ _).bind fun _ => keeps_dropDummy hI verify result

end

end BitcoinScript.Exec
