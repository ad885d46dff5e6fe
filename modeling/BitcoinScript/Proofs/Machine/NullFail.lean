import BitcoinScript.Proofs.Machine.Multisig
import BitcoinScript.Proofs.Machine.Operations
import BitcoinScript.Proofs.Machine.Stepping

/-!
# Empty signatures of failed checks

Under one of the flags the signatures of a check that comes out false must be empty, also those that
have not been tried. A check of one signature looks at it before it removes its operands. A multiple
signature check looks at what it removes, and counts down to know when the signatures begin.

`Exec.ComesTo` says that a check finds its operands in order and what it comes to, whatever checker
it asks. From there on the only thing that makes the check fail with this error is an own signature
that is not empty, and before that nothing does.
-/

namespace BitcoinScript.Exec

/-- A check of signatures finds its operands, keeps to the limits and meets no encoding that the
flags refuse. It comes to a result about the given signatures. -/
inductive ComesTo (r : Rules) (script : Script) (s : State) :
    Command → (sigs : List Bytes) → (result : Bool) → State → Prop
  | checkSig {verify result : Bool} {sig key : Bytes} {rest : Stack Bytes} {t : State}
      (hstack : s.stack = key :: sig :: rest) (hcode : s.codeStart ≤ script.length)
      (hpair : checkPair r (cleanedCode r script s [sig]) sig key s = .ok result t) :
      ComesTo r script s (.checkSig verify) [sig] result t
  | checkMultiSig {verify result : Bool} {n m dummy : Bytes} {keys sigs : List Bytes}
      {rest : Stack Bytes} {t : State}
      (hfinds : FindsOperands r script s n keys m sigs dummy rest)
      (hmatch : matchLists r (cleanedCode r script s sigs) keys sigs
        { s with opCount := s.opCount + keys.length } = .ok result t) :
      ComesTo r script s (.checkMultiSig verify) sigs result t

/-- The check should have had empty signatures and has not. -/
def NeedsNull (r : Rules) (result : Bool) (sigs : List Bytes) : Prop :=
  r.flags.contains .nullFail ∧ result = false ∧ ∃ sig ∈ sigs, sig ≠ []

/-- The step does not stop since a signature should be empty. -/
def AvoidsNullFail {α : Type} (m : Exec α) (t : State) : Prop :=
  m.Ends t (fun _ _ => True) fun stop _ => stop ≠ .error .sigNullFail

section

variable {α β : Type} {r : Rules} {script : Script} {s t u : State} {code : Script}

namespace AvoidsNullFail

theorem ne {m : Exec α} (h : AvoidsNullFail m t) :
    ¬∃ u, m t = .error (.error .sigNullFail) u :=
  fun ⟨_, hm⟩ => Ends.of_error h hm rfl

theorem bind {m : Exec α} {f : α → Exec β} (h : AvoidsNullFail m t)
    (hf : ∀ a u, AvoidsNullFail (f a) u) : AvoidsNullFail (m >>= f) t :=
  Ends.bind h fun a u _ _ => hf a u

/-- If the first step avoids the error, what fails with it is behind a value of the first step. -/
theorem ends_bind {m : Exec α} {f : α → Exec β} {A : Prop} (h : AvoidsNullFail m t)
    (hf : ∀ a u, m t = .ok a u → A) :
    (m >>= f).Ends t (fun _ _ => True) fun stop _ => stop = .error .sigNullFail → A := by
  refine Ends.bind (P := fun _ _ => True)
    (h.mono (fun _ _ _ => trivial) fun _ _ hne heq => absurd heq hne) fun a u hm _ => ?_
  rw [Ends]
  split
  · trivial
  · exact fun _ => hf a u hm

theorem ite {p : Prop} [Decidable p] {m m' : Exec α} (h : AvoidsNullFail m t)
    (h' : AvoidsNullFail m' t) : AvoidsNullFail (if p then m else m') t := by
  split
  · exact h
  · exact h'

end AvoidsNullFail

/-! ## The pairs of a check -/

theorem avoidsNullFail_checkPair {sig key : Bytes} :
    AvoidsNullFail (checkPair r code sig key) t := by
  refine (ends_bind _ _).2 ((ends_ofExcept _).2 ⟨fun _ _ => ?_, ?_⟩)
  · refine (ends_bind _ _).2 ((ends_ofExcept _).2 ⟨fun _ _ => ?_, ?_⟩)
    · exact (ends_ask _ _).2 ⟨fun _ _ => trivial, fun _ => by decide⟩
    · rintro _ hkey rfl
      exact Signature.failsOnly_checkKeyForm.ne (by decide) hkey
  · rintro _ hsig rfl
    exact Signature.failsOnly_checkForm.ne (by decide) hsig

theorem avoidsNullFail_matchLists {keys sigs : List Bytes} :
    AvoidsNullFail (matchLists r code keys sigs) t := by
  induction keys generalizing sigs t with
  | nil =>
      cases sigs with
      | nil => trivial
      | cons sig sigs => trivial
  | cons key keys ih =>
      cases sigs with
      | nil => trivial
      | cons sig sigs =>
          exact avoidsNullFail_checkPair.bind fun accepted u => .ite trivial ih

/-! ## The end of a check -/

/-- Behind its operands a multiple signature check looks at one more item, which is no signature. -/
theorem avoidsNullFail_dropDummy (verify result : Bool) :
    AvoidsNullFail (dropDummy r verify result) t := by
  refine (ends_bind _ _).2 ((ends_need 1).2 ⟨fun _ => ?_, fun _ => by decide⟩)
  refine (ends_bind _ _).2 ((ends_peek 0).2 ⟨fun dummy _ => ?_, fun _ => by decide⟩)
  refine (ends_bind _ _).2 ((ends_require _ _).2 ⟨fun _ => ?_, fun _ => by decide⟩)
  refine (ends_bind _ _).2 (ends_pop.2 ⟨fun _ _ _ => ?_, fun _ => by decide⟩)
  exact (ends_conclude _ _ _).2 ⟨fun _ => ⟨fun _ => trivial, fun _ => by decide⟩, fun _ => trivial⟩

/-- The items that are removed one by one are the counts, the keys and the signatures, and of these
only the signatures are looked at. -/
theorem closeMultiSig_sigNullFail_iff {n m dummy : Bytes} {keys sigs : List Bytes}
    {rest : Stack Bytes} {verify result : Bool}
    (hstack : t.stack = (n :: (keys ++ m :: sigs)) ++ dummy :: rest) :
    (∃ u, closeMultiSig r verify keys.length sigs.length result t =
      .error (.error .sigNullFail) u) ↔ NeedsNull r result sigs := by
  by_cases hneeds : NeedsNull r result sigs
  · obtain ⟨hflag, rfl, hsigs⟩ := hneeds
    exact iff_of_true (closeMultiSig_of_not_null _ hstack hflag hsigs) ⟨hflag, rfl, hsigs⟩
  · have hnull : result = false → r.flags.contains .nullFail → ∀ sig ∈ sigs, sig = [] :=
      fun hresult hflag sig hsig =>
        by_contra fun hne => hneeds ⟨hflag, hresult, sig, hsig, hne⟩
    rw [closeMultiSig_of_null hstack hnull]
    exact iff_of_false (avoidsNullFail_dropDummy verify result).ne hneeds

/-- The signature of a single check is looked at before anything is removed. -/
theorem closeSig_sigNullFail_iff {sig : Bytes} {verify result : Bool} :
    (∃ u, closeSig r verify sig result t = .error (.error .sigNullFail) u) ↔
      NeedsNull r result [sig] := by
  rw [closeSig]
  by_cases hnull : r.flags.contains .nullFail → result ∨ sig = []
  · rw [bind_of_ok (require_of _ hnull)]
    refine iff_of_false (AvoidsNullFail.ne ?_) ?_
    · refine (ends_bind _ _).2 ((ends_rearrange _).2 ⟨fun _ _ => ?_, fun _ => by decide⟩)
      exact (ends_conclude _ _ _).2
        ⟨fun _ => ⟨fun _ => trivial, fun _ => by decide⟩, fun _ => trivial⟩
    · rintro ⟨hflag, rfl, sig', hmem, hne⟩
      obtain rfl := List.mem_singleton.1 hmem
      exact hne ((hnull hflag).resolve_left Bool.false_ne_true)
  · rw [bind_of_error (require_of_not _ hnull)]
    rw [Classical.not_imp, not_or, Bool.not_eq_true] at hnull
    exact iff_of_true ⟨t, rfl⟩ ⟨hnull.1, hnull.2.1, sig, List.mem_singleton_self sig, hnull.2.2⟩

/-! ## The whole check -/

variable {c : Command} {next : Nat}

theorem execute_sigNullFail_iff {sigs : List Bytes} {result : Bool}
    (h : ComesTo r script s c sigs result t) :
    (∃ u, execute r script true next c s = .error (.error .sigNullFail) u) ↔
      NeedsNull r result sigs := by
  cases h with
  | @checkSig verify _ sig key rest _ hstack hcode hpair =>
      have hcleaned : checkPair r (Signature.cleanCode r.flags (script.drop s.codeStart) sig) sig
          key s = .ok result t := hpair
      show (∃ u, checkSig r script verify s = _) ↔ _
      rw [checkSig_of_stack hstack hcode, bind_of_ok hcleaned]
      exact closeSig_sigNullFail_iff
  | @checkMultiSig verify _ n m dummy keys _ rest _ hfinds hmatch =>
      show (∃ u, checkMultiSig r script verify s = _) ↔ _
      rw [hfinds.checkMultiSig_eq verify, bind_of_ok ((hfinds.matchSigs_eq _ _).trans hmatch)]
      have hstack : t.stack = _ := (stack_of_matchLists hmatch).trans hfinds.stack_eq_append
      exact closeMultiSig_sigNullFail_iff hstack

/-- A check that fails with this error has come to a result. -/
theorem exists_comesTo (hc : c.checksSigs)
    (h : execute r script true next c s = .error (.error .sigNullFail) u) :
    ∃ sigs result t, ComesTo r script s c sigs result t := by
  suffices hends : (execute r script true next c).Ends s (fun _ _ => True) fun stop _ =>
      stop = .error .sigNullFail → ∃ sigs result t, ComesTo r script s c sigs result t from
    hends.of_error h rfl
  cases c with
  | checkSig verify =>
      have hfault : Stop.fault ≠ .error .sigNullFail := by decide
      refine (ends_bind _ _).2 ((ends_need 2).2 ⟨fun _ => ?_, fun _ h => absurd h (by decide)⟩)
      refine (ends_bind _ _).2 ((ends_peek 1).2 ⟨fun sig hsig => ?_, fun _ h => (hfault h).elim⟩)
      refine (ends_bind _ _).2 ((ends_peek 0).2 ⟨fun key hkey => ?_, fun _ h => (hfault h).elim⟩)
      refine (ends_bind _ _).2
        ((ends_scriptCode script).2 ⟨fun hcode => ?_, fun _ h => (hfault h).elim⟩)
      refine (ends_bind _ _).2
        ((ends_ofOption _).2 ⟨fun code hclean => ?_, fun _ h => (hfault h).elim⟩)
      rw [Signature.cleanCode?_eq, Option.some.injEq] at hclean
      subst hclean
      obtain ⟨rest, hstack⟩ := exists_stack_of_getElem? hkey hsig
      exact avoidsNullFail_checkPair.ends_bind fun result t hpair =>
        ⟨[sig], result, t, .checkSig hstack hcode hpair⟩
  | checkMultiSig verify =>
      refine ends_checkMultiSig (fun _ _ hne heq => absurd heq hne)
        fun n keys m sigs _ _ hfinds => ?_
      have havoids : AvoidsNullFail (matchSigs r (cleanedCode r script s sigs) keys.length
          sigs.length 1 (keys.length + 2)) { s with opCount := s.opCount + keys.length } := by
        rw [AvoidsNullFail, Ends, hfinds.matchSigs_eq]
        exact avoidsNullFail_matchLists
      exact havoids.ends_bind fun result t hmatch =>
        ⟨sigs, result, t, .checkMultiSig hfinds ((hfinds.matchSigs_eq _ _).symm.trans hmatch)⟩
  | _ => exact absurd hc Bool.false_ne_true

/-- Under the flag a check that finds its operands in order and comes out false fails if one of its
signatures is not empty, tried or not, and it fails with this very error. A check whose signatures
are all empty, or that comes out true, never does, and neither does one without a result. -/
theorem execute_nullFail (r : Rules) (script : Script) (s : State) (c : Command) (next : Nat) :
    (∀ sigs result t, ComesTo r script s c sigs result t →
      ((∃ u, execute r script true next c s = .error (.error .sigNullFail) u) ↔
        r.flags.contains .nullFail ∧ result = false ∧ ∃ sig ∈ sigs, sig ≠ [])) ∧
      (c.checksSigs →
        (∃ u, execute r script true next c s = .error (.error .sigNullFail) u) →
        ∃ sigs t, ComesTo r script s c sigs false t) := by
  refine ⟨fun sigs result t h => execute_sigNullFail_iff h, fun hc hfails => ?_⟩
  obtain ⟨u, hu⟩ := hfails
  obtain ⟨sigs, result, t, h⟩ := exists_comesTo hc hu
  obtain ⟨-, rfl, -⟩ := (execute_sigNullFail_iff h).1 ⟨u, hu⟩
  exact ⟨sigs, t, h⟩

end

/-- Two keys, an empty signature that the first key is tried with, and one that is never tried. The
extra item is not empty either, but the signature is what the check fails with. -/
theorem execute_nullFail_untried :
    ∃ u, execute ⟨.ofList [.nullFail, .nullDummy], .consensus, .refusing, .standard⟩ [] true 0
      (.checkMultiSig true) { stack := [[2], [12], [11], [2], [], [7], [9]] } =
        .error (.error .sigNullFail) u := by
  let r : Rules := ⟨.ofList [.nullFail, .nullDummy], .consensus, .refusing, .standard⟩
  let s : State := { stack := [[2], [12], [11], [2], [], [7], [9]] }
  have hfinds : FindsOperands r [] s [2] [[12], [11]] [2] [[], [7]] [9] [] :=
    { stack := rfl
      codeStart_le := by decide
      keyCount := (Number.decode_eq _ _ _).trans rfl
      sigCount := (Number.decode_eq _ _ _).trans rfl
      keys_le := by decide
      sigs_le := by decide
      ops_le := by decide }
  have hmatch : matchLists r (cleanedCode r [] s [[], [7]]) [[12], [11]] [[], [7]]
      { s with opCount := 2 } = .ok false
        { s with opCount := 2, calls := [⟨[], [12], cleanedCode r [] s [[], [7]]⟩] } := rfl
  refine ((execute_nullFail r [] s _ 0).1 _ _ _ (.checkMultiSig hfinds hmatch)).2 ⟨rfl, rfl, ?_⟩
  exact ⟨[7], by decide, by decide⟩

end BitcoinScript.Exec
