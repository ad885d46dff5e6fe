import BitcoinScript.Proofs.Machine.Operands
import BitcoinScript.Proofs.Number.Word
import Mathlib.Data.List.NodupEquivFin

/-!
# Multiple signature checks

A multiple signature check is true exactly if its signatures can be assigned to keys in order, so
that each is accepted under its key. The check tries keys from the top of the stack and never goes
back: a key that accepts the signature in question can as well be the one assigned to it, since a
later key that the signature is assigned to only leaves fewer keys to the others. When the keys left
are fewer than the signatures left there is no assignment any more.

The assignments are described by `List.SublistForall₂`, which does not depend on the end of the
stack from which they are read.
-/

namespace BitcoinScript

open List

/-! ## Assignments in order -/

section

variable {α β : Type} {R : α → β → Prop}

/-- Lists are matched in order exactly if there is a strictly increasing map of their positions. -/
theorem sublistForall₂_iff_exists_strictMono {as : List α} {bs : List β} :
    SublistForall₂ R as bs ↔
      ∃ f : Fin as.length → Fin bs.length, StrictMono f ∧ ∀ i, R as[i] bs[f i] := by
  rw [sublistForall₂_iff]
  constructor
  · rintro ⟨cs, hcs, hsub⟩
    obtain ⟨f, hf⟩ := sublist_iff_exists_fin_orderEmbedding_get_eq.1 hsub
    obtain ⟨hlen, hget⟩ := forall₂_iff_get.1 hcs
    refine ⟨fun i => f (i.cast hlen), fun i j hij => f.strictMono hij, fun i => ?_⟩
    have hi := hget i i.isLt (hlen ▸ i.isLt)
    rw [hf] at hi
    exact hi
  · rintro ⟨f, hmono, hf⟩
    refine ⟨List.ofFn fun i => bs[f i], ?_, ?_⟩
    · refine forall₂_iff_get.2 ⟨by rw [length_ofFn], fun i hi hi' => ?_⟩
      rw [get_ofFn]
      exact hf ⟨i, hi⟩
    · have hlen : (List.ofFn fun i => bs[f i]).length = as.length := length_ofFn
      have hembed : StrictMono fun i : Fin (List.ofFn fun i => bs[f i]).length =>
          f (i.cast hlen) := fun i j hij => hmono hij
      refine sublist_iff_exists_fin_orderEmbedding_get_eq.2
        ⟨OrderEmbedding.ofStrictMono _ hembed, fun i => ?_⟩
      rw [get_ofFn]
      rfl

theorem sublistForall₂_reverse_iff {as : List α} {bs : List β} :
    SublistForall₂ R as.reverse bs.reverse ↔ SublistForall₂ R as bs := by
  have himp : ∀ {as : List α} {bs : List β}, SublistForall₂ R as bs →
      SublistForall₂ R as.reverse bs.reverse := by
    intro as bs h
    obtain ⟨cs, hcs, hsub⟩ := sublistForall₂_iff.1 h
    exact sublistForall₂_iff.2 ⟨cs.reverse, forall₂_reverse_iff.2 hcs, hsub.reverse⟩
  refine ⟨fun h => ?_, himp⟩
  have hback := himp h
  rwa [reverse_reverse, reverse_reverse] at hback

theorem sublistForall₂_of_cons {a : α} {as : List α} {bs : List β}
    (h : SublistForall₂ R (a :: as) bs) : SublistForall₂ R as bs := by
  induction bs with
  | nil => exact nomatch h
  | cons b bs ih =>
      cases h with
      | cons _ h => exact .cons_right h
      | cons_right h => exact .cons_right (ih h)

/-- The first key that accepts the first signature can be assigned to it. -/
theorem sublistForall₂_cons_iff_of_rel {a : α} {b : β} {as : List α} {bs : List β} (h : R a b) :
    SublistForall₂ R (a :: as) (b :: bs) ↔ SublistForall₂ R as bs := by
  constructor
  · intro hcons
    cases hcons with
    | cons _ hrest => exact hrest
    | cons_right hrest => exact sublistForall₂_of_cons hrest
  · exact .cons h

/-- A key that does not accept the first signature is of no use. -/
theorem sublistForall₂_cons_iff_of_not_rel {a : α} {b : β} {as : List α} {bs : List β}
    (h : ¬R a b) : SublistForall₂ R (a :: as) (b :: bs) ↔ SublistForall₂ R (a :: as) bs := by
  constructor
  · intro hcons
    cases hcons with
    | cons hrel _ => exact absurd hrel h
    | cons_right hrest => exact hrest
  · exact .cons_right

theorem length_le_of_sublistForall₂ {as : List α} {bs : List β} (h : SublistForall₂ R as bs) :
    as.length ≤ bs.length := by
  obtain ⟨cs, hcs, hsub⟩ := sublistForall₂_iff.1 h
  exact hcs.length_eq ▸ hsub.length_le

end

namespace Exec

section

variable {r : Rules} {code : Script} {t : State}

/-- Whether the checker accepts a signature under a key for a script code. -/
def Accepts (r : Rules) (code : Script) (sig key : Bytes) : Prop :=
  r.checker.checkSig [] ⟨sig, key, code⟩ r.flags = some true

theorem checkPair_of_pure (hpure : r.checker.IsPure) (hanswers : r.checker.Answers)
    (code : Script) (t : State) {sig key : Bytes}
    (hsig : Signature.checkForm sig r.crypto r.flags = .ok ())
    (hkey : Signature.checkKeyForm key r.flags = .ok ()) :
    ∃ accepted calls, (accepted = true ↔ Accepts r code sig key) ∧
      checkPair r code sig key t = .ok accepted { t with calls := t.calls ++ calls } := by
  obtain ⟨accepted, haccepted⟩ :=
    Option.isSome_iff_exists.1 (hanswers t.calls ⟨sig, key, code⟩ r.flags)
  refine ⟨accepted, [⟨sig, key, code⟩], ?_, ?_⟩
  · rw [Accepts, hpure [] t.calls, haccepted, Option.some.injEq]
  · rw [checkPair, hsig, hkey]
    exact ask_of_some haccepted

/-- The check tells whether the signatures can be assigned to the keys. -/
theorem matchLists_of_pure (code : Script) (hpure : r.checker.IsPure)
    (hanswers : r.checker.Answers) {keys sigs : List Bytes} (hle : sigs.length ≤ keys.length)
    (hsig : ∀ sig ∈ sigs, Signature.checkForm sig r.crypto r.flags = .ok ())
    (hkey : ∀ key ∈ keys, Signature.checkKeyForm key r.flags = .ok ()) :
    ∃ result calls, (result = true ↔ SublistForall₂ (Accepts r code) sigs keys) ∧
      matchLists r code keys sigs t = .ok result { t with calls := t.calls ++ calls } := by
  induction keys generalizing sigs t with
  | nil =>
      obtain rfl := eq_nil_of_length_eq_zero (Nat.le_zero.1 hle)
      exact ⟨true, [], ⟨fun _ => .nil, fun _ => rfl⟩, by rw [append_nil]; rfl⟩
  | cons key keys ih =>
      cases sigs with
      | nil => exact ⟨true, [], ⟨fun _ => .nil, fun _ => rfl⟩, by rw [append_nil]; rfl⟩
      | cons sig sigs =>
          rw [forall_mem_cons] at hkey
          obtain ⟨accepted, calls, haccepted, hpair⟩ :=
            checkPair_of_pure hpure hanswers code t (hsig sig mem_cons_self) hkey.1
          rw [length_cons, length_cons] at hle
          rw [matchLists, bind_of_ok hpair]
          cases accepted with
          | true =>
              rw [sublistForall₂_cons_iff_of_rel (haccepted.1 rfl)]
              obtain ⟨result, calls', hresult, hmatch⟩ :=
                ih (t := { t with calls := t.calls ++ calls }) (Nat.le_of_succ_le_succ hle)
                  (fun sig h => hsig sig (mem_cons_of_mem _ h)) hkey.2
              refine ⟨result, calls ++ calls', hresult, ?_⟩
              show (if keys.length < sigs.length then pure false
                else matchLists r code keys sigs) _ = _
              rw [if_neg (by omega), hmatch, append_assoc]
          | false =>
              have hreject : ¬Accepts r code sig key := fun h =>
                absurd (haccepted.2 h) Bool.false_ne_true
              rw [sublistForall₂_cons_iff_of_not_rel hreject]
              show ∃ result calls', _ ∧ (if keys.length < (sig :: sigs).length then pure false
                else matchLists r code keys (sig :: sigs)) _ = _
              by_cases hfew : keys.length < (sig :: sigs).length
              · rw [if_pos hfew]
                refine ⟨false, calls, ⟨fun h => absurd h Bool.false_ne_true, fun h => ?_⟩, rfl⟩
                exact absurd (length_le_of_sublistForall₂ h) (Nat.not_le.2 hfew)
              · rw [if_neg hfew]
                obtain ⟨result, calls', hresult, hmatch⟩ :=
                  ih (t := { t with calls := t.calls ++ calls }) (Nat.not_lt.1 hfew) hsig hkey.2
                refine ⟨result, calls ++ calls', hresult, ?_⟩
                rw [← append_assoc]
                exact hmatch

theorem requireNull_of {asked : Bool} (h : asked = true → t.stack[0]? = some []) :
    requireNull asked t = .ok () t := by
  cases asked with
  | false => rfl
  | true =>
      rw [requireNull, if_pos rfl, bind_of_ok (peek_of_getElem? (h rfl))]
      exact require_of _ rfl

theorem mem_drop_cons_of_mem {item sig : Bytes} {front : List Bytes} {others : Nat}
    (h : sig ∈ front.drop (others - 1)) : sig ∈ (item :: front).drop others := by
  cases others with
  | zero => exact mem_cons_of_mem item h
  | succ others => exact h

/-- Unwinding removes the items that it counts, if those that must be empty are. -/
theorem unwind_of_null {result : Bool} {front rest : List Bytes} {others : Nat}
    (hstack : t.stack = front ++ rest)
    (h : result = false → r.flags.contains .nullFail → ∀ sig ∈ front.drop others, sig = []) :
    unwind r result front.length others t = .ok () { t with stack := rest } := by
  induction front generalizing t others with
  | nil =>
      rw [nil_append] at hstack
      rw [← hstack]
      rfl
  | cons item front ih =>
      have hnull : requireNull (!result && r.flags.contains .nullFail && others = 0) t =
          .ok () t := by
        refine requireNull_of fun hasked => ?_
        simp only [Bool.and_eq_true, Bool.not_eq_true', decide_eq_true_eq] at hasked
        obtain ⟨⟨hres, hflag⟩, rfl⟩ := hasked
        rw [hstack, cons_append, getElem?_cons_zero, h hres hflag item mem_cons_self]
      rw [length_cons, unwind, bind_of_ok hnull, bind_of_ok (pop_of_cons hstack)]
      exact ih (t := { t with stack := front ++ rest }) rfl fun hres hflag sig hsig =>
        h hres hflag sig (mem_drop_cons_of_mem hsig)

/-- Unwinding stops at a signature that must be empty and is not. -/
theorem unwind_of_not_null {front rest : List Bytes} {others : Nat}
    (hstack : t.stack = front ++ rest) (hflag : r.flags.contains .nullFail)
    (h : ∃ sig ∈ front.drop others, sig ≠ []) :
    ∃ u, unwind r false front.length others t = .error (.error .sigNullFail) u := by
  induction front generalizing t others with
  | nil =>
      obtain ⟨sig, hsig, -⟩ := h
      rw [drop_nil] at hsig
      exact nomatch hsig
  | cons item front ih =>
      rw [length_cons, unwind, hflag]
      cases others with
      | succ others =>
          show ∃ u, (requireNull false >>= fun _ => pop >>= fun _ =>
            unwind r false front.length others) t = _
          rw [bind_of_ok (requireNull_of fun h => absurd h Bool.false_ne_true),
            bind_of_ok (pop_of_cons hstack)]
          exact ih rfl h
      | zero =>
          show ∃ u, (requireNull true >>= fun _ => pop >>= fun _ =>
            unwind r false front.length 0) t = _
          have hget : t.stack[0]? = some item := by rw [hstack, cons_append, getElem?_cons_zero]
          by_cases hitem : item = []
          · obtain ⟨sig, hsig, hne⟩ := h
            have hsig' := (mem_cons.1 hsig).resolve_left fun heq => hne (heq.trans hitem)
            rw [bind_of_ok (requireNull_of fun _ => hitem ▸ hget), bind_of_ok (pop_of_cons hstack)]
            exact ih rfl ⟨sig, hsig', hne⟩
          · have hstop : requireNull true t = .error (.error .sigNullFail) t := by
              rw [requireNull, if_pos rfl, bind_of_ok (peek_of_getElem? hget)]
              exact require_of_not _ hitem
            exact ⟨t, bind_of_error hstop⟩

variable {keys sigs rest : List Bytes} {n m dummy : Bytes}

/-- Signatures that need not be empty, or are, are removed with the counts and the keys. -/
theorem closeMultiSig_of_null {verify result : Bool}
    (hstack : t.stack = (n :: (keys ++ m :: sigs)) ++ dummy :: rest)
    (h : result = false → r.flags.contains .nullFail → ∀ sig ∈ sigs, sig = []) :
    closeMultiSig r verify keys.length sigs.length result t =
      dropDummy r verify result { t with stack := dummy :: rest } := by
  rw [← FindsOperands.drop_removed n m keys sigs] at h
  rw [closeMultiSig, ← FindsOperands.length_removed n m, bind_of_ok (unwind_of_null hstack h)]

theorem closeMultiSig_of_not_null (verify : Bool)
    (hstack : t.stack = (n :: (keys ++ m :: sigs)) ++ dummy :: rest)
    (hflag : r.flags.contains .nullFail) (h : ∃ sig ∈ sigs, sig ≠ []) :
    ∃ u, closeMultiSig r verify keys.length sigs.length false t =
      .error (.error .sigNullFail) u := by
  rw [← FindsOperands.drop_removed n m keys sigs] at h
  obtain ⟨u, hu⟩ := unwind_of_not_null hstack hflag h
  rw [closeMultiSig, ← FindsOperands.length_removed n m]
  exact ⟨u, bind_of_error hu⟩

theorem dropDummy_of_cons {result : Bool} (hstack : t.stack = dummy :: rest)
    (hnull : r.flags.contains .nullDummy → dummy = []) :
    dropDummy r false result t = .ok () { t with stack := Operand.ofBool result :: rest } := by
  have hneed : 1 ≤ t.stack.length := by
    rw [hstack, length_cons]
    exact Nat.succ_pos _
  have htop : t.stack[0]? = some dummy := by rw [hstack, getElem?_cons_zero]
  rw [dropDummy, bind_of_ok (need_of_le hneed), bind_of_ok (peek_of_getElem? htop),
    bind_of_ok (require_of _ hnull), bind_of_ok (pop_of_cons hstack)]
  rfl

end

/-! ## The whole check -/

/-- A state in which a multiple signature check finds its operands in order: the counts are those of
the keys and signatures, the limits are kept and all encodings are as the flags ask for. -/
structure MultiSigOperands (r : Rules) (script : Script) (s : State) (pre : List Bytes)
    (dummy : Bytes) (sigs : List Bytes) (m : Bytes) (keys : List Bytes) (n : Bytes) : Prop
    extends MultiSigCounts r script s n keys.length m sigs.length where
  stack : s.stack = Stack.ofBottomFirst (pre ++ [dummy] ++ sigs ++ [m] ++ keys ++ [n])
  sigForm : ∀ sig ∈ sigs, Signature.checkForm sig r.crypto r.flags = .ok ()
  keyForm : ∀ key ∈ keys, Signature.checkKeyForm key r.flags = .ok ()
  dummy_null : r.flags.contains .nullDummy → dummy = []

/-- The script code of a multiple signature check: what lies behind the last code separator, without
the pushes of the signatures. -/
def multiSigCode (r : Rules) (script : Script) (s : State) (sigs : List Bytes) : Script :=
  cleanedCode r script s sigs.reverse

section

variable {r : Rules} {script : Script} {s : State} {pre sigs keys : List Bytes} {dummy m n : Bytes}

namespace MultiSigOperands

theorem stack_eq (h : MultiSigOperands r script s pre dummy sigs m keys n) :
    s.stack = n :: (keys.reverse ++ m :: (sigs.reverse ++ dummy :: pre.reverse)) := by
  rw [h.stack, Stack.ofBottomFirst]
  simp only [reverse_append, reverse_cons, reverse_nil, nil_append, cons_append, append_assoc]

theorem finds (h : MultiSigOperands r script s pre dummy sigs m keys n) :
    FindsOperands r script s n keys.reverse m sigs.reverse dummy pre.reverse where
  toMultiSigCounts := by
    rw [length_reverse, length_reverse]
    exact h.toMultiSigCounts
  stack := h.stack_eq

/-- Up to the point where items are removed, the check reads its operands and asks the checker. -/
theorem checkMultiSig_eq (h : MultiSigOperands r script s pre dummy sigs m keys n)
    (hpure : r.checker.IsPure) (hanswers : r.checker.Answers) (verify : Bool) :
    ∃ result calls,
      (result = true ↔ SublistForall₂ (Accepts r (multiSigCode r script s sigs)) sigs keys) ∧
      checkMultiSig r script verify s =
        closeMultiSig r verify keys.reverse.length sigs.reverse.length result
          { s with opCount := s.opCount + keys.length, calls := s.calls ++ calls } := by
  obtain ⟨result, calls, hresult, hmatch⟩ :=
    matchLists_of_pure (t := { s with opCount := s.opCount + keys.reverse.length })
      (multiSigCode r script s sigs) hpure hanswers h.finds.sigs_le
      (fun sig hsig => h.sigForm sig (mem_reverse.1 hsig))
      (fun key hkey => h.keyForm key (mem_reverse.1 hkey))
  rw [sublistForall₂_reverse_iff] at hresult
  have hsigs := h.finds.matchSigs_eq (multiSigCode r script s sigs)
    (s.opCount + keys.reverse.length)
  have hcheck := (h.finds.checkMultiSig_eq verify).trans (bind_of_ok (hsigs.trans hmatch))
  have hlength : keys.reverse.length = keys.length := length_reverse
  rw [hlength] at hcheck ⊢
  exact ⟨result, calls, hresult, hcheck⟩

end MultiSigOperands

/-- A multiple signature check computes whether its signatures are accepted under keys in order. It
replaces its operands by the result, unless it fails since a signature of a failed check should be
empty. -/
theorem execute_checkMultiSig (hpure : r.checker.IsPure) (hanswers : r.checker.Answers)
    (h : MultiSigOperands r script s pre dummy sigs m keys n) (next : Nat) :
    ∃ result calls,
      (result = true ↔ ∃ f : Fin sigs.length → Fin keys.length, StrictMono f ∧
        ∀ i, Accepts r (multiSigCode r script s sigs) sigs[i] keys[f i]) ∧
      (result = true ∨ r.flags.contains .nullFail = false ∨ (∀ sig ∈ sigs, sig = []) →
        execute r script true next (.checkMultiSig false) s =
          .ok () { s with
            stack := Stack.ofBottomFirst (pre ++ [Operand.ofBool result])
            opCount := s.opCount + keys.length
            calls := s.calls ++ calls }) ∧
      (result = false → r.flags.contains .nullFail = true → (∃ sig ∈ sigs, sig ≠ []) →
        ∃ t, execute r script true next (.checkMultiSig false) s =
          .error (.error .sigNullFail) t) := by
  obtain ⟨result, calls, hresult, heq⟩ := h.checkMultiSig_eq hpure hanswers false
  let t : State :=
    { s with opCount := s.opCount + keys.length, calls := s.calls ++ calls }
  have hstack : t.stack = _ := h.finds.stack_eq_append
  rw [sublistForall₂_iff_exists_strictMono] at hresult
  refine ⟨result, calls, hresult, fun hok => ?_, fun hfalse hflag hsig => ?_⟩
  · have hnull : result = false → r.flags.contains .nullFail → ∀ sig ∈ sigs.reverse, sig = [] := by
      intro hfalse hflag sig hmem
      rcases hok with hok | hok | hok
      · exact absurd (hfalse.symm.trans hok) Bool.false_ne_true
      · exact absurd (hok.symm.trans hflag) Bool.false_ne_true
      · exact hok sig (mem_reverse.1 hmem)
    show checkMultiSig r script false s = _
    rw [heq, closeMultiSig_of_null hstack hnull, dropDummy_of_cons rfl h.dummy_null,
      Stack.ofBottomFirst, reverse_append]
    rfl
  · subst hfalse
    have hmem : ∃ sig ∈ sigs.reverse, sig ≠ [] := by simpa only [mem_reverse] using hsig
    obtain ⟨u, hu⟩ := closeMultiSig_of_not_null false hstack hflag hmem
    exact ⟨u, heq.trans hu⟩

/-- Two signatures under the first and the last of three keys. -/
theorem execute_checkMultiSig_two_of_three :
    ∃ t, execute ⟨.none, .consensus, .accepting [([1], [11]), ([2], [13])] false, .standard⟩
        [] true 0 (.checkMultiSig false)
        { stack := .ofBottomFirst [[9], [], [1], [2], [2], [11], [12], [13], [3]] } = .ok () t ∧
      t.stack = .ofBottomFirst [[9], [1]] := by
  let r : Rules := ⟨.none, .consensus, .accepting [([1], [11]), ([2], [13])] false, .standard⟩
  have hpure : r.checker.IsPure := fun _ _ _ _ => rfl
  have hanswers : r.checker.Answers := fun _ _ _ => rfl
  have hoperands : MultiSigOperands r []
      { stack := .ofBottomFirst [[9], [], [1], [2], [2], [11], [12], [13], [3]] }
      [[9]] [] [[1], [2]] [2] [[11], [12], [13]] [3] :=
    { stack := rfl
      codeStart_le := by decide
      keyCount := (Number.decode_eq _ _ _).trans rfl
      sigCount := (Number.decode_eq _ _ _).trans rfl
      keys_le := by decide
      sigs_le := by decide
      ops_le := by decide
      sigForm := by decide
      keyForm := by decide
      dummy_null := by decide }
  obtain ⟨result, calls, hresult, hok, -⟩ := execute_checkMultiSig hpure hanswers hoperands 0
  have htrue : result = true := by
    refine hresult.2 ⟨fun i => ⟨2 * i, ?_⟩, fun i j hij => ?_, fun i => ?_⟩
    · have hi : (i : Nat) < 2 := i.isLt
      show 2 * (i : Nat) < 3
      omega
    · show 2 * (i : Nat) < 2 * (j : Nat)
      omega
    · match i with
      | ⟨0, _⟩ => rfl
      | ⟨1, _⟩ => rfl
  exact ⟨_, hok (Or.inl htrue), by rw [htrue]; rfl⟩

end

end Exec

end BitcoinScript
