import BitcoinScript.Proofs.Machine.Faultless
import BitcoinScript.Proofs.Machine.Keeping

/-!
# The operands of multiple signature checks

A multiple signature check finds its operands by counts and tries pairs at places that move along
the stack. `Exec.FindsOperands` names what it finds as lists, top first, and `Exec.matchLists` is
the check of these lists. So what follows from them does not depend on places any more.

Whatever stops a check before it removes its operands is not that a signature should be empty.
-/

namespace BitcoinScript

namespace Exec

/-! ## The check of lists -/

/-- Whether signatures are accepted in order by some of the keys in order. Each key is tried once,
with the first signature that is left, as long as there are enough keys. -/
def matchLists (r : Rules) (code : Script) : (keys sigs : List Bytes) → Exec Bool
  | _, [] => pure true
  | [], _ :: _ => pure false
  | key :: keys, sig :: sigs => do
      let accepted ← checkPair r code sig key
      let sigs := if accepted then sigs else sig :: sigs
      if keys.length < sigs.length then pure false else matchLists r code keys sigs

section

variable {r : Rules} {code : Script} {t : State}

theorem getElem?_of_startsWith {place : Nat} {item : Bytes} {items : List Bytes}
    (h : item :: items <+: t.stack.drop place) :
    t.stack[place]? = some item ∧ items <+: t.stack.drop (place + 1) := by
  obtain ⟨rest, hrest⟩ := h
  have hitem := congrArg (·[0]?) hrest
  have htail := congrArg List.tail hrest
  rw [List.cons_append, List.getElem?_cons_zero, List.getElem?_drop, Nat.add_zero] at hitem
  rw [List.cons_append, List.tail_cons, List.tail_drop] at htail
  exact ⟨hitem.symm, rest, htail⟩

/-- The stack stays as it is while the checker is asked. -/
theorem stack_of_checkPair {sig key : Bytes} {accepted : Bool} {u : State}
    (h : checkPair r code sig key t = .ok accepted u) : u.stack = t.stack :=
  (keeps_checkPair (I := fun u => u.stack = t.stack) (fun _ _ _ hu => hu) t rfl).of_ok h

theorem keeps_matchLists {I : State → Prop} {keys sigs : List Bytes}
    (h : ∀ sig key, Signature.checkForm sig r.crypto r.flags = .ok () →
      Signature.checkKeyForm key r.flags = .ok () →
        ∀ s, I s → I { s with calls := s.calls ++ [⟨sig, key, code⟩] }) :
    Keeps I (matchLists r code keys sigs) := by
  induction keys generalizing sigs with
  | nil =>
      cases sigs with
      | nil => exact keeps_pure true
      | cons sig sigs => exact keeps_pure false
  | cons key keys ih =>
      cases sigs with
      | nil => exact keeps_pure true
      | cons sig sigs =>
          exact (keeps_checkPair (h sig key)).bind fun accepted => .ite (keeps_pure false) ih

theorem stack_of_matchLists {keys sigs : List Bytes} {result : Bool} {u : State}
    (h : matchLists r code keys sigs t = .ok result u) : u.stack = t.stack :=
  (keeps_matchLists (I := fun u => u.stack = t.stack) (fun _ _ _ _ _ hu => hu) t rfl).of_ok h

theorem matchSigs_eq_matchLists {keys sigs : List Bytes} {keyPlace sigPlace : Nat}
    (hle : sigs.length ≤ keys.length) (hkeys : keys <+: t.stack.drop keyPlace)
    (hsigs : sigs <+: t.stack.drop sigPlace) :
    matchSigs r code keys.length sigs.length keyPlace sigPlace t =
      matchLists r code keys sigs t := by
  induction keys generalizing sigs keyPlace sigPlace t with
  | nil =>
      obtain rfl := List.eq_nil_of_length_eq_zero (Nat.le_zero.1 hle)
      rfl
  | cons key keys ih =>
      cases sigs with
      | nil => rfl
      | cons sig sigs =>
          obtain ⟨hkeyAt, hkeys⟩ := getElem?_of_startsWith hkeys
          obtain ⟨hsigAt, hsigs'⟩ := getElem?_of_startsWith hsigs
          have htry : tryPair r code sigPlace keyPlace t = checkPair r code sig key t := by
            rw [tryPair, bind_of_ok (peek_of_getElem? hsigAt),
              bind_of_ok (peek_of_getElem? hkeyAt)]
          rw [List.length_cons, List.length_cons] at hle
          rw [List.length_cons, List.length_cons, matchSigs, matchLists]
          cases hpair : checkPair r code sig key t with
          | error stop u => rw [bind_of_error (htry.trans hpair), bind_of_error hpair]
          | ok accepted u =>
              rw [bind_of_ok (htry.trans hpair), bind_of_ok hpair]
              rw [← stack_of_checkPair hpair] at hkeys hsigs hsigs'
              cases accepted with
              | true =>
                  show (if keys.length < sigs.length then pure false
                    else matchSigs r code keys.length sigs.length (keyPlace + 1) (sigPlace + 1)) u =
                      (if keys.length < sigs.length then pure false
                        else matchLists r code keys sigs) u
                  split
                  · rfl
                  · exact ih (by omega) hkeys hsigs'
              | false =>
                  show (if keys.length < sigs.length + 1 then pure false
                    else matchSigs r code keys.length (sigs.length + 1) (keyPlace + 1) sigPlace) u =
                      (if keys.length < (sig :: sigs).length then pure false
                        else matchLists r code keys (sig :: sigs)) u
                  rw [List.length_cons]
                  split
                  · rfl
                  · exact ih (by rw [List.length_cons]; omega) hkeys hsigs

end

/-! ## Finding the operands -/

/-- The counts of a multiple signature check are the given numbers of keys and signatures, the
limits are kept, and the script code starts in the script. -/
structure MultiSigCounts (r : Rules) (script : Script) (s : State) (n : Bytes) (keys : Nat)
    (m : Bytes) (sigs : Nat) : Prop where
  codeStart_le : s.codeStart ≤ script.length
  keyCount : Number.decode (r.flags.contains .minimalData) r.limits.numberLength n = .ok keys
  sigCount : Number.decode (r.flags.contains .minimalData) r.limits.numberLength m = .ok sigs
  keys_le : keys ≤ Limits.maxKeys
  sigs_le : sigs ≤ keys
  ops_le : s.opCount + keys ≤ r.limits.ops

/-- A multiple signature check finds its operands on the stack, top first, with their counts. -/
structure FindsOperands (r : Rules) (script : Script) (s : State) (n : Bytes) (keys : List Bytes)
    (m : Bytes) (sigs : List Bytes) (dummy : Bytes) (rest : Stack Bytes) : Prop
    extends MultiSigCounts r script s n keys.length m sigs.length where
  stack : s.stack = n :: (keys ++ m :: (sigs ++ dummy :: rest))

/-- The script code of a multiple signature check: what lies behind the last code separator, without
the pushes of the signatures, which are given top first. -/
def cleanedCode (r : Rules) (script : Script) (s : State) (sigs : List Bytes) : Script :=
  sigs.foldl (Signature.cleanCode r.flags) (script.drop s.codeStart)

section

variable {r : Rules} {script : Script} {s : State} {n m dummy : Bytes} {keys sigs : List Bytes}
  {rest : Stack Bytes}

theorem count_of_ok {place bound k : Nat} {e : ScriptError} {item : Bytes}
    (hitem : s.stack[place]? = some item)
    (hk : Number.decode (r.flags.contains .minimalData) r.limits.numberLength item = .ok (k : Int))
    (hle : k ≤ bound) : count r place bound e s = .ok k s := by
  rw [count, bind_of_ok (number_of_ok hitem hk),
    bind_of_ok (require_of e ⟨Int.natCast_nonneg k, hle⟩)]
  rfl

namespace FindsOperands

theorem length_stack (h : FindsOperands r script s n keys m sigs dummy rest) :
    keys.length + sigs.length + 3 ≤ s.stack.length := by
  rw [h.stack]
  simp only [List.length_cons, List.length_append]
  omega

theorem getElem?_sigCount (h : FindsOperands r script s n keys m sigs dummy rest) :
    s.stack[keys.length + 1]? = some m := by
  rw [h.stack, List.getElem?_cons_succ, List.getElem?_append_right (Nat.le_refl _), Nat.sub_self,
    List.getElem?_cons_zero]

theorem drop_sigs (h : FindsOperands r script s n keys m sigs dummy rest) :
    s.stack.drop (keys.length + 2) = sigs ++ dummy :: rest := by
  rw [h.stack, List.drop_succ_cons, ← List.drop_drop, List.drop_left, List.drop_succ_cons,
    List.drop_zero]

/-- The operands that are removed one by one. -/
theorem stack_eq_append (h : FindsOperands r script s n keys m sigs dummy rest) :
    s.stack = (n :: (keys ++ m :: sigs)) ++ dummy :: rest := by
  rw [h.stack, List.cons_append, List.append_assoc, List.cons_append]

theorem length_removed (n m : Bytes) (keys sigs : List Bytes) :
    (n :: (keys ++ m :: sigs)).length = keys.length + sigs.length + 2 := by
  simp only [List.length_cons, List.length_append]
  omega

/-- Behind the counts and the keys the signatures are removed. -/
theorem drop_removed (n m : Bytes) (keys sigs : List Bytes) :
    (n :: (keys ++ m :: sigs)).drop (keys.length + 2) = sigs := by
  rw [List.drop_succ_cons, ← List.drop_drop, List.drop_left, List.drop_succ_cons, List.drop_zero]

/-- Up to the point where it tries pairs, the check reads its operands and counts the keys. -/
theorem checkMultiSig_eq (h : FindsOperands r script s n keys m sigs dummy rest) (verify : Bool) :
    checkMultiSig r script verify s =
      (matchSigs r (cleanedCode r script s sigs) keys.length sigs.length 1 (keys.length + 2) >>=
        closeMultiSig r verify keys.length sigs.length)
        { s with opCount := s.opCount + keys.length } := by
  let t : State := { s with opCount := s.opCount + keys.length }
  have hlen := h.length_stack
  have hdeep : keys.length + sigs.length + 3 ≤ t.stack.length := hlen
  have htop : s.stack[0]? = some n := by rw [h.stack, List.getElem?_cons_zero]
  have hsecond : t.stack[keys.length + 1]? = some m := h.getElem?_sigCount
  have hclean : cleanCodes r sigs.length (keys.length + 2) (script.drop s.codeStart) t =
      .ok (cleanedCode r script s sigs) t := by
    rw [cleanCodes_eq (by omega), show t.stack.drop (keys.length + 2) = _ from h.drop_sigs,
      List.take_left]
    rfl
  have hcharge : charge r keys.length s = .ok () t := charge_of_le h.ops_le
  have hneed : need (keys.length + 2) t = .ok () t := need_of_le (by omega)
  have hcode : scriptCode script t = .ok (script.drop s.codeStart) t :=
    scriptCode_of_le h.codeStart_le
  rw [checkMultiSig, bind_of_ok (need_of_le (by omega)),
    bind_of_ok (count_of_ok htop h.keyCount h.keys_le), bind_of_ok hcharge, bind_of_ok hneed,
    bind_of_ok (count_of_ok hsecond h.sigCount h.sigs_le), bind_of_ok (need_of_le hdeep),
    bind_of_ok hcode, bind_of_ok hclean]

/-- The pairs that are tried are those of the lists. -/
theorem matchSigs_eq (h : FindsOperands r script s n keys m sigs dummy rest) (code : Script)
    (opCount : Nat) :
    matchSigs r code keys.length sigs.length 1 (keys.length + 2) { s with opCount } =
      matchLists r code keys sigs { s with opCount } := by
  refine matchSigs_eq_matchLists h.sigs_le ?_ ?_
  · show keys <+: s.stack.drop 1
    rw [h.stack]
    exact List.prefix_append _ _
  · show sigs <+: s.stack.drop (keys.length + 2)
    rw [h.drop_sigs]
    exact List.prefix_append _ _

end FindsOperands

theorem exists_stack_of_getElem? {stack : Stack Bytes} {key sig : Bytes}
    (hkey : stack[0]? = some key) (hsig : stack[1]? = some sig) :
    ∃ rest, stack = key :: sig :: rest := by
  match stack, hkey, hsig with
  | _ :: _ :: rest, rfl, rfl => exact ⟨rest, rfl⟩

theorem exists_split {items : List Bytes} {n : Nat} (h : n < items.length) :
    ∃ front item back, items = front ++ item :: back ∧ front.length = n := by
  refine ⟨items.take n, items[n], items.drop (n + 1), ?_, List.length_take_of_le (Nat.le_of_lt h)⟩
  rw [← List.drop_eq_getElem_cons h, List.take_append_drop]

/-- What lies on a stack that is deep enough for the counts. -/
theorem exists_stack_of_counts {stack : Stack Bytes} {n m : Nat} {itemₙ itemₘ : Bytes}
    (hn : stack[0]? = some itemₙ) (hm : stack[n + 1]? = some itemₘ)
    (hdepth : n + m + 3 ≤ stack.length) :
    ∃ keys sigs dummy rest, keys.length = n ∧ sigs.length = m ∧
      stack = itemₙ :: (keys ++ itemₘ :: (sigs ++ dummy :: rest)) := by
  cases stack with
  | nil => exact nomatch hn
  | cons top stack =>
      obtain rfl : top = itemₙ := Option.some.inj hn
      rw [List.length_cons] at hdepth
      have hkeys : n < stack.length := by omega
      obtain ⟨keys, second, stack, rfl, rfl⟩ := exists_split hkeys
      rw [List.getElem?_cons_succ, List.getElem?_append_right (Nat.le_refl _), Nat.sub_self] at hm
      obtain rfl : second = itemₘ := Option.some.inj hm
      rw [List.length_append, List.length_cons] at hdepth
      have hsigs : m < stack.length := by omega
      obtain ⟨sigs, dummy, rest, rfl, rfl⟩ := exists_split hsigs
      exact ⟨keys, sigs, dummy, rest, rfl, rfl, rfl⟩

/-- What has been read by `count`. -/
theorem ends_bind_count {α : Type} {place bound : Nat} {e : ScriptError} {f : Nat → Exec α}
    {Q : α → State → Prop} {E : Stop → State → Prop} (he : e ≠ .sigNullFail)
    (hE : ∀ stop, stop ≠ .error .sigNullFail → E stop s)
    (hf : ∀ item (n : Nat), s.stack[place]? = some item →
      Number.decode (r.flags.contains .minimalData) r.limits.numberLength item = .ok n →
      n ≤ bound → Ends (f n) s Q E) : Ends (count r place bound e >>= f) s Q E := by
  rw [count, bind_assoc]
  refine (ends_bind _ _).2 ((ends_number r place).2 ((ends_peek place).2
    ⟨fun item hitem => (ends_ofExcept _).2 ⟨fun v hv => ?_, fun stop hstop => hE stop ?_⟩,
      fun _ => hE _ (by decide)⟩))
  · rw [bind_assoc]
    refine (ends_bind _ _).2 ((ends_require _ _).2
      ⟨fun hrange => ?_, fun _ => hE _ fun h => he (Stop.error.inj h)⟩)
    refine hf item v.toNat hitem ?_ hrange.2
    rw [hv, Int.toNat_of_nonneg hrange.1]
  · rintro rfl
    exact Number.failsOnly_decode.ne (by decide) hstop

/-- A multiple signature check stops before it asks anything, or it has found its operands, counted
the keys and cleaned the script code of all signatures when it tries the first pair. -/
theorem ends_checkMultiSig {verify : Bool} {Q : Unit → State → Prop} {E : Stop → State → Prop}
    (hstop : ∀ stop n, stop ≠ .error .sigNullFail → E stop { s with opCount := s.opCount + n })
    (hmatch : ∀ n keys m sigs dummy rest, FindsOperands r script s n keys m sigs dummy rest →
      Ends (matchSigs r (cleanedCode r script s sigs) keys.length sigs.length 1
          (keys.length + 2) >>= closeMultiSig r verify keys.length sigs.length)
        { s with opCount := s.opCount + keys.length } Q E) :
    Ends (checkMultiSig r script verify) s Q E := by
  have hshallow := fun n => hstop (.error .invalidStackOperation) n (by decide)
  refine (ends_bind _ _).2 ((ends_need 1).2 ⟨fun _ => ?_, fun _ => hshallow 0⟩)
  refine ends_bind_count (by decide) (fun stop => hstop stop 0) fun itemₙ n hn hkeys hmax => ?_
  refine (ends_bind _ _).2 ((ends_charge r n).2 ⟨fun hops => ?_, fun _ => hstop _ n (by decide)⟩)
  refine (ends_bind _ _).2 ((ends_need (n + 2)).2 ⟨fun _ => ?_, fun _ => hshallow n⟩)
  refine ends_bind_count (by decide) (fun stop => hstop stop n) fun itemₘ m hm hsigs hle => ?_
  refine (ends_bind _ _).2 ((ends_need (n + m + 3)).2 ⟨fun hdepth => ?_, fun _ => hshallow n⟩)
  have hfault := hstop .fault n (by decide)
  refine (ends_bind _ _).2 ((ends_scriptCode script).2 ⟨fun hcode => ?_, fun _ => hfault⟩)
  obtain ⟨keys, sigs, dummy, rest, rfl, rfl, hstack⟩ := exists_stack_of_counts hn hm hdepth
  have hfinds : FindsOperands r script s itemₙ keys itemₘ sigs dummy rest :=
    ⟨⟨hcode, hkeys, hsigs, hmax, hle, hops⟩, hstack⟩
  have hplaces : keys.length + 2 + sigs.length ≤ s.stack.length := Nat.le_trans (by omega) hdepth
  refine Ends.bind_of_ok (cleanCodes_eq hplaces) ?_
  show Ends (matchSigs r (((s.stack.drop (keys.length + 2)).take sigs.length).foldl _ _)
    keys.length sigs.length 1 (keys.length + 2) >>= closeMultiSig r verify _ _) _ Q E
  rw [hfinds.drop_sigs, List.take_left]
  exact hmatch _ _ _ _ _ _ hfinds

end

end Exec

end BitcoinScript
