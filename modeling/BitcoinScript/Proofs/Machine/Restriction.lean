import BitcoinScript.Proofs.Machine.Outcome
import BitcoinScript.Proofs.Number.Word
import BitcoinScript.Proofs.Signature.Forms
import BitcoinScript.Transaction.Checker

/-!
# Rules that only restrict

Most flags and all limits only refuse scripts. Two flags do the opposite: where lock time opcodes
are enabled, they are not refused as discouraged no-ops. `Rules.Relaxes` puts both together, and
under relaxed rules an evaluation that succeeds still does, with the same stack and the same calls
of the checker.

`Covers m m'` says that `m` succeeds wherever `m'` does, with the same value and state. It is kept
by sequencing, so a command is covered if each of its checks is.
-/

namespace BitcoinScript

/-! ## Covering a computation -/

section

variable {ε σ α β : Type}

/-- The first computation succeeds wherever the second does, with the same outcome. -/
def Covers (m m' : EStateM ε σ α) : Prop :=
  ∀ s a t, m' s = .ok a t → m s = .ok a t

theorem Covers.refl (m : EStateM ε σ α) : Covers m m := fun _ _ _ h => h

theorem Covers.of_eq {m m' : EStateM ε σ α} (h : m = m') : Covers m m' := h ▸ Covers.refl m

theorem Covers.bind {m m' : EStateM ε σ α} {f f' : α → EStateM ε σ β} (h : Covers m m')
    (hf : ∀ a, Covers (f a) (f' a)) : Covers (m >>= f) (m' >>= f') := by
  intro s b u hok
  simp only [Bind.bind, EStateM.bind] at hok ⊢
  cases hm : m' s with
  | error e t =>
      rw [hm] at hok
      exact nomatch hok
  | ok a t =>
      rw [hm] at hok
      rw [h s a t hm]
      exact hf a t b u hok

/-- Nothing has to be shown where the second computation fails. -/
theorem Covers.of_throw (m : EStateM ε σ α) (e : ε) : Covers m (throw e) :=
  fun _ _ _ h => nomatch h

end

/-! ## Relaxed rules -/

/-- The flags that make an evaluation refuse more. -/
def Flag.policy : List Flag :=
  [.p2sh, .strictEnc, .derSig, .lowS, .nullDummy, .sigPushOnly, .minimalData,
   .discourageUpgradableNops, .cleanStack, .minimalIf, .nullFail, .compressedPubkeyType]

/-- The flags that enable an opcode that is a no-op otherwise. -/
def Flag.lockTimes : List Flag := [.checkLockTimeVerify, .checkSequenceVerify]

/-- The second set of flags is the first one with some of the listed flags. -/
structure Flags.Adds (flags flags' : Flags) (fs : List Flag) : Prop where
  subset : flags ⊆ flags'
  added : ∀ f, flags'.contains f → flags.contains f ∨ f ∈ fs

/-- The checker does not distinguish two sets of flags. -/
def Checker.SameAnswers (checker : Checker) (flags flags' : Flags) : Prop :=
  ∀ before call, checker.checkSig before call flags = checker.checkSig before call flags'

structure Limits.AtLeast (limits limits' : Limits) : Prop where
  scriptSize : limits'.scriptSize ≤ limits.scriptSize
  itemSize : limits'.itemSize ≤ limits.itemSize
  ops : limits'.ops ≤ limits.ops
  stackDepth : limits'.stackDepth ≤ limits.stackDepth
  numberLength : limits'.numberLength ≤ limits.numberLength

theorem Limits.AtLeast.refl (limits : Limits) : limits.AtLeast limits :=
  ⟨Nat.le_refl _, Nat.le_refl _, Nat.le_refl _, Nat.le_refl _, Nat.le_refl _⟩

/-- The first flags refuse no more than the second ones, and sign the same digests. -/
structure Flags.Relaxes (flags flags' : Flags) : Prop where
  policy : ∀ f ∈ Flag.policy, flags.contains f → flags'.contains f
  lockTimes : ∀ f ∈ Flag.lockTimes, flags'.contains f → flags.contains f
  forkId : flags.contains .enableForkId = flags'.contains .enableForkId

theorem Flags.Relaxes.refl (flags : Flags) : flags.Relaxes flags :=
  ⟨fun _ _ h => h, fun _ _ h => h, rfl⟩

/-- The first rules refuse no more than the second ones. -/
structure Rules.Relaxes (r r' : Rules) : Prop where
  flags : r.flags.Relaxes r'.flags
  limits : r.limits.AtLeast r'.limits
  answers : ∀ before call,
    r.checker.checkSig before call r.flags = r'.checker.checkSig before call r'.flags
  crypto : r.crypto = r'.crypto

namespace Flags.Adds

variable {flags flags' : Flags} {fs : List Flag}

theorem contains_eq (h : flags.Adds flags' fs) {f : Flag} (hf : f ∉ fs) :
    flags.contains f = flags'.contains f := by
  rw [Bool.eq_iff_iff]
  exact ⟨h.subset f, fun hflag => (h.added f hflag).resolve_right hf⟩

theorem relaxes_of_policy (h : flags.Adds flags' Flag.policy) : flags.Relaxes flags' where
  policy f _ hflag := h.subset f hflag
  lockTimes f hf hflag := by
    have hnot : ∀ f ∈ Flag.lockTimes, f ∉ Flag.policy := by decide
    rwa [h.contains_eq (hnot f hf)]
  forkId := h.contains_eq (by decide)

theorem relaxes_of_lockTimes (h : flags.Adds flags' Flag.lockTimes) : flags'.Relaxes flags where
  policy f hf hflag := by
    have hnot : ∀ f ∈ Flag.policy, f ∉ Flag.lockTimes := by decide
    rwa [h.contains_eq (hnot f hf)]
  lockTimes f _ hflag := h.subset f hflag
  forkId := (h.contains_eq (by decide)).symm

end Flags.Adds

/-- The checker of a transaction sees of the flags only whether the fork identifier is enabled. -/
theorem Transaction.sameAnswers_checker {flags flags' : Flags}
    (h : flags.contains .enableForkId = flags'.contains .enableForkId) (c : Crypto)
    (cache : SigHashCache) (tx : Transaction) (index : Nat) (satoshis : Int64) :
    (checker c cache tx index satoshis).SameAnswers flags flags' := by
  intro before call
  have hhash : ∀ code t, signatureHash c cache tx index code satoshis t flags =
      signatureHash c cache tx index code satoshis t flags' := by
    intro code t
    rw [signatureHash, signatureHash, SigHash.usesForkId, SigHash.usesForkId, h]
  show some (verifiesSig c cache tx index satoshis call flags) = some _
  simp only [verifiesSig, hhash]

theorem Number.decode_of_relaxed {strict strict' : Bool} {limit limit' : Nat} {d : Bytes} {n : Int}
    (hstrict : strict = true → strict' = true) (hlimit : limit' ≤ limit)
    (h : decode strict' limit' d = .ok n) : decode strict limit d = .ok n := by
  rw [decode_eq_ok_iff] at h ⊢
  exact ⟨Nat.le_trans h.1 hlimit, h.2.1, fun hs => h.2.2.1 (hstrict hs), h.2.2.2⟩

theorem Number.isMinimalWithin_of_le {limit limit' : Nat} {d : Bytes} (hlimit : limit' ≤ limit)
    (h : isMinimalWithin limit' d = true) : isMinimalWithin limit d = true := by
  rw [isMinimalWithin, Bool.and_eq_true, decide_eq_true_eq] at h ⊢
  exact ⟨Nat.le_trans h.1 hlimit, h.2⟩

namespace Signature

variable {c : Crypto} {flags flags' : Flags}

theorem needsStrictDer_of_relaxed (hflags : flags.Relaxes flags')
    (h : needsStrictDer flags = true) : needsStrictDer flags' = true := by
  rw [needsStrictDer_iff] at h ⊢
  exact h.imp (hflags.policy _ (by decide))
    (Or.imp (hflags.policy _ (by decide)) (hflags.policy _ (by decide)))

theorem checkForm_of_relaxed (hflags : flags.Relaxes flags') {sig : Bytes} {u : Unit}
    (h : checkForm sig c flags' = .ok u) : checkForm sig c flags = .ok u := by
  rw [checkForm_eq_ok_iff] at h ⊢
  refine h.imp_right fun ⟨hder, hlow, htype⟩ => ⟨fun hneeds => ?_, fun hflag => ?_, fun hflag => ?_⟩
  · exact hder (needsStrictDer_of_relaxed hflags hneeds)
  · exact hlow (hflags.policy _ (by decide) hflag)
  · rw [hflags.forkId]
    exact htype (hflags.policy _ (by decide) hflag)

theorem checkKeyForm_of_relaxed (hflags : flags.Relaxes flags') {key : Bytes} {u : Unit}
    (h : checkKeyForm key flags' = .ok u) : checkKeyForm key flags = .ok u := by
  rw [checkKeyForm_eq_ok_iff] at h ⊢
  exact h.imp (fun hknown hflag => hknown (hflags.policy _ (by decide) hflag))
    fun hcompressed hflag => hcompressed (hflags.policy _ (by decide) hflag)

theorem cleanCode?_of_relaxed (hflags : flags.Relaxes flags') (code : Script) (sig : Bytes) :
    cleanCode? flags code sig = cleanCode? flags' code sig := by
  rw [cleanCode?, cleanCode?, keepsCode, keepsCode, hflags.forkId]

end Signature

namespace Exec

section

variable {α : Type} {r r' : Rules}

theorem covers_require {p q : Prop} [Decidable p] [Decidable q] {e : ScriptError} (h : q → p) :
    Covers (require p e) (require q e) := by
  by_cases hq : q
  · rw [require, require, if_pos hq, if_pos (h hq)]
    exact .refl _
  · rw [require, require, if_neg hq]
    exact .of_throw _ _

theorem covers_ofExcept {x x' : Except Stop α} (h : ∀ a, x' = .ok a → x = .ok a) :
    Covers (ofExcept x) (ofExcept x') := by
  cases x' with
  | error stop => exact .of_throw _ _
  | ok a => exact .of_eq (congrArg ofExcept (h a rfl))

/-- A condition that only a policy flag asks for. -/
theorem covers_require_flag (hr : r.Relaxes r') {f : Flag} (hf : f ∈ Flag.policy) {p : Prop}
    [Decidable p] {e : ScriptError} :
    Covers (require (r.flags.contains f → p) e) (require (r'.flags.contains f → p) e) :=
  covers_require fun h hflag => h (hr.flags.policy f hf hflag)

theorem covers_number (hr : r.Relaxes r') (n : Nat) : Covers (number r n) (number r' n) :=
  .bind (.refl _) fun _ => covers_ofExcept fun _ => Number.decode_of_relaxed
    (hr.flags.policy _ (by decide)) hr.limits.numberLength

theorem covers_charge (hr : r.Relaxes r') (n : Nat) : Covers (charge r n) (charge r' n) :=
  .bind (.refl _) fun _ => .bind (.refl _) fun _ =>
    covers_require fun h => Nat.le_trans h hr.limits.ops

theorem covers_ask (hr : r.Relaxes r') (call : SigCall) : Covers (ask r call) (ask r' call) :=
  .bind (.refl _) fun s => .bind (.refl _) fun _ =>
    .of_eq (congrArg ofOption (hr.answers s.calls call))

/-! ### Commands -/

theorem covers_reservedNop (hr : r.Relaxes r') : Covers (reservedNop r) (reservedNop r') := by
  refine covers_require fun h => ?_
  simp only [Bool.not_eq_true', Bool.eq_false_iff] at h ⊢
  exact fun hflag => h (hr.flags.policy _ (by decide) hflag)

/-- Where an opcode is enabled it is not refused as a no-op. -/
theorem covers_lockTime (hr : r.Relaxes r') {f : Flag} (hf : f ∈ Flag.lockTimes) :
    Covers (if r.flags.contains f then pure () else reservedNop r)
      (if r'.flags.contains f then pure () else reservedNop r') := by
  by_cases hflag' : r'.flags.contains f = true
  · rw [if_pos hflag', if_pos (hr.flags.lockTimes f hf hflag')]
    exact .refl _
  · rw [if_neg hflag']
    by_cases hflag : r.flags.contains f = true
    · rw [if_pos hflag]
      exact covers_require (p := True) fun _ => trivial
    · rw [if_neg hflag]
      exact covers_reservedNop hr

theorem covers_popCondition (hr : r.Relaxes r') (negated : Bool) :
    Covers (popCondition r negated) (popCondition r' negated) := by
  refine .bind (.refl _) fun s => ?_
  cases s.stack with
  | nil => exact .refl _
  | cons item rest =>
      refine .bind (.refl _) fun _ => ?_
      exact .bind (covers_require_flag hr (by decide)) fun _ => .refl _

theorem covers_select (hr : r.Relaxes r') (f : Nat → Stack Bytes → Option (Stack Bytes)) :
    Covers (select r f) (select r' f) :=
  .bind (.refl _) fun _ => .bind (covers_number hr 0) fun _ => .refl _

theorem covers_concat (hr : r.Relaxes r') : Covers (concat r) (concat r') := by
  refine .bind (.refl _) fun _ => .bind (.refl _) fun first => .bind (.refl _) fun second => ?_
  exact .bind (covers_require fun h => Nat.le_trans h hr.limits.itemSize) fun _ => .refl _

theorem covers_split (hr : r.Relaxes r') : Covers (split r) (split r') :=
  .bind (.refl _) fun _ => .bind (covers_number hr 0) fun _ => .refl _

theorem covers_resize (hr : r.Relaxes r') : Covers (resize r) (resize r') := by
  refine .bind (.refl _) fun _ => .bind (covers_number hr 0) fun size => ?_
  refine .bind (covers_require fun h => ?_) fun _ => .refl _
  exact ⟨h.1, Nat.le_trans h.2 hr.limits.itemSize⟩

theorem covers_minimize (hr : r.Relaxes r') : Covers (minimize r) (minimize r') := by
  refine .bind (.refl _) fun item => .bind (.refl _) fun trimmed => ?_
  refine .bind (covers_require fun h => ?_) fun _ => .refl _
  exact Number.isMinimalWithin_of_le hr.limits.numberLength h

theorem covers_shift (hr : r.Relaxes r') (left : Bool) : Covers (shift r left) (shift r' left) :=
  .bind (.refl _) fun _ => .bind (covers_number hr 0) fun _ => .refl _

theorem covers_unary (hr : r.Relaxes r') (op : UnaryOp) : Covers (unary r op) (unary r' op) :=
  .bind (.refl _) fun _ => .bind (covers_number hr 0) fun _ => .refl _

theorem covers_binary (hr : r.Relaxes r') (op : BinaryOp) :
    Covers (binary r op) (binary r' op) :=
  .bind (.refl _) fun _ => .bind (covers_number hr 1) fun _ => .bind (covers_number hr 0)
    fun _ => .refl _

theorem covers_within (hr : r.Relaxes r') : Covers (within r) (within r') :=
  .bind (.refl _) fun _ => .bind (covers_number hr 2) fun _ => .bind (covers_number hr 1)
    fun _ => .bind (covers_number hr 0) fun _ => .refl _

/-! ### Signature checks -/

theorem covers_checkPair (hr : r.Relaxes r') (code : Script) (sig key : Bytes) :
    Covers (checkPair r code sig key) (checkPair r' code sig key) := by
  rw [checkPair, checkPair, hr.crypto]
  refine .bind (covers_ofExcept fun _ => Signature.checkForm_of_relaxed hr.flags) fun _ => ?_
  refine .bind (covers_ofExcept fun _ => Signature.checkKeyForm_of_relaxed hr.flags) fun _ => ?_
  exact covers_ask hr _

theorem covers_closeSig (hr : r.Relaxes r') (verify : Bool) (sig : Bytes) (result : Bool) :
    Covers (closeSig r verify sig result) (closeSig r' verify sig result) :=
  .bind (covers_require_flag hr (by decide)) fun _ => .refl _

theorem covers_checkSig (hr : r.Relaxes r') (script : Script) (verify : Bool) :
    Covers (checkSig r script verify) (checkSig r' script verify) := by
  refine .bind (.refl _) fun _ => .bind (.refl _) fun sig => .bind (.refl _) fun key => ?_
  refine .bind (.refl _) fun code => ?_
  rw [Signature.cleanCode?_of_relaxed hr.flags]
  refine .bind (.refl _) fun code => .bind (covers_checkPair hr code sig key) fun result => ?_
  exact covers_closeSig hr verify sig result

theorem covers_count (hr : r.Relaxes r') (place bound : Nat) (e : ScriptError) :
    Covers (count r place bound e) (count r' place bound e) :=
  .bind (covers_number hr place) fun _ => .refl _

theorem cleanCodes_of_relaxed (hr : r.Relaxes r') (count place : Nat) (code : Script) :
    cleanCodes r count place code = cleanCodes r' count place code := by
  induction count generalizing place code with
  | zero => rfl
  | succ count ih =>
      rw [cleanCodes, cleanCodes]
      refine bind_congr fun sig => ?_
      rw [Signature.cleanCode?_of_relaxed hr.flags]
      exact bind_congr fun code => ih (place + 1) code

theorem covers_tryPair (hr : r.Relaxes r') (code : Script) (sigPlace keyPlace : Nat) :
    Covers (tryPair r code sigPlace keyPlace) (tryPair r' code sigPlace keyPlace) :=
  .bind (.refl _) fun sig => .bind (.refl _) fun key => covers_checkPair hr code sig key

theorem covers_matchSigs (hr : r.Relaxes r') (code : Script)
    (keysLeft sigsLeft keyPlace sigPlace : Nat) :
    Covers (matchSigs r code keysLeft sigsLeft keyPlace sigPlace)
      (matchSigs r' code keysLeft sigsLeft keyPlace sigPlace) := by
  induction keysLeft generalizing sigsLeft keyPlace sigPlace with
  | zero =>
      cases sigsLeft with
      | zero => exact .refl _
      | succ sigsLeft => exact .bind (covers_tryPair hr code _ _) fun _ => .refl _
  | succ keysLeft ih =>
      cases sigsLeft with
      | zero => exact .refl _
      | succ sigsLeft =>
          refine .bind (covers_tryPair hr code _ _) fun accepted => ?_
          cases accepted with
          | true =>
              show Covers (if keysLeft < sigsLeft then pure false else _)
                (if keysLeft < sigsLeft then pure false else _)
              split
              · exact .refl _
              · exact ih _ _ _
          | false =>
              show Covers (if keysLeft < sigsLeft + 1 then pure false else _)
                (if keysLeft < sigsLeft + 1 then pure false else _)
              split
              · exact .refl _
              · exact ih _ _ _

theorem covers_requireNull {asked asked' : Bool} (h : asked = true → asked' = true) :
    Covers (requireNull asked) (requireNull asked') := by
  cases asked with
  | true =>
      rw [h rfl]
      exact .refl _
  | false =>
      intro s a t hok
      have hsame : Ends (requireNull asked') s (fun _ u => u = s) fun _ _ => True := by
        cases asked' <;> simp [requireNull]
      rw [hsame.of_ok hok]
      rfl

theorem covers_unwind (hr : r.Relaxes r') (result : Bool) (items others : Nat) :
    Covers (unwind r result items others) (unwind r' result items others) := by
  induction items generalizing others with
  | zero => exact .refl _
  | succ items ih =>
      refine .bind (covers_requireNull fun h => ?_) fun _ => .bind (.refl _) fun _ => ih _
      simp only [Bool.and_eq_true] at h ⊢
      exact ⟨⟨h.1.1, hr.flags.policy _ (by decide) h.1.2⟩, h.2⟩

theorem covers_closeMultiSig (hr : r.Relaxes r') (verify : Bool) (n m : Nat) (result : Bool) :
    Covers (closeMultiSig r verify n m result) (closeMultiSig r' verify n m result) := by
  refine .bind (covers_unwind hr result _ _) fun _ => .bind (.refl _) fun _ => ?_
  exact .bind (.refl _) fun dummy => .bind (covers_require_flag hr (by decide)) fun _ => .refl _

theorem covers_checkMultiSig (hr : r.Relaxes r') (script : Script) (verify : Bool) :
    Covers (checkMultiSig r script verify) (checkMultiSig r' script verify) := by
  refine .bind (.refl _) fun _ => .bind (covers_count hr _ _ _) fun n => ?_
  refine .bind (covers_charge hr n) fun _ => .bind (.refl _) fun _ => ?_
  refine .bind (covers_count hr _ _ _) fun m => .bind (.refl _) fun _ => ?_
  refine .bind (.refl _) fun code => .bind (.of_eq (cleanCodes_of_relaxed hr _ _ _)) fun code => ?_
  exact .bind (covers_matchSigs hr code _ _ _ _) fun result =>
    covers_closeMultiSig hr verify n m result

/-! ### Runs -/

theorem covers_execute (hr : r.Relaxes r') (script : Script) (taken : Bool) (next : Nat)
    (c : Command) : Covers (execute r script taken next c) (execute r' script taken next c) := by
  cases c with
  | reservedNop => exact covers_reservedNop hr
  | lockTime => exact covers_lockTime hr (by decide)
  | relativeLockTime => exact covers_lockTime hr (by decide)
  | openBranch negated =>
      cases taken with
      | false => exact .refl _
      | true => exact .bind (covers_popCondition hr negated) fun _ => .refl _
  | pick => exact covers_select hr _
  | roll => exact covers_select hr _
  | concat => exact covers_concat hr
  | split => exact covers_split hr
  | resize => exact covers_resize hr
  | minimize => exact covers_minimize hr
  | shift left => exact covers_shift hr left
  | unary op => exact covers_unary hr op
  | binary op => exact covers_binary hr op
  | numEqualVerify => exact .bind (covers_binary hr .equal) fun _ => .refl _
  | within => exact covers_within hr
  | hash op =>
      show Covers (pop >>= fun item => push (hashBytes r.crypto op item)) _
      rw [hr.crypto]
      exact .refl _
  | checkSig verify => exact covers_checkSig hr script verify
  | checkMultiSig verify => exact covers_checkMultiSig hr script verify
  | _ => exact .refl _

theorem covers_chargeInstr (hr : r.Relaxes r') (op : Instr) :
    Covers (chargeInstr r op) (chargeInstr r' op) := by
  rw [chargeInstr, chargeInstr]
  split
  · exact .refl _
  · exact covers_charge hr 1

theorem covers_step (hr : r.Relaxes r') (script : Script) (op : Instr) (next : Nat) :
    Covers (step r script op next) (step r' script op next) := by
  refine .bind (covers_require fun h => Nat.le_trans h hr.limits.itemSize) fun _ => ?_
  refine .bind (covers_chargeInstr hr op) fun _ => .bind (.refl _) fun _ => ?_
  refine .bind (.refl _) fun taken => ?_
  split
  · exact .bind (covers_require_flag hr (by decide)) fun _ => .refl _
  · split
    · exact covers_execute hr script taken next _
    · exact .refl _

theorem covers_checkDepth (hr : r.Relaxes r') : Covers (checkDepth r) (checkDepth r') :=
  .bind (.refl _) fun _ => covers_require fun h => Nat.le_trans h hr.limits.stackDepth

theorem covers_runFrom (hr : r.Relaxes r') (script : Script) (position : Nat) (ops : List Instr) :
    Covers (runFrom r script position ops) (runFrom r' script position ops) := by
  induction ops generalizing position with
  | nil => exact .refl _
  | cons op ops ih =>
      refine .bind (covers_step hr script op _) fun _ => ?_
      exact .bind (covers_checkDepth hr) fun _ => ih _

theorem covers_run (hr : r.Relaxes r') (script : Script) :
    Covers (run r script) (run r' script) := by
  refine .bind (covers_require fun h => Nat.le_trans h hr.limits.scriptSize) fun _ => ?_
  exact .bind (covers_runFrom hr script 0 _) fun _ => .refl _

end

end Exec

namespace Script

variable {r r' : Rules}

theorem covers_eval (hr : r.Relaxes r') (script : Script) :
    Covers (eval r script) (eval r' script) := by
  intro session u left hok
  rw [eval] at hok ⊢
  cases hrun : Exec.run r' script { stack := session.stack, calls := session.calls } with
  | error stop s =>
      rw [hrun] at hok
      exact nomatch hok
  | ok v s =>
      rw [hrun] at hok
      rw [Exec.covers_run hr script _ _ _ hrun]
      exact hok

theorem checkResult_of_relaxed {flags flags' : Flags} (hflags : flags.Relaxes flags')
    {stack : Stack Bytes} (h : checkResult flags' stack = .ok ()) :
    checkResult flags stack = .ok () := by
  cases stack with
  | nil => exact nomatch h
  | cons top rest =>
      rw [checkResult] at h ⊢
      split at h
      · exact nomatch h
      · rename_i htop
        rw [if_neg htop]
        split at h
        · exact nomatch h
        · rename_i hclean
          rw [if_neg]
          intro hnot
          simp only [Bool.and_eq_true] at hnot hclean
          exact hclean ⟨hflags.policy _ (by decide) hnot.1, hnot.2⟩

theorem covers_verify (hr : r.Relaxes r') (unlock lock : Script) :
    Covers (verify r unlock lock) (verify r' unlock lock) := by
  by_cases hpush : (r'.flags.contains .sigPushOnly && !unlock.isPushOnly) = true
  · intro s u t hok
    rw [verify, if_pos hpush] at hok
    exact nomatch hok
  · have hpush' : ¬(r.flags.contains .sigPushOnly && !unlock.isPushOnly) = true := by
      simp only [Bool.and_eq_true] at hpush ⊢
      exact fun h => hpush ⟨hr.flags.policy _ (by decide) h.1, h.2⟩
    rw [verify, if_neg hpush', verify, if_neg hpush]
    refine .bind (.refl _) fun _ => .bind (covers_eval hr unlock) fun _ => ?_
    refine .bind (covers_eval hr lock) fun _ => .bind (.refl _) fun session => ?_
    cases hresult : checkResult r'.flags session.stack with
    | error e => exact .of_throw _ e
    | ok u =>
        rw [checkResult_of_relaxed hr.flags hresult]
        exact .refl _

/-- Policy flags only restrict, and flags that enable lock times only relax. Neither matters to the
checker of a transaction, and for any checker that it does not matter to, an evaluation or
verification that succeeds under more policy flags or fewer lock time flags has the same outcome
under the other flags. -/
theorem covers_of_adds (flags flags' : Flags) :
    (flags.Adds flags' Flag.policy →
      (∀ c cache tx index satoshis,
        (Transaction.checker c cache tx index satoshis).SameAnswers flags flags') ∧
      ∀ limits checker crypto, checker.SameAnswers flags flags' →
        (∀ script, Covers (eval ⟨flags, limits, checker, crypto⟩ script)
          (eval ⟨flags', limits, checker, crypto⟩ script)) ∧
        ∀ unlock lock, Covers (verify ⟨flags, limits, checker, crypto⟩ unlock lock)
          (verify ⟨flags', limits, checker, crypto⟩ unlock lock)) ∧
    (flags.Adds flags' Flag.lockTimes →
      (∀ c cache tx index satoshis,
        (Transaction.checker c cache tx index satoshis).SameAnswers flags flags') ∧
      ∀ limits checker crypto, checker.SameAnswers flags flags' →
        (∀ script, Covers (eval ⟨flags', limits, checker, crypto⟩ script)
          (eval ⟨flags, limits, checker, crypto⟩ script)) ∧
        ∀ unlock lock, Covers (verify ⟨flags', limits, checker, crypto⟩ unlock lock)
          (verify ⟨flags, limits, checker, crypto⟩ unlock lock)) := by
  constructor
  · intro hadds
    have hflags := hadds.relaxes_of_policy
    refine ⟨Transaction.sameAnswers_checker hflags.forkId, fun limits checker crypto hsame => ?_⟩
    have hrules : Rules.Relaxes ⟨flags, limits, checker, crypto⟩
        ⟨flags', limits, checker, crypto⟩ := ⟨hflags, .refl limits, hsame, rfl⟩
    exact ⟨covers_eval hrules, covers_verify hrules⟩
  · intro hadds
    have hflags := hadds.relaxes_of_lockTimes
    have hforkId := hflags.forkId.symm
    refine ⟨Transaction.sameAnswers_checker hforkId, fun limits checker crypto hsame => ?_⟩
    have hrules : Rules.Relaxes ⟨flags', limits, checker, crypto⟩
        ⟨flags, limits, checker, crypto⟩ :=
      ⟨hflags, .refl limits, fun before call => (hsame before call).symm, rfl⟩
    exact ⟨covers_eval hrules, covers_verify hrules⟩

/-- A lock that opens if none of its signatures, here one, is accepted under its key. -/
def noneAccepted : Script := [0x51, 0x21, 0x02] ++ List.replicate 32 0x01 ++ [0x51, 0xae, 0x91]

/-- A conditional, a failed check of a signature that is empty, and a lock time. The first two
succeed under all policy flags, and so under none; the third one under no flags, and so under those
that enable it. -/
theorem covers_of_adds_noneAccepted :
    eval ⟨.ofList Flag.policy, .consensus, .refusing, .standard⟩
        [0x51, 0x63, 0x52, 0x53, 0x93, 0x67, 0x6a, 0x68] {} = .ok () ⟨[[5]], []⟩ ∧
      eval ⟨.none, .consensus, .refusing, .standard⟩
        [0x51, 0x63, 0x52, 0x53, 0x93, 0x67, 0x6a, 0x68] {} = .ok () ⟨[[5]], []⟩ ∧
      (∃ left, verify ⟨.ofList Flag.policy, .consensus, .refusing, .standard⟩ [0x00, 0x00]
          noneAccepted {} = .ok () left ∧ left.stack = [[1]] ∧ left.calls.length = 1 ∧
        verify ⟨.none, .consensus, .refusing, .standard⟩ [0x00, 0x00] noneAccepted {} =
          .ok () left) ∧
      verify ⟨.ofList Flag.lockTimes, .consensus, .refusing, .standard⟩ [0x51] [0xb1] {} =
        .ok () ⟨[[1]], []⟩ := by
  have hadds : ∀ fs, Flags.none.Adds (.ofList fs) fs := fun fs =>
    ⟨fun f hf => (nomatch hf), fun f hf => Or.inr (List.contains_iff_mem.1 hf)⟩
  obtain ⟨-, hpolicy⟩ := (covers_of_adds .none (.ofList Flag.policy)).1 (hadds _)
  obtain ⟨-, hlockTimes⟩ := (covers_of_adds .none (.ofList Flag.lockTimes)).2 (hadds _)
  obtain ⟨hevals, hverifies⟩ := hpolicy .consensus .refusing .standard fun _ _ => rfl
  have heval : eval ⟨.ofList Flag.policy, .consensus, .refusing, .standard⟩
      [0x51, 0x63, 0x52, 0x53, 0x93, 0x67, 0x6a, 0x68] {} = .ok () ⟨[[5]], []⟩ := by
    decide +kernel
  have hverify : verify ⟨.ofList Flag.policy, .consensus, .refusing, .standard⟩ [0x00, 0x00]
      noneAccepted {} = .ok () ⟨[[1]], [⟨[], 0x02 :: List.replicate 32 0x01, noneAccepted⟩]⟩ := by
    decide +kernel
  exact ⟨heval, hevals _ {} () _ heval, ⟨_, hverify, rfl, rfl, hverifies _ _ {} () _ hverify⟩,
    (hlockTimes .consensus .refusing .standard fun _ _ => rfl).2 _ _ {} () _ (by decide +kernel)⟩

/-- Higher limits only relax: an evaluation or verification that succeeds under the lower ones has
the same outcome, with the same stack and the same calls of the checker, under the higher ones. -/
theorem covers_of_atLeast {limits limits' : Limits} (h : limits'.AtLeast limits) (flags : Flags)
    (checker : Checker) (crypto : Crypto) :
    (∀ script, Covers (eval ⟨flags, limits', checker, crypto⟩ script)
      (eval ⟨flags, limits, checker, crypto⟩ script)) ∧
    ∀ unlock lock, Covers (verify ⟨flags, limits', checker, crypto⟩ unlock lock)
      (verify ⟨flags, limits, checker, crypto⟩ unlock lock) := by
  have hrules : Rules.Relaxes ⟨flags, limits', checker, crypto⟩ ⟨flags, limits, checker, crypto⟩ :=
    ⟨.refl flags, h, fun _ _ => rfl, rfl⟩
  exact ⟨covers_eval hrules, covers_verify hrules⟩

/-- The number five in exactly two bytes, where items may have no more than that and where they may
be longer; and such items as the two scripts of a verification. -/
theorem covers_of_atLeast_resize :
    Limits.AtLeast { itemSize := 520, numberLength := 8 } { itemSize := 2, numberLength := 1 } ∧
      eval ⟨.ofList Flag.all, { itemSize := 520, numberLength := 8 }, .refusing, .standard⟩
        [0x55, 0x52, 0x80] {} = .ok () ⟨[[5, 0]], []⟩ ∧
      verify ⟨.ofList Flag.all, { itemSize := 520, numberLength := 8 }, .refusing, .standard⟩
        [0x55] [0x52, 0x80] {} = .ok () ⟨[[5, 0]], []⟩ := by
  have hlimits : Limits.AtLeast { itemSize := 520, numberLength := 8 }
      { itemSize := 2, numberLength := 1 } :=
    ⟨by decide, by decide, by decide, by decide, by decide⟩
  obtain ⟨heval, hverify⟩ :=
    covers_of_atLeast hlimits (.ofList Flag.all) .refusing .standard
  exact ⟨hlimits, heval [0x55, 0x52, 0x80] {} () _ (by decide +kernel),
    hverify [0x55] [0x52, 0x80] {} () _ (by decide +kernel)⟩

end Script

end BitcoinScript
