import BitcoinScript.Proofs.Machine.Pushes
import BitcoinScript.Transaction.PubkeyHash

/-!
# Spending from the hash of a public key

A signature and a key that are pushed in the shortest way are left on the stack as they are,
whatever bytes they have. The locking script compares the hash of the key first and looks at the
forms of the signature and the key next, and the checker is asked last, about a script code from
which the push of the hash is missing if the signature is the hash itself. No other instruction of
the locking script can be the push of a signature.
-/

namespace BitcoinScript

namespace PubkeyHash

def lockInstrs (hash : Digest 20) : List Instr :=
  [⟨.dup, []⟩, ⟨.hash160, []⟩, .pushData hash.bytes, ⟨.equalVerify, []⟩, ⟨.checkSig, []⟩]

/-- The script code that a signature of a payment commits to: the locking script, without the push
of the hash if that is the push of the signature. -/
def signedCode (flags : Flags) (hash : Digest 20) (sig : Bytes) : Script :=
  if sig = hash.bytes ∧ Signature.keepsCode flags sig = false then
    [Opcode.dup.byte, Opcode.hash160.byte, Opcode.equalVerify.byte, Opcode.checkSig.byte]
  else lockScript hash

/-- Why an answer about a signature refuses it, if it does. -/
def answerError? (flags : Flags) (sig : Bytes) : Option Bool → Option ScriptError
  | none => some .unknownError
  | some true => none
  | some false =>
      if flags.contains .nullFail ∧ sig ≠ [] then some .sigNullFail else some .evalFalse

/-- Why a signature is refused under a key that has the right hash, if it is. -/
def checkError? (flags : Flags) (checker : Checker) (c : Crypto) (call : SigCall) :
    Option ScriptError :=
  match Signature.checkForm call.sig c flags with
  | .error stop => some stop.toError
  | .ok _ =>
      match Signature.checkKeyForm call.pubkey flags with
      | .error stop => some stop.toError
      | .ok _ => answerError? flags call.sig (checker.checkSig [] call flags)

/-- Why a payment is refused, if it is. -/
def spendError? (flags : Flags) (checker : Checker) (c : Crypto) (hash : Digest 20)
    (sig key : Bytes) : Option ScriptError :=
  if c.hash160 key ≠ hash then some .equalVerify
  else checkError? flags checker c ⟨sig, key, signedCode flags hash sig⟩

variable {hash : Digest 20} {sig key : Bytes} {flags : Flags}

theorem pushData_hash (hash : Digest 20) :
    Instr.pushData hash.bytes = ⟨Instr.opcodeForLength hash.bytes.length, hash.bytes⟩ :=
  Instr.pushData_of_two_le (by rw [hash.length_bytes]; decide)

theorem lockScript_eq (hash : Digest 20) : lockScript hash = Script.ofInstrs (lockInstrs hash) := by
  rw [lockScript, Script.append, Script.append, Script.appendData, Script.appendInstr,
    Script.append, Script.append, List.nil_append]
  simp only [lockInstrs, Script.ofInstrs, List.flatMap_cons, List.flatMap_nil, List.append_nil,
    List.append_assoc]
  rfl

theorem unlockScript_eq (sig key : Bytes) :
    unlockScript sig key = Script.ofInstrs ([sig, key].map Instr.pushData) := by
  simp [unlockScript, Script.appendData, Script.appendInstr, Script.ofInstrs]

theorem length_lockScript (hash : Digest 20) : (lockScript hash).length = 25 := by
  rw [lockScript_eq, lockInstrs, pushData_hash]
  simp [Script.ofInstrs, Instr.length]
  decide

theorem parse_lockScript (hash : Digest 20) :
    Script.parse (lockScript hash) = (lockInstrs hash, []) := by
  have hreadable : ∀ op ∈ lockInstrs hash, op.IsReadable := by
    have hhash : (Instr.pushData hash.bytes).IsReadable :=
      Instr.isReadable_pushData (by rw [hash.length_bytes]; decide)
    simp only [lockInstrs, List.forall_mem_cons, List.not_mem_nil, false_imp_iff, implies_true,
      and_true]
    exact ⟨Instr.isReadable_of_not_isPushData rfl, Instr.isReadable_of_not_isPushData rfl, hhash,
      Instr.isReadable_of_not_isPushData rfl, Instr.isReadable_of_not_isPushData rfl⟩
  have hnil : Script.parse [] = ([], []) := Script.parse_of_none rfl
  have hparse := Script.parse_ofInstrs_append hreadable []
  rwa [List.append_nil, Script.instrs, Script.tail, hnil, List.append_nil, ← lockScript_eq]
    at hparse

theorem cleanCode_lockScript (flags : Flags) (hash : Digest 20) (h : sig.length < 2 ^ 32) :
    Signature.cleanCode flags (lockScript hash) sig = signedCode flags hash sig := by
  -- A push of a signature announces data, which the other four instructions do not.
  have hother : ∀ code : Opcode, code.isPushData = false →
      Signature.removes flags sig ⟨code, []⟩ = false := by
    intro code hcode
    refine Bool.and_eq_false_imp.2 fun _ => decide_eq_false fun heq => ?_
    have hopcode : code = Instr.opcodeForLength sig.length :=
      congrArg Opcode.mk (List.cons.inj heq).1
    rw [hopcode, Instr.isPushData_opcodeForLength] at hcode
    exact nomatch hcode
  have hhash : hash.bytes.length < 2 ^ 32 := by
    rw [hash.length_bytes]
    decide
  have hpush : (Instr.pushData hash.bytes).toBytes = Signature.pushed sig ↔ sig = hash.bytes := by
    rw [pushData_hash]
    refine ⟨fun heq => ?_, fun heq => by rw [heq]; rfl⟩
    have hinstr := Instr.toBytes_inj (Signature.isReadable_pushed hhash)
      (Signature.isReadable_pushed h) heq
    exact (congrArg Instr.data hinstr).symm
  have hown : Signature.removes flags sig (.pushData hash.bytes) =
      decide (sig = hash.bytes ∧ Signature.keepsCode flags sig = false) := by
    rw [Signature.removes, Bool.eq_iff_iff, Bool.and_eq_true, Bool.not_eq_true', decide_eq_true_iff,
      decide_eq_true_iff, hpush, and_comm]
  rw [Signature.cleanCode_eq h, Script.keep, Script.instrs, Script.tail, parse_lockScript,
    List.append_nil, signedCode]
  by_cases hsig : sig = hash.bytes ∧ Signature.keepsCode flags sig = false
  · rw [decide_eq_true hsig] at hown
    rw [if_pos hsig]
    simp only [lockInstrs, List.filter_cons, List.filter_nil, hother .dup rfl,
      hother .hash160 rfl, hother .equalVerify rfl, hother .checkSig rfl, hown]
    rfl
  · rw [decide_eq_false hsig] at hown
    rw [if_neg hsig, lockScript_eq]
    simp only [lockInstrs, List.filter_cons, List.filter_nil, hother .dup rfl,
      hother .hash160 rfl, hother .equalVerify rfl, hother .checkSig rfl, hown]
    rfl

/-! ## Running the locking script -/

section

variable {r : Rules} {script : Script} {calls : List SigCall}

theorem le_ops (hlimits : r.limits = .consensus) {n : Nat} (h : n ≤ 500) : n ≤ r.limits.ops := by
  rw [hlimits]
  exact h

theorem le_stackDepth (hlimits : r.limits = .consensus) {n : Nat} (h : n ≤ 1000) :
    n ≤ r.limits.stackDepth := by
  rw [hlimits]
  exact h

/-- The locking script pushes the hash of the key and the hash that it names. -/
theorem runFrom_lockInstrs (hlimits : r.limits = .consensus) (hash : Digest 20) (sig key : Bytes) :
    ∃ position, Exec.runFrom r script 0 (lockInstrs hash) { stack := [key, sig], calls := calls } =
      Exec.runFrom r script position [⟨.equalVerify, []⟩, ⟨.checkSig, []⟩]
        { stack := [hash.bytes, (r.crypto.hash160 key).bytes, key, sig], opCount := 2,
          calls := calls } := by
  have hdup (next : Nat) : Exec.step r script ⟨.dup, []⟩ next
      { stack := [key, sig], calls := calls } =
        .ok () { stack := [key, key, sig], opCount := 1, calls := calls } :=
    Exec.step_of_operation rfl rfl rfl (le_ops hlimits (by decide : 1 ≤ 500)) rfl
  have hhash160 (next : Nat) : Exec.step r script ⟨.hash160, []⟩ next
      { stack := [key, key, sig], opCount := 1, calls := calls } =
        .ok () { stack := [(r.crypto.hash160 key).bytes, key, sig], opCount := 2,
                 calls := calls } :=
    Exec.step_of_operation rfl rfl rfl (le_ops hlimits (by decide : 2 ≤ 500)) rfl
  have hpush (next : Nat) : Exec.step r script (.pushData hash.bytes) next
      { stack := [(r.crypto.hash160 key).bytes, key, sig], opCount := 2, calls := calls } =
        .ok () { stack := [hash.bytes, (r.crypto.hash160 key).bytes, key, sig], opCount := 2,
                 calls := calls } := by
    refine Exec.step_of_pushValue? (Instr.pushValue?_pushData hash.bytes) ?_
      (fun _ h => Instr.isMinimalPush_pushData h) rfl
    have hdata := Instr.length_data_pushData_le hash.bytes
    rw [hash.length_bytes] at hdata
    rw [hlimits]
    exact Nat.le_trans hdata (by decide)
  have hthree := le_stackDepth hlimits (by decide : 3 ≤ 1000)
  have hfour := le_stackDepth hlimits (by decide : 4 ≤ 1000)
  exact ⟨_, (Exec.runFrom_cons_of_ok (hdup _) hthree).trans <|
    (Exec.runFrom_cons_of_ok (hhash160 _) hthree).trans <|
    Exec.runFrom_cons_of_ok (hpush _) hfour⟩

theorem exists_runFrom_of_ne (hlimits : r.limits = .consensus)
    (hkey : r.crypto.hash160 key ≠ hash) :
    ∃ t, Exec.runFrom r script 0 (lockInstrs hash) { stack := [key, sig], calls := calls } =
      .error (.error .equalVerify) t := by
  obtain ⟨position, hprefix⟩ := runFrom_lockInstrs hlimits hash sig key
  have hbytes : ¬(r.crypto.hash160 key).bytes = hash.bytes := fun h => hkey (Digest.ext h)
  have hequal (next : Nat) : Exec.step r script ⟨.equalVerify, []⟩ next
      { stack := [hash.bytes, (r.crypto.hash160 key).bytes, key, sig], opCount := 2,
        calls := calls } =
        .error (.error .equalVerify) { stack := [key, sig], opCount := 3, calls := calls } := by
    refine (Exec.step_of_operation rfl rfl rfl (le_ops hlimits (by decide : 3 ≤ 500)) rfl).trans ?_
    exact Exec.require_of_not _ (by simpa using hbytes)
  exact ⟨_, hprefix.trans (Exec.runFrom_cons_of_error (hequal _))⟩

theorem exists_runFrom_of_eq (hlimits : r.limits = .consensus)
    (hkey : r.crypto.hash160 key = hash) :
    ∃ position, Exec.runFrom r script 0 (lockInstrs hash) { stack := [key, sig], calls := calls } =
      Exec.runFrom r script position [⟨.checkSig, []⟩]
        { stack := [key, sig], opCount := 3, calls := calls } := by
  obtain ⟨position, hprefix⟩ := runFrom_lockInstrs hlimits hash sig key
  have hbytes : (r.crypto.hash160 key).bytes = hash.bytes := congrArg Digest.bytes hkey
  have hequal (next : Nat) : Exec.step r script ⟨.equalVerify, []⟩ next
      { stack := [hash.bytes, (r.crypto.hash160 key).bytes, key, sig], opCount := 2,
        calls := calls } = .ok () { stack := [key, sig], opCount := 3, calls := calls } := by
    refine (Exec.step_of_operation rfl rfl rfl (le_ops hlimits (by decide : 3 ≤ 500)) rfl).trans ?_
    exact Exec.require_of _ (by simpa using hbytes)
  exact ⟨_, hprefix.trans (Exec.runFrom_cons_of_ok (hequal _)
    (le_stackDepth hlimits (by decide : 2 ≤ 1000)))⟩

theorem step_checkSig (hlimits : r.limits = .consensus) (sig key : Bytes) (next : Nat) :
    Exec.step r script ⟨.checkSig, []⟩ next { stack := [key, sig], opCount := 3, calls := calls } =
      Exec.checkSig r script false { stack := [key, sig], opCount := 4, calls := calls } :=
  Exec.step_of_operation rfl rfl rfl (le_ops hlimits (by decide : 4 ≤ 500)) rfl

theorem length_lockScript_le (hlimits : r.limits = .consensus) (hash : Digest 20) :
    (lockScript hash).length ≤ r.limits.scriptSize := by
  rw [hlimits, length_lockScript]
  decide

theorem instrs_lockScript (hash : Digest 20) : (lockScript hash).instrs = lockInstrs hash :=
  congrArg Prod.fst (parse_lockScript hash)

theorem eval_lockScript_of_ne (hlimits : r.limits = .consensus)
    (hkey : r.crypto.hash160 key ≠ hash) :
    ∃ left, Script.eval r (lockScript hash) ⟨[key, sig], calls⟩ = .error .equalVerify left := by
  obtain ⟨t, hrun⟩ := exists_runFrom_of_ne hlimits hkey
  rw [← instrs_lockScript] at hrun
  exact ⟨_, Script.eval_of_runFrom_eq_error (length_lockScript_le hlimits hash) hrun⟩

theorem eval_lockScript_of_error (hlimits : r.limits = .consensus)
    (hkey : r.crypto.hash160 key = hash) {stop : Stop} {t : State}
    (hcheck : Exec.checkSig r (lockScript hash) false
      { stack := [key, sig], opCount := 4, calls := calls } = .error stop t) :
    Script.eval r (lockScript hash) ⟨[key, sig], calls⟩ =
      .error stop.toError ⟨t.stack, t.calls⟩ := by
  obtain ⟨position, hprefix⟩ := exists_runFrom_of_eq hlimits hkey
  have hstep (next : Nat) := (step_checkSig hlimits sig key next).trans hcheck
  have hrun := hprefix.trans (Exec.runFrom_cons_of_error (hstep _))
  rw [← instrs_lockScript] at hrun
  exact Script.eval_of_runFrom_eq_error (length_lockScript_le hlimits hash) hrun

theorem eval_lockScript_of_ok (hlimits : r.limits = .consensus)
    (hkey : r.crypto.hash160 key = hash) {item : Bytes} {made : List SigCall}
    (hcheck : Exec.checkSig r (lockScript hash) false
      { stack := [key, sig], opCount := 4, calls := calls } =
        .ok () { stack := [item], opCount := 4, calls := made }) :
    Script.eval r (lockScript hash) ⟨[key, sig], calls⟩ = .ok () ⟨[item], made⟩ := by
  obtain ⟨position, hprefix⟩ := exists_runFrom_of_eq hlimits hkey
  have hstep (next : Nat) := (step_checkSig hlimits sig key next).trans hcheck
  have hrun := hprefix.trans
    (Exec.runFrom_cons_of_ok (hstep _) (le_stackDepth hlimits (by decide : 1 ≤ 1000)))
  rw [← instrs_lockScript] at hrun
  exact Script.eval_of_runFrom_eq_ok (length_lockScript_le hlimits hash)
    (congrArg Prod.snd (parse_lockScript hash)) hrun rfl

end

/-! ## Verifying a payment -/

section

variable {r : Rules}

theorem length_unlockScript_le (sig key : Bytes) :
    (unlockScript sig key).length ≤ sig.length + key.length + 10 := by
  have hsig := Instr.length_pushData_le sig
  have hkey := Instr.length_pushData_le key
  simp only [unlockScript_eq, Script.ofInstrs, List.map_cons, List.map_nil, List.flatMap_cons,
    List.flatMap_nil, List.append_nil, List.length_append, Instr.length_toBytes]
  omega

/-- The unlocking script leaves the signature and the key. -/
theorem unlocks_unlockScript (hlimits : r.limits = .consensus) (hsig : sig.length ≤ 520)
    (hkey : key.length ≤ 520) : Script.Unlocks r (unlockScript sig key) ⟨[key, sig], []⟩ := by
  have hitems : ∀ item ∈ [sig, key], item.length ≤ 520 := by
    simp only [List.forall_mem_cons, List.not_mem_nil, false_imp_iff, implies_true, and_true]
    exact ⟨hsig, hkey⟩
  have hshort : ∀ item ∈ [sig, key], item.length < 2 ^ 32 := fun item hitem =>
    Nat.lt_of_le_of_lt (hitems item hitem) (by decide)
  have hsize := length_unlockScript_le sig key
  rw [unlockScript_eq] at hsize ⊢
  refine ⟨fun _ => Script.isPushOnly_pushData hshort, ?_⟩
  refine Script.eval_pushData hshort ?_ (le_stackDepth hlimits (by decide : 2 ≤ 1000)) ?_
  · rw [hlimits]
    exact hitems
  · rw [hlimits]
    exact Nat.le_trans hsize (show sig.length + key.length + 10 ≤ 10000 by omega)

theorem verifyError?_of_ne (hlimits : r.limits = .consensus) (hsig : sig.length ≤ 520)
    (hlength : key.length ≤ 520) (hkey : r.crypto.hash160 key ≠ hash) :
    Script.verifyError? r (unlockScript sig key) (lockScript hash) = some .equalVerify := by
  obtain ⟨left, heval⟩ : ∃ left, Script.eval r (lockScript hash) ⟨[key, sig], []⟩ =
      .error .equalVerify left := eval_lockScript_of_ne hlimits hkey
  exact (unlocks_unlockScript hlimits hsig hlength).verifyError?_of_error heval

/-- With the right key and with forms that pass, the outcome is the answer of the checker. -/
theorem verifyError?_of_forms (hlimits : r.limits = .consensus) (hsig : sig.length ≤ 520)
    (hlength : key.length ≤ 520) (hkey : r.crypto.hash160 key = hash) {code : Script}
    (hcheck : Exec.checkSig r (lockScript hash) false { stack := [key, sig], opCount := 4 } =
      (Exec.ask r ⟨sig, key, code⟩ >>= Exec.closeSig r false sig)
        { stack := [key, sig], opCount := 4 }) :
    Script.verifyError? r (unlockScript sig key) (lockScript hash) =
      answerError? r.flags sig (r.checker.checkSig [] ⟨sig, key, code⟩ r.flags) := by
  have hunlocks := unlocks_unlockScript hlimits hsig hlength
  cases hanswer : r.checker.checkSig [] ⟨sig, key, code⟩ r.flags with
  | none =>
      have hstop := hcheck.trans (bind_of_error (Exec.ask_of_none hanswer))
      exact hunlocks.verifyError?_of_error (eval_lockScript_of_error hlimits hkey hstop)
  | some accepted =>
      have hasked := hcheck.trans (bind_of_ok (Exec.ask_of_some hanswer))
      by_cases hnull : r.flags.contains .nullFail → accepted ∨ sig = []
      · have hleft : Exec.checkSig r (lockScript hash) false
            { stack := [key, sig], opCount := 4 } =
              .ok () { stack := [Operand.ofBool accepted], opCount := 4,
                       calls := [⟨sig, key, code⟩] } :=
          hasked.trans (bind_of_ok (Exec.require_of _ hnull))
        rw [hunlocks.verifyError?_of_ofBool (eval_lockScript_of_ok hlimits hkey hleft)]
        cases accepted with
        | true => rfl
        | false =>
            have hempty : ¬(r.flags.contains .nullFail ∧ sig ≠ []) := by simpa using hnull
            exact (if_neg hempty).symm
      · have hstop := hasked.trans (bind_of_error (Exec.require_of_not _ hnull))
        obtain ⟨hflag, hrefused⟩ := Classical.not_imp.1 hnull
        rw [not_or, Bool.not_eq_true] at hrefused
        obtain ⟨rfl, hempty⟩ := hrefused
        rw [hunlocks.verifyError?_of_error (eval_lockScript_of_error hlimits hkey hstop)]
        exact (if_pos ⟨hflag, hempty⟩).symm

/-- With the right key the outcome is that of the check of the signature. -/
theorem verifyError?_of_eq (hlimits : r.limits = .consensus) (hsig : sig.length ≤ 520)
    (hlength : key.length ≤ 520) (hkey : r.crypto.hash160 key = hash) :
    Script.verifyError? r (unlockScript sig key) (lockScript hash) =
      checkError? r.flags r.checker r.crypto ⟨sig, key, signedCode r.flags hash sig⟩ := by
  have hcode : Signature.cleanCode r.flags ((lockScript hash).drop 0) sig =
      signedCode r.flags hash sig :=
    cleanCode_lockScript r.flags hash (Nat.lt_of_le_of_lt hsig (by decide))
  have hcheck : Exec.checkSig r (lockScript hash) false { stack := [key, sig], opCount := 4 } =
      (Exec.checkPair r (signedCode r.flags hash sig) sig key >>= Exec.closeSig r false sig)
        { stack := [key, sig], opCount := 4 } := by
    rw [Exec.checkSig_of_stack rfl (Nat.zero_le _), hcode]
  have hunlocks := unlocks_unlockScript hlimits hsig hlength
  rw [Exec.checkPair] at hcheck
  rw [checkError?]
  cases hform : Signature.checkForm sig r.crypto r.flags with
  | error stop =>
      rw [hform] at hcheck
      exact hunlocks.verifyError?_of_error (eval_lockScript_of_error hlimits hkey hcheck)
  | ok _ =>
      cases hkeyForm : Signature.checkKeyForm key r.flags with
      | error stop =>
          rw [hform, hkeyForm] at hcheck
          exact hunlocks.verifyError?_of_error (eval_lockScript_of_error hlimits hkey hcheck)
      | ok _ =>
          rw [hform, hkeyForm] at hcheck
          exact verifyError?_of_forms hlimits hsig hlength hkey hcheck

end

/-- Why a payment is refused, if it is, whatever the signature, the key and the hash are. -/
theorem verifyError?_spend (flags : Flags) (checker : Checker) (c : Crypto) (hash : Digest 20)
    {sig key : Bytes} (hsig : sig.length ≤ 520) (hkey : key.length ≤ 520) :
    Script.verifyError? ⟨flags, .consensus, checker, c⟩ (unlockScript sig key) (lockScript hash) =
      spendError? flags checker c hash sig key := by
  rw [spendError?]
  split
  · rename_i hne
    exact verifyError?_of_ne rfl hsig hkey hne
  · rename_i heq
    exact verifyError?_of_eq rfl hsig hkey (not_not.1 heq)

/-- A checker that accepts what commits to a given script code. -/
def codeChecker (code : Script) : Checker where
  checkSig _ call _ := some (call.code = code)

/-- The generator in compressed form, and its hash. -/
def generatorKey : Bytes := 2 :: Bytes.ofNatBE 32 Secp256k1.generator.x

/-- A signature that is the hash itself commits to a script code without it. -/
theorem verifyError?_spend_hash :
    (Crypto.standard.hash160 generatorKey).bytes.length ≤ 520 ∧ generatorKey.length ≤ 520 ∧
      Script.verifyError?
        ⟨.ofList [.nullFail, .cleanStack], .consensus, codeChecker [0x76, 0xa9, 0x88, 0xac],
          .standard⟩
        (unlockScript (Crypto.standard.hash160 generatorKey).bytes generatorKey)
        (lockScript (Crypto.standard.hash160 generatorKey)) = none := by
  have hsig : (Crypto.standard.hash160 generatorKey).bytes.length ≤ 520 := by
    rw [Digest.length_bytes]
    decide
  have hkey : generatorKey.length ≤ 520 := by decide
  refine ⟨hsig, hkey, ?_⟩
  rw [verifyError?_spend _ _ _ _ hsig hkey]
  decide +kernel

end PubkeyHash

end BitcoinScript
