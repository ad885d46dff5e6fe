import BitcoinScript.Proofs.Machine.SignedCode
import BitcoinScript.Proofs.Signature.Forms
import BitcoinScript.Proofs.Signature.Grammar
import BitcoinScript.Transaction.Checker

/-!
# Signatures cannot be replayed

A checker is only asked about a signature and a key whose forms have passed. The hash type of a
signature is read three times: its form is checked, the script code is cleaned of it or not, and one
of two digests is chosen. With `strictEnc` all three agree: where the fork identifier is enabled,
every signature that verifies commits to the digest with it, and where it is not, every one has a
defined type without it and commits to the legacy digest. So a signature that was made for one side
of a fork is refused on the other.
-/

namespace BitcoinScript

namespace Signature

/-- The forms of signatures that a checker is asked about. -/
def FormOk (c : Crypto) (flags : Flags) (sig : Bytes) : Prop :=
  sig = [] ∨
    (flags.contains .derSig ∨ flags.contains .lowS ∨ flags.contains .strictEnc →
      sig.length ≤ 73 ∧ ∃ r s t, IsStrictForm r s t sig) ∧
    (flags.contains .lowS → ∃ parsed,
      c.readLaxDer? sig.dropLast = some parsed ∧ c.normalize parsed = parsed)

/-- The forms of keys that a checker is asked about. -/
def KeyFormOk (flags : Flags) (key : Bytes) : Prop :=
  (flags.contains .strictEnc →
    key.length = 33 ∧ (key.head? = some 2 ∨ key.head? = some 3) ∨
      key.length = 65 ∧ key.head? = some 4) ∧
    (flags.contains .compressedPubkeyType →
      key.length = 33 ∧ (key.head? = some 2 ∨ key.head? = some 3))

theorem isCompressedKey_iff {key : Bytes} :
    isCompressedKey key = true ↔
      key.length = 33 ∧ (key.head? = some 2 ∨ key.head? = some 3) := by
  simp only [isCompressedKey, Bool.and_eq_true, Bool.or_eq_true, decide_eq_true_eq]

theorem isKnownKey_iff {key : Bytes} :
    isKnownKey key = true ↔
      key.length = 33 ∧ (key.head? = some 2 ∨ key.head? = some 3) ∨
        key.length = 65 ∧ key.head? = some 4 := by
  simp only [isKnownKey, Bool.and_eq_true, Bool.or_eq_true, decide_eq_true_eq, isCompressedKey_iff]

variable {c : Crypto} {flags : Flags} {sig key : Bytes}

theorem formOk_of_checkForm (h : checkForm sig c flags = .ok ()) : FormOk c flags sig := by
  refine (checkForm_eq_ok_iff.1 h).imp_right fun ⟨hder, hlow, _⟩ =>
    ⟨fun hflags => ?_, fun hflag => ?_⟩
  · exact isStrictDer_iff.1 (hder (needsStrictDer_iff.2 hflags))
  · exact (isLow_iff.1 (hlow hflag)).2

theorem keyFormOk_of_checkKeyForm (h : checkKeyForm key flags = .ok ()) : KeyFormOk flags key :=
  (checkKeyForm_eq_ok_iff.1 h).imp (fun hknown hflag => isKnownKey_iff.1 (hknown hflag))
    fun hcompressed hflag => isCompressedKey_iff.1 (hcompressed hflag)

/-- The hash type of a signature that has passed under `strictEnc`. -/
theorem hashType_of_checkForm (h : checkForm sig c flags = .ok ())
    (hstrict : flags.contains .strictEnc) (hempty : sig ≠ []) :
    (HashType.ofSignature sig).isDefined ∧
      (HashType.ofSignature sig).hasForkId = flags.contains .enableForkId := by
  obtain ⟨-, -, htype⟩ := (checkForm_eq_ok_iff.1 h).resolve_left hempty
  obtain ⟨hdefined, hforkId⟩ := htype hstrict
  rw [hasDefinedType, Bool.and_eq_true] at hdefined
  exact ⟨hdefined.2, hforkId⟩

/-- The script code is kept for exactly those signatures that commit to a digest with the fork
identifier. -/
theorem keepsCode_eq_usesForkId (flags : Flags) (sig : Bytes) :
    keepsCode flags sig = SigHash.usesForkId (HashType.ofSignature sig) flags :=
  Bool.and_comm _ _

end Signature

namespace Transaction

variable {c : Crypto} {cache : SigHashCache} {tx : Transaction} {index : Nat} {satoshis : Int64}
  {call : SigCall} {flags : Flags}

/-- A signature that verifies does so for the digest that its hash type chooses. -/
theorem exists_of_verifiesSig (h : verifiesSig c cache tx index satoshis call flags = true) :
    call.sig ≠ [] ∧ ∃ parsed digest,
      c.readLaxDer? call.sig.dropLast = some parsed ∧
        signatureHash c cache tx index call.code satoshis (HashType.ofSignature call.sig) flags =
          .ok digest ∧
        c.verify call.pubkey digest (c.normalize parsed) = true := by
  rw [verifiesSig] at h
  split at h
  · exact nomatch h
  · rename_i hempty
    refine ⟨hempty, ?_⟩
    split at h
    · exact nomatch h
    · rename_i parsed hparsed
      dsimp only at h
      split at h
      · exact nomatch h
      · rename_i digest hdigest
        exact ⟨parsed, digest, hparsed, hdigest, h⟩

end Transaction

namespace Script

/-- The checker is only asked about signatures and keys that have the forms the flags ask for. -/
theorem sessionAfter_forms (r : Rules) (script : Script) (session : Session) :
    ∃ made, (sessionAfter r script session).calls = session.calls ++ made ∧
      ∀ call ∈ made, Signature.checkForm call.sig r.crypto r.flags = .ok () ∧
        Signature.checkKeyForm call.pubkey r.flags = .ok () := by
  let start : State := { stack := session.stack, calls := session.calls }
  have hadds : Exec.Adds (Exec.MadeIn r script start) start
      (Exec.stateAfter (Exec.run r script) start) := Exec.adds_run.stateAfter
  obtain ⟨made, hmade, hcalls⟩ := hadds
  refine ⟨made, (calls_sessionAfter r script session).trans hmade, fun call hcall => ?_⟩
  obtain ⟨_, _, _, _, _, _, hcallOf⟩ := hcalls call hcall
  exact ⟨hcallOf.sigForm, hcallOf.keyForm⟩

/-- Whatever an evaluation asks its checker about has the forms that the flags ask for. Under
`strictEnc` a checker of a transaction accepts a signature only for the digest with the fork
identifier if that is enabled, and then the script code was not cleaned of the signature. If it is
not enabled, it accepts only signatures of a defined type without the fork identifier, for the
legacy digest. -/
theorem eval_notReplayed (r : Rules) (script : Script) (session : Session) :
    ∃ made, (sessionAfter r script session).calls = session.calls ++ made ∧
      (∀ call ∈ made,
        Signature.FormOk r.crypto r.flags call.sig ∧ Signature.KeyFormOk r.flags call.pubkey) ∧
      ∀ c cache tx index satoshis before call, call ∈ made →
        r.checker = Transaction.checker c cache tx index satoshis →
        r.flags.contains .strictEnc →
        r.checker.checkSig before call r.flags = some true →
        ∃ parsed digest, call.sig ≠ [] ∧
          c.readLaxDer? call.sig.dropLast = some parsed ∧
          c.verify call.pubkey digest (c.normalize parsed) = true ∧
          (HashType.ofSignature call.sig).isDefined ∧
          if r.flags.contains .enableForkId then
            (HashType.ofSignature call.sig).hasForkId = true ∧
              Signature.keepsCode r.flags call.sig = true ∧
              SigHash.forkId c cache tx index call.code satoshis (HashType.ofSignature call.sig) =
                .ok digest
          else
            (HashType.ofSignature call.sig).hasForkId = false ∧
              digest = SigHash.legacy c tx index call.code (HashType.ofSignature call.sig) := by
  obtain ⟨made, hmade, hforms⟩ := sessionAfter_forms r script session
  refine ⟨made, hmade, fun call hcall => ?_, ?_⟩
  · obtain ⟨hsig, hkey⟩ := hforms call hcall
    exact ⟨Signature.formOk_of_checkForm hsig, Signature.keyFormOk_of_checkKeyForm hkey⟩
  · intro c cache tx index satoshis before call hcall hchecker hstrict haccepted
    rw [hchecker] at haccepted
    obtain ⟨hempty, parsed, digest, hparsed, hdigest, hverified⟩ :=
      Transaction.exists_of_verifiesSig (Option.some.inj haccepted)
    obtain ⟨hdefined, hforkId⟩ :=
      Signature.hashType_of_checkForm (hforms call hcall).1 hstrict hempty
    refine ⟨parsed, digest, hempty, hparsed, hverified, hdefined, ?_⟩
    rw [signatureHash, ← Signature.keepsCode_eq_usesForkId] at hdigest
    split
    · rename_i henabled
      have hkeeps : Signature.keepsCode r.flags call.sig = true := by
        rw [Signature.keepsCode, hforkId, henabled]
        rfl
      rw [if_pos hkeeps] at hdigest
      exact ⟨hforkId.trans henabled, hkeeps, hdigest⟩
    · rename_i henabled
      have hkeeps : ¬Signature.keepsCode r.flags call.sig = true := by
        rw [Signature.keepsCode, Bool.and_eq_true]
        exact fun h => henabled h.1
      rw [if_neg hkeeps] at hdigest
      exact ⟨hforkId.trans (Bool.eq_false_of_not_eq_true henabled), (Except.ok.inj hdigest).symm⟩

/-- Hashes that are all the same, and signatures that all verify. -/
def uniformCrypto : Crypto :=
  { Crypto.standard with
    sha256d := fun _ => .zero 32
    verify := fun _ _ _ => true }

/-- A transaction with one input, with signatures of every form checked. -/
def strictRules : Rules where
  flags := .ofList [.strictEnc, .derSig, .lowS, .compressedPubkeyType, .enableForkId]
  limits := .consensus
  checker := Transaction.checker uniformCrypto ⟨.zero 32, .zero 32, .zero 32⟩
    ⟨1, [⟨⟨.zero 32, 0⟩, [], 0⟩], [], 0⟩ 0 100
  crypto := uniformCrypto

/-- A signature of all outputs with the fork identifier, and a key. -/
def strictCall : SigCall :=
  ⟨[0x30, 0x06, 0x02, 0x01, 0x01, 0x02, 0x01, 0x01, 0x41], 0x02 :: List.replicate 32 0x01, [0xac]⟩

theorem eval_notReplayed_strictCall :
    (sessionAfter strictRules [0xac] { stack := [strictCall.pubkey, strictCall.sig] }).calls =
        [strictCall] ∧
      strictRules.checker.checkSig [] strictCall strictRules.flags = some true ∧
      strictCall.sig.length ≤ 73 ∧ (∃ r s t, Signature.IsStrictForm r s t strictCall.sig) ∧
      (HashType.ofSignature strictCall.sig).hasForkId = true := by
  have hcalls : (sessionAfter strictRules [0xac]
      { stack := [strictCall.pubkey, strictCall.sig] }).calls = [strictCall] := by decide +kernel
  have hstrict : strictRules.flags.contains .strictEnc := by decide
  have haccepted : strictRules.checker.checkSig [] strictCall strictRules.flags = some true := by
    decide +kernel
  obtain ⟨made, hmade, hforms, hverified⟩ :=
    eval_notReplayed strictRules [0xac] { stack := [strictCall.pubkey, strictCall.sig] }
  rw [hcalls, List.nil_append] at hmade
  have hcall : strictCall ∈ made := by
    rw [← hmade]
    exact List.mem_singleton.2 rfl
  obtain ⟨parsed, digest, hempty, -, -, -, hforkId⟩ :=
    hverified _ _ _ _ _ [] strictCall hcall rfl hstrict haccepted
  rw [if_pos (by decide)] at hforkId
  have hder := ((hforms strictCall hcall).1.resolve_left hempty).1 (Or.inr (Or.inr hstrict))
  exact ⟨hcalls, haccepted, hder.1, hder.2, hforkId.1⟩

end Script

end BitcoinScript
