import BitcoinScript.Proofs.Machine.Outcome
import BitcoinScript.Signature.Encoding

/-!
# Forms that pass

What the checks of forms let pass, as conditions on the flags. A signature that is not empty is
refused unless it has each form that a flag asks for; with `strictEnc` its hash type is defined and
has the fork identifier exactly if that is enabled.
-/

namespace BitcoinScript.Signature

variable {sig key : Bytes} {c : Crypto} {flags : Flags}

theorem needsStrictDer_iff :
    needsStrictDer flags = true ↔
      flags.contains .derSig ∨ flags.contains .lowS ∨ flags.contains .strictEnc := by
  rw [needsStrictDer, Bool.or_eq_true, Bool.or_eq_true, or_assoc]

theorem checkDer_eq_ok_iff :
    checkDer sig flags = .ok () ↔ (needsStrictDer flags → isStrictDer sig) := by
  rw [checkDer, isStrictDer]
  split
  · rename_i hneeds
    cases strictDer? sig with
    | none => exact ⟨(nomatch ·), fun h => nomatch h hneeds⟩
    | some strict => exact Stop.require_eq_ok_iff.trans ⟨fun h _ => h, fun h => h hneeds⟩
  · rename_i hneeds
    exact ⟨fun _ h => absurd h hneeds, fun _ => rfl⟩

theorem checkHashType_eq_ok_iff :
    checkHashType sig flags = .ok () ↔
      (flags.contains .strictEnc → hasDefinedType sig ∧
        (HashType.ofSignature sig).hasForkId = flags.contains .enableForkId) := by
  rw [checkHashType]
  split
  · rename_i hstrict
    simp only [except_check_bind_eq_ok_iff, Stop.require_eq_ok_iff, hstrict, true_imp_iff]
    exact and_congr_right fun _ => iff_def.symm.trans Bool.eq_iff_iff.symm
  · rename_i hstrict
    exact ⟨fun _ h => absurd h hstrict, fun _ => rfl⟩

theorem isLow_iff :
    isLow sig c = true ↔ sig ≠ [] ∧ ∃ parsed,
      c.readLaxDer? sig.dropLast = some parsed ∧ c.normalize parsed = parsed := by
  rw [isLow, Bool.and_eq_true, decide_eq_true_eq]
  refine and_congr_right fun _ => ?_
  cases c.readLaxDer? sig.dropLast with
  | none => exact ⟨(nomatch ·), fun ⟨_, h, _⟩ => nomatch h⟩
  | some parsed =>
      refine decide_eq_true_iff.trans ⟨fun h => ⟨parsed, rfl, h⟩, ?_⟩
      rintro ⟨_, hparsed, hlow⟩
      obtain rfl := Option.some.inj hparsed
      exact hlow

/-- The forms of signatures that the flags let pass. -/
theorem checkForm_eq_ok_iff :
    checkForm sig c flags = .ok () ↔
      sig = [] ∨ (needsStrictDer flags → isStrictDer sig) ∧
        (flags.contains .lowS → isLow sig c) ∧
        (flags.contains .strictEnc → hasDefinedType sig ∧
          (HashType.ofSignature sig).hasForkId = flags.contains .enableForkId) := by
  rw [checkForm]
  split
  · exact ⟨fun _ => Or.inl ‹_›, fun _ => rfl⟩
  · rename_i hempty
    rw [or_iff_right hempty, ← checkDer_eq_ok_iff, ← checkHashType_eq_ok_iff]
    simp only [except_check_bind_eq_ok_iff, Stop.require_eq_ok_iff]

/-- The forms of public keys that the flags let pass. -/
theorem checkKeyForm_eq_ok_iff :
    checkKeyForm key flags = .ok () ↔
      (flags.contains .strictEnc → isKnownKey key) ∧
        (flags.contains .compressedPubkeyType → isCompressedKey key) := by
  simp only [checkKeyForm, except_check_bind_eq_ok_iff, Stop.require_eq_ok_iff]

end BitcoinScript.Signature
