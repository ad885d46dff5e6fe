import BitcoinScript.Proofs.Signature.Forms
import BitcoinScript.Proofs.Signature.Grammar
import BitcoinScript.Signature.Create

/-!
# Signatures that are made

A signature that is made is the low form of what the signature scheme gives, in strict DER, with its
hash type behind it. `Crypto.LawfulSigs` says what this relies on: low forms are low, and what is
written has the strict form and is read back. Then no flag refuses the signature, if its type is
defined and has the fork identifier.
-/

namespace BitcoinScript

namespace HashType

/-- The types with the fork identifier: all outputs, none or the single one, with or without the
other inputs. -/
def forkIdTypes : List HashType := [⟨0x41⟩, ⟨0x42⟩, ⟨0x43⟩, ⟨0xc1⟩, ⟨0xc2⟩, ⟨0xc3⟩]

theorem isDefined_of_mem_forkIdTypes : ∀ t ∈ forkIdTypes, t.isDefined = true := by decide

theorem hasForkId_of_mem_forkIdTypes : ∀ t ∈ forkIdTypes, t.hasForkId = true := by decide

end HashType

namespace Secp256k1.Signature

structure IsReduced (sig : Signature) : Prop where
  r_lt : sig.r < order
  s_lt : sig.s < order

theorem isShortestInteger_derInteger {n : Nat} (h : n < order) :
    IsShortestInteger n (derInteger n) := by
  have hshortest := isStrictInteger_iff_isShortestInteger.1 (isStrictInteger_derInteger n)
  rwa [toNatBE_derInteger h] at hshortest

theorem IsShortestInteger.length_le_of_lt {n : Nat} {digits : Bytes}
    (h : IsShortestInteger n digits) (hn : n < order) : digits.length ≤ 33 :=
  Nat.le_trans (h.length_le (isShortestInteger_derInteger hn).toIsInteger)
    (length_derInteger_le n)

end Secp256k1.Signature

/-- What making signatures relies on of a signature scheme, for signatures whose numbers are below
the group order. -/
structure Crypto.LawfulSigs (c : Crypto) : Prop where
  isReduced_normalize : ∀ {sig}, sig.IsReduced → (c.normalize sig).IsReduced
  normalize_normalize : ∀ {sig}, sig.IsReduced → c.normalize (c.normalize sig) = c.normalize sig
  isStrictForm_toDer : ∀ {sig}, sig.IsReduced → ∀ t,
    Signature.IsStrictForm sig.r sig.s t (c.toDer sig ++ [t])
  readLaxDer?_toDer : ∀ {sig}, sig.IsReduced → c.readLaxDer? (c.toDer sig) = some sig

namespace Signature

open Secp256k1.Signature

theorem IsStrictForm.length_le {r s : Nat} {t : UInt8} {sig : Bytes} (h : IsStrictForm r s t sig)
    (hr : r < Secp256k1.order) (hs : s < Secp256k1.order) : sig.length ≤ 73 := by
  obtain ⟨digitsR, digitsS, hdigitsR, hdigitsS, rfl⟩ := h
  have hlengthR := hdigitsR.length_le_of_lt hr
  have hlengthS := hdigitsS.length_le_of_lt hs
  rw [length_strictForm]
  omega

theorem toDer_append_eq (sig : Secp256k1.Signature) (t : UInt8) :
    sig.toDer ++ [t] = strictForm (derInteger sig.r) (derInteger sig.s) t := by
  simp only [toDer, strictForm, List.append_assoc, List.cons_append, List.nil_append]

end Signature

open Secp256k1.Signature in
theorem Crypto.lawfulSigs_standard : Crypto.standard.LawfulSigs where
  isReduced_normalize := fun {sig} h =>
    ⟨(normalize_r sig).symm ▸ h.r_lt, s_lt_of_isLow (isLow_normalize h.s_lt)⟩
  normalize_normalize h := normalize_of_isLow (isLow_normalize h.s_lt)
  isStrictForm_toDer h t := ⟨_, _, isShortestInteger_derInteger h.r_lt,
    isShortestInteger_derInteger h.s_lt, Signature.toDer_append_eq _ t⟩
  readLaxDer?_toDer h := readLax?_toDer h.r_lt h.s_lt

namespace Signature

variable {c : Crypto} {sig : Secp256k1.Signature} {t : HashType} {flags : Flags}

theorem ofSignature_append (der : Bytes) (t : HashType) :
    HashType.ofSignature (der ++ [t.byte]) = t := by
  rw [HashType.ofSignature, List.getLast?_concat]
  rfl

theorem length_toDer_append_le (hc : c.LawfulSigs) (hsig : sig.IsReduced) (t : UInt8) :
    (c.toDer sig ++ [t]).length ≤ 73 :=
  (hc.isStrictForm_toDer hsig t).length_le hsig.r_lt hsig.s_lt

/-- A low signature of a type with the fork identifier has every form that flags ask for. -/
theorem checkForm_toDer (hc : c.LawfulSigs) (hsig : sig.IsReduced) (hlow : c.normalize sig = sig)
    (ht : t ∈ HashType.forkIdTypes) (hflags : flags.contains .enableForkId) :
    checkForm (c.toDer sig ++ [t.byte]) c flags = .ok () := by
  refine checkForm_eq_ok_iff.2 (Or.inr ⟨fun _ => ?_, fun _ => ?_, fun _ => ⟨?_, ?_⟩⟩)
  · exact isStrictDer_iff.2 ⟨length_toDer_append_le hc hsig t.byte, sig.r, sig.s, t.byte,
      hc.isStrictForm_toDer hsig t.byte⟩
  · refine isLow_iff.2 ⟨by simp, sig, ?_, hlow⟩
    rw [List.dropLast_concat, hc.readLaxDer?_toDer hsig]
  · rw [hasDefinedType, ofSignature_append, HashType.isDefined_of_mem_forkIdTypes t ht]
    simp
  · rw [ofSignature_append, HashType.hasForkId_of_mem_forkIdTypes t ht, hflags]

/-- A compressed key has every form that flags ask for. -/
theorem checkKeyForm_of_isCompressedKey {key : Bytes} (h : isCompressedKey key = true) :
    checkKeyForm key flags = .ok () := by
  refine checkKeyForm_eq_ok_iff.2 ⟨fun _ => ?_, fun _ => h⟩
  rw [isKnownKey, h]
  rfl

end Signature

end BitcoinScript
