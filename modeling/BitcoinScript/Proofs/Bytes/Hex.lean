import BitcoinScript.Bytes.Hex
import BitcoinScript.Proofs.Text.Words

/-!
# Hexadecimal text reads back

Every digit that is written is a single byte in UTF-8, so the bytes of the text are read as the
pairs of digits that were written. The text of a byte string that is not empty is one word, and it
starts with a hex digit.
-/

namespace BitcoinScript.Hex

def digitByte (n : Nat) : UInt8 := UInt8.ofNat (digit n).toNat

theorem digitValue?_digitByte {n : Nat} (h : n < 16) : digitValue? (digitByte n) = some n := by
  have htable : ∀ k < 16, digitValue? (digitByte k) = some k := by decide
  exact htable n h

theorem utf8EncodeChar_digit {n : Nat} (h : n < 16) :
    String.utf8EncodeChar (digit n) = [digitByte n] := by
  have htable : ∀ k < 16, String.utf8EncodeChar (digit k) = [digitByte k] := by decide
  exact htable n h

theorem isBlank_digit {n : Nat} (h : n < 16) : Text.isBlank (digit n) = false := by
  have htable : ∀ k < 16, Text.isBlank (digit k) = false := by decide
  exact htable n h

theorem digits_cons (b : UInt8) (bs : Bytes) :
    digits (b :: bs) = digit (b.toNat / 16) :: digit (b.toNat % 16) :: digits bs := rfl

theorem toList_encode (bs : Bytes) : (encode bs).toList = digits bs := String.toList_ofList

theorem utf8_encode (bs : Bytes) :
    utf8 (encode bs) =
      bs.flatMap fun b => [digitByte (b.toNat / 16), digitByte (b.toNat % 16)] := by
  rw [utf8, toList_encode]
  induction bs with
  | nil => rfl
  | cons b bs ih =>
      have hb := b.toNat_lt
      rw [digits_cons, List.flatMap_cons, List.flatMap_cons, ih, List.flatMap_cons,
        utf8EncodeChar_digit (by omega), utf8EncodeChar_digit (by omega)]
      rfl

theorem decodeFrom_encode (index : Nat) (bs : Bytes) :
    decodeFrom index (utf8 (encode bs)) = .ok bs := by
  rw [utf8_encode]
  induction bs generalizing index with
  | nil => rfl
  | cons b bs ih =>
      have hb := b.toNat_lt
      have hhigh := digitValue?_digitByte (show b.toNat / 16 < 16 by omega)
      have hlow := digitValue?_digitByte (show b.toNat % 16 < 16 by omega)
      have hbyte : UInt8.ofNat (16 * (b.toNat / 16) + b.toNat % 16) = b := by
        rw [Nat.div_add_mod, UInt8.ofNat_toNat]
      rw [List.flatMap_cons, List.cons_append, List.cons_append, List.nil_append, decodeFrom, hhigh,
        hlow]
      show (decodeFrom (index + 2) _).map _ = _
      rw [ih, hbyte]
      rfl

theorem length_utf8_encode (bs : Bytes) : (utf8 (encode bs)).length = 2 * bs.length := by
  rw [utf8_encode]
  induction bs with
  | nil => rfl
  | cons b bs ih =>
      rw [List.flatMap_cons, List.length_append, ih, List.length_cons]
      exact Nat.add_comm _ _

/-- A byte string is read back from its hex form. -/
theorem decode_encode (bs : Bytes) : decode (encode bs) = .ok bs := by
  have heven : ¬(utf8 (encode bs)).length % 2 = 1 := by
    rw [length_utf8_encode]
    omega
  exact (if_neg heven).trans (decodeFrom_encode 0 bs)

theorem isWord_encode {bs : Bytes} (h : bs ≠ []) : Text.IsWord (encode bs) := by
  have hblank : ∀ c ∈ digits bs, Text.isBlank c = false := by
    intro c hc
    obtain ⟨b, -, hdigit⟩ := List.mem_flatMap.1 hc
    have hb := b.toNat_lt
    obtain rfl | rfl : c = digit (b.toNat / 16) ∨ c = digit (b.toNat % 16) := by simpa using hdigit
    · exact isBlank_digit (by omega)
    · exact isBlank_digit (by omega)
  refine ⟨?_, fun c hc => hblank c (toList_encode bs ▸ hc)⟩
  rw [toList_encode]
  cases bs with
  | nil => exact absurd rfl h
  | cons b bs => exact List.cons_ne_nil _ _

end BitcoinScript.Hex
