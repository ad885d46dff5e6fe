import Mathlib.Tactic.Set
import BitcoinScript.Proofs.Bytes.Digits
import BitcoinScript.Secp256k1.Signature
import BitcoinScript.Signature.Encoding

/-!
# Written signatures

Signatures whose numbers are below the group order are written in strict DER and read back, also by
the lax reader. Their low form is low, and stays as it is.
-/

namespace BitcoinScript

namespace Secp256k1.Signature

/-! ## Integers -/

/-- The digits of an integer: not empty, not negative and without a needless zero in front. -/
def IsStrictInteger : Bytes → Prop
  | [] => False
  | [b] => b < 0x80
  | b :: b' :: _ => b < 0x80 ∧ (b = 0 → 0x80 ≤ b')

theorem order_lt_capacity : order < Bytes.capacity 32 := by decide

theorem length_naturalDigits_le (n : Nat) : (naturalDigits n).length ≤ 32 := by
  have hsuffix := (List.dropWhile_suffix (· = 0) (l := Bytes.ofNatBE 32 n)).length_le
  rwa [Bytes.length_ofNatBE] at hsuffix

theorem toNatBE_naturalDigits {n : Nat} (h : n < order) : Bytes.toNatBE (naturalDigits n) = n := by
  rw [naturalDigits, Bytes.toNatBE_dropWhile, Bytes.toNatBE_ofNatBE,
    Nat.mod_eq_of_lt (Nat.lt_trans h order_lt_capacity)]

/-- The first digit is not zero. -/
theorem ne_zero_of_naturalDigits {n : Nat} {b : UInt8} {bs : Bytes}
    (h : naturalDigits n = b :: bs) : b ≠ 0 := by
  have hhead := List.head?_dropWhile_not (· = 0) (Bytes.ofNatBE 32 n)
  rw [naturalDigits] at h
  rw [h] at hhead
  simpa using hhead

theorem isStrictInteger_derInteger (n : Nat) : IsStrictInteger (derInteger n) := by
  rw [derInteger]
  split
  · show (0 : UInt8) < 0x80
    decide
  · rename_i b bs hdigits
    have hne := ne_zero_of_naturalDigits hdigits
    split
    · rename_i hhigh
      exact ⟨by decide, fun _ => hhigh⟩
    · rename_i hlow
      cases bs with
      | nil => exact UInt8.not_le.1 hlow
      | cons b' bs => exact ⟨UInt8.not_le.1 hlow, fun hzero => absurd hzero hne⟩

theorem length_derInteger_le (n : Nat) : (derInteger n).length ≤ 33 := by
  have hlength := length_naturalDigits_le n
  rw [derInteger]
  split
  · simp
  · rename_i b bs hdigits
    rw [hdigits] at hlength
    split
    · exact Nat.succ_le_succ hlength
    · exact Nat.le_succ_of_le hlength

theorem toNatBE_derInteger {n : Nat} (h : n < order) : Bytes.toNatBE (derInteger n) = n := by
  have hdigits := toNatBE_naturalDigits h
  rw [derInteger]
  split
  · rename_i hnil
    rw [hnil] at hdigits
    exact hdigits
  · rename_i b bs hcons
    rw [hcons] at hdigits
    split
    · exact hdigits
    · exact hdigits

/-! ## The lax reader -/

theorem toNat_ofNat_of_lt {n : Nat} (h : n < 0x80) : (UInt8.ofNat n).toNat = n :=
  UInt8.toNat_ofNat_of_lt (Nat.lt_trans h (by decide))

theorem ofNat_lt_top {n : Nat} (h : n < 0x80) : UInt8.ofNat n < 0x80 := by
  rw [UInt8.lt_iff_toNat_lt, toNat_ofNat_of_lt h]
  exact h

theorem splitAt?_append (digits rest : Bytes) :
    Bytes.splitAt? digits.length (digits ++ rest) = some (digits, rest) :=
  Bytes.splitAt?_eq_some_iff.2 ⟨rfl, rfl⟩

theorem readLaxInteger?_append {digits : Bytes} (h : digits.length < 0x80) (rest : Bytes) :
    readLaxInteger? (2 :: UInt8.ofNat digits.length :: digits ++ rest) = some (digits, rest) := by
  have hlength : readLaxLength? (UInt8.ofNat digits.length :: (digits ++ rest)) =
      some (digits.length, digits ++ rest) := by
    rw [readLaxLength?, if_pos (ofNat_lt_top h), toNat_ofNat_of_lt h]
  show (readLaxLength? (UInt8.ofNat digits.length :: (digits ++ rest)) >>= _) = _
  rw [hlength]
  exact splitAt?_append digits rest

theorem toDer_eq (sig : Signature) :
    sig.toDer = 0x30 ::
      UInt8.ofNat ((derInteger sig.r).length + (derInteger sig.s).length + 4) ::
      (2 :: UInt8.ofNat (derInteger sig.r).length :: derInteger sig.r ++
        2 :: UInt8.ofNat (derInteger sig.s).length :: derInteger sig.s) := by
  simp [toDer]

/-- What is written is read back. -/
theorem readLax?_toDer {sig : Signature} (hr : sig.r < order) (hs : sig.s < order) :
    readLax? sig.toDer = some sig := by
  have hlengthR := length_derInteger_le sig.r
  have hlengthS := length_derInteger_le sig.s
  have hshort : UInt8.ofNat ((derInteger sig.r).length + (derInteger sig.s).length + 4) < 0x80 :=
    ofNat_lt_top (by omega)
  have hheader (body : Bytes) : skipLaxHeader? (0x30 ::
      UInt8.ofNat ((derInteger sig.r).length + (derInteger sig.s).length + 4) :: body) =
        some body := by
    rw [skipLaxHeader?, if_neg (by decide), if_pos hshort]
  have hreadR := readLaxInteger?_append (show (derInteger sig.r).length < 0x80 by omega)
    (2 :: UInt8.ofNat (derInteger sig.s).length :: derInteger sig.s)
  have hreadS := readLaxInteger?_append (show (derInteger sig.s).length < 0x80 by omega) []
  rw [List.append_nil] at hreadS
  have hrange : inRange (derInteger sig.r) && inRange (derInteger sig.s) := by
    simp only [inRange, toNatBE_derInteger hr, toNatBE_derInteger hs, hr, hs, decide_true,
      Bool.and_true]
  rw [toDer_eq, readLax?, hheader]
  show (readLaxInteger? _ >>= _) = _
  rw [hreadR]
  show (readLaxInteger? _ >>= _) = _
  rw [hreadS]
  show some (if inRange (derInteger sig.r) && inRange (derInteger sig.s) then _ else _) = _
  rw [if_pos hrange, toNatBE_derInteger hr, toNatBE_derInteger hs]

end Secp256k1.Signature

/-! ## Strict DER -/

namespace Signature

open Secp256k1.Signature

theorem getElem?_append_of_length (front back : Bytes) {n k : Nat} (h : n = front.length + k) :
    (front ++ back)[n]? = back[k]? := by
  rw [h, List.getElem?_append_right (Nat.le_add_right _ _), Nat.add_sub_cancel_left]

/-- The test for a strict integer, where its digits stand. -/
theorem strictInteger?_append_iff (front digits back : Bytes) {n : Nat} (hn : n = front.length) :
    strictInteger? (front ++ (digits ++ back)) n digits.length = some true ↔
      IsStrictInteger digits := by
  have hfirst : (front ++ (digits ++ back))[n]? = (digits ++ back)[0]? :=
    getElem?_append_of_length _ _ hn
  have hsecond : (front ++ (digits ++ back))[n + 1]? = (digits ++ back)[1]? :=
    getElem?_append_of_length _ _ (by rw [hn])
  match digits with
  | [] => simp [strictInteger?, IsStrictInteger]
  | [b] =>
      simp only [strictInteger?, hfirst, IsStrictInteger, ← Bytes.and_top_eq_zero_iff b]
      by_cases htop : b &&& 0x80 = 0
      · simp [htop]
      · simp [htop]
  | b :: b' :: _ =>
      have hpadding : 0x80 ≤ b' ↔ ¬b' &&& 0x80 = 0 := by
        rw [Bytes.and_top_eq_zero_iff, UInt8.not_lt]
      simp only [strictInteger?, hfirst, hsecond, IsStrictInteger, hpadding,
        ← Bytes.and_top_eq_zero_iff b]
      by_cases htop : b &&& 0x80 = 0
      · by_cases hzero : b = 0
        · simp [hzero]
        · simp [htop, hzero]
      · simp [htop]

/-- Two strict integers with their tags and lengths, behind the tag and the length of both, are
strict DER if they are short enough. -/
theorem strictDer?_integers {r s : Bytes} (hr : IsStrictInteger r) (hs : IsStrictInteger s)
    (hlength : r.length + s.length ≤ 66) (t : UInt8) :
    strictDer? (0x30 :: UInt8.ofNat (r.length + s.length + 4) :: 2 :: UInt8.ofNat r.length ::
      (r ++ (2 :: UInt8.ofNat s.length :: (s ++ [t])))) = some true := by
  have hbyteR : (UInt8.ofNat r.length).toNat = r.length := toNat_ofNat_of_lt (by omega)
  have hbyteS : (UInt8.ofNat s.length).toNat = s.length := toNat_ofNat_of_lt (by omega)
  have hbyte : (UInt8.ofNat (r.length + s.length + 4)).toNat = r.length + s.length + 4 :=
    toNat_ofNat_of_lt (by omega)
  have hposR : 0 < r.length := by
    cases r with
    | nil => exact hr.elim
    | cons b r => exact Nat.succ_pos _
  have hposS : 0 < s.length := by
    cases s with
    | nil => exact hs.elim
    | cons b s => exact Nat.succ_pos _
  -- The positions at which the test reads, as prefixes of the whole.
  have htagS := getElem?_append_of_length
    (0x30 :: UInt8.ofNat (r.length + s.length + 4) :: 2 :: UInt8.ofNat r.length :: r)
    (2 :: UInt8.ofNat s.length :: (s ++ [t])) (n := 4 + r.length) (k := 0)
    (by simp only [List.length_cons]; omega)
  have hcountS := getElem?_append_of_length
    (0x30 :: UInt8.ofNat (r.length + s.length + 4) :: 2 :: UInt8.ofNat r.length :: r)
    (2 :: UInt8.ofNat s.length :: (s ++ [t])) (n := 5 + r.length) (k := 1)
    (by simp only [List.length_cons]; omega)
  have hintegerR := (strictInteger?_append_iff
    [0x30, UInt8.ofNat (r.length + s.length + 4), 2, UInt8.ofNat r.length] r
    (2 :: UInt8.ofNat s.length :: (s ++ [t])) (n := 4) rfl).2 hr
  have hintegerS := (strictInteger?_append_iff
    (0x30 :: UInt8.ofNat (r.length + s.length + 4) :: 2 :: UInt8.ofNat r.length ::
      (r ++ [2, UInt8.ofNat s.length])) s [t] (n := 6 + r.length)
    (by simp only [List.length_cons, List.length_append, List.length_nil]; omega)).2 hs
  simp only [List.cons_append, List.nil_append] at htagS hcountS hintegerR
  simp only [List.cons_append, List.append_assoc, List.nil_append] at hintegerS
  generalize UInt8.ofNat (r.length + s.length + 4) = l at *
  generalize hwhole : 0x30 :: l :: 2 :: UInt8.ofNat r.length ::
      (r ++ (2 :: UInt8.ofNat s.length :: (s ++ [t]))) = whole at *
  have hsum : whole.length = r.length + s.length + 7 := by
    simp only [← hwhole, List.length_append, List.length_cons, List.length_nil]
    omega
  have hsize : ¬(whole.length < 9 ∨ 73 < whole.length) := by omega
  have hfirst : whole[0]? = some 0x30 := by rw [← hwhole]; rfl
  have hsecond : whole[1]? = some l := by rw [← hwhole]; rfl
  have htagR : whole[2]? = some 2 := by rw [← hwhole]; rfl
  have hcountR : whole[3]? = some (UInt8.ofNat r.length) := by rw [← hwhole]; rfl
  have htotal : l.toNat = whole.length - 3 := by omega
  have hbehind : ¬whole.length ≤ 5 + r.length := by omega
  simp only [strictDer?, if_neg hsize, hfirst, hsecond, htagR, hcountR]
  simp [htotal, hbyteR, hbehind, hcountS, hbyteS, hsum.symm, hintegerR, htagS, hintegerS]

end Signature

namespace Secp256k1.Signature

/-! ## Low signatures -/

variable {sig : Signature}

theorem isLow_normalize (h : sig.s < order) : sig.normalize.isLow = true := by
  have hodd : order = order / 2 + order / 2 + 1 := by decide
  rw [normalize]
  split
  · assumption
  · rename_i hhigh
    rw [isLow, decide_eq_true_eq] at hhigh
    refine decide_eq_true ?_
    show order - sig.s ≤ order / 2
    omega

theorem normalize_of_isLow (h : sig.isLow = true) : sig.normalize = sig := if_pos h

theorem normalize_r (sig : Signature) : sig.normalize.r = sig.r := by
  rw [normalize]
  split <;> rfl

theorem s_lt_of_isLow (h : sig.isLow = true) : sig.s < order :=
  Nat.lt_of_le_of_lt (of_decide_eq_true h) (by decide)

end Secp256k1.Signature

end BitcoinScript
