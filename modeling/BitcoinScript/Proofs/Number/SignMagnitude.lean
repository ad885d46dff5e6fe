import BitcoinScript.Number
import BitcoinScript.Proofs.Bytes.Digits

/-!
# Signs and magnitudes

A magnitude has exactly one list of digits without a zero at the end, `Number.magnitudeBytes`. A
sign is put on digits by `Number.withSign` and read by `Number.signMagnitude`. Both look at the last
byte only, so that they work on the end of a byte string in the same way as on the whole.
-/

namespace BitcoinScript.Number

/-! ## Digits of a magnitude -/

theorem magnitudeBytes_zero : magnitudeBytes 0 = [] := by
  rw [magnitudeBytes, dif_pos rfl]

theorem magnitudeBytes_of_pos {n : Nat} (h : 0 < n) :
    magnitudeBytes n = UInt8.ofNat n :: magnitudeBytes (n / 256) := by
  rw [magnitudeBytes, dif_neg (Nat.ne_of_gt h)]

theorem toNatLE_magnitudeBytes (n : Nat) : Bytes.toNatLE (magnitudeBytes n) = n := by
  fun_induction magnitudeBytes n with
  | case1 => rfl
  | case2 n hne ih =>
      rw [Bytes.toNatLE_cons, ih, UInt8.toNat_ofNat']
      omega

def Unpadded (digits : Bytes) : Prop := digits.getLast? ≠ some 0

theorem unpadded_nil : Unpadded [] := fun h => by cases h

theorem unpadded_append_singleton {digits : Bytes} {b : UInt8} :
    Unpadded (digits ++ [b]) ↔ b ≠ 0 := by
  rw [Unpadded, List.getLast?_concat, Ne, Option.some.injEq]

theorem Unpadded.of_cons {b : UInt8} {digits : Bytes} (h : Unpadded (b :: digits)) :
    Unpadded digits := by
  cases digits with
  | nil => exact unpadded_nil
  | cons b' digits => rwa [Unpadded, List.getLast?_cons_cons] at h

/-- Only no digits at all make up the number zero. -/
theorem Unpadded.toNatLE_pos {digits : Bytes} (h : Unpadded digits) (hne : digits ≠ []) :
    0 < Bytes.toNatLE digits := by
  induction digits with
  | nil => exact absurd rfl hne
  | cons b digits ih =>
      rw [Bytes.toNatLE_cons]
      cases digits with
      | nil =>
          have hb : b.toNat ≠ 0 := fun hzero => h (congrArg some (UInt8.toNat_inj.1 hzero))
          omega
      | cons b' digits =>
          have hrest := ih h.of_cons (List.cons_ne_nil b' digits)
          omega

/-- Digits without a zero at the end are the digits of their number. -/
theorem Unpadded.magnitudeBytes_toNatLE {digits : Bytes} (h : Unpadded digits) :
    magnitudeBytes (Bytes.toNatLE digits) = digits := by
  induction digits with
  | nil => exact magnitudeBytes_zero
  | cons b digits ih =>
      rw [magnitudeBytes_of_pos (h.toNatLE_pos (List.cons_ne_nil b digits)), Bytes.toNatLE_cons,
        Bytes.ofNat_add_mul, Bytes.add_mul_div, ih h.of_cons]

theorem unpadded_magnitudeBytes (n : Nat) : Unpadded (magnitudeBytes n) := by
  fun_induction magnitudeBytes n with
  | case1 => exact unpadded_nil
  | case2 n hne ih =>
      by_cases hlast : n / 256 = 0
      · have hb : UInt8.ofNat n ≠ 0 := by
          intro hzero
          have hmod := congrArg UInt8.toNat hzero
          rw [UInt8.toNat_ofNat', UInt8.toNat_zero] at hmod
          omega
        rw [hlast, magnitudeBytes_zero]
        show Unpadded ([] ++ [UInt8.ofNat n])
        exact unpadded_append_singleton.2 hb
      · rw [magnitudeBytes_of_pos (Nat.pos_of_ne_zero hlast)] at ih ⊢
        rwa [Unpadded, List.getLast?_cons_cons]

/-! ## The sign of the last byte -/

section

variable {negative : Bool} {tail : Bytes}

theorem withSign_cons (b : UInt8) (h : tail ≠ []) :
    withSign negative (b :: tail) = b :: withSign negative tail := by
  cases tail with
  | nil => exact absurd rfl h
  | cons c rest => rfl

theorem withSign_append (front : Bytes) (h : tail ≠ []) :
    withSign negative (front ++ tail) = front ++ withSign negative tail := by
  induction front with
  | nil => rfl
  | cons b front ih =>
      have hne : front ++ tail ≠ [] := List.append_ne_nil_of_right_ne_nil front h
      rw [List.cons_append, withSign_cons b hne, ih, List.cons_append]

theorem withSign_ne_nil (h : tail ≠ []) : withSign negative tail ≠ [] := by
  cases tail with
  | nil => exact absurd rfl h
  | cons b rest =>
      cases rest with
      | nil =>
          rw [withSign]
          split
          · exact List.cons_ne_nil _ _
          · exact List.cons_ne_nil _ _
      | cons c rest => exact List.cons_ne_nil _ _

theorem signMagnitude_cons (b : UInt8) (h : tail ≠ []) :
    signMagnitude (b :: tail) =
      ((signMagnitude tail).1, b.toNat + 256 * (signMagnitude tail).2) := by
  cases tail with
  | nil => exact absurd rfl h
  | cons c rest => rfl

theorem signMagnitude_append (front : Bytes) (h : tail ≠ []) :
    signMagnitude (front ++ tail) = ((signMagnitude tail).1,
      Bytes.toNatLE front + Bytes.capacity front.length * (signMagnitude tail).2) := by
  induction front with
  | nil => simp
  | cons b front ih =>
      have hne : front ++ tail ≠ [] := List.append_ne_nil_of_right_ne_nil front h
      rw [List.cons_append, signMagnitude_cons b hne, ih, Bytes.toNatLE_cons, List.length_cons,
        Bytes.capacity_succ, Nat.mul_add, Nat.mul_assoc, Nat.add_assoc]

theorem signMagnitude_concat (front : Bytes) (last : UInt8) :
    signMagnitude (front ++ [last]) = (decide (0x80 ≤ last.toNat),
      Bytes.toNatLE front + Bytes.capacity front.length * (last.toNat % 0x80)) :=
  signMagnitude_append front (List.cons_ne_nil last [])

/-- Half of the numbers of a length is left for the magnitude. -/
theorem magnitude_lt (front : Bytes) (last : UInt8) :
    Bytes.toNatLE front + Bytes.capacity front.length * (last.toNat % 0x80) <
      Bytes.capacity front.length * 0x80 := by
  have hfront := Bytes.toNatLE_lt_capacity front
  have hlast : Bytes.capacity front.length * (last.toNat % 0x80) ≤
      Bytes.capacity front.length * 0x7f := Nat.mul_le_mul_left _ (by omega)
  omega

theorem two_mul_signMagnitude_lt_capacity (d : Bytes) :
    2 * (signMagnitude d).2 < Bytes.capacity d.length := by
  by_cases hnil : d = []
  · rw [hnil]
    exact Nat.one_pos
  · obtain ⟨front, last, rfl⟩ : ∃ front last, d = front ++ [last] :=
      ⟨_, _, (List.dropLast_concat_getLast hnil).symm⟩
    have hlt := magnitude_lt front last
    rw [signMagnitude_concat, List.length_append, List.length_singleton, Bytes.capacity_succ]
    show 2 * (_ + _) < _
    omega

theorem natAbs_value (d : Bytes) : (value d).natAbs = (signMagnitude d).2 := by
  show (if (signMagnitude d).1 then -((signMagnitude d).2 : Int) else _).natAbs = _
  split
  · rw [Int.natAbs_neg, Int.natAbs_natCast]
  · rw [Int.natAbs_natCast]

theorem value_eq_zero_iff {d : Bytes} : value d = 0 ↔ (signMagnitude d).2 = 0 := by
  rw [← natAbs_value, Int.natAbs_eq_zero]

theorem two_mul_natAbs_value_lt_capacity (d : Bytes) :
    2 * (value d).natAbs < Bytes.capacity d.length := by
  rw [natAbs_value]
  exact two_mul_signMagnitude_lt_capacity d

/-- A sign that has been written is read back, and the magnitude is that of the digits. -/
theorem signMagnitude_withSign (negative : Bool) {digits : Bytes} (h : digits ≠ []) :
    signMagnitude (withSign negative digits) = (negative, Bytes.toNatLE digits) := by
  obtain ⟨front, b, rfl⟩ : ∃ front b, digits = front ++ [b] :=
    ⟨_, _, (List.dropLast_concat_getLast h).symm⟩
  have hlast : signMagnitude (withSign negative [b]) = (negative, b.toNat) := by
    rw [withSign]
    by_cases hb : 0x80 ≤ b.toNat
    · rw [if_pos hb]
      cases negative with
      | false => rfl
      | true => rfl
    · have hor := Bytes.toNat_or_top (Nat.not_le.1 hb)
      have hrest : b.toNat % 0x80 = b.toNat := Nat.mod_eq_of_lt (Nat.not_le.1 hb)
      rw [if_neg hb]
      cases negative with
      | false => rw [if_neg Bool.false_ne_true, signMagnitude, decide_eq_false hb, hrest]
      | true =>
          have htop : 0x80 ≤ b.toNat + 0x80 := Nat.le_add_left _ _
          rw [if_pos rfl, signMagnitude, hor, decide_eq_true htop, Nat.add_mod_right, hrest]
  have hne : [b] ≠ [] := List.cons_ne_nil b []
  rw [withSign_append front hne, signMagnitude_append front (withSign_ne_nil hne), hlast,
    Bytes.toNatLE_append, Bytes.toNatLE_cons, Bytes.toNatLE_nil, Nat.mul_zero, Nat.add_zero]

end

end BitcoinScript.Number
