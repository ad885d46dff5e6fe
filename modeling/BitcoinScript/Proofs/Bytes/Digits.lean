import Mathlib.Algebra.Group.Nat.Defs
import BitcoinScript.Bytes.Basic

/-!
# Digits to base 256

What the bytes of a number contribute to it: a byte string that goes on weighs what follows by its
own capacity, and zeros behind the last digit do not count. A byte falls into its top bit and the
rest, in which signs and magnitudes are kept.
-/

namespace BitcoinScript.Bytes

/-! ## Byte strings as numbers -/

theorem capacity_le {width width' : Nat} (h : width ≤ width') :
    capacity width ≤ capacity width' := by
  induction h with
  | refl => exact Nat.le_refl _
  | step _ ih =>
      rw [capacity_succ]
      omega

theorem capacity_eq_two_pow (width : Nat) : capacity width = 2 ^ (8 * width) := by
  induction width with
  | zero => rfl
  | succ width ih => rw [capacity_succ, ih, Nat.mul_succ, Nat.pow_add, Nat.mul_comm]

theorem capacity_add (width width' : Nat) :
    capacity (width + width') = capacity width * capacity width' := by
  rw [capacity_eq_two_pow, capacity_eq_two_pow, capacity_eq_two_pow, Nat.mul_add, Nat.pow_add]

theorem toNatLE_append (front back : Bytes) :
    toNatLE (front ++ back) = toNatLE front + capacity front.length * toNatLE back := by
  induction front with
  | nil => simp
  | cons b front ih =>
      rw [List.cons_append, toNatLE_cons, toNatLE_cons, ih, List.length_cons, capacity_succ,
        Nat.mul_add, Nat.mul_assoc, Nat.add_assoc]

theorem toNatLE_replicate_zero (n : Nat) : toNatLE (List.replicate n 0) = 0 := by
  induction n with
  | zero => rfl
  | succ n ih => rw [List.replicate_succ, toNatLE_cons, ih]; rfl

theorem toNatLE_append_zeros (digits : Bytes) (n : Nat) :
    toNatLE (digits ++ List.replicate n 0) = toNatLE digits := by
  rw [toNatLE_append, toNatLE_replicate_zero, Nat.mul_zero, Nat.add_zero]

theorem toNatBE_eq (bs : Bytes) : toNatBE bs = toNatLE bs.reverse := by
  have hfoldr : ∀ cs : Bytes, toNatLE cs = cs.foldr (fun b n => 256 * n + b.toNat) 0 := by
    intro cs
    induction cs with
    | nil => rfl
    | cons b cs ih => rw [toNatLE_cons, ih, List.foldr_cons, Nat.add_comm]
  rw [hfoldr, List.foldr_reverse]
  rfl

theorem toNatBE_ofNatBE (width n : Nat) : toNatBE (ofNatBE width n) = n % capacity width := by
  rw [toNatBE_eq, ofNatBE, List.reverse_reverse, toNatLE_ofNatLE]

theorem toNatBE_cons (b : UInt8) (bs : Bytes) :
    toNatBE (b :: bs) = capacity bs.length * b.toNat + toNatBE bs := by
  rw [toNatBE_eq, List.reverse_cons, toNatLE_append, List.length_reverse, ← toNatBE_eq,
    toNatLE_cons, toNatLE_nil, Nat.mul_zero, Nat.add_zero, Nat.add_comm]

theorem toNatBE_append (front back : Bytes) :
    toNatBE (front ++ back) = capacity back.length * toNatBE front + toNatBE back := by
  rw [toNatBE_eq, List.reverse_append, toNatLE_append, List.length_reverse, ← toNatBE_eq,
    ← toNatBE_eq, Nat.add_comm]

theorem toNatBE_replicate_zero (n : Nat) : toNatBE (List.replicate n 0) = 0 := by
  rw [toNatBE_eq, List.reverse_replicate, toNatLE_replicate_zero]

theorem toNatBE_lt_capacity (bs : Bytes) : toNatBE bs < capacity bs.length := by
  rw [toNatBE_eq, ← List.length_reverse]
  exact toNatLE_lt_capacity bs.reverse

theorem toNatBE_zero_cons (bs : Bytes) : toNatBE (0 :: bs) = toNatBE bs := rfl

theorem toNatBE_dropWhile (bs : Bytes) : toNatBE (bs.dropWhile (· = 0)) = toNatBE bs := by
  induction bs with
  | nil => rfl
  | cons b bs ih =>
      by_cases hb : b = 0
      · rw [List.dropWhile_cons_of_pos (by simpa using hb), ih, hb, toNatBE_zero_cons]
      · rw [List.dropWhile_cons_of_neg (by simpa using hb)]

/-- The first digit of a number. -/
theorem ofNat_add_mul (b : UInt8) (n : Nat) : UInt8.ofNat (b.toNat + 256 * n) = b := by
  have hb := b.toNat_lt
  apply UInt8.toNat_inj.1
  rw [UInt8.toNat_ofNat']
  omega

/-- The digits behind the first one. -/
theorem add_mul_div (b : UInt8) (n : Nat) : (b.toNat + 256 * n) / 256 = n := by
  have hb := b.toNat_lt
  omega

/-! ## The top bit of a byte -/

theorem forall_byte {P : UInt8 → Prop} (h : ∀ k : Fin 256, P (UInt8.ofNat k)) (b : UInt8) :
    P b := by
  have hb := h ⟨b.toNat, b.toNat_lt⟩
  rwa [UInt8.ofNat_toNat] at hb

theorem and_top_eq_zero_iff (b : UInt8) : b &&& 0x80 = 0 ↔ b < 0x80 :=
  forall_byte (P := fun b => b &&& 0x80 = 0 ↔ b < 0x80) (by decide +kernel) b

theorem toNat_and_rest (b : UInt8) : (b &&& 0x7f).toNat = b.toNat % 0x80 := by
  rw [UInt8.toNat_and]
  exact Nat.and_two_pow_sub_one_eq_mod b.toNat 7

theorem and_rest_eq_zero_iff (b : UInt8) : b &&& 0x7f = 0 ↔ b.toNat % 0x80 = 0 := by
  rw [← toNat_and_rest]
  exact UInt8.toNat_inj.symm

theorem and_top_ne_zero_iff (b : UInt8) : b &&& 0x80 ≠ 0 ↔ 0x80 ≤ b.toNat := by
  rw [Ne, and_top_eq_zero_iff, UInt8.lt_iff_toNat_lt]
  exact Nat.not_lt

theorem toNat_and_top (b : UInt8) : (b &&& 0x80).toNat = if 0x80 ≤ b.toNat then 0x80 else 0 :=
  forall_byte (P := fun b => (b &&& 0x80).toNat = if 0x80 ≤ b.toNat then 0x80 else 0)
    (by decide +kernel) b

theorem toNat_or_top {b : UInt8} (h : b.toNat < 0x80) : (b ||| 0x80).toNat = b.toNat + 0x80 := by
  have hor : 0x80 + b.toNat = 0x80 ||| b.toNat := Nat.two_pow_add_eq_or_of_lt (i := 7) h 1
  rw [UInt8.toNat_or, Nat.or_comm, Nat.add_comm]
  exact hor.symm

/-- A byte without the rest is a sign. -/
theorem eq_sign_of_and_rest {b : UInt8} (h : b &&& 0x7f = 0) :
    b = if 0x80 ≤ b.toNat then 0x80 else 0 := by
  rw [and_rest_eq_zero_iff] at h
  have hb := b.toNat_lt
  apply UInt8.toNat_inj.1
  split
  · show b.toNat = 0x80
    omega
  · show b.toNat = 0
    omega

theorem and_rest_or_sign (b : UInt8) :
    (if 0x80 ≤ b.toNat then b &&& 0x7f ||| 0x80 else b &&& 0x7f) = b := by
  apply UInt8.toNat_inj.1
  split
  · rw [toNat_or_top (by rw [toNat_and_rest]; omega), toNat_and_rest]
    have hb := b.toNat_lt
    omega
  · rw [toNat_and_rest]
    omega

end BitcoinScript.Bytes
