import BitcoinScript.Proofs.Bytes.Digits
import BitcoinScript.Proofs.Bytes.Shift

/-!
# Shifts as arithmetic

A byte string is the number with its bytes as big-endian digits. A shift towards the front
multiplies this number by a power of two and drops what no longer fits, and a shift towards the
back divides it and drops the remainder. Whole bytes are whole digits; for the fewer than eight
bits that are left, what a byte hands over to its neighbour is the carry of the multiplication, or
the remainder of the division.
-/

namespace BitcoinScript.Bytes

variable {bits : Nat}

/-! ## Whole bytes -/

/-- Dropping bytes from the front keeps the low digits. -/
theorem toNatBE_drop (bs : Bytes) (k : Nat) :
    toNatBE (bs.drop k) = toNatBE bs % capacity (bs.length - k) := by
  have hsplit := toNatBE_append (bs.take k) (bs.drop k)
  have hlt := toNatBE_lt_capacity (bs.drop k)
  rw [List.take_append_drop, List.length_drop] at hsplit
  rw [List.length_drop] at hlt
  rw [hsplit, Nat.mul_add_mod, Nat.mod_eq_of_lt hlt]

/-- Dropping bytes from the back keeps the high digits. -/
theorem toNatBE_take (bs : Bytes) (k : Nat) :
    toNatBE (bs.take (bs.length - k)) = toNatBE bs / capacity k := by
  rcases Nat.le_total k bs.length with hle | hle
  · have hsplit := toNatBE_append (bs.take (bs.length - k)) (bs.drop (bs.length - k))
    have hlt := toNatBE_lt_capacity (bs.drop (bs.length - k))
    rw [List.take_append_drop] at hsplit
    rw [List.length_drop, Nat.sub_sub_self hle] at hsplit hlt
    rw [hsplit, Nat.mul_add_div (Nat.zero_lt_of_lt hlt), Nat.div_eq_of_lt hlt, Nat.add_zero]
  · have hlt := Nat.lt_of_lt_of_le (toNatBE_lt_capacity bs) (capacity_le hle)
    rw [Nat.sub_eq_zero_of_le hle, List.take_zero, toNatBE_nil, Nat.div_eq_of_lt hlt]

theorem toNatBE_append_zeros (digits : Bytes) (n : Nat) :
    toNatBE (digits ++ List.replicate n 0) = capacity n * toNatBE digits := by
  rw [toNatBE_append, toNatBE_replicate_zero, List.length_replicate, Nat.add_zero]

theorem toNatBE_zeros_append (n : Nat) (digits : Bytes) :
    toNatBE (List.replicate n 0 ++ digits) = toNatBE digits := by
  rw [toNatBE_append, toNatBE_replicate_zero, Nat.mul_zero, Nat.zero_add]

/-! ## Fewer bits than a byte has -/

theorem two_pow_mul_two_pow_sub (h : bits ≤ 8) : 2 ^ bits * 2 ^ (8 - bits) = 256 := by
  rw [← Nat.pow_add, Nat.add_sub_cancel' h]

theorem carryLeft_cons (bits : Nat) (b : UInt8) (bs : Bytes) :
    carryLeft bits (b :: bs) =
      UInt8.ofNat (b.toNat <<< bits + (bs.headD 0).toNat >>> (8 - bits)) :: carryLeft bits bs := by
  cases bs with
  | nil => simp [carryLeft]
  | cons next bs => rfl

/-- What a byte string hands over to the byte in front of it is the carry of the multiplication. -/
theorem shiftRight_headD (h : bits ≤ 8) (bs : Bytes) :
    (bs.headD 0).toNat >>> (8 - bits) = toNatBE bs * 2 ^ bits / capacity bs.length := by
  rw [Nat.shiftRight_eq_div_pow]
  cases bs with
  | nil => rw [toNatBE_nil, Nat.zero_mul, Nat.zero_div, List.headD_nil, UInt8.toNat_zero,
      Nat.zero_div]
  | cons next bs =>
      have hlt := toNatBE_lt_capacity bs
      have hcapacity : capacity (next :: bs).length =
          capacity bs.length * 2 ^ (8 - bits) * 2 ^ bits := by
        rw [List.length_cons, capacity_succ, ← two_pow_mul_two_pow_sub h]
        ac_rfl
      rw [hcapacity, Nat.mul_div_mul_right _ _ (Nat.two_pow_pos bits), ← Nat.div_div_eq_div_mul,
        toNatBE_cons, Nat.mul_add_div (Nat.zero_lt_of_lt hlt), Nat.div_eq_of_lt hlt, Nat.add_zero,
        List.headD_cons]

theorem toNatBE_carryLeft (h : bits ≤ 8) (bs : Bytes) :
    toNatBE (carryLeft bits bs) = toNatBE bs * 2 ^ bits % capacity bs.length := by
  induction bs with
  | nil => rw [carryLeft, toNatBE_nil, Nat.zero_mul, Nat.zero_mod]
  | cons b bs ih =>
      have hpos : 0 < capacity bs.length := Nat.zero_lt_of_lt (toNatBE_lt_capacity bs)
      have hproduct : toNatBE (b :: bs) * 2 ^ bits =
          capacity bs.length * (b.toNat * 2 ^ bits) + toNatBE bs * 2 ^ bits := by
        rw [toNatBE_cons, Nat.add_mul, Nat.mul_assoc]
      -- The first digit of the product, and the digits behind it.
      have hhigh : toNatBE (b :: bs) * 2 ^ bits / capacity bs.length =
          b.toNat * 2 ^ bits + (bs.headD 0).toNat >>> (8 - bits) := by
        rw [hproduct, Nat.mul_add_div hpos, shiftRight_headD h]
      have hlow : toNatBE (b :: bs) * 2 ^ bits % capacity bs.length =
          toNatBE bs * 2 ^ bits % capacity bs.length := by
        rw [hproduct, Nat.mul_add_mod]
      rw [carryLeft_cons, toNatBE_cons, length_carryLeft, UInt8.toNat_ofNat', ih,
        Nat.shiftLeft_eq, List.length_cons, capacity_succ, Nat.mul_comm 256, Nat.mod_mul, hhigh,
        hlow, Nat.add_comm]

theorem toNatBE_carryRight (h : bits ≤ 8) (before : UInt8) (bs : Bytes) :
    toNatBE (carryRight bits before bs) =
      toNatBE (before :: bs) / 2 ^ bits % capacity bs.length := by
  induction bs generalizing before with
  | nil => rw [carryRight, toNatBE_nil, List.length_nil, capacity_zero, Nat.mod_one]
  | cons b bs ih =>
      have hlt := toNatBE_lt_capacity bs
      have hpos : 0 < capacity bs.length := Nat.zero_lt_of_lt hlt
      -- The first digit of the quotient, and the digits behind it.
      have hhigh : toNatBE (before :: b :: bs) / 2 ^ bits / capacity bs.length =
          before.toNat * 2 ^ (8 - bits) + b.toNat / 2 ^ bits := by
        have hnumber : toNatBE (before :: b :: bs) =
            capacity bs.length * (2 ^ bits * (before.toNat * 2 ^ (8 - bits)) + b.toNat) +
              toNatBE bs := by
          rw [toNatBE_cons, toNatBE_cons, List.length_cons, capacity_succ,
            ← two_pow_mul_two_pow_sub h, Nat.mul_add, ← Nat.add_assoc]
          ac_rfl
        rw [Nat.div_div_eq_div_mul, Nat.mul_comm (2 ^ bits), ← Nat.div_div_eq_div_mul, hnumber,
          Nat.mul_add_div hpos, Nat.div_eq_of_lt hlt, Nat.add_zero,
          Nat.mul_add_div (Nat.two_pow_pos bits)]
      have hlow : toNatBE (before :: b :: bs) / 2 ^ bits % capacity bs.length =
          toNatBE (b :: bs) / 2 ^ bits % capacity bs.length := by
        have hnumber : toNatBE (before :: b :: bs) =
            2 ^ bits * (capacity bs.length * (2 ^ (8 - bits) * before.toNat)) +
              toNatBE (b :: bs) := by
          rw [toNatBE_cons, List.length_cons, capacity_succ, ← two_pow_mul_two_pow_sub h]
          ac_rfl
        rw [hnumber, Nat.mul_add_div (Nat.two_pow_pos bits), Nat.mul_add_mod]
      rw [carryRight, toNatBE_cons, length_carryRight, UInt8.toNat_ofNat', ih,
        Nat.shiftLeft_eq, Nat.shiftRight_eq_div_pow, List.length_cons, capacity_succ,
        Nat.mul_comm 256, Nat.mod_mul, hhigh, hlow, Nat.add_comm]

/-! ## Shifts -/

/-- A shift is one by whole bytes and one by fewer bits than a byte has. -/
theorem two_pow_eq_capacity_mul (n : Nat) : 2 ^ n = capacity (n / 8) * 2 ^ (n % 8) := by
  rw [capacity_eq_two_pow, ← Nat.pow_add, Nat.div_add_mod]

theorem toNatBE_shiftLeft (bs : Bytes) (n : Nat) :
    toNatBE (shiftLeft bs n) = toNatBE bs * 2 ^ n % capacity bs.length := by
  have hbits : n % 8 ≤ 8 := Nat.le_of_lt (Nat.mod_lt n (by decide))
  rw [shiftLeft, toNatBE_append_zeros, toNatBE_carryLeft hbits, toNatBE_drop, List.length_drop,
    Nat.mod_mul_mod, two_pow_eq_capacity_mul n]
  rcases Nat.le_total (n / 8) bs.length with hle | hle
  · have hcapacity : capacity bs.length = capacity (n / 8) * capacity (bs.length - n / 8) := by
      rw [← capacity_add, Nat.add_sub_cancel' hle]
    rw [Nat.min_eq_left hle, hcapacity, Nat.mul_left_comm, Nat.mul_mod_mul_left]
  · -- Nothing is left, and the factor is a multiple of what the bytes can hold.
    have hcapacity : capacity (n / 8) = capacity bs.length * capacity (n / 8 - bs.length) := by
      rw [← capacity_add, Nat.add_sub_cancel' hle]
    rw [Nat.sub_eq_zero_of_le hle, capacity_zero, Nat.mod_one, Nat.mul_zero, hcapacity,
      Nat.mul_assoc, Nat.mul_left_comm, Nat.mul_mod_right]

theorem toNatBE_shiftRight (bs : Bytes) (n : Nat) :
    toNatBE (shiftRight bs n) = toNatBE bs / 2 ^ n := by
  have hbits : n % 8 ≤ 8 := Nat.le_of_lt (Nat.mod_lt n (by decide))
  have hlt : toNatBE (bs.take (bs.length - n / 8)) / 2 ^ (n % 8) <
      capacity (bs.take (bs.length - n / 8)).length :=
    Nat.lt_of_le_of_lt (Nat.div_le_self _ _) (toNatBE_lt_capacity _)
  rw [shiftRight, toNatBE_zeros_append, toNatBE_carryRight hbits, toNatBE_zero_cons,
    Nat.mod_eq_of_lt hlt, toNatBE_take, Nat.div_div_eq_div_mul, ← two_pow_eq_capacity_mul n]

/-- Shifts that are written byte after byte stay inside the byte string and keep its length. Of the
number with these big-endian digits, a shift to the front gives the multiple by a power of two, as
far as the bytes can hold it, and a shift to the back gives the quotient. -/
theorem toNatBE_shift? (v : Bytes) (n : Nat) :
    (∃ left, shiftLeft? v n = some left ∧ left.length = v.length ∧
      toNatBE left = toNatBE v * 2 ^ n % 2 ^ (8 * v.length)) ∧
    ∃ right, shiftRight? v n = some right ∧ right.length = v.length ∧
      toNatBE right = toNatBE v / 2 ^ n := by
  constructor
  · refine ⟨shiftLeft v n, shiftLeft?_eq v n, length_shiftLeft v n, ?_⟩
    rw [toNatBE_shiftLeft, capacity_eq_two_pow]
  · exact ⟨shiftRight v n, shiftRight?_eq v n, length_shiftRight v n, toNatBE_shiftRight v n⟩

end BitcoinScript.Bytes
