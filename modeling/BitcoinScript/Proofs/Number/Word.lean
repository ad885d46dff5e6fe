import BitcoinScript.Proofs.Number.SignMagnitude

/-!
# Operands as words

An operand of at most eight bytes is read in 64-bit arithmetic. Its bytes fill a word without
touching each other, the sign bit is the top bit of the last of them, and once it is cleared the
magnitude is below half the range of words. So nothing is cut off, and the value that the word gives
is that of the byte string.
-/

namespace BitcoinScript

namespace Number

theorem wrap_of_bounds {n : Int} (hlow : -0x8000000000000000 ≤ n) (hhigh : n < 0x8000000000000000) :
    wrap n = n :=
  Int.bmod_eq_of_le hlow hhigh

theorem neg_wrap {n : Int} (hlow : -0x8000000000000000 < n) (hhigh : n < 0x8000000000000000) :
    neg (wrap n) = -n := by
  rw [neg, wrap_of_bounds (Int.le_of_lt hlow) hhigh, wrap_of_bounds (by omega) (by omega)]

/-- A byte is put into a word above what is there. -/
theorem toNat_or_shiftLeft {word : UInt64} {place : Nat} (b : UInt8)
    (hword : word.toNat < Bytes.capacity place) (hplace : place < maxLength) :
    (word ||| b.toUInt64 <<< UInt64.ofNat (8 * place)).toNat =
      word.toNat + Bytes.capacity place * b.toNat := by
  have hshift : (UInt64.ofNat (8 * place)).toNat % 64 = 8 * place := by
    rw [maxLength] at hplace
    rw [UInt64.toNat_ofNat']
    omega
  have hmul : b.toNat <<< (8 * place) = Bytes.capacity place * b.toNat := by
    rw [Nat.shiftLeft_eq, ← Bytes.capacity_eq_two_pow, Nat.mul_comm]
  have hfits : Bytes.capacity place * b.toNat < 2 ^ 64 := by
    have hcapacity : Bytes.capacity place ≤ Bytes.capacity 7 :=
      Bytes.capacity_le (Nat.le_of_lt_succ hplace)
    have hbyte : Bytes.capacity place * b.toNat ≤ Bytes.capacity 7 * 255 :=
      Nat.mul_le_mul hcapacity (Nat.le_pred_of_lt b.toNat_lt)
    exact Nat.lt_of_le_of_lt hbyte (by decide)
  rw [Bytes.capacity_eq_two_pow] at hword
  rw [UInt64.toNat_or, UInt64.toNat_shiftLeft, UInt8.toNat_toUInt64, hshift, hmul,
    Nat.mod_eq_of_lt hfits, Nat.or_comm, ← hmul, ← Nat.shiftLeft_add_eq_or_of_lt hword,
    Nat.add_comm]

theorem toNat_fillWord {word : UInt64} {place : Nat} (bs : Bytes)
    (hword : word.toNat < Bytes.capacity place) (hfits : place + bs.length ≤ maxLength) :
    (fillWord word place bs).toNat = word.toNat + Bytes.capacity place * Bytes.toNatLE bs := by
  induction bs generalizing word place with
  | nil => rfl
  | cons b bs ih =>
      rw [List.length_cons] at hfits
      have hb := b.toNat_lt
      have hor := toNat_or_shiftLeft b hword (by omega)
      have hbelow : word.toNat + Bytes.capacity place * b.toNat < Bytes.capacity (place + 1) := by
        have hmul : Bytes.capacity place * b.toNat ≤ Bytes.capacity place * 255 :=
          Nat.mul_le_mul_left _ (by omega)
        rw [Bytes.capacity_succ]
        omega
      rw [fillWord, ih (by rwa [hor]) (by omega), hor, Bytes.toNatLE_cons, Bytes.capacity_succ,
        Nat.mul_add, Nat.mul_left_comm, Nat.mul_assoc, Nat.add_assoc]

/-- Clearing the highest bit of a word that is set. -/
theorem toNat_and_not {word bit : UInt64} {i n : Nat} (hi : i < 64) (hn : n < 2 ^ i)
    (hword : word.toNat = 2 ^ i + n) (hbit : bit.toNat = 2 ^ i) : (word &&& ~~~bit).toNat = n := by
  have hnot : (~~~bit).toNat = 2 ^ 64 - (2 ^ i + 1) := by
    rw [UInt64.toNat_not, hbit, Nat.sub_sub, Nat.add_comm 1]
    rfl
  have hpow : 2 ^ i < 2 ^ 64 := Nat.pow_lt_pow_right (by decide) hi
  rw [UInt64.toNat_and, hword, hnot]
  apply Nat.eq_of_testBit_eq
  intro j
  have hsplit := Nat.testBit_two_pow_mul_add 1 hn j
  rw [Nat.mul_one] at hsplit
  rw [Nat.testBit_and, hsplit, Nat.testBit_two_pow_sub_succ hpow, Nat.testBit_two_pow]
  rcases Nat.lt_trichotomy j i with hlt | rfl | hgt
  · rw [if_pos hlt, decide_eq_true (Nat.lt_trans hlt hi), decide_eq_false (Nat.ne_of_gt hlt),
      Bool.not_false, Bool.and_true, Bool.and_true]
  · rw [decide_eq_true rfl, Bool.not_true, Bool.and_false, Bool.and_false,
      Nat.testBit_lt_two_pow hn]
  · have hone : Nat.testBit 1 (j - i) = false :=
      Nat.testBit_lt_two_pow (Nat.one_lt_two_pow (Nat.sub_ne_zero_of_lt hgt))
    have hj : n < 2 ^ j := Nat.lt_trans hn (Nat.pow_lt_pow_right (by decide) hgt)
    rw [if_neg (Nat.not_lt_of_gt hgt), hone, Bool.false_and, Nat.testBit_lt_two_pow hj]

theorem toNat_signBit {place : Nat} (h : place < maxLength) :
    ((0x80 : UInt64) <<< UInt64.ofNat (8 * place)).toNat = 2 ^ (8 * place + 7) := by
  have htable : ∀ k : Fin 8,
      ((0x80 : UInt64) <<< UInt64.ofNat (8 * k)).toNat = 2 ^ (8 * k.val + 7) := by decide
  exact htable ⟨place, h⟩

theorem toNat_fillWord_concat {front : Bytes} (last : UInt8) (h : front.length < maxLength) :
    (fillWord 0 0 (front ++ [last])).toNat =
      Bytes.toNatLE front + Bytes.capacity front.length * last.toNat := by
  have hempty : UInt64.toNat 0 < Bytes.capacity 0 := Nat.one_pos
  have hfits : 0 + (front ++ [last]).length ≤ maxLength := by
    rw [Nat.zero_add, List.length_append]
    exact h
  rw [toNat_fillWord _ hempty hfits, Bytes.toNatLE_append, Bytes.toNatLE_cons, Bytes.toNatLE_nil,
    Bytes.capacity_zero, UInt64.toNat_zero, Nat.zero_add, Nat.one_mul, Nat.mul_zero, Nat.add_zero]

/-- A last byte with its top bit set adds the sign bit to the magnitude. -/
theorem toNatLE_add_of_top (front : Bytes) {last : UInt8} (h : 0x80 ≤ last.toNat) :
    Bytes.toNatLE front + Bytes.capacity front.length * last.toNat =
      2 ^ (8 * front.length + 7) +
        (Bytes.toNatLE front + Bytes.capacity front.length * (last.toNat % 0x80)) := by
  have hlast : last.toNat = 0x80 + last.toNat % 0x80 := by
    have hb := last.toNat_lt
    omega
  have hmul : Bytes.capacity front.length * last.toNat =
      Bytes.capacity front.length * 0x80 +
        Bytes.capacity front.length * (last.toNat % 0x80) := by
    rw [← Nat.mul_add, ← hlast]
  rw [Nat.pow_add, ← Bytes.capacity_eq_two_pow, hmul]
  omega

/-- Reading an operand as a word gives its value. -/
theorem wordValue_eq {d : Bytes} (h : d.length ≤ maxLength) : wordValue d = value d := by
  by_cases hnil : d = []
  · rw [hnil]
    rfl
  obtain ⟨front, last, rfl⟩ : ∃ front last, d = front ++ [last] :=
    ⟨_, _, (List.dropLast_concat_getLast hnil).symm⟩
  have hlength : (front ++ [last]).length - 1 = front.length := by simp
  rw [List.length_append, List.length_singleton] at h
  have hplace : front.length < 8 := h
  have hword := toNat_fillWord_concat last hplace
  have hbound := magnitude_lt front last
  have hsignBit : Bytes.capacity front.length * 0x80 = 2 ^ (8 * front.length + 7) := by
    rw [Nat.pow_add, ← Bytes.capacity_eq_two_pow]
  rw [hsignBit] at hbound
  have hrange : 2 ^ (8 * front.length + 7) ≤ 2 ^ 63 := Nat.pow_le_pow_right (by decide) (by omega)
  rw [wordValue, List.getLast?_concat, value, signMagnitude_concat]
  simp only [hlength]
  by_cases htop : 0x80 ≤ last.toNat
  · rw [toNatLE_add_of_top front htop] at hword
    rw [if_pos ((Bytes.and_top_ne_zero_iff last).2 htop),
      toNat_and_not (by omega) hbound hword (toNat_signBit hplace),
      neg_wrap (by omega) (by omega), decide_eq_true htop, if_pos rfl]
  · have hlast : last.toNat % 0x80 = last.toNat := Nat.mod_eq_of_lt (Nat.not_le.1 htop)
    have hsign : ¬last &&& 0x80 ≠ 0 := fun hne => htop ((Bytes.and_top_ne_zero_iff last).1 hne)
    rw [hlast] at hbound ⊢
    rw [if_neg hsign, hword, wrap_of_bounds (by omega) (by omega), decide_eq_false htop,
      if_neg Bool.false_ne_true]

/-- What reading an operand comes to, under a limit on its length. -/
theorem decode_eq (strict : Bool) (limit : Nat) (d : Bytes) :
    decode strict limit d =
      if min limit maxLength < d.length then .error (.error .numberOverflow)
      else if strict ∧ ¬isMinimal d then .error (.error .numberMinEncode)
      else .ok (value d) := by
  rw [decode]
  by_cases hlength : min limit maxLength < d.length
  · have hlong : (limit < d.length || maxLength < d.length) = true := by
      rw [Bool.or_eq_true, decide_eq_true_eq, decide_eq_true_eq]
      omega
    rw [if_pos hlong, if_pos hlength]
  · have hfits : ¬(limit < d.length || maxLength < d.length) = true := by
      rw [Bool.or_eq_true, decide_eq_true_eq, decide_eq_true_eq]
      omega
    have hlimit : decide (d.length ≤ limit) = true := decide_eq_true (by omega)
    rw [if_neg hfits, if_neg hlength, wordValue_eq (by omega), isMinimalWithin, hlimit,
      Bool.true_and]
    simp only [Bool.and_eq_true, Bool.not_eq_true', Bool.not_eq_true]

theorem decode_eq_ok_iff {strict : Bool} {limit : Nat} {d : Bytes} {n : Int} :
    decode strict limit d = .ok n ↔
      d.length ≤ limit ∧ d.length ≤ maxLength ∧ (strict → isMinimal d) ∧ value d = n := by
  rw [decode_eq]
  by_cases hlength : min limit maxLength < d.length
  · rw [if_pos hlength]
    exact iff_of_false (fun h => by cases h) (by omega)
  · rw [if_neg hlength]
    by_cases hrefused : strict ∧ ¬isMinimal d
    · rw [if_pos hrefused]
      exact iff_of_false (fun h => by cases h) fun h => hrefused.2 (h.2.2.1 hrefused.1)
    · rw [if_neg hrefused, Except.ok.injEq]
      have hminimal : strict → isMinimal d := fun hstrict =>
        Classical.byContradiction fun hnot => hrefused ⟨hstrict, hnot⟩
      exact ⟨fun h => ⟨by omega, by omega, hminimal, h⟩, fun h => h.2.2.2⟩

end Number

end BitcoinScript
