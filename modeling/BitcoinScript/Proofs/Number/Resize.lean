import BitcoinScript.Operand
import BitcoinScript.Proofs.Number.Codec

/-!
# Numbers of a given size

Bringing a number to a size trims it first, and zeros then fill the space between its digits and its
sign. What is left of the number is its value, so the result depends on nothing else, and resizing
it once more comes to resizing the number that it was made from.
-/

namespace BitcoinScript.Operand

open Number

/-! ## The parts of a number -/

theorem splitSign_cons (b : UInt8) {tail : Bytes} (h : tail ≠ []) :
    splitSign (b :: tail) = (b :: (splitSign tail).1, (splitSign tail).2) := by
  cases tail with
  | nil => exact absurd rfl h
  | cons c rest => rfl

theorem length_splitSign (d : Bytes) : (splitSign d).1.length = d.length := by
  fun_induction splitSign d with
  | case1 => rfl
  | case2 b => rfl
  | case3 b bs hne ih => exact congrArg Nat.succ ih

/-- The parts of a number are its sign bit and digits that make up its magnitude. -/
theorem signMagnitude_eq_splitSign (d : Bytes) :
    signMagnitude d = (decide (0x80 ≤ (splitSign d).2.toNat), Bytes.toNatLE (splitSign d).1) := by
  induction d with
  | nil => rfl
  | cons b d ih =>
      cases d with
      | nil =>
          have hsign : 0x80 ≤ (b &&& 0x80).toNat ↔ 0x80 ≤ b.toNat := by
            rw [Bytes.toNat_and_top]
            split <;> omega
          show (decide (0x80 ≤ b.toNat), b.toNat % 0x80) =
            (decide (0x80 ≤ (b &&& 0x80).toNat), (b &&& 0x7f).toNat + 256 * 0)
          rw [decide_eq_decide.2 hsign, Bytes.toNat_and_rest]
          rfl
      | cons c rest =>
          have hne : c :: rest ≠ [] := List.cons_ne_nil c rest
          rw [signMagnitude_cons b hne, splitSign_cons b hne, ih, Bytes.toNatLE_cons]

theorem sign_mod (d : Bytes) : (splitSign d).2.toNat % 0x80 = 0 := by
  fun_induction splitSign d with
  | case1 => rfl
  | case2 b =>
      rw [Bytes.toNat_and_top]
      split <;> rfl
  | case3 b bs hne ih => exact ih

/-- Zeros between the digits and the sign do not count. -/
theorem value_padded (d : Bytes) (n : Nat) :
    value ((splitSign d).1 ++ List.replicate n 0 ++ [(splitSign d).2]) = value d := by
  rw [value, value, signMagnitude_concat, sign_mod, Nat.mul_zero, Nat.add_zero,
    Bytes.toNatLE_append_zeros, ← signMagnitude_eq_splitSign]

/-! ## Resizing -/

/-- What resizing comes to: there is always room for the sign. -/
theorem resize_eq (a : Bytes) (size : Nat) :
    resize a size =
      if size < (minimal a).length then .error (.error .impossibleEncoding)
      else if (minimal a).length = size then .ok (minimal a)
      else .ok ((splitSign (minimal a)).1 ++
        List.replicate (size - 1 - (minimal a).length) 0 ++ [(splitSign (minimal a)).2]) := by
  rw [resize, minimal?_eq]
  simp only
  split
  · rfl
  · rename_i hfits
    split
    · rfl
    · rename_i hne
      cases size with
      | zero => exact absurd (Nat.le_zero.1 (Nat.not_lt.1 hfits)) hne
      | succ fill =>
          simp only [length_splitSign, Nat.add_sub_cancel]

theorem resize_eq_error_iff {a : Bytes} {size : Nat} :
    resize a size = .error (.error .impossibleEncoding) ↔ size < (minimal a).length := by
  rw [resize_eq]
  split
  · rename_i hlt
    exact iff_of_true rfl hlt
  · rename_i hfits
    refine iff_of_false (fun h => ?_) hfits
    split at h
    · cases h
    · cases h

theorem exists_resize {a : Bytes} {size : Nat} (h : (minimal a).length ≤ size) :
    ∃ b, resize a size = .ok b := by
  rw [resize_eq, if_neg (Nat.not_lt.2 h)]
  split
  · exact ⟨_, rfl⟩
  · exact ⟨_, rfl⟩

section

variable {a b : Bytes} {size : Nat}

theorem length_of_resize (h : resize a size = .ok b) : b.length = size := by
  rw [resize_eq] at h
  split at h
  · cases h
  · rename_i hfits
    split at h
    · rename_i hlength
      exact Except.ok.inj h ▸ hlength
    · rw [← Except.ok.inj h, List.length_append, List.length_append, length_splitSign,
        List.length_replicate, List.length_singleton]
      omega

theorem value_of_resize (h : resize a size = .ok b) : value b = value a := by
  rw [resize_eq] at h
  split at h
  · cases h
  · split at h
    · rw [← Except.ok.inj h, value_minimal]
    · rw [← Except.ok.inj h, value_padded, value_minimal]

/-- Trimming looks at the value only, and so does resizing. -/
theorem minimal?_congr (h : value a = value b) : minimal? a = minimal? b := by
  rw [minimal?_eq, minimal?_eq, minimal_eq_encode, minimal_eq_encode, h]

theorem resize_congr (h : value a = value b) (size : Nat) : resize a size = resize b size := by
  rw [resize, resize, minimal?_congr h]

end

/-- A number is brought to every size that its minimal byte string fits into, and to no other. What
comes out has just this size and the same value, so that trimming it leaves the same, and resizing
it to more bytes gives what resizing the first number to them gives. -/
theorem resize_number (v : Bytes) (size : Nat) :
    ∃ trimmed, minimal? v = some trimmed ∧
      (resize v size = .error (.error .impossibleEncoding) ↔ size < trimmed.length) ∧
      (¬size < trimmed.length → ∃ w, resize v size = .ok w ∧ w.length = size ∧
        value w = value v ∧ minimal? w = minimal? v ∧
        ∀ size', size ≤ size' → resize w size' = resize v size') := by
  refine ⟨minimal v, minimal?_eq v, resize_eq_error_iff, fun hfits => ?_⟩
  obtain ⟨w, hw⟩ := exists_resize (Nat.not_lt.1 hfits)
  have hvalue := value_of_resize hw
  exact ⟨w, hw, length_of_resize hw, hvalue, minimal?_congr hvalue,
    fun size' _ => resize_congr hvalue size'⟩

/-- The number -5 with two bytes of padding needs one byte. In four bytes its sign stands in the
last one, and from there it goes to six. -/
theorem resize_number_negative :
    ∃ w, resize [5, 0, 0x80] 4 = .ok w ∧ w = [5, 0, 0, 0x80] ∧
      minimal? w = some [0x85] ∧ resize w 6 = .ok [5, 0, 0, 0, 0, 0x80] := by
  obtain ⟨trimmed, htrimmed, -, hresize⟩ := resize_number [5, 0, 0x80] 4
  obtain rfl : [0x85] = trimmed := Option.some.inj htrimmed
  obtain ⟨w, hw, -, -, hminimal, hagain⟩ := hresize (by decide)
  exact ⟨w, hw, (Except.ok.inj hw).symm, hminimal, hagain 6 (by decide)⟩

end BitcoinScript.Operand
