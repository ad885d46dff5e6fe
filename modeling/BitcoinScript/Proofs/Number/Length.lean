import BitcoinScript.Opcode.Command
import BitcoinScript.Proofs.Number.Word

/-!
# Lengths of numbers

The shortest byte string of a number is one byte longer than its magnitude at most. An operand has
at most eight bytes and arithmetic wraps around at 64 bits, so a number that scripts compute takes
nine bytes at most.
-/

namespace BitcoinScript

namespace Number

theorem length_magnitudeBytes_le {n width : Nat} (h : n < Bytes.capacity width) :
    (magnitudeBytes n).length ≤ width := by
  induction width generalizing n with
  | zero =>
      obtain rfl := Nat.lt_one_iff.1 h
      rw [magnitudeBytes]
      exact Nat.le_refl 0
  | succ width ih =>
      rw [magnitudeBytes]
      split
      · exact Nat.zero_le _
      · rw [Bytes.capacity_succ] at h
        have hrest : n / 256 < Bytes.capacity width := by omega
        exact Nat.succ_le_succ (ih hrest)

theorem length_withSign_le (negative : Bool) (d : Bytes) :
    (withSign negative d).length ≤ d.length + 1 := by
  fun_induction withSign negative d with
  | case1 => exact Nat.zero_le _
  | case2 b h => exact Nat.le_refl _
  | case3 b h => exact Nat.le_succ _
  | case4 b bs hne ih => exact Nat.succ_le_succ ih

theorem length_encode_le {n : Int} {width : Nat} (h : n.natAbs < Bytes.capacity width) :
    (encode n).length ≤ width + 1 :=
  Nat.le_trans (length_withSign_le _ _) (Nat.succ_le_succ (length_magnitudeBytes_le h))

def IsWord (n : Int) : Prop := n.natAbs < Bytes.capacity 8

instance : DecidablePred IsWord := fun n => inferInstanceAs (Decidable (n.natAbs < _))

theorem length_encode_of_isWord {n : Int} (h : IsWord n) : (encode n).length ≤ 9 :=
  length_encode_le h

theorem isWord_of_decode {strict : Bool} {limit : Nat} {d : Bytes} {n : Int}
    (h : decode strict limit d = .ok n) : IsWord n := by
  obtain ⟨-, hlength, -, rfl⟩ := decode_eq_ok_iff.1 h
  have hvalue := two_mul_natAbs_value_lt_capacity d
  have hcapacity := Bytes.capacity_le hlength
  rw [maxLength] at hcapacity
  rw [IsWord]
  omega

theorem isWord_wrap (n : Int) : IsWord (wrap n) := by
  have hlow : -(0x8000000000000000 : Int) ≤ wrap n := Int.le_bmod (by decide)
  have hhigh : wrap n < (0x8000000000000000 : Int) := Int.bmod_lt (by decide)
  have hcapacity : Bytes.capacity 8 = 0x10000000000000000 := rfl
  rw [IsWord, hcapacity]
  omega

theorem isWord_ofBool (b : Bool) : IsWord (ofBool b) := by
  cases b with
  | false => decide
  | true => decide

end Number

theorem UnaryOp.isWord_eval {op : UnaryOp} {n : Int} (h : Number.IsWord n) :
    Number.IsWord (op.eval n) := by
  cases op with
  | addOne => exact Number.isWord_wrap _
  | subOne => exact Number.isWord_wrap _
  | negate => exact Number.isWord_wrap _
  | abs =>
      show Number.IsWord (if n < 0 then Number.neg n else n)
      split
      · exact Number.isWord_wrap _
      · exact h
  | not => exact Number.isWord_ofBool _
  | nonZero => exact Number.isWord_ofBool _

theorem Number.isWord_of_divide {a b n : Int} (h : divide a b = .ok n) : IsWord n := by
  rw [divide] at h
  split at h
  · exact nomatch h
  · obtain rfl := Except.ok.inj h
    exact isWord_wrap _

theorem Number.isWord_of_remainder {a b n : Int} (h : remainder a b = .ok n) : IsWord n := by
  rw [remainder] at h
  split at h
  · exact nomatch h
  · obtain rfl := Except.ok.inj h
    exact isWord_wrap _

theorem BinaryOp.isWord_of_eval {op : BinaryOp} {a b n : Int} (ha : Number.IsWord a)
    (hb : Number.IsWord b) (h : op.eval a b = .ok n) : Number.IsWord n := by
  cases op with
  | div =>
      rw [eval] at h
      split at h
      · exact nomatch h
      · exact Number.isWord_of_divide h
  | mod =>
      rw [eval] at h
      split at h
      · exact nomatch h
      · exact Number.isWord_of_remainder h
  | min =>
      obtain rfl := Except.ok.inj h
      rcases Int.le_total a b with hle | hle
      · rwa [Int.min_eq_left hle]
      · rwa [Int.min_eq_right hle]
  | max =>
      obtain rfl := Except.ok.inj h
      rcases Int.le_total a b with hle | hle
      · rwa [Int.max_eq_right hle]
      · rwa [Int.max_eq_left hle]
  | add | sub | mul => exact Except.ok.inj h ▸ Number.isWord_wrap _
  | boolAnd | boolOr | equal | notEqual | less | greater | lessOrEqual | greaterOrEqual =>
      exact Except.ok.inj h ▸ Number.isWord_ofBool _

end BitcoinScript
