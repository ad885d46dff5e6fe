import BitcoinScript.Number

/-!
# Trimming a number at indices

The search that trims a number looks at one byte after the other from the end and writes the sign
at the index it stops at. Every index it uses lies inside the byte string, and what it leaves is the
minimal byte string of the same value.
-/

namespace BitcoinScript.Number

theorem take_succ_set {α : Type} {l : List α} {k : Nat} (h : k < l.length) (a : α) :
    (l.set k a).take (k + 1) = l.take k ++ [a] := by
  have hset : k < (l.set k a).length := by rwa [List.length_set]
  rw [List.take_succ_eq_append_getElem hset, List.take_set_of_le (Nat.le_refl k),
    List.getElem_set_self]

section

variable {d before : Bytes} {last b : UInt8}

theorem trimReversed_of_needed (h : last &&& 0x7f ≠ 0) :
    trimReversed (last :: before) = last :: before := by
  rw [trimReversed, if_pos h]

/-- A zero byte before the padding makes no difference. -/
theorem trimReversed_zero (h : last &&& 0x7f = 0) :
    trimReversed (last :: 0 :: before) = trimReversed (last :: before) := by
  have hskip : ¬last &&& 0x7f ≠ 0 := fun hne => hne h
  rw [trimReversed, trimReversed, if_neg hskip, if_neg hskip,
    List.dropWhile_cons_of_pos (by decide)]

/-- The sign goes behind the first byte that is not zero, or into it. -/
theorem trimReversed_of_ne (h : last &&& 0x7f = 0) (hb : b ≠ 0) :
    trimReversed (last :: b :: before) =
      if b &&& 0x80 ≠ 0 then last :: b :: before else (b ||| last) :: before := by
  have hskip : ¬last &&& 0x7f ≠ 0 := fun hne => hne h
  rw [trimReversed, if_neg hskip, List.dropWhile_cons_of_neg (by simpa using hb)]

/-- The search for a byte that is not zero stays inside the byte string, and so does the byte
behind it that may receive the sign. -/
theorem trimAt?_eq (h : last &&& 0x7f = 0) {i : Nat} (hi : i < d.length) :
    (trimAt? d.toArray last i).map Array.toList =
      some (trimReversed (last :: (d.take i).reverse)).reverse := by
  induction i with
  | zero => simp [trimAt?, trimReversed, h]
  | succ i ih =>
      have hlt : i < d.length := by omega
      have hrev : (d.take (i + 1)).reverse = d[i] :: (d.take i).reverse := by
        rw [List.take_succ_eq_append_getElem hlt, List.reverse_append]
        rfl
      rw [trimAt?, List.getElem?_toArray, List.getElem?_eq_getElem hlt, Option.bind_eq_bind,
        Option.bind_some]
      by_cases hzero : d[i] = 0
      · rw [if_pos hzero, ih hlt, hrev, hzero, trimReversed_zero h]
      · rw [if_neg hzero, hrev, trimReversed_of_ne h hzero, ← hrev]
        by_cases hsign : d[i] &&& 0x80 ≠ 0
        · rw [if_pos hsign, if_pos hsign, dif_pos (by simpa using hi), List.reverse_cons,
            List.reverse_reverse, ← take_succ_set hi last]
          simp
        · rw [if_neg hsign, if_neg hsign, dif_pos (by simpa using hlt), List.reverse_cons,
            List.reverse_reverse, ← take_succ_set hlt]
          simp

theorem minimal?_reverse (r : Bytes) : minimal? r.reverse = some (trimReversed r).reverse := by
  match r with
  | [] => rfl
  | [last] =>
      simp only [minimal?, trimReversed, List.reverse_singleton, List.getLast?_singleton,
        List.length_singleton, if_true, List.dropWhile_nil]
      split <;> rfl
  | last :: before :: rest =>
      rw [minimal?, List.getLast?_reverse, List.head?_cons]
      simp only
      by_cases hneeded : last &&& 0x7f ≠ 0
      · rw [if_pos hneeded, trimReversed_of_needed hneeded]
      · have hlast : last &&& 0x7f = 0 := Classical.not_not.1 hneeded
        have hlen : (last :: before :: rest).reverse.length = rest.length + 2 := by simp
        have hbefore : (last :: before :: rest).reverse[rest.length]? = some before := by
          rw [List.getElem?_reverse (by simp only [List.length_cons]; omega)]
          simp
        have htake : ((last :: before :: rest).reverse.take (rest.length + 2 - 1)).reverse =
            before :: rest := by
          rw [List.take_reverse, List.reverse_reverse]
          simp
        rw [if_neg hneeded, hlen, if_neg (by omega), if_neg (by omega), Nat.add_sub_cancel, hbefore,
          Option.bind_eq_bind, Option.bind_some]
        by_cases hsign : before &&& 0x80 ≠ 0
        · have hne : before ≠ 0 := by
            rintro rfl
            exact hsign rfl
          rw [if_pos hsign, trimReversed_of_ne hlast hne, if_pos hsign]
        · have hi : rest.length + 2 - 1 < (last :: before :: rest).reverse.length := by omega
          rw [if_neg hsign, trimAt?_eq hlast hi, htake]

/-- Trimming by index gives the minimal byte string, and so never leaves the byte string. -/
theorem minimal?_eq (d : Bytes) : minimal? d = some (minimal d) := by
  have h := minimal?_reverse d.reverse
  rwa [List.reverse_reverse] at h

end

theorem length_minimal_le (d : Bytes) : (minimal d).length ≤ d.length := by
  have htrim : ∀ e : Bytes, (trimReversed e).length ≤ e.length := by
    intro e
    cases e with
    | nil => exact Nat.le_refl 0
    | cons last before =>
        have hdropped := (List.dropWhile_sublist (p := (· = (0 : UInt8))) (l := before)).length_le
        rw [trimReversed]
        split
        · exact Nat.le_refl _
        · cases hbefore : before.dropWhile (· = 0) with
          | nil => exact Nat.zero_le _
          | cons b rest =>
              rw [hbefore, List.length_cons] at hdropped
              show (if b &&& 0x80 ≠ 0 then last :: b :: rest else (b ||| last) :: rest).length ≤ _
              split
              · exact Nat.succ_le_succ hdropped
              · exact Nat.le_succ_of_le hdropped
  rw [minimal, List.length_reverse]
  exact Nat.le_trans (htrim d.reverse) (Nat.le_of_eq List.length_reverse)

end BitcoinScript.Number
