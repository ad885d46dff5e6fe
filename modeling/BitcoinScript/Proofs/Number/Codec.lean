import BitcoinScript.Proofs.Number.Minimal
import BitcoinScript.Proofs.Number.Word

/-!
# The minimal byte string of a number

Trimming a byte string, whatever its length, leaves the one that its number is written as. So the
minimal byte strings are those that numbers are written as, and each value has exactly one of them.
-/

namespace BitcoinScript.Number

/-! ## What trimming leaves -/

theorem toNatLE_reverse_dropWhile (bs : Bytes) :
    Bytes.toNatLE (bs.dropWhile (· = 0)).reverse = Bytes.toNatLE bs.reverse := by
  rw [← Bytes.toNatBE_eq, ← Bytes.toNatBE_eq, Bytes.toNatBE_dropWhile]

theorem unpadded_reverse_dropWhile (bs : Bytes) : Unpadded (bs.dropWhile (· = 0)).reverse := by
  have hhead := List.head?_dropWhile_not (· = (0 : UInt8)) bs
  intro hzero
  rw [List.getLast?_reverse] at hzero
  rw [hzero] at hhead
  simp at hhead

theorem withSign_singleton (negative : Bool) (b : UInt8) :
    withSign negative [b] =
      if 0x80 ≤ b.toNat then [b, if negative then 0x80 else 0]
      else [b ||| if negative then 0x80 else 0] := by
  rw [withSign]
  cases negative with
  | false => simp
  | true => rfl

/-- Where the last byte is needed, it holds the sign on top of the last digit. -/
theorem withSign_of_needed {last : UInt8} (front : Bytes) :
    withSign (decide (0x80 ≤ last.toNat)) (front ++ [last &&& 0x7f]) = front ++ [last] := by
  have hlow : ¬0x80 ≤ (last &&& 0x7f).toNat := by
    rw [Bytes.toNat_and_rest]
    omega
  rw [withSign_append front (List.cons_ne_nil _ []), withSign, if_neg hlow]
  simp only [decide_eq_true_eq, Bytes.and_rest_or_sign]

/-- Where the last byte is padding it holds nothing but the sign, and that moves to the last byte
that is not zero. -/
theorem withSign_of_padding {last : UInt8} (h : last &&& 0x7f = 0) (before : Bytes) :
    withSign (decide (0x80 ≤ last.toNat)) (before.dropWhile (· = 0)).reverse =
      (trimReversed (last :: before)).reverse := by
  have hpadding : ¬last &&& 0x7f ≠ 0 := fun hne => hne h
  rw [trimReversed, if_neg hpadding]
  cases before.dropWhile (· = 0) with
  | nil => rfl
  | cons b rest =>
      have hlast : (if decide (0x80 ≤ last.toNat) then 0x80 else 0) = last := by
        simpa only [decide_eq_true_eq] using (Bytes.eq_sign_of_and_rest h).symm
      rw [List.reverse_cons, withSign_append _ (List.cons_ne_nil b []), withSign_singleton, hlast]
      by_cases hb : 0x80 ≤ b.toNat
      · have htop : b &&& 0x80 ≠ 0 := (Bytes.and_top_ne_zero_iff b).2 hb
        simp only [if_pos hb, if_pos htop, List.reverse_cons, List.append_assoc,
          List.singleton_append]
      · have htop : ¬b &&& 0x80 ≠ 0 := fun htop => hb ((Bytes.and_top_ne_zero_iff b).1 htop)
        simp only [if_neg hb, if_neg htop, List.reverse_cons]

theorem minimal_eq_withSign (d : Bytes) :
    minimal d = withSign (signMagnitude d).1 (magnitudeBytes (signMagnitude d).2) := by
  suffices h : ∀ e : Bytes, (trimReversed e).reverse =
      withSign (signMagnitude e.reverse).1 (magnitudeBytes (signMagnitude e.reverse).2) by
    rw [minimal, h d.reverse, List.reverse_reverse]
  intro e
  cases e with
  | nil => rw [List.reverse_nil, signMagnitude, magnitudeBytes_zero]; rfl
  | cons last before =>
      rw [List.reverse_cons, signMagnitude_concat]
      by_cases h : last &&& 0x7f = 0
      · rw [(Bytes.and_rest_eq_zero_iff last).1 h, Nat.mul_zero, Nat.add_zero,
          ← toNatLE_reverse_dropWhile, (unpadded_reverse_dropWhile before).magnitudeBytes_toNatLE,
          withSign_of_padding h]
      · have hdigits : Bytes.toNatLE before.reverse +
            Bytes.capacity before.reverse.length * (last.toNat % 0x80) =
              Bytes.toNatLE (before.reverse ++ [last &&& 0x7f]) := by
          rw [Bytes.toNatLE_append, Bytes.toNatLE_cons, Bytes.toNatLE_nil, Bytes.toNat_and_rest,
            Nat.mul_zero, Nat.add_zero]
        rw [hdigits, (unpadded_append_singleton.2 h).magnitudeBytes_toNatLE, withSign_of_needed,
          trimReversed_of_needed h, List.reverse_cons]

/-! ## Reading and writing -/

/-- Trimming a byte string comes to reading it and writing its value. -/
theorem minimal_eq_encode (d : Bytes) : minimal d = encode (value d) := by
  rw [minimal_eq_withSign, encode, natAbs_value]
  by_cases hzero : (signMagnitude d).2 = 0
  · rw [hzero, magnitudeBytes_zero]
    rfl
  · have hsign : decide (value d < 0) = (signMagnitude d).1 := by
      show decide ((if (signMagnitude d).1 then -((signMagnitude d).2 : Int) else _) < 0) = _
      cases (signMagnitude d).1 with
      | false => simp
      | true =>
          rw [if_pos rfl]
          exact decide_eq_true (by omega)
    rw [hsign]

theorem encode_zero : encode 0 = [] := by
  show withSign _ (magnitudeBytes 0) = []
  rw [magnitudeBytes_zero]
  rfl

theorem value_encode (n : Int) : value (encode n) = n := by
  by_cases hzero : n = 0
  · rw [hzero, encode_zero]
    rfl
  · have hdigits : magnitudeBytes n.natAbs ≠ [] := by
      intro hnil
      have hvalue := toNatLE_magnitudeBytes n.natAbs
      rw [hnil, Bytes.toNatLE_nil] at hvalue
      omega
    rw [value, encode, signMagnitude_withSign _ hdigits, toNatLE_magnitudeBytes]
    show (if decide (n < 0) then -(n.natAbs : Int) else n.natAbs) = n
    split
    · rename_i hneg
      rw [decide_eq_true_eq] at hneg
      omega
    · rename_i hneg
      rw [decide_eq_true_eq] at hneg
      omega

theorem encode_eq_nil_iff {n : Int} : encode n = [] ↔ n = 0 := by
  refine ⟨fun h => ?_, fun h => by rw [h, encode_zero]⟩
  rw [← value_encode n, h]
  rfl

/-! ## Minimal byte strings -/

theorem isMinimalReversed_of_needed {last : UInt8} (h : last &&& 0x7f ≠ 0) (before : Bytes) :
    isMinimalReversed (last :: before) = true := by
  cases before with
  | nil => exact decide_eq_true h
  | cons b rest => rw [isMinimalReversed, decide_eq_true h, Bool.true_or]

theorem isMinimal_withSign (negative : Bool) {digits : Bytes} (h : Unpadded digits) :
    isMinimal (withSign negative digits) = true := by
  by_cases hnil : digits = []
  · rw [hnil]
    rfl
  · obtain ⟨front, b, rfl⟩ : ∃ front b, digits = front ++ [b] :=
      ⟨_, _, (List.dropLast_concat_getLast hnil).symm⟩
    have hb : b.toNat ≠ 0 := fun hzero => unpadded_append_singleton.1 h (UInt8.toNat_inj.1 hzero)
    rw [withSign_append front (List.cons_ne_nil b []), withSign_singleton, isMinimal]
    split
    · rename_i htop
      have hbit : b &&& 0x80 ≠ 0 := (Bytes.and_top_ne_zero_iff b).2 htop
      rw [List.reverse_append]
      show (_ || decide (b &&& 0x80 ≠ 0)) = true
      rw [decide_eq_true hbit, Bool.or_true]
    · rename_i hrest
      have hneeded : (b ||| if negative then 0x80 else 0) &&& 0x7f ≠ 0 := by
        rw [Ne, Bytes.and_rest_eq_zero_iff]
        cases negative with
        | false =>
            rw [if_neg Bool.false_ne_true, UInt8.or_zero]
            omega
        | true =>
            rw [if_pos rfl, Bytes.toNat_or_top (Nat.not_le.1 hrest)]
            omega
      rw [List.reverse_append]
      exact isMinimalReversed_of_needed hneeded front.reverse

theorem isMinimal_encode (n : Int) : isMinimal (encode n) = true :=
  isMinimal_withSign _ (unpadded_magnitudeBytes _)

theorem trimReversed_of_isMinimal {e : Bytes} (h : isMinimalReversed e = true) :
    trimReversed e = e := by
  match e, h with
  | [], _ => rfl
  | [last], h => exact trimReversed_of_needed (of_decide_eq_true h)
  | last :: b :: rest, h =>
      by_cases hneeded : last &&& 0x7f = 0
      · have hbit : b &&& 0x80 ≠ 0 := by
          rw [isMinimalReversed, decide_eq_false (not_not_intro hneeded), Bool.false_or] at h
          exact of_decide_eq_true h
        have hb : b ≠ 0 := by
          rintro rfl
          exact hbit rfl
        rw [trimReversed_of_ne hneeded hb, if_pos hbit]
      · exact trimReversed_of_needed hneeded

theorem minimal_eq_self_iff {d : Bytes} : minimal d = d ↔ isMinimal d = true := by
  constructor
  · intro h
    rw [← h, minimal_eq_encode]
    exact isMinimal_encode _
  · intro h
    rw [minimal, trimReversed_of_isMinimal h, List.reverse_reverse]

theorem encode_value {d : Bytes} (h : isMinimal d = true) : encode (value d) = d := by
  rw [← minimal_eq_encode, minimal_eq_self_iff.2 h]

theorem value_minimal (d : Bytes) : value (minimal d) = value d := by
  rw [minimal_eq_encode, value_encode]

theorem isMinimal_minimal (d : Bytes) : isMinimal (minimal d) = true := by
  rw [minimal_eq_encode]
  exact isMinimal_encode _

theorem eq_of_value_eq {d e : Bytes} (hd : isMinimal d = true) (he : isMinimal e = true)
    (h : value d = value e) : d = e := by
  rw [← encode_value hd, h, encode_value he]

/-- The sign of a padding byte moves into the byte before it, where that has room for it. -/
theorem signMagnitude_moved {b last : UInt8} (hb : ¬b &&& 0x80 ≠ 0) (hlast : last &&& 0x7f = 0) :
    signMagnitude [b ||| last] = signMagnitude [b, last] := by
  have hlow : b.toNat < 0x80 :=
    Nat.not_le.1 fun hle => hb ((Bytes.and_top_ne_zero_iff b).2 hle)
  rw [signMagnitude_cons b (List.cons_ne_nil last []), Bytes.eq_sign_of_and_rest hlast]
  split
  · show (decide (0x80 ≤ (b ||| 0x80).toNat), (b ||| 0x80).toNat % 0x80) = (true, b.toNat)
    rw [Bytes.toNat_or_top hlow, Nat.add_mod_right, Nat.mod_eq_of_lt hlow,
      decide_eq_true (Nat.le_add_left _ _)]
  · show (decide (0x80 ≤ (b ||| 0).toNat), (b ||| 0).toNat % 0x80) = (false, b.toNat)
    rw [UInt8.or_zero, Nat.mod_eq_of_lt hlow, decide_eq_false (Nat.not_le.2 hlow)]

/-- A byte string that is not minimal has a shorter one of its value. -/
theorem exists_shorter {d : Bytes} (h : isMinimal d = false) :
    ∃ e : Bytes, value e = value d ∧ e.length < d.length := by
  obtain ⟨r, rfl⟩ : ∃ r : Bytes, d = r.reverse := ⟨d.reverse, d.reverse_reverse.symm⟩
  rw [isMinimal, List.reverse_reverse] at h
  match r, h with
  | [last], h =>
      have hlast : last &&& 0x7f = 0 := Classical.not_not.1 (of_decide_eq_false h)
      have hzero : value [last] = 0 :=
        value_eq_zero_iff.2 ((Bytes.and_rest_eq_zero_iff last).1 hlast)
      exact ⟨[], hzero.symm, Nat.one_pos⟩
  | last :: b :: rest, h =>
      rw [isMinimalReversed, Bool.or_eq_false_iff, decide_eq_false_iff_not,
        decide_eq_false_iff_not] at h
      have hlast : last &&& 0x7f = 0 := Classical.not_not.1 h.1
      refine ⟨rest.reverse ++ [b ||| last], ?_, ?_⟩
      · have hsplit : (last :: b :: rest).reverse = rest.reverse ++ [b, last] := by simp
        rw [value, value, hsplit, signMagnitude_append _ (List.cons_ne_nil _ []),
          signMagnitude_append _ (List.cons_ne_nil _ _), signMagnitude_moved h.2 hlast]
      · simp

/-- The minimal byte strings are the shortest ones of their values. -/
theorem isMinimal_iff_length_le {d : Bytes} :
    isMinimal d = true ↔ ∀ e : Bytes, value e = value d → d.length ≤ e.length := by
  constructor
  · intro h e hvalue
    have hlength := length_minimal_le e
    rwa [minimal_eq_encode, hvalue, encode_value h] at hlength
  · intro h
    cases hminimal : isMinimal d with
    | true => rfl
    | false =>
        obtain ⟨e, hvalue, hshorter⟩ := exists_shorter hminimal
        exact absurd (h e hvalue) (Nat.not_le.2 hshorter)

/-! ## The codec -/

/-- Reading and writing numbers fit together, for byte strings of any length. The minimal ones are
the shortest ones of their values. Trimming leaves a minimal byte string of the same value that is
no longer, and another one unless it was minimal. A value has one minimal byte string, which is what
it is written as. An operand is refused when it is too long, or else when it should be minimal and
is not, and is read as its value otherwise. So writing an operand that was read comes to trimming
it. -/
theorem minimal_codec :
    (∀ d : Bytes, isMinimal d ↔ ∀ e : Bytes, value e = value d → d.length ≤ e.length) ∧
    (∀ d : Bytes, ∃ e, minimal? d = some e ∧ isMinimal e ∧ value e = value d ∧
      e.length ≤ d.length ∧ (e = d ↔ isMinimal d)) ∧
    (∀ d e : Bytes, isMinimal d → isMinimal e → value d = value e → d = e) ∧
    (∀ n : Int, isMinimal (encode n) ∧ value (encode n) = n) ∧
    (∀ (strict : Bool) (limit : Nat) (d : Bytes), decode strict limit d =
      if min limit 8 < d.length then .error (.error .numberOverflow)
      else if strict ∧ ¬isMinimal d then .error (.error .numberMinEncode)
      else .ok (value d)) ∧
    ∀ d : Bytes, d.length ≤ 8 → (∃ n, decode false 8 d = .ok n) ∧
      ∀ strict limit n, decode strict limit d = .ok n → minimal? d = some (encode n) := by
  refine ⟨fun d => isMinimal_iff_length_le, fun d => ?_, fun d e => eq_of_value_eq, fun n => ?_,
    decode_eq, fun d hlength => ?_⟩
  · exact ⟨minimal d, minimal?_eq d, isMinimal_minimal d, value_minimal d, length_minimal_le d,
      minimal_eq_self_iff⟩
  · exact ⟨isMinimal_encode n, value_encode n⟩
  · refine ⟨⟨value d, decode_eq_ok_iff.2 ⟨hlength, hlength, ?_, rfl⟩⟩, ?_⟩
    · exact fun hstrict => absurd hstrict Bool.false_ne_true
    · intro strict limit n hread
      obtain ⟨-, -, -, rfl⟩ := decode_eq_ok_iff.1 hread
      rw [minimal?_eq, minimal_eq_encode]

/-- The number -128 takes two bytes, since its top bit is part of the magnitude. With padding it is
still read, unless it must be minimal. -/
theorem minimal_codec_negative :
    encode (-128) = [0x80, 0x80] ∧ isMinimal [0x80, 0x80] ∧
      decode false 4 [0x80, 0, 0x80] = .ok (-128) ∧
      decode true 4 [0x80, 0, 0x80] = .error (.error .numberMinEncode) ∧
      minimal? [0x80, 0, 0x80] = some [0x80, 0x80] := by
  obtain ⟨-, -, hunique, hencode, hdecode, hread⟩ := minimal_codec
  have hminimal : isMinimal [0x80, 0x80] := rfl
  have hwritten : encode (-128) = [0x80, 0x80] :=
    hunique _ _ (hencode _).1 hminimal ((hencode _).2.trans rfl)
  have hok : decode false 4 [0x80, 0, 0x80] = .ok (-128) := hdecode _ _ _
  refine ⟨hwritten, hminimal, hok, hdecode _ _ _, ?_⟩
  rw [← hwritten]
  exact (hread _ (by decide)).2 _ _ _ hok

end BitcoinScript.Number
