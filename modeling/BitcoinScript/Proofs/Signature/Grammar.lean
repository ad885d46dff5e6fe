import BitcoinScript.Proofs.Machine.Values
import BitcoinScript.Proofs.Secp256k1.Der

/-!
# The grammar of strict DER

The test for strict DER finds its way through a signature by the lengths that it reads there.
`Signature.IsStrictForm` says what a strict signature looks like without reading any: it holds two
numbers, each in the shortest form that is not negative, with tags and lengths around them, and the
hash type. The test never reads outside the signature, it accepts the strict forms of at most 73
bytes and nothing else, and such a form has one reading only.
-/

namespace BitcoinScript

namespace Secp256k1.Signature

/-- Big-endian digits of a number, the first of which has a clear top bit. -/
structure IsInteger (n : Nat) (digits : Bytes) : Prop where
  toNatBE_eq : Bytes.toNatBE digits = n
  head_lt : ∃ b bs, digits = b :: bs ∧ b < 0x80

/-- Such digits of a number, of which there are no fewer. -/
structure IsShortestInteger (n : Nat) (digits : Bytes) : Prop extends IsInteger n digits where
  length_le : ∀ {other : Bytes}, IsInteger n other → digits.length ≤ other.length

/-- A clear top bit bounds the number by the number of its digits. -/
theorem IsInteger.two_mul_lt {n : Nat} {digits : Bytes} (h : IsInteger n digits) :
    2 * n < Bytes.capacity digits.length := by
  obtain ⟨rfl, b, bs, rfl, hb⟩ := h
  have hhead : Bytes.capacity bs.length * b.toNat ≤ Bytes.capacity bs.length * 127 :=
    Nat.mul_le_mul_left _ (Nat.le_of_lt_succ (UInt8.lt_iff_toNat_lt.1 hb))
  have hbs := Bytes.toNatBE_lt_capacity bs
  rw [Bytes.toNatBE_cons, List.length_cons, Bytes.capacity_succ]
  omega

theorem IsStrictInteger.isInteger {digits : Bytes} (h : IsStrictInteger digits) :
    IsInteger (Bytes.toNatBE digits) digits := by
  refine ⟨rfl, ?_⟩
  match digits, h with
  | [b], h => exact ⟨b, [], rfl, h⟩
  | b :: b' :: bs, h => exact ⟨b, b' :: bs, rfl, h.1⟩

/-- A number in front of which no zero is needless is too large for fewer digits. -/
theorem IsStrictInteger.capacity_le {b b' : UInt8} {bs : Bytes}
    (h : IsStrictInteger (b :: b' :: bs)) :
    Bytes.capacity (b' :: bs).length ≤ 2 * Bytes.toNatBE (b :: b' :: bs) := by
  by_cases hzero : b = 0
  · have hb' : 128 ≤ b'.toNat := UInt8.le_iff_toNat_le.1 (h.2 hzero)
    have hhead : Bytes.capacity bs.length * 128 ≤ Bytes.capacity bs.length * b'.toNat :=
      Nat.mul_le_mul_left _ hb'
    rw [hzero, Bytes.toNatBE_zero_cons, Bytes.toNatBE_cons, List.length_cons, Bytes.capacity_succ]
    omega
  · have hb : 1 ≤ b.toNat := Nat.pos_of_ne_zero fun h => hzero (UInt8.toNat_inj.1 h)
    have hhead := Nat.mul_le_mul_left (Bytes.capacity (b' :: bs).length) hb
    rw [Bytes.toNatBE_cons]
    omega

/-- The test for integers accepts the shortest ones. -/
theorem isStrictInteger_iff_isShortestInteger {digits : Bytes} :
    IsStrictInteger digits ↔ IsShortestInteger (Bytes.toNatBE digits) digits := by
  constructor
  · intro h
    refine ⟨h.isInteger, fun {other} hother => Nat.not_lt.1 fun hlt => ?_⟩
    have hbound := hother.two_mul_lt
    obtain ⟨-, c, cs, rfl, -⟩ := hother
    match digits, h with
    | [b], _ => exact absurd (Nat.lt_one_iff.1 hlt) (Nat.succ_ne_zero _)
    | b :: b' :: bs, h =>
        have hle : Bytes.capacity (c :: cs).length ≤ Bytes.capacity (b' :: bs).length :=
          Bytes.capacity_le (Nat.le_of_lt_succ hlt)
        exact absurd (Nat.lt_of_lt_of_le hbound hle) (Nat.not_lt.2 h.capacity_le)
  · rintro ⟨⟨-, b, bs, rfl, hb⟩, hshortest⟩
    cases bs with
    | nil => exact hb
    | cons b' bs =>
        refine ⟨hb, fun hzero => UInt8.not_lt.1 fun hb' => ?_⟩
        -- without the zero the digits are still those of an integer
        have hrest : IsInteger (Bytes.toNatBE (b :: b' :: bs)) (b' :: bs) :=
          ⟨by rw [hzero, Bytes.toNatBE_zero_cons], b', bs, rfl, hb'⟩
        exact absurd (hshortest hrest) (Nat.not_le.2 (Nat.lt_succ_self _))

theorem IsShortestInteger.isStrictInteger {n : Nat} {digits : Bytes}
    (h : IsShortestInteger n digits) : IsStrictInteger digits := by
  obtain rfl := h.toNatBE_eq
  exact isStrictInteger_iff_isShortestInteger.2 h

/-- Zero takes one digit. -/
theorem isShortestInteger_zero_iff {digits : Bytes} :
    IsShortestInteger 0 digits ↔ digits = [0] := by
  have hdigit : IsStrictInteger [0] := show (0 : UInt8) < 0x80 by decide
  have hzero : IsShortestInteger 0 [0] := isStrictInteger_iff_isShortestInteger.1 hdigit
  refine ⟨fun h => ?_, fun h => h ▸ hzero⟩
  have hstrict := h.isStrictInteger
  have hvalue := h.toNatBE_eq
  match digits, hstrict with
  | [b], _ =>
      rw [Bytes.toNatBE_cons, Bytes.toNatBE_nil, List.length_nil, Bytes.capacity_zero] at hvalue
      rw [UInt8.toNat_inj.1 (show b.toNat = (0 : UInt8).toNat by rw [UInt8.toNat_zero]; omega)]
  | b :: b' :: bs, hstrict =>
      have hlarge := hstrict.capacity_le
      have hpos := Bytes.toNatBE_lt_capacity (b' :: bs)
      omega

end Secp256k1.Signature

namespace Signature

open Secp256k1.Signature

/-- Two integers with their tags and lengths, behind the tag and the length of both, and a hash
type. -/
def strictForm (r s : Bytes) (t : UInt8) : Bytes :=
  [0x30, UInt8.ofNat (r.length + s.length + 4)] ++
    ([2, UInt8.ofNat r.length] ++ r) ++ ([2, UInt8.ofNat s.length] ++ s) ++ [t]

/-- The strict form of two numbers with a hash type. -/
def IsStrictForm (r s : Nat) (t : UInt8) (sig : Bytes) : Prop :=
  ∃ digitsR digitsS, IsShortestInteger r digitsR ∧ IsShortestInteger s digitsS ∧
    sig = strictForm digitsR digitsS t

theorem length_strictForm (r s : Bytes) (t : UInt8) :
    (strictForm r s t).length = r.length + s.length + 7 := by
  simp only [strictForm, List.length_append, List.length_cons, List.length_nil]
  omega

/-- The form begins with tag and length of both, and the first integer. -/
theorem strictForm_eq (r s : Bytes) (t : UInt8) :
    strictForm r s t = 0x30 :: UInt8.ofNat (r.length + s.length + 4) :: 2 ::
      UInt8.ofNat r.length :: (r ++ (2 :: UInt8.ofNat s.length :: (s ++ [t]))) := by
  simp only [strictForm, List.append_assoc, List.cons_append, List.nil_append]

/-! ## What the test reads -/

/-- A test that has not ended early. -/
theorem unless_eq_some_true_iff {p : Prop} [Decidable p] {x : Option Bool} :
    (if p then pure false else x) = some true ↔ ¬p ∧ x = some true := by
  by_cases hp : p
  · simp [hp]
  · simp [hp]

/-- The tags and lengths of two integers and of both together, where the test finds them. -/
structure HasFrame (sig : Bytes) (total lengthR lengthS : UInt8) : Prop where
  tag_at : sig[0]? = some 0x30
  total_at : sig[1]? = some total
  tagR_at : sig[2]? = some 2
  lengthR_at : sig[3]? = some lengthR
  tagS_at : sig[4 + lengthR.toNat]? = some 2
  lengthS_at : sig[5 + lengthR.toNat]? = some lengthS
  total_eq : total.toNat = sig.length - 3
  length_eq : lengthR.toNat + lengthS.toNat + 7 = sig.length

/-- What the test has found when it accepts a signature. -/
theorem exists_hasFrame_of_strictDer? {sig : Bytes} (h : strictDer? sig = some true) :
    ∃ total lengthR lengthS, sig.length ≤ 73 ∧ HasFrame sig total lengthR lengthS ∧
      strictInteger? sig 4 lengthR.toNat = some true ∧
      strictInteger? sig (6 + lengthR.toNat) lengthS.toNat = some true := by
  obtain ⟨hsize, h⟩ := unless_eq_some_true_iff.1 h
  obtain ⟨tag, hfirst, h⟩ := Option.bind_eq_some_iff.1 h
  obtain ⟨htag, h⟩ := unless_eq_some_true_iff.1 h
  obtain ⟨total, hsecond, h⟩ := Option.bind_eq_some_iff.1 h
  obtain ⟨htotal, h⟩ := unless_eq_some_true_iff.1 h
  obtain ⟨lengthR, hlengthR, h⟩ := Option.bind_eq_some_iff.1 h
  obtain ⟨-, h⟩ := unless_eq_some_true_iff.1 h
  obtain ⟨lengthS, hlengthS, h⟩ := Option.bind_eq_some_iff.1 h
  obtain ⟨hlength, h⟩ := unless_eq_some_true_iff.1 h
  obtain ⟨tagR, hthird, h⟩ := Option.bind_eq_some_iff.1 h
  obtain ⟨htagR, h⟩ := unless_eq_some_true_iff.1 h
  obtain ⟨strictR, hstrictR, h⟩ := Option.bind_eq_some_iff.1 h
  obtain ⟨hacceptsR, h⟩ := unless_eq_some_true_iff.1 h
  obtain ⟨tagS, hbehind, h⟩ := Option.bind_eq_some_iff.1 h
  obtain ⟨htagS, hstrictS⟩ := unless_eq_some_true_iff.1 h
  rw [Classical.not_not] at htag htotal hlength htagR htagS
  rw [Bool.not_eq_true', Bool.not_eq_false] at hacceptsR
  subst htag htagR htagS hacceptsR
  exact ⟨total, lengthR, lengthS, by omega,
    ⟨hfirst, hsecond, hthird, hlengthR, hbehind, hlengthS, htotal, hlength⟩, hstrictR, hstrictS⟩

theorem exists_append_of_le {s : Bytes} {n : Nat} (h : n ≤ s.length) :
    ∃ front back, s = front ++ back ∧ front.length = n :=
  ⟨s.take n, s.drop n, (List.take_append_drop n s).symm, List.length_take_of_le h⟩

/-- Tags and lengths cut the signature into two integers and a last byte. -/
theorem HasFrame.eq_append {sig : Bytes} {total lengthR lengthS : UInt8}
    (h : HasFrame sig total lengthR lengthS) :
    ∃ (r s : Bytes) (t : UInt8), r.length = lengthR.toNat ∧ s.length = lengthS.toNat ∧
      sig = 0x30 :: total :: 2 :: lengthR :: (r ++ (2 :: lengthS :: (s ++ [t]))) := by
  have hlength := h.length_eq
  have hlong : 4 ≤ sig.length := by omega
  match sig, hlong with
  | b₀ :: b₁ :: b₂ :: b₃ :: body, _ =>
    obtain rfl := Option.some.inj h.tag_at
    obtain rfl := Option.some.inj h.total_at
    obtain rfl := Option.some.inj h.tagR_at
    obtain rfl := Option.some.inj h.lengthR_at
    simp only [List.length_cons] at hlength
    obtain ⟨r, behind, rfl, hr⟩ := exists_append_of_le (show b₃.toNat ≤ body.length by omega)
    have hat (k : Nat) : (0x30 :: b₁ :: 2 :: b₃ :: (r ++ behind))[4 + b₃.toNat + k]? = behind[k]? :=
      getElem?_append_of_length (0x30 :: b₁ :: 2 :: b₃ :: r) behind
        (by simp only [List.length_cons]; omega)
    rw [List.length_append] at hlength
    have htwo : 2 ≤ behind.length := by omega
    match behind, htwo with
    | a₀ :: a₁ :: rest, _ =>
      obtain rfl := Option.some.inj ((hat 0).symm.trans h.tagS_at)
      have hlengthS := h.lengthS_at
      rw [show 5 + b₃.toNat = 4 + b₃.toNat + 1 by omega] at hlengthS
      obtain rfl := Option.some.inj ((hat 1).symm.trans hlengthS)
      simp only [List.length_cons] at hlength
      obtain ⟨s, last, rfl, hs⟩ := exists_append_of_le (show a₁.toNat ≤ rest.length by omega)
      rw [List.length_append] at hlength
      obtain ⟨t, rfl⟩ := List.length_eq_one_iff.1 (show last.length = 1 by omega)
      exact ⟨r, s, t, hr, hs, rfl⟩

/-- What the test accepts has the form of two integers that it accepts. -/
theorem exists_strictForm_of_strictDer? {sig : Bytes} (h : strictDer? sig = some true) :
    ∃ r s t, IsStrictInteger r ∧ IsStrictInteger s ∧ sig = strictForm r s t := by
  obtain ⟨total, lengthR, lengthS, -, hframe, hR, hS⟩ := exists_hasFrame_of_strictDer? h
  have htotal := hframe.total_eq
  have hlength := hframe.length_eq
  obtain ⟨r, s, t, hr, hs, rfl⟩ := hframe.eq_append
  refine ⟨r, s, t, ?_, ?_, ?_⟩
  · rw [← hr] at hR
    exact (strictInteger?_append_iff [0x30, total, 2, lengthR] r _ rfl).1 hR
  · have hstart : 6 + lengthR.toNat =
        (0x30 :: total :: 2 :: lengthR :: (r ++ [2, lengthS])).length := by
      simp only [List.length_cons, List.length_append, List.length_nil]
      omega
    have hsplit : 0x30 :: total :: 2 :: lengthR :: (r ++ (2 :: lengthS :: (s ++ [t]))) =
        (0x30 :: total :: 2 :: lengthR :: (r ++ [2, lengthS])) ++ (s ++ [t]) := by
      simp only [List.cons_append, List.append_assoc, List.nil_append]
    rw [← hs, hsplit] at hS
    exact (strictInteger?_append_iff _ s [t] hstart).1 hS
  · have hsum : r.length + s.length + 4 = total.toNat := by omega
    rw [strictForm_eq, hsum, hr, hs, UInt8.ofNat_toNat, UInt8.ofNat_toNat, UInt8.ofNat_toNat]

/-- The test accepts the strict forms of integers that are short enough, and nothing else. -/
theorem strictDer?_eq_some_true_iff {sig : Bytes} :
    strictDer? sig = some true ↔ sig.length ≤ 73 ∧ ∃ r s t, IsStrictForm r s t sig := by
  constructor
  · intro h
    obtain ⟨-, -, -, hshort, -⟩ := exists_hasFrame_of_strictDer? h
    obtain ⟨r, s, t, hr, hs, rfl⟩ := exists_strictForm_of_strictDer? h
    exact ⟨hshort, _, _, t, r, s, isStrictInteger_iff_isShortestInteger.1 hr,
      isStrictInteger_iff_isShortestInteger.1 hs, rfl⟩
  · rintro ⟨hshort, _, _, t, r, s, hr, hs, rfl⟩
    rw [length_strictForm] at hshort
    rw [strictForm_eq]
    exact strictDer?_integers hr.isStrictInteger hs.isStrictInteger (by omega) t

theorem isStrictDer_iff {sig : Bytes} :
    isStrictDer sig = true ↔ sig.length ≤ 73 ∧ ∃ r s t, IsStrictForm r s t sig := by
  rw [← strictDer?_eq_some_true_iff, isStrictDer]
  cases strictDer? sig with
  | none => simp
  | some strict => exact Option.some_inj.symm

/-- Forms of at most 73 bytes are read in one way only. -/
theorem strictForm_inj {r s r' s' : Bytes} {t t' : UInt8} (hshort : (strictForm r s t).length ≤ 73)
    (h : strictForm r s t = strictForm r' s' t') : r = r' ∧ s = s' ∧ t = t' := by
  have hlength := congrArg List.length h
  rw [length_strictForm, length_strictForm] at hlength
  rw [length_strictForm] at hshort
  rw [strictForm_eq, strictForm_eq] at h
  simp only [List.cons.injEq, true_and] at h
  obtain ⟨-, hbyte, hbody⟩ := h
  have hr : r.length = r'.length := by
    have hnat := congrArg UInt8.toNat hbyte
    rwa [toNat_ofNat_of_lt (by omega), toNat_ofNat_of_lt (by omega)] at hnat
  obtain ⟨rfl, hbehind⟩ := List.append_inj hbody hr
  simp only [List.cons.injEq, true_and] at hbehind
  obtain ⟨rfl, hlast⟩ := List.append_inj hbehind.2 (by omega)
  exact ⟨rfl, rfl, List.singleton_inj.1 hlast⟩

/-- The test for strict DER always has an answer. It accepts a signature if that has at most 73
bytes and is the strict form of two numbers with a hash type, and then these three are unique. -/
theorem strictDer?_grammar (sig : Bytes) :
    ∃ strict, strictDer? sig = some strict ∧
      (strict = true ↔ sig.length ≤ 73 ∧ ∃ r s t, IsStrictForm r s t sig) ∧
      ∀ r s t r' s' t', strict = true → IsStrictForm r s t sig → IsStrictForm r' s' t' sig →
        r = r' ∧ s = s' ∧ t = t' := by
  obtain ⟨strict, hstrict⟩ := Option.isSome_iff_exists.1 (isSome_strictDer? sig)
  have hiff : strict = true ↔ sig.length ≤ 73 ∧ ∃ r s t, IsStrictForm r s t sig := by
    rw [← strictDer?_eq_some_true_iff, hstrict, Option.some.injEq]
  refine ⟨strict, hstrict, hiff, ?_⟩
  rintro r s t r' s' t' htrue ⟨digitsR, digitsS, hr, hs, rfl⟩ ⟨digitsR', digitsS', hr', hs', heq⟩
  obtain ⟨rfl, rfl, rfl⟩ := strictForm_inj (hiff.1 htrue).1 heq
  exact ⟨hr.toNatBE_eq.symm.trans hr'.toNatBE_eq, hs.toNatBE_eq.symm.trans hs'.toNatBE_eq, rfl⟩

/-- The numbers 0 and 128: zero has one digit, and 128 two because of the top bit. With the zero in
front of a smaller number the form is not strict any more. -/
theorem strictDer?_grammar_padding :
    let sig : Bytes := [0x30, 7, 2, 1, 0, 2, 2, 0, 0x80, 1]
    let padded : Bytes := [0x30, 7, 2, 1, 0, 2, 2, 0, 0x7f, 1]
    (strictDer? sig = some true ∧ IsStrictForm 0 128 1 sig ∧
        ∀ r s t, IsStrictForm r s t sig → r = 0 ∧ s = 128 ∧ t = 1) ∧
      ¬∃ r s t, IsStrictForm r s t padded := by
  intro sig padded
  have haccepts : strictDer? sig = some true := by decide
  have hrefuses : strictDer? padded = some false := by decide
  have hform : IsStrictForm 0 128 1 sig := by
    have hs : IsStrictInteger [0, 0x80] := ⟨by decide, fun _ => by decide⟩
    exact ⟨[0], [0, 0x80], isShortestInteger_zero_iff.2 rfl,
      isStrictInteger_iff_isShortestInteger.1 hs, rfl⟩
  obtain ⟨strict, hstrict, -, hunique⟩ := strictDer?_grammar sig
  obtain rfl := Option.some.inj (haccepts.symm.trans hstrict)
  refine ⟨⟨haccepts, hform, fun r s t h => hunique r s t 0 128 1 rfl h hform⟩, fun hexists => ?_⟩
  obtain ⟨strict, hstrict, hiff, -⟩ := strictDer?_grammar padded
  obtain rfl := Option.some.inj (hrefuses.symm.trans hstrict)
  exact Bool.false_ne_true (hiff.2 ⟨by decide, hexists⟩)

end Signature

end BitcoinScript
