import BitcoinScript.Proofs.Bytes.Reading

/-!
# Delimited forms

A written form is *delimited* if it can be told from whatever follows it: two byte strings that
start with forms and agree start with the same form, and what follows agrees too. Forms of one
length are delimited if different values have different forms, and so is what a reader gives back
whatever stands behind it. Forms written one after the other stay delimited, and so does a list of
them behind its length.

Lengths are written in at most 64 bits, so a form that starts with one is delimited for values whose
lengths are below `2 ^ 64`.
-/

namespace BitcoinScript

namespace Bytes

variable {α : Type} {valid : α → Prop} {form : α → Bytes}

/-- The forms of valid values can be told from whatever follows them. -/
def Delimited (valid : α → Prop) (form : α → Bytes) : Prop :=
  ∀ ⦃a b : α⦄, valid a → valid b → ∀ ⦃rest rest' : Bytes⦄,
    form a ++ rest = form b ++ rest' → a = b ∧ rest = rest'

theorem Delimited.eq_of_eq (h : Delimited valid form) {a b : α} (ha : valid a) (hb : valid b)
    (heq : form a = form b) : a = b :=
  (@h a b ha hb [] [] (by rw [heq])).1

theorem delimited_of_length {length : Nat} (hlen : ∀ a, (form a).length = length)
    (hinj : ∀ a b, form a = form b → a = b) : Delimited (fun _ => True) form := by
  intro a b _ _ rest rest' h
  obtain ⟨hform, hrest⟩ := List.append_inj h ((hlen a).trans (hlen b).symm)
  exact ⟨hinj a b hform, hrest⟩

/-- What can be read back is delimited. -/
theorem delimited_of_read (read : Reader α)
    (h : ∀ a, valid a → ∀ rest, read (form a ++ rest) = .ok (a, rest)) : Delimited valid form := by
  intro a b ha hb rest rest' heq
  have hread := h a ha rest
  rw [heq, h b hb rest'] at hread
  simp only [Except.ok.injEq, Prod.mk.injEq] at hread
  exact ⟨hread.1.symm, hread.2.symm⟩

theorem delimited_ofCount : Delimited (· < 2 ^ 64) ofCount :=
  delimited_of_read Reader.count fun _ h => (Reader.reads_count h).append

theorem ofNatLE_inj (width : Nat) {n m : Nat} (hn : n < capacity width) (hm : m < capacity width)
    (h : ofNatLE width n = ofNatLE width m) : n = m := by
  have hread := congrArg toNatLE h
  rwa [toNatLE_ofNatLE, toNatLE_ofNatLE, Nat.mod_eq_of_lt hn, Nat.mod_eq_of_lt hm] at hread

theorem ofUInt32_inj {n m : UInt32} (h : ofUInt32 n = ofUInt32 m) : n = m :=
  UInt32.toNat_inj.1 (ofNatLE_inj 4 n.toNat_lt m.toNat_lt h)

theorem ofInt64_inj {n m : Int64} (h : ofInt64 n = ofInt64 m) : n = m :=
  congrArg Int64.ofUInt64
    (UInt64.toNat_inj.1 (ofNatLE_inj 8 n.toUInt64.toNat_lt m.toUInt64.toNat_lt h))

theorem delimited_ofUInt32 : Delimited (fun _ => True) ofUInt32 :=
  delimited_of_length length_ofUInt32 fun _ _ => ofUInt32_inj

theorem delimited_ofInt64 : Delimited (fun _ => True) ofInt64 :=
  delimited_of_length length_ofInt64 fun _ _ => ofInt64_inj

/-- Forms one after the other, as many on both sides. -/
theorem Delimited.flatMap (h : Delimited valid form) {as bs : List α} {rest rest' : Bytes}
    (ha : ∀ a ∈ as, valid a) (hb : ∀ b ∈ bs, valid b) (hlen : as.length = bs.length)
    (heq : as.flatMap form ++ rest = bs.flatMap form ++ rest') : as = bs ∧ rest = rest' := by
  induction as generalizing bs with
  | nil =>
      obtain rfl := List.length_eq_zero_iff.1 hlen.symm
      exact ⟨rfl, heq⟩
  | cons a as ih =>
      cases bs with
      | nil => exact nomatch hlen
      | cons b bs =>
          rw [List.flatMap_cons, List.flatMap_cons, List.append_assoc, List.append_assoc] at heq
          rw [List.forall_mem_cons] at ha hb
          obtain ⟨rfl, htail⟩ := h ha.1 hb.1 heq
          obtain ⟨rfl, hrest⟩ := ih ha.2 hb.2 (Nat.succ.inj hlen) htail
          exact ⟨rfl, hrest⟩

/-- Forms one after the other up to the end, if none of them is empty. -/
theorem Delimited.flatMap_inj (h : Delimited valid form) (hne : ∀ a, form a ≠ []) {as bs : List α}
    (ha : ∀ a ∈ as, valid a) (hb : ∀ b ∈ bs, valid b)
    (heq : as.flatMap form = bs.flatMap form) : as = bs := by
  induction as generalizing bs with
  | nil =>
      cases bs with
      | nil => rfl
      | cons b bs => exact absurd (List.append_eq_nil_iff.1 heq.symm).1 (hne b)
  | cons a as ih =>
      cases bs with
      | nil => exact absurd (List.append_eq_nil_iff.1 heq).1 (hne a)
      | cons b bs =>
          rw [List.forall_mem_cons] at ha hb
          obtain ⟨rfl, htail⟩ := h ha.1 hb.1 heq
          rw [ih ha.2 hb.2 htail]

end Bytes

end BitcoinScript
