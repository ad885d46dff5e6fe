import BitcoinScript.Bytes.Reader
import Mathlib.Algebra.Group.Nat.Defs

/-!
# Reading back what was written

`Reader.Reads read form a` says that a reader gives the value `a` for its form, whatever stands
behind it, and runs out of bytes on anything that ends inside the form. `Reader.Takes read P` says
the converse: whatever the reader gives, it has taken bytes from the front that `P` holds of. Both
have a rule for one reader behind another, so that they follow the text of a reader.

Counts have several forms, of which the shortest is written. So the bytes that are taken need not be
those that are written for the value, but these are no longer, and the same if they are as long
(`Bytes.NoLonger`). `Reader.Inverts` puts the two directions together: the reader accepts the forms
of valid values, and what it gives is valid.
-/

namespace BitcoinScript

namespace Bytes

/-- The form is no longer than the bytes, and it is the bytes if it is as long. -/
structure NoLonger (form taken : Bytes) : Prop where
  length_le : form.length ≤ taken.length
  eq_of_length : form.length = taken.length → form = taken

namespace NoLonger

theorem refl (form : Bytes) : NoLonger form form := ⟨Nat.le_refl _, fun _ => rfl⟩

theorem of_lt {form taken : Bytes} (h : form.length < taken.length) : NoLonger form taken :=
  ⟨Nat.le_of_lt h, fun hlength => absurd hlength (Nat.ne_of_lt h)⟩

theorem trans {form mid taken : Bytes} (h : NoLonger form mid) (h' : NoLonger mid taken) :
    NoLonger form taken := by
  have hle := h.length_le
  have hle' := h'.length_le
  refine ⟨Nat.le_trans hle hle', fun hlength => ?_⟩
  rw [h.eq_of_length (by omega), h'.eq_of_length (by omega)]

theorem append {form form' taken taken' : Bytes} (h : NoLonger form taken)
    (h' : NoLonger form' taken') : NoLonger (form ++ form') (taken ++ taken') := by
  have hle := h.length_le
  have hle' := h'.length_le
  constructor
  · rw [List.length_append, List.length_append]
    omega
  · intro hlength
    rw [List.length_append, List.length_append] at hlength
    rw [h.eq_of_length (by omega), h'.eq_of_length (by omega)]

end NoLonger

/-- What stands in front of two forms ends inside the first or behind it. -/
theorem prefix_append_cases {front form form' : Bytes} (h : front <+: form ++ form') :
    (front <+: form ∧ front ≠ form) ∨ ∃ front', front = form ++ front' ∧ front' <+: form' := by
  rcases Nat.lt_or_ge front.length form.length with hlt | hge
  · have hle := Nat.le_of_lt hlt
    refine Or.inl ⟨List.prefix_of_prefix_length_le h (List.prefix_append _ _) hle, ?_⟩
    rintro rfl
    exact Nat.lt_irrefl _ hlt
  · obtain ⟨front', rfl⟩ := List.prefix_of_prefix_length_le (List.prefix_append _ _) h hge
    exact Or.inr ⟨front', rfl, (List.prefix_append_right_inj form).1 h⟩

end Bytes

namespace Reader

open Bytes

variable {α β : Type}

theorem bind_of_ok {m : Reader α} {f : α → Reader β} {bytes rest : Bytes} {a : α}
    (h : m bytes = .ok (a, rest)) : (m >>= f) bytes = f a rest := by
  simp only [bind, StateT.bind, h]
  rfl

theorem bind_of_error {m : Reader α} {f : α → Reader β} {bytes : Bytes} {e : Error}
    (h : m bytes = .error e) : (m >>= f) bytes = .error e := by
  simp only [bind, StateT.bind, h]
  rfl

theorem exists_of_bind_eq_ok {m : Reader α} {f : α → Reader β} {bytes rest : Bytes} {b : β}
    (h : (m >>= f) bytes = .ok (b, rest)) :
    ∃ a mid, m bytes = .ok (a, mid) ∧ f a mid = .ok (b, rest) := by
  cases hm : m bytes with
  | error e =>
      rw [bind_of_error hm] at h
      cases h
  | ok next =>
      obtain ⟨a, mid⟩ := next
      rw [bind_of_ok hm] at h
      exact ⟨a, mid, rfl, h⟩

/-! ## From the form to the value -/

/-- The reader gives the value for the form, whatever follows, and a part of the form is too short
for it. -/
structure Reads (read : Reader α) (form : Bytes) (a : α) : Prop where
  append : ∀ rest, read (form ++ rest) = .ok (a, rest)
  truncated : ∀ front, front <+: form → front ≠ form → read front = .error (.input .truncated)

namespace Reads

theorem pure (a : α) : Reads (pure a : Reader α) [] a :=
  ⟨fun _ => rfl, fun _ hfront hne => absurd (List.prefix_nil.1 hfront) hne⟩

theorem bind {m : Reader α} {f : α → Reader β} {form form' : Bytes} {a : α} {b : β}
    (h : Reads m form a) (h' : Reads (f a) form' b) : Reads (m >>= f) (form ++ form') b := by
  constructor
  · intro rest
    rw [List.append_assoc, bind_of_ok (h.append _), h'.append]
  · intro front hfront hne
    rcases prefix_append_cases hfront with ⟨hfirst, hne'⟩ | ⟨front', rfl, hsecond⟩
    · exact bind_of_error (h.truncated front hfirst hne')
    · rw [bind_of_ok (h.append front')]
      exact h'.truncated front' hsecond fun heq => hne (by rw [heq])

end Reads

theorem reads_take {taken : Bytes} {n : Nat} (h : taken.length = n) :
    Reads (take n) taken taken := by
  constructor
  · intro rest
    have hsplit : splitAt? n (taken ++ rest) = some (taken, rest) :=
      splitAt?_eq_some_iff.2 ⟨rfl, h⟩
    rw [take, hsplit]
  · intro front hfront hne
    have hle := hfront.length_le
    have hlength : front.length ≠ taken.length := fun heq => hne (hfront.eq_of_length heq)
    rw [take, splitAt?_eq_none_iff.2 (by omega)]

/-! ## From the value to the form -/

/-- What the reader gives, and the bytes that it takes from the front for it. -/
def Takes (read : Reader α) (P : α → Bytes → Prop) : Prop :=
  ∀ bytes a rest, read bytes = .ok (a, rest) → ∃ taken, bytes = taken ++ rest ∧ P a taken

namespace Takes

theorem mono {read : Reader α} {P Q : α → Bytes → Prop} (h : Takes read P)
    (hQ : ∀ a taken, P a taken → Q a taken) : Takes read Q := by
  intro bytes a rest hread
  obtain ⟨taken, hbytes, hP⟩ := h bytes a rest hread
  exact ⟨taken, hbytes, hQ a taken hP⟩

theorem pure {a : α} {P : α → Bytes → Prop} (h : P a []) : Takes (pure a : Reader α) P := by
  intro bytes b rest hread
  cases hread
  exact ⟨[], rfl, h⟩

theorem bind {m : Reader α} {f : α → Reader β} {P : α → Bytes → Prop} {Q : β → Bytes → Prop}
    (h : Takes m P)
    (hf : ∀ a taken, P a taken → Takes (f a) fun b taken' => Q b (taken ++ taken')) :
    Takes (m >>= f) Q := by
  intro bytes b rest hread
  obtain ⟨a, mid, hm, hrest⟩ := exists_of_bind_eq_ok hread
  obtain ⟨taken, rfl, hP⟩ := h bytes a mid hm
  obtain ⟨taken', rfl, hQ⟩ := hf a taken hP mid b rest hrest
  exact ⟨taken ++ taken', (List.append_assoc _ _ _).symm, hQ⟩

end Takes

theorem takes_take (n : Nat) : Takes (take n) fun a taken => a.length = n ∧ taken = a := by
  intro bytes a rest hread
  rw [take] at hread
  split at hread
  · rename_i p hsplit
    cases hread
    obtain ⟨rfl, hlength⟩ := splitAt?_eq_some_iff.1 hsplit
    exact ⟨a, rfl, hlength, rfl⟩
  · cases hread

/-! ## Both directions -/

/-- The reader gives the valid values for their forms, and nothing else for bytes that are no longer
than the form. -/
structure Inverts (read : Reader α) (valid : α → Prop) (form : α → Bytes) : Prop where
  reads : ∀ a, valid a → Reads read (form a) a
  takes : Takes read fun a taken => valid a ∧ NoLonger (form a) taken

namespace Inverts

variable {m : Reader α} {f : α → Reader β} {v : α → Prop} {valid : β → Prop} {form : α → Bytes}
  {form' : β → Bytes}

/-- One reader behind another. The value of the first is a part of that of the second. -/
theorem bind (part : β → α) (h : Inverts m v form) (hpart : ∀ b, valid b → v (part b))
    (hf : ∀ a, v a → Inverts (f a) (fun b => valid b ∧ part b = a) form') :
    Inverts (m >>= f) valid fun b => form (part b) ++ form' b where
  reads b hb :=
    (h.reads _ (hpart b hb)).bind ((hf _ (hpart b hb)).reads b ⟨hb, rfl⟩)
  takes := h.takes.bind fun a _ ⟨ha, htaken⟩ =>
    (hf a ha).takes.mono fun _ _ ⟨⟨hb, hba⟩, htaken'⟩ =>
      ⟨hb, NoLonger.append (hba ▸ htaken) htaken'⟩

theorem pure {b : β} (h : ∀ b', valid b' ↔ b' = b) :
    Inverts (pure b : Reader β) valid fun _ => [] where
  reads b' hb' := (h b').1 hb' ▸ .pure b'
  takes := .pure ⟨(h b).2 rfl, .refl []⟩

theorem congr (h : Inverts m v form) {valid' : α → Prop} {written : α → Bytes}
    (hvalid : ∀ a, v a ↔ valid' a) (hform : ∀ a, form a = written a) :
    Inverts m valid' written := by
  rwa [← funext hform, ← funext fun a => propext (hvalid a)]

end Inverts

theorem inverts_require {p : Prop} [Decidable p] (e : Error) :
    Inverts (require p e) (fun _ => p) fun _ => [] := by
  rw [require]
  split
  · exact .pure fun _ => ⟨fun _ => rfl, fun _ => ‹p›⟩
  · refine ⟨fun _ h => absurd h ‹¬p›, fun bytes a rest hread => ?_⟩
    cases hread

theorem inverts_take (n : Nat) : Inverts (take n) (·.length = n) fun taken => taken where
  reads _ h := reads_take h
  takes := (takes_take n).mono fun _ _ ⟨hlength, htaken⟩ => ⟨hlength, htaken ▸ .refl _⟩

theorem inverts_natLE (width : Nat) :
    Inverts (natLE width) (· < capacity width) (ofNatLE width) := by
  have hpure : ∀ bytes : Bytes, bytes.length = width →
      Inverts (pure (toNatLE bytes)) (fun n => n < capacity width ∧ ofNatLE width n = bytes)
        fun _ => [] := by
    rintro bytes rfl
    refine .pure fun n => ⟨fun ⟨hn, hbytes⟩ => ?_, ?_⟩
    · rw [← hbytes, toNatLE_ofNatLE, Nat.mod_eq_of_lt hn]
    · rintro rfl
      exact ⟨toNatLE_lt_capacity bytes, ofNatLE_toNatLE bytes⟩
  exact ((inverts_take width).bind (ofNatLE width) (fun n _ => length_ofNatLE width n) hpure).congr
    (fun _ => Iff.rfl) fun _ => List.append_nil _

theorem inverts_uint32 : Inverts uint32 (fun _ => True) ofUInt32 := by
  have hpure : ∀ n : Nat, n < capacity 4 →
      Inverts (pure (UInt32.ofNat n)) (fun m => True ∧ m.toNat = n) fun _ => [] := by
    intro n hn
    refine .pure fun m => ⟨fun ⟨_, hm⟩ => ?_, ?_⟩
    · rw [← hm, UInt32.ofNat_toNat]
    · rintro rfl
      exact ⟨trivial, UInt32.toNat_ofNat_of_lt hn⟩
  exact ((inverts_natLE 4).bind UInt32.toNat (fun n _ => n.toNat_lt) hpure).congr
    (fun _ => Iff.rfl) fun _ => List.append_nil _

theorem inverts_int64 : Inverts int64 (fun _ => True) ofInt64 := by
  have hpure : ∀ n : Nat, n < capacity 8 →
      Inverts (pure (UInt64.ofNat n).toInt64) (fun m => True ∧ m.toUInt64.toNat = n)
        fun _ => [] := by
    intro n hn
    refine .pure fun m => ⟨fun ⟨_, hm⟩ => ?_, ?_⟩
    · rw [← hm, UInt64.ofNat_toNat]
      rfl
    · rintro rfl
      exact ⟨trivial, UInt64.toNat_ofNat_of_lt hn⟩
  exact ((inverts_natLE 8).bind (·.toUInt64.toNat) (fun n _ => n.toUInt64.toNat_lt) hpure).congr
    (fun _ => Iff.rfl) fun _ => List.append_nil _

theorem digest_of_splitAt? {size : Nat} {bytes rest : Bytes} {d : Digest size}
    (h : splitAt? size bytes = some (d.bytes, rest)) : digest size bytes = .ok (d, rest) := by
  rw [digest]
  split
  · rename_i taken rest' hsplit
    rw [h] at hsplit
    cases hsplit
    rfl
  · rename_i hnone
    rw [h] at hnone
    cases hnone

theorem digest_of_none {size : Nat} {bytes : Bytes} (h : splitAt? size bytes = none) :
    digest size bytes = .error (.input .truncated) := by
  rw [digest]
  split
  · rename_i hsome
    rw [h] at hsome
    cases hsome
  · rfl

theorem inverts_digest (size : Nat) : Inverts (digest size) (fun _ => True) (·.bytes) where
  reads d _ := by
    constructor
    · exact fun rest => digest_of_splitAt? (splitAt?_eq_some_iff.2 ⟨rfl, d.length_bytes⟩)
    · intro front hfront hne
      have hle := hfront.length_le
      have hlength : front.length ≠ d.bytes.length := fun heq => hne (hfront.eq_of_length heq)
      rw [d.length_bytes] at hle hlength
      exact digest_of_none (splitAt?_eq_none_iff.2 (by omega))
  takes := by
    intro bytes d rest hread
    cases hsplit : splitAt? size bytes with
    | none =>
        rw [digest_of_none hsplit] at hread
        cases hread
    | some p =>
        obtain ⟨taken, rest'⟩ := p
        obtain ⟨rfl, hlength⟩ := splitAt?_eq_some_iff.1 hsplit
        rw [digest_of_splitAt? (d := ⟨taken, hlength⟩) hsplit] at hread
        cases hread
        exact ⟨taken, rfl, trivial, .refl taken⟩

/-! ## Counts and lists -/

theorem inverts_marker : Inverts (natLE 1) (· < 256) fun n => [UInt8.ofNat n] :=
  inverts_natLE 1

/-- A count is read with the marker that it was written with. -/
theorem reads_count {n : Nat} (h : n < 2 ^ 64) : Reads count (ofCount n) n := by
  rw [ofCount]
  split
  · have hmarker := inverts_marker.reads n (by omega)
    have hcount : Reads (if n = 0xff then natLE 8 else if n = 0xfe then natLE 4
        else if n = 0xfd then natLE 2 else pure n) [] n := by
      rw [if_neg (by omega), if_neg (by omega), if_neg (by omega)]
      exact .pure n
    exact hmarker.bind hcount
  · split
    · have hn := (inverts_natLE 2).reads n (by simp only [capacity]; omega)
      exact (inverts_marker.reads 0xfd (by decide)).bind hn
    · split
      · have hn := (inverts_natLE 4).reads n (by simp only [capacity]; omega)
        exact (inverts_marker.reads 0xfe (by decide)).bind hn
      · have hn := (inverts_natLE 8).reads n h
        exact (inverts_marker.reads 0xff (by decide)).bind hn

/-- A number that fits into some bytes is counted in no more of them behind a marker, and in fewer
if it fits behind a shorter marker. -/
theorem noLonger_ofCount {n marker width : Nat}
    (h : marker = 0xfd ∧ width = 2 ∨ marker = 0xfe ∧ width = 4 ∨ marker = 0xff ∧ width = 8)
    (hn : n < capacity width) :
    NoLonger (ofCount n) (UInt8.ofNat marker :: ofNatLE width n) := by
  rcases h with ⟨rfl, rfl⟩ | ⟨rfl, rfl⟩ | ⟨rfl, rfl⟩
  · have hmax : n ≤ 0xffff := Nat.le_of_lt_succ hn
    rw [ofCount, if_pos hmax]
    split
    · exact .of_lt (by simp)
    · exact .refl _
  · have hmax : n ≤ 0xffffffff := Nat.le_of_lt_succ hn
    rw [ofCount, if_pos hmax]
    split
    · exact .of_lt (by simp)
    · split
      · exact .of_lt (by simp)
      · exact .refl _
  · rw [ofCount]
    split
    · exact .of_lt (by simp)
    · split
      · exact .of_lt (by simp)
      · split
        · exact .of_lt (by simp)
        · exact .refl _

/-- The bytes of a count that was read are at least as many as those that are written for it. -/
theorem takes_count : Takes count fun n taken => n < 2 ^ 64 ∧ NoLonger (ofCount n) taken := by
  refine inverts_marker.takes.bind fun marker taken ⟨hmarker, htaken⟩ => ?_
  have hbehind : ∀ width, marker = 0xfd ∧ width = 2 ∨ marker = 0xfe ∧ width = 4 ∨
      marker = 0xff ∧ width = 8 → capacity width ≤ 2 ^ 64 →
      Takes (natLE width) fun n taken' => n < 2 ^ 64 ∧ NoLonger (ofCount n) (taken ++ taken') :=
    fun width h hwidth => (inverts_natLE width).takes.mono fun n taken' ⟨hn, htaken'⟩ =>
      ⟨Nat.lt_of_lt_of_le hn hwidth, (noLonger_ofCount h hn).trans (htaken.append htaken')⟩
  split
  · exact hbehind 8 (by omega) (by decide)
  · split
    · exact hbehind 4 (by omega) (by decide)
    · split
      · exact hbehind 2 (by omega) (by decide)
      · refine .pure ⟨by omega, ?_⟩
        rw [ofCount, if_pos (by omega), List.append_nil]
        exact htaken

theorem inverts_count : Inverts count (· < 2 ^ 64) ofCount := ⟨fun _ => reads_count, takes_count⟩

theorem reads_list {item : Reader α} {form : α → Bytes} {as : List α}
    (h : ∀ a ∈ as, Reads item (form a) a) : Reads (list item as.length) (as.flatMap form) as := by
  induction as with
  | nil => exact .pure []
  | cons a as ih =>
      rw [List.forall_mem_cons] at h
      have hrest : Reads (list item as.length >>= fun as => pure (a :: as))
          (as.flatMap form ++ []) (a :: as) := (ih h.2).bind (.pure _)
      rw [List.append_nil] at hrest
      rw [List.flatMap_cons]
      exact h.1.bind hrest

theorem takes_list {item : Reader α} {valid : α → Prop} {form : α → Bytes}
    (h : Takes item fun a taken => valid a ∧ NoLonger (form a) taken) (n : Nat) :
    Takes (list item n) fun as taken =>
      (as.length = n ∧ ∀ a ∈ as, valid a) ∧ NoLonger (as.flatMap form) taken := by
  induction n with
  | zero => exact .pure ⟨⟨rfl, fun _ hmem => nomatch hmem⟩, .refl []⟩
  | succ n ih =>
      refine h.bind fun a taken ⟨ha, htaken⟩ => ih.bind fun _ taken' ⟨⟨hn, has⟩, htaken'⟩ => ?_
      refine .pure ⟨⟨congrArg Nat.succ hn, List.forall_mem_cons.2 ⟨ha, has⟩⟩, ?_⟩
      rw [List.append_nil]
      exact htaken.append htaken'

theorem inverts_list {item : Reader α} {valid : α → Prop} {form : α → Bytes}
    (h : Inverts item valid form) (n : Nat) :
    Inverts (list item n) (fun as => as.length = n ∧ ∀ a ∈ as, valid a) (·.flatMap form) where
  reads _ has := has.1 ▸ reads_list fun a ha => h.reads a (has.2 a ha)
  takes := takes_list h.takes n

end Reader

end BitcoinScript
