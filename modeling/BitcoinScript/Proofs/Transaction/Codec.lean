import BitcoinScript.Proofs.Bytes.Reading
import BitcoinScript.Proofs.Transaction.Wire

/-!
# Reading transactions

A transaction whose scripts and lists keep to the caps of messages is read back from its wire form,
whatever stands behind it, and from no part of the wire form. Conversely a transaction that was read
keeps to the caps, and its wire form is no longer than the bytes that it was read from. It is these
bytes exactly if it is as long: otherwise one of the counts was not in its shortest form.
-/

namespace BitcoinScript

open Reader

/-- A script behind its length, which is capped. -/
theorem Script.inverts_readCounted (tooLong : Nat → DataError) :
    Inverts (readCounted tooLong) (·.length ≤ maxMessageScript) counted := by
  have hcap : maxMessageScript < 2 ^ 64 := by decide
  have htake : ∀ n, n < 2 ^ 64 →
      Inverts (require (n ≤ maxMessageScript) (.badData (tooLong n)) >>= fun _ => take n)
        (fun s : Script => s.length ≤ maxMessageScript ∧ s.length = n) fun s => [] ++ s := by
    intro n _
    refine (inverts_require _).bind (fun _ => ()) ?_ fun _ hn => (inverts_take n).congr ?_ ?_
    · rintro s ⟨hs, rfl⟩
      exact hs
    · exact fun s => ⟨fun h => ⟨⟨h ▸ hn, h⟩, rfl⟩, fun h => h.1.2⟩
    · exact fun _ => rfl
  exact inverts_count.bind List.length (fun _ h => Nat.lt_of_le_of_lt h hcap) htake

/-- A list behind its length, which is capped. -/
theorem Reader.inverts_counted {α : Type} {item : Reader α} {valid : α → Prop} {form : α → Bytes}
    (h : Inverts item valid form) (tooMany : Nat → DataError) :
    Inverts (counted item tooMany)
      (fun as => as.length ≤ maxMessageCount ∧ ∀ a ∈ as, valid a) (Bytes.ofList form) := by
  have hcap : maxMessageCount < 2 ^ 64 := by decide
  have hlist : ∀ n, n < 2 ^ 64 →
      Inverts (require (n ≤ maxMessageCount) (.badData (tooMany n)) >>= fun _ => list item n)
        (fun as => (as.length ≤ maxMessageCount ∧ ∀ a ∈ as, valid a) ∧ as.length = n)
        fun as => [] ++ as.flatMap form := by
    intro n _
    refine (inverts_require _).bind (fun _ => ()) ?_ fun _ hn => (inverts_list h n).congr ?_ ?_
    · rintro as ⟨⟨has, -⟩, rfl⟩
      exact has
    · exact fun as => ⟨fun has => ⟨⟨⟨has.1 ▸ hn, has.2⟩, has.1⟩, rfl⟩,
        fun has => ⟨has.1.2, has.1.1.2⟩⟩
    · exact fun _ => rfl
  exact inverts_count.bind List.length (fun _ has => Nat.lt_of_le_of_lt has.1 hcap) hlist

theorem OutPoint.inverts_read : Inverts read (fun _ => True) bytes := by
  refine Inverts.congr ((inverts_digest 32).bind hash (fun _ h => h) fun hash _ =>
    inverts_uint32.bind index (fun _ _ => trivial) fun index _ => .pure fun p => ⟨?_, ?_⟩)
    (fun _ => Iff.rfl) fun p => ?_
  · rintro ⟨⟨-, rfl⟩, rfl⟩
    rfl
  · rintro rfl
    exact ⟨⟨trivial, rfl⟩, rfl⟩
  · rw [List.append_nil, bytes]

theorem TxInput.inverts_read :
    Inverts read (fun i => i.unlockScript.length ≤ maxMessageScript) bytes := by
  refine Inverts.congr (OutPoint.inverts_read.bind prevOutput (fun _ _ => trivial) fun p _ =>
    (Script.inverts_readCounted _).bind unlockScript (fun _ h => h.1) fun unlock hunlock =>
      inverts_uint32.bind sequence (fun _ _ => trivial) fun n _ => .pure fun i => ⟨?_, ?_⟩)
    (fun _ => Iff.rfl) fun i => ?_
  · rintro ⟨⟨⟨-, rfl⟩, rfl⟩, rfl⟩
    rfl
  · rintro rfl
    exact ⟨⟨⟨hunlock, rfl⟩, rfl⟩, rfl⟩
  · rw [List.append_nil, bytes, List.append_assoc]

theorem TxOutput.inverts_read :
    Inverts read (fun o => o.lockScript.length ≤ maxMessageScript) bytes := by
  refine Inverts.congr (inverts_int64.bind satoshis (fun _ _ => trivial) fun n _ =>
    (Script.inverts_readCounted _).bind lockScript (fun _ h => h.1) fun lock hlock =>
      .pure fun o => ⟨?_, ?_⟩) (fun _ => Iff.rfl) fun o => ?_
  · rintro ⟨⟨-, rfl⟩, rfl⟩
    rfl
  · rintro rfl
    exact ⟨⟨hlock, rfl⟩, rfl⟩
  · rw [List.append_nil, bytes]

namespace Transaction

/-- The caps that reading puts on scripts and lists. -/
structure KeepsCaps (tx : Transaction) : Prop where
  inputs : tx.inputs.length ≤ maxMessageCount
  outputs : tx.outputs.length ≤ maxMessageCount
  unlockScripts : ∀ i ∈ tx.inputs, i.unlockScript.length ≤ maxMessageScript
  lockScripts : ∀ o ∈ tx.outputs, o.lockScript.length ≤ maxMessageScript

theorem inverts_read : Inverts read KeepsCaps bytes := by
  refine Inverts.congr (inverts_uint32.bind version (fun _ _ => trivial) fun version _ =>
    (inverts_counted TxInput.inverts_read _).bind inputs
      (fun _ h => ⟨h.1.inputs, h.1.unlockScripts⟩) fun inputs hinputs =>
    (inverts_counted TxOutput.inverts_read _).bind outputs
      (fun _ h => ⟨h.1.1.outputs, h.1.1.lockScripts⟩) fun outputs houtputs =>
    inverts_uint32.bind lockTime (fun _ _ => trivial) fun lockTime _ => .pure fun tx => ⟨?_, ?_⟩)
    (fun _ => Iff.rfl) fun tx => ?_
  · rintro ⟨⟨⟨⟨-, rfl⟩, rfl⟩, rfl⟩, rfl⟩
    rfl
  · rintro rfl
    exact ⟨⟨⟨⟨⟨hinputs.1, houtputs.1, hinputs.2, houtputs.2⟩, rfl⟩, rfl⟩, rfl⟩, rfl⟩
  · rw [List.append_nil, bytes, List.append_assoc, List.append_assoc]

end Transaction

/-! ## Sizes -/

theorem Script.length_counted (s : Script) : s.counted.length = s.countedSize := by
  rw [counted, List.length_append, Bytes.length_ofCount, countedSize]

theorem TxInput.length_bytes (i : TxInput) : i.bytes.length = i.size := by
  rw [bytes, List.length_append, List.length_append, OutPoint.length_bytes, Script.length_counted,
    Bytes.length_ofUInt32, size]

theorem TxOutput.length_bytes (o : TxOutput) : o.bytes.length = o.size := by
  rw [bytes, List.length_append, Bytes.length_ofInt64, Script.length_counted, size]

theorem Bytes.length_ofList {α : Type} {form : α → Bytes} {size : α → Nat}
    (h : ∀ a, (form a).length = size a) (as : List α) :
    (ofList form as).length = sizeOfList size as := by
  have hitems : (as.flatMap form).length = as.foldr (fun a n => size a + n) 0 := by
    induction as with
    | nil => rfl
    | cons a as ih => rw [List.flatMap_cons, List.length_append, h, ih, List.foldr_cons]
  rw [ofList, List.length_append, length_ofCount, hitems, sizeOfList]

namespace Transaction

theorem length_bytes (tx : Transaction) : tx.bytes.length = tx.size := by
  rw [bytes, List.length_append, List.length_append, List.length_append,
    Bytes.length_ofList TxInput.length_bytes, Bytes.length_ofList TxOutput.length_bytes,
    Bytes.length_ofUInt32, Bytes.length_ofUInt32, size]
  omega

/-- A transaction that keeps to the caps is read back from its wire form, which has the stated size,
and from no part of it. A transaction that was read has a wire form that is no longer than what it
was read from, and is read back from it; the two agree exactly if they are equally long. -/
theorem wire_codec :
    (∀ tx : Transaction, tx.KeepsCaps →
      tx.bytes.length = tx.size ∧
        (∀ rest, read (tx.bytes ++ rest) = .ok (tx, rest)) ∧
        ∀ front, front <+: tx.bytes → front ≠ tx.bytes →
          read front = .error (.input .truncated)) ∧
      ∀ bytes tx rest, read bytes = .ok (tx, rest) →
        ∃ k, k ≤ bytes.length ∧ rest = bytes.drop k ∧ tx.size ≤ k ∧
          read tx.bytes = .ok (tx, []) ∧ (tx.bytes = bytes.take k ↔ tx.size = k) := by
  refine ⟨fun tx htx => ?_, fun bytes tx rest hread => ?_⟩
  · have hreads := inverts_read.reads tx htx
    exact ⟨tx.length_bytes, hreads.append, hreads.truncated⟩
  · obtain ⟨taken, rfl, htx, hform⟩ := inverts_read.takes bytes tx rest hread
    have hback := (inverts_read.reads tx htx).append []
    rw [List.append_nil] at hback
    rw [← tx.length_bytes]
    refine ⟨taken.length, by simp, List.drop_left.symm, hform.length_le, hback, ?_⟩
    rw [List.take_left]
    exact ⟨congrArg List.length, hform.eq_of_length⟩

def oneInput : Transaction := ⟨1, [⟨⟨.zero 32, 7⟩, [0x51], 0⟩], [], 0⟩

/-- The bytes of `oneInput` with a longer form of its number of inputs than needed. -/
def looseBytes : Bytes :=
  Bytes.ofUInt32 1 ++ [0xfd, 0x01, 0x00] ++ oneInput.inputs.flatMap TxInput.bytes ++ [0x00] ++
    Bytes.ofUInt32 0

theorem wire_codec_oneInput :
    oneInput.KeepsCaps ∧ read (oneInput.bytes ++ [0xaa]) = .ok (oneInput, [0xaa]) ∧
      read (oneInput.bytes.take 50) = .error (.input .truncated) ∧
      read looseBytes = .ok (oneInput, []) ∧ oneInput.size < looseBytes.length ∧
      read oneInput.bytes = .ok (oneInput, []) := by
  have hcaps : oneInput.KeepsCaps := by constructor <;> decide
  have hloose : read looseBytes = .ok (oneInput, []) := rfl
  have hshort : oneInput.bytes.take 50 ≠ oneInput.bytes := fun h =>
    absurd (congrArg List.length h) (by decide)
  obtain ⟨-, happend, htruncated⟩ := wire_codec.1 oneInput hcaps
  obtain ⟨k, -, -, -, hback, -⟩ := wire_codec.2 looseBytes oneInput [] hloose
  exact ⟨hcaps, happend _, htruncated _ (List.take_prefix _ _) hshort, hloose, by decide, hback⟩

end Transaction

end BitcoinScript
