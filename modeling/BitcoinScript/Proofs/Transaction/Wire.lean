import BitcoinScript.Proofs.Bytes.Delimited
import BitcoinScript.Transaction.Basic

/-!
# The wire format is unambiguous

Every part of a transaction is delimited in its wire form, and so is the transaction: two byte
strings that start with transactions and agree start with the same one. The parts that need a
condition are those with a script or a list in front of which a length is written.
-/

namespace BitcoinScript

theorem Bytes.delimited_ofList {α : Type} {valid : α → Prop} {form : α → Bytes}
    (h : Delimited valid form) :
    Delimited (fun as => as.length < 2 ^ 64 ∧ ∀ a ∈ as, valid a) (ofList form) := by
  intro as bs ha hb rest rest' heq
  rw [ofList, ofList, List.append_assoc, List.append_assoc] at heq
  obtain ⟨hlen, hforms⟩ := delimited_ofCount ha.1 hb.1 heq
  exact h.flatMap ha.2 hb.2 hlen hforms

theorem Script.delimited_counted : Bytes.Delimited (·.length < 2 ^ 64) counted := by
  intro s t hs ht rest rest' heq
  rw [counted, counted, List.append_assoc, List.append_assoc] at heq
  obtain ⟨hlen, hbytes⟩ := Bytes.delimited_ofCount hs ht heq
  exact List.append_inj hbytes hlen

theorem OutPoint.length_bytes (p : OutPoint) : p.bytes.length = 36 := by
  rw [bytes, List.length_append, Digest.length_bytes, Bytes.length_ofUInt32]

theorem OutPoint.bytes_inj {p q : OutPoint} (h : p.bytes = q.bytes) : p = q := by
  obtain ⟨hash, index⟩ := p
  obtain ⟨hash', index'⟩ := q
  obtain ⟨hhash, hindex⟩ := List.append_inj h (by rw [Digest.length_bytes, Digest.length_bytes])
  obtain rfl : hash = hash' := Digest.ext hhash
  obtain rfl : index = index' := Bytes.ofUInt32_inj hindex
  rfl

theorem OutPoint.delimited_bytes : Bytes.Delimited (fun _ => True) bytes :=
  Bytes.delimited_of_length length_bytes fun _ _ => bytes_inj

theorem TxInput.delimited_bytes :
    Bytes.Delimited (fun i : TxInput => i.unlockScript.length < 2 ^ 64) bytes := by
  rintro ⟨prevOutput, unlock, sequence⟩ ⟨prevOutput', unlock', sequence'⟩ hi hj rest rest' h
  simp only [bytes, List.append_assoc] at h
  obtain ⟨rfl, hunlock⟩ := OutPoint.delimited_bytes trivial trivial h
  obtain ⟨rfl, hsequence⟩ := Script.delimited_counted hi hj hunlock
  obtain ⟨rfl, hrest⟩ := Bytes.delimited_ofUInt32 trivial trivial hsequence
  exact ⟨rfl, hrest⟩

theorem TxOutput.delimited_bytes :
    Bytes.Delimited (fun o : TxOutput => o.lockScript.length < 2 ^ 64) bytes := by
  rintro ⟨satoshis, lock⟩ ⟨satoshis', lock'⟩ ho hp rest rest' h
  simp only [bytes, List.append_assoc] at h
  obtain ⟨rfl, hlock⟩ := Bytes.delimited_ofInt64 trivial trivial h
  obtain ⟨rfl, hrest⟩ := Script.delimited_counted ho hp hlock
  exact ⟨rfl, hrest⟩

namespace Transaction

/-- The lengths in a transaction fit into the 64 bits in which they are written. -/
structure Fits (tx : Transaction) : Prop where
  inputs : tx.inputs.length < 2 ^ 64
  outputs : tx.outputs.length < 2 ^ 64
  unlockScripts : ∀ i ∈ tx.inputs, i.unlockScript.length < 2 ^ 64
  lockScripts : ∀ o ∈ tx.outputs, o.lockScript.length < 2 ^ 64

theorem delimited_bytes : Bytes.Delimited Fits bytes := by
  rintro ⟨version, inputs, outputs, lockTime⟩ ⟨version', inputs', outputs', lockTime'⟩ ht hu
    rest rest' h
  simp only [bytes, List.append_assoc] at h
  obtain ⟨rfl, hinputs⟩ := Bytes.delimited_ofUInt32 trivial trivial h
  obtain ⟨rfl, houtputs⟩ := Bytes.delimited_ofList TxInput.delimited_bytes
    ⟨ht.inputs, ht.unlockScripts⟩ ⟨hu.inputs, hu.unlockScripts⟩ hinputs
  obtain ⟨rfl, hlockTime⟩ := Bytes.delimited_ofList TxOutput.delimited_bytes
    ⟨ht.outputs, ht.lockScripts⟩ ⟨hu.outputs, hu.lockScripts⟩ houtputs
  obtain ⟨rfl, hrest⟩ := Bytes.delimited_ofUInt32 trivial trivial hlockTime
  exact ⟨rfl, hrest⟩

end Transaction

end BitcoinScript
