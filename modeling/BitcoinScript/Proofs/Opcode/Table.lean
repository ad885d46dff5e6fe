import BitcoinScript.Opcode.Basic

/-!
# Facts about all opcodes

What an opcode asks of the interpreter is looked up in a table, so a fact about the byte of an
opcode and its command holds of every opcode if it holds of the entries and of bytes without a
meaning. For a fact that can be computed the entries are gone through one by one.
-/

namespace BitcoinScript

namespace Opcode

theorem mem_of_entry? {op : Opcode} {e : Entry} (h : op.entry? = some e) :
    e ∈ entries ∧ e.byte = op.byte := by
  have hfound := List.find?_some h
  exact ⟨List.mem_of_find?_eq_some h, of_decide_eq_true hfound⟩

theorem command_of_entries {P : UInt8 → Command → Prop} (hinvalid : ∀ b, P b .invalid)
    (hentries : ∀ e ∈ entries, P e.byte e.command) (op : Opcode) : P op.byte op.command := by
  rw [command]
  cases hentry : op.entry? with
  | none => exact hinvalid op.byte
  | some e =>
      obtain ⟨hmem, hbyte⟩ := mem_of_entry? hentry
      rw [← hbyte]
      exact hentries e hmem

/-- A command with one entry is asked for by no other opcode. -/
theorem eq_of_command {op : Opcode} {b : UInt8} {c : Command} (hc : c ≠ .invalid)
    (hb : ∀ e ∈ entries, e.command = c → e.byte = b) (h : op.command = c) : op = ⟨b⟩ := by
  have hbyte : op.command = c → op.byte = b :=
    command_of_entries (P := fun byte command => command = c → byte = b)
      (fun _ hinvalid => absurd hinvalid.symm hc) hb op
  rw [← hbyte h]

theorem command_eq_codeSeparator_iff {op : Opcode} :
    op.command = .codeSeparator ↔ op = .codeSeparator := by
  refine ⟨eq_of_command (by decide) (by decide), ?_⟩
  rintro rfl
  rfl

end Opcode

end BitcoinScript
