import Mathlib.Data.List.Nodup
import BitcoinScript.Proofs.Opcode.Table
import BitcoinScript.Proofs.Text.Words

/-!
# Names of opcodes

Every byte has a name, and no two have the same: the names in the table differ, and the names that
are built from the value of a byte start in a way that no name in the table does. None of them is a
further name of another opcode, so looking up the name of an opcode gives the opcode back. All names
are words that start with the same letter, which is no hex digit.
-/

namespace BitcoinScript.Opcode

/-! ## The table -/

/-- What the names of opcodes that are not in the table start with. -/
def stems : List String := ["OP_PUSHBYTES_", "OP_UNKNOWN"]

/-- The start of a text, by which the names with a stem differ from all other ones. -/
def start (s : String) : List Char := s.toList.take 8

theorem names_of_entries : ∀ e ∈ entries, e.name.toList.head? = some 'O' ∧
    Text.IsWord e.name ∧ ∀ stem ∈ stems, start stem ≠ start e.name := by
  decide +kernel

/-- All names in the tables differ. They are compared as the numbers whose digits are their
bytes. -/
theorem nodup_names : (entries.map (·.name) ++ aliases.map (·.1)).Nodup := by
  have hcodes : ((entries.map (·.name) ++ aliases.map (·.1)).map fun s : String =>
      s.toByteArray.data.toList.foldl (fun n b => 256 * n + b.toNat) 0).Nodup := by decide +kernel
  exact hcodes.of_map _

theorem aliases_ne_stems : ∀ p ∈ aliases, ∀ stem ∈ stems, start stem ≠ start p.1 := by
  decide +kernel

theorem head?_aliases : ∀ p ∈ aliases, p.1.toList.head? = some 'O' := by decide +kernel

/-! ## Single opcodes -/

def stem (op : Opcode) : String := if op.byte < 0x4c then "OP_PUSHBYTES_" else "OP_UNKNOWN"

theorem stem_mem_stems (op : Opcode) : op.stem ∈ stems := by
  rw [stem]
  split
  · exact List.mem_cons_self
  · exact List.mem_cons_of_mem _ List.mem_cons_self

/-- The name of an opcode stands in the table, or is built from the value of the byte. -/
theorem name_cases (op : Opcode) :
    (∃ e ∈ entries, e.byte = op.byte ∧ op.name = e.name) ∨
      op.name = op.stem ++ toString op.byte.toNat := by
  rw [name]
  cases hentry : op.entry? with
  | some e =>
      obtain ⟨hmem, hbyte⟩ := mem_of_entry? hentry
      exact Or.inl ⟨e, hmem, hbyte, rfl⟩
  | none =>
      refine Or.inr ?_
      show (if op.byte < 0x4c then _ else _) = _
      rw [stem]
      split
      · rfl
      · rfl

theorem toList_built (op : Opcode) :
    (op.stem ++ toString op.byte.toNat).toList =
      op.stem.toList ++ Nat.toDigits 10 op.byte.toNat := by
  rw [String.toList_append, Nat.toString_eq_ofList_toDigits, String.toList_ofList]

/-- A name that is built starts as its stem does. -/
theorem start_built (op : Opcode) (s : String) : start (op.stem ++ s) = start op.stem := by
  have hlength : ∀ stem ∈ stems, 8 ≤ stem.toList.length := by decide
  rw [start, start, String.toList_append,
    List.take_append_of_le_length (hlength _ op.stem_mem_stems)]

theorem stem_eq_of_start_eq {op op' : Opcode} (h : start op.stem = start op'.stem) :
    op.stem = op'.stem := by
  have hstems : ∀ s ∈ stems, ∀ s' ∈ stems, start s = start s' → s = s' := by decide
  exact hstems _ op.stem_mem_stems _ op'.stem_mem_stems h

/-- The digits behind a stem tell the byte. -/
theorem byte_eq_of_built_eq {op op' : Opcode}
    (h : op.stem ++ toString op.byte.toNat = op'.stem ++ toString op'.byte.toNat) :
    op.byte = op'.byte := by
  have hstem : op.stem = op'.stem := by
    have hstart := congrArg start h
    rw [start_built, start_built] at hstart
    exact stem_eq_of_start_eq hstart
  have hdigits : Nat.toDigits 10 op.byte.toNat = Nat.toDigits 10 op'.byte.toNat := by
    have hlist := congrArg String.toList h
    rw [toList_built, toList_built, hstem] at hlist
    exact List.append_cancel_left hlist
  have hnat : op.byte.toNat = op'.byte.toNat := by
    rw [← Nat.ofDigitChars_ten_toDigits (n := op.byte.toNat), hdigits,
      Nat.ofDigitChars_ten_toDigits]
  exact UInt8.toNat_inj.1 hnat

theorem name_injective {op op' : Opcode} (h : op.name = op'.name) : op = op' := by
  suffices hbyte : op.byte = op'.byte from congrArg mk hbyte
  rcases op.name_cases with ⟨e, he, hbyte, hname⟩ | hname
  · rcases op'.name_cases with ⟨e', he', hbyte', hname'⟩ | hname'
    · rw [hname, hname'] at h
      rw [← hbyte, ← hbyte', List.inj_on_of_nodup_map nodup_names.of_append_left he he' h]
    · rw [hname, hname'] at h
      have hstart := (names_of_entries e he).2.2 op'.stem op'.stem_mem_stems
      rw [h, start_built] at hstart
      exact absurd rfl hstart
  · rcases op'.name_cases with ⟨e', he', hbyte', hname'⟩ | hname'
    · rw [hname, hname'] at h
      have hstart := (names_of_entries e' he').2.2 op.stem op.stem_mem_stems
      rw [← h, start_built] at hstart
      exact absurd rfl hstart
    · rw [hname, hname'] at h
      exact byte_eq_of_built_eq h

/-- No name of an opcode is a further name. -/
theorem aliases_ne_name (op : Opcode) : ∀ p ∈ aliases, p.1 ≠ op.name := by
  intro p hp
  rcases op.name_cases with ⟨e, he, -, hname⟩ | hname
  · rw [hname]
    have hdisjoint := (List.nodup_append.1 nodup_names).2.2
    exact (hdisjoint _ (List.mem_map_of_mem he) _ (List.mem_map_of_mem hp)).symm
  · rw [hname]
    intro heq
    have hstart := aliases_ne_stems p hp op.stem op.stem_mem_stems
    rw [heq, start_built] at hstart
    exact hstart rfl

theorem mem_all (op : Opcode) : op ∈ all := by
  refine List.mem_map.2 ⟨op.byte.toNat, List.mem_range.2 op.byte.toNat_lt, ?_⟩
  rw [UInt8.ofNat_toNat]

theorem ofName?_name (op : Opcode) : ofName? op.name = some op := by
  have halias : aliases.find? (fun p => p.1 = op.name) = none := by
    refine List.find?_eq_none.2 fun p hp => ?_
    rw [decide_eq_true_iff]
    exact op.aliases_ne_name p hp
  have hfind : (all.find? fun op' => op'.name = op.name).isSome :=
    List.find?_isSome.2 ⟨op, op.mem_all, decide_eq_true rfl⟩
  obtain ⟨op', hop'⟩ := Option.isSome_iff_exists.1 hfind
  have hfound := List.find?_some hop'
  have hname : op'.name = op.name := of_decide_eq_true hfound
  rw [ofName?, halias]
  exact hop'.trans (congrArg some (name_injective hname))

theorem head?_name (op : Opcode) : op.name.toList.head? = some 'O' := by
  have hstems : ∀ stem ∈ stems, stem.toList.head? = some 'O' := by decide
  rcases op.name_cases with ⟨e, he, -, hname⟩ | hname
  · rw [hname]
    exact (names_of_entries e he).1
  · rw [hname, String.toList_append, List.head?_append, hstems _ op.stem_mem_stems]
    rfl

/-- A text that starts with another letter than all names do is no name. -/
theorem ofName?_eq_none {s : String} (h : s.toList.head? ≠ some 'O') : ofName? s = none := by
  have halias : aliases.find? (fun p => p.1 = s) = none := by
    refine List.find?_eq_none.2 fun p hp => ?_
    rw [decide_eq_true_iff]
    rintro rfl
    exact h (head?_aliases p hp)
  rw [ofName?, halias]
  refine List.find?_eq_none.2 fun op _ => ?_
  rw [decide_eq_true_iff]
  rintro rfl
  exact h op.head?_name

theorem isWord_name (op : Opcode) : Text.IsWord op.name := by
  rcases op.name_cases with ⟨e, he, -, hname⟩ | hname
  · rw [hname]
    exact (names_of_entries e he).2.1
  · have hstems : ∀ stem ∈ stems, Text.IsWord stem := by decide
    rw [hname]
    refine (hstems _ op.stem_mem_stems).append fun c hc => Text.isBlank_of_isDigit ?_
    rw [Nat.toString_eq_ofList_toDigits, String.toList_ofList] at hc
    exact Nat.isDigit_of_mem_toDigits (by decide) (by decide) hc

end BitcoinScript.Opcode
