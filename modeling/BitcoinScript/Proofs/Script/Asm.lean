import Mathlib.Algebra.Order.BigOperators.Group.List
import Mathlib.Algebra.Order.Group.Nat
import BitcoinScript.Proofs.Bytes.Hex
import BitcoinScript.Proofs.Machine.MinimalPushes
import BitcoinScript.Proofs.Opcode.Naming
import BitcoinScript.Script.Asm

/-!
# Script text reads back

The word of an instruction is a name or the hex form of its data, and what it is can be seen from
its first letter. Names are read as single bytes, and data are pushed in the shortest way. So a text
tells of every instruction what it does, but not how a value was pushed: what is read from the text
of a script is the script where its pushes are the shortest ones, and shorter than the script where
one of them is not. A tail that is cut off has a word that is not read at all.
-/

namespace BitcoinScript

namespace Instr

/-- What pushes a value is the shortest push of it. -/
def IsShortest (op : Instr) : Prop := ∀ v, op.pushValue? = some v → op = pushData v

instance (op : Instr) : Decidable op.IsShortest :=
  inferInstanceAs (Decidable (∀ v ∈ op.pushValue?, op = pushData v))

/-! ## Words -/

/-- What is read from the word of an instruction. -/
def reread (op : Instr) : Bytes :=
  if op.code.isPushData && !op.data.isEmpty then (pushData op.data).toBytes else [op.code.byte]

theorem isPushData_and_ne_nil_iff {op : Instr} :
    (op.code.isPushData && !op.data.isEmpty) = true ↔ op.code.isPushData = true ∧ op.data ≠ [] := by
  rw [Bool.and_eq_true, Bool.not_eq_true', List.isEmpty_eq_false_iff]

theorem isWord_display (op : Instr) : Text.IsWord op.display := by
  rw [display]
  split
  · rename_i h
    exact Hex.isWord_encode (isPushData_and_ne_nil_iff.1 h).2
  · exact op.code.isWord_name

/-- Data in hex do not start as names do. -/
theorem ofName?_encode {data : Bytes} (h : data ≠ []) :
    Opcode.ofName? (Hex.encode data) = none := by
  have hdigits : ∀ n < 16, Hex.digit n ≠ 'O' := by decide
  refine Opcode.ofName?_eq_none ?_
  rw [Hex.toList_encode]
  cases data with
  | nil => exact absurd rfl h
  | cons b bs =>
      have hb := b.toNat_lt
      rw [Hex.digits_cons, List.head?_cons]
      exact mt Option.some.inj (hdigits _ (by omega))

theorem ofWord_display (op : Instr) : Script.ofWord op.display = .ok op.reread := by
  rw [display, reread]
  split
  · rename_i h
    rw [Script.ofWord, ofName?_encode (isPushData_and_ne_nil_iff.1 h).2, Hex.decode_encode]
  · rw [Script.ofWord, Opcode.ofName?_name]

/-! ## The bytes of a word -/

theorem reread_of_isShortest {op : Instr} (hread : op.IsReadable) (h : op.IsShortest) :
    op.reread = op.toBytes := by
  rw [reread]
  split
  · rename_i hword
    have hpush := h op.data (if_pos (isPushData_and_ne_nil_iff.1 hword).1)
    rw [← hpush]
  · rename_i hword
    cases hcode : op.code.isPushData with
    | true =>
        have hdata : op.data = [] :=
          not_not.1 fun hne => hword (isPushData_and_ne_nil_iff.2 ⟨hcode, hne⟩)
        have hpush := h [] (by rw [pushValue?, if_pos hcode, hdata])
        rw [hpush]
        rfl
    | false =>
        rw [toBytes, hread.data_eq_nil hcode, Opcode.lengthWidth_of_not_isPushData hcode]
        rfl

theorem length_reread_lt {op : Instr} (hread : op.IsReadable) (h : ¬op.IsShortest) :
    op.reread.length < op.toBytes.length := by
  rw [IsShortest, not_forall] at h
  obtain ⟨v, h⟩ := h
  obtain ⟨hv, hne⟩ := Classical.not_imp.1 h
  have hlt := length_pushData_lt hread hv hne
  obtain ⟨hcode, rfl⟩ | ⟨-, -, heq⟩ := pushValue?_cases hread hv
  · rw [length_toBytes, reread]
    split
    · rw [length_toBytes]
      exact hlt
    · rename_i hword
      have hdata : op.data = [] :=
        not_not.1 fun hne => hword (isPushData_and_ne_nil_iff.2 ⟨hcode, hne⟩)
      rw [hdata] at hlt
      exact hlt
  · exact absurd heq hne

theorem length_reread_le {op : Instr} (hread : op.IsReadable) :
    op.reread.length ≤ op.toBytes.length := by
  by_cases h : op.IsShortest
  · rw [reread_of_isShortest hread h]
  · exact Nat.le_of_lt (length_reread_lt hread h)

end Instr

namespace Script

/-- A script without a tail in which all pushes are the shortest ones. -/
structure IsCanonical (s : Script) : Prop where
  tail_eq_nil : s.tail = []
  isShortest : ∀ op ∈ s.instrs, op.IsShortest

instance (s : Script) : Decidable s.IsCanonical :=
  decidable_of_iff (s.tail = [] ∧ ∀ op ∈ s.instrs, op.IsShortest)
    ⟨fun h => ⟨h.1, h.2⟩, fun h => ⟨h.1, h.2⟩⟩

/-! ## Texts -/

theorem map_display_itemsFrom (position : Nat) (ops : List Instr) (tail : Bytes) :
    (itemsFrom position ops tail).map Item.display =
      ops.map Instr.display ++ if tail = [] then [] else ["[error]"] := by
  induction ops generalizing position with
  | nil =>
      rw [itemsFrom]
      split
      · rfl
      · rfl
  | cons op ops ih =>
      rw [itemsFrom, List.map_cons, ih, List.map_cons, List.cons_append]
      rfl

theorem words_display (s : Script) :
    Text.words s.display =
      s.instrs.map Instr.display ++ if s.tail = [] then [] else ["[error]"] := by
  have hinstrs : ∀ w ∈ s.instrs.map Instr.display, Text.IsWord w :=
    List.forall_mem_map.2 fun op _ => op.isWord_display
  have htail : ∀ w ∈ if s.tail = [] then [] else ["[error]"], Text.IsWord w := by
    split
    · exact List.forall_mem_nil _
    · exact List.forall_mem_singleton.2 (by decide)
  rw [display, items, map_display_itemsFrom]
  exact Text.words_intercalate (List.forall_mem_append.2 ⟨hinstrs, htail⟩)

theorem mapM_ofWord (ops : List Instr) :
    (ops.map Instr.display).mapM ofWord = .ok (ops.map Instr.reread) := by
  have hwords : ofWord ∘ Instr.display = fun op => pure op.reread := funext Instr.ofWord_display
  rw [List.mapM_map, hwords, List.mapM_pure]
  rfl

variable {s : Script}

theorem ofText_display_of_tail_eq_nil (h : s.tail = []) :
    ofText s.display = .ok (s.instrs.flatMap Instr.reread) := by
  rw [ofText, words_display, if_pos h, List.append_nil, mapM_ofWord, List.flatMap_def]
  rfl

theorem ofText_display_of_tail_ne_nil (h : s.tail ≠ []) :
    ofText s.display = .error (.badData (.asmToken "[error]")) := by
  have hname : Opcode.ofName? "[error]" = none := Opcode.ofName?_eq_none (by decide)
  have hword : ofWord "[error]" = .error (.badData (.asmToken "[error]")) := by
    rw [ofWord, hname]
    rfl
  rw [ofText, words_display, if_neg h, List.mapM_append, mapM_ofWord, List.mapM_cons, hword]
  rfl

theorem flatMap_reread (h : s.IsCanonical) : s.instrs.flatMap Instr.reread = s := by
  have hbytes : s.instrs.flatMap Instr.reread = ofInstrs s.instrs :=
    List.flatMap_congr fun op hop =>
      Instr.reread_of_isShortest (isReadable_of_mem_instrs hop) (h.isShortest op hop)
  have hsplit := ofInstrs_instrs_append_tail s
  rw [h.tail_eq_nil, List.append_nil] at hsplit
  rw [hbytes, hsplit]

/-- A script with a push that is not the shortest one is longer than what is read. -/
theorem length_flatMap_reread_lt {op : Instr} (hop : op ∈ s.instrs) (h : ¬op.IsShortest) :
    (s.instrs.flatMap Instr.reread).length < (ofInstrs s.instrs).length := by
  rw [ofInstrs, List.length_flatMap, List.length_flatMap]
  exact List.sum_lt_sum _ _
    (fun _ hmem => Instr.length_reread_le (isReadable_of_mem_instrs hmem))
    ⟨op, hop, Instr.length_reread_lt (isReadable_of_mem_instrs hop) h⟩

theorem ofText_display_eq_iff : ofText s.display = .ok s ↔ s.IsCanonical := by
  constructor
  · intro h
    have htail : s.tail = [] := by
      by_contra hne
      rw [ofText_display_of_tail_ne_nil hne] at h
      cases h
    refine ⟨htail, fun op hop => ?_⟩
    by_contra hlong
    have hlt := length_flatMap_reread_lt hop hlong
    have hsplit := ofInstrs_instrs_append_tail s
    rw [ofText_display_of_tail_eq_nil htail] at h
    rw [htail, List.append_nil] at hsplit
    rw [Except.ok.inj h, hsplit] at hlt
    exact Nat.lt_irrefl _ hlt
  · intro h
    rw [ofText_display_of_tail_eq_nil h.tail_eq_nil, flatMap_reread h]

/-- A script is read back from its text exactly if it is complete and each of its pushes is the
shortest one, whatever other opcodes it has. So two different scripts of this kind have different
texts. -/
theorem ofText_display :
    (∀ s : Script, ofText s.display = .ok s ↔ s.IsCanonical) ∧
      ∀ s t : Script, s.IsCanonical → t.IsCanonical → s ≠ t → s.display ≠ t.display := by
  refine ⟨fun s => ofText_display_eq_iff, fun s t hs ht hne heq => ?_⟩
  have hread := ofText_display_eq_iff.2 hs
  rw [heq, ofText_display_eq_iff.2 ht] at hread
  exact hne (Except.ok.inj hread).symm

/-- Two announced values, the first of them behind a length field, the numbers zero and seven, and
opcodes of which two have no meaning. -/
def assorted : Script :=
  [0x4c, 80] ++ List.replicate 80 0xab ++ [0x02, 0xca, 0xfe] ++ [0x00, 0x57, 0x50, 0x76, 0xba, 0xff]

/-- The number seven by its opcode is read back behind all this, and as a byte behind its length it
is not. -/
theorem ofText_display_assorted :
    (assorted.IsCanonical ∧ ofText assorted.display = .ok assorted) ∧
      assorted.display ≠ (assorted ++ [0x57]).display ∧
      ofText (assorted ++ [0x01, 0x07]).display ≠ .ok (assorted ++ [0x01, 0x07]) := by
  have hcanonical : assorted.IsCanonical := by decide +kernel
  have hnumber : (assorted ++ [0x57]).IsCanonical := by decide +kernel
  have hannounced : ¬(assorted ++ [0x01, 0x07]).IsCanonical := by decide +kernel
  obtain ⟨hread, hdisplay⟩ := ofText_display
  refine ⟨⟨hcanonical, (hread assorted).2 hcanonical⟩, ?_, mt (hread _).1 hannounced⟩
  exact hdisplay assorted (assorted ++ [0x57]) hcanonical hnumber (by decide)

end Script

end BitcoinScript
