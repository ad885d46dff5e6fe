import BitcoinScript.Proofs.Script.Parsing
import BitcoinScript.Script.Edit

/-!
# Deletion by positions

`Script.findAndDelete?` removes a byte string with the positions of one script, and every position
could lie outside of it. None does: the result is the one of `Script.findAndDelete`, which walks
from one rest of the script to the next and has no positions.
-/

namespace BitcoinScript

namespace Bytes

theorem slice?_length {s : Bytes} {start : Nat} (h : start ≤ s.length) :
    slice? s start s.length = some (s.drop start) := by
  rw [slice?, if_pos ⟨h, Nat.le_refl _⟩, ← List.length_drop, List.take_length]

end Bytes

namespace Script

theorem stripFront_of_startsWith {pattern s : Bytes} (hne : pattern ≠ [])
    (hpre : pattern.isPrefixOf s) :
    stripFront pattern s = ((stripFront pattern (s.drop pattern.length)).1,
      (stripFront pattern (s.drop pattern.length)).2 + 1) := by
  rw [stripFront, dif_pos ⟨hne, hpre⟩]

theorem stripFront_of_not_startsWith {pattern s : Bytes}
    (h : ¬(pattern ≠ [] ∧ pattern.isPrefixOf s)) : stripFront pattern s = (s, 0) := by
  rw [stripFront, dif_neg h]

theorem findAndDelete_of_none {pattern s : Bytes}
    (h : Instr.decode? (stripFront pattern s).1 = none) :
    findAndDelete pattern s = stripFront pattern s := by
  rw [findAndDelete]
  split
  · rfl
  · rename_i hsome
    rw [h] at hsome
    exact absurd hsome (by simp)

theorem findAndDelete_of_some {pattern s rest : Bytes} {op : Instr}
    (h : Instr.decode? (stripFront pattern s).1 = some (op, rest)) :
    findAndDelete pattern s = (op.toBytes ++ (findAndDelete pattern rest).1,
      (stripFront pattern s).2 + (findAndDelete pattern rest).2) := by
  rw [findAndDelete]
  split
  · rename_i hnone
    rw [h] at hnone
    exact absurd hnone (by simp)
  · rename_i op' rest' hsome
    rw [h, Option.some.injEq, Prod.mk.injEq] at hsome
    rw [hsome.1, hsome.2]

/-- The position behind the copies at a position is where the rest without them starts. -/
theorem exists_skipCopies?_eq (pattern s : Bytes) (position : Nat) (h : position ≤ s.length) :
    ∃ start, start ≤ s.length ∧ s.drop start = (stripFront pattern (s.drop position)).1 ∧
      skipCopies? pattern s position =
        some (start, (stripFront pattern (s.drop position)).2) := by
  fun_induction skipCopies? pattern s position with
  | case1 position hlt => exact absurd h (by omega)
  | case2 position hlt hpre ih =>
      have hrest := stripFront_of_startsWith hpre.1 hpre.2.2
      rw [List.drop_drop] at hrest
      obtain ⟨start, hle, hdrop, hskip⟩ := ih (by omega)
      refine ⟨start, hle, ?_, ?_⟩
      · rw [hrest, hdrop]
      · rw [hrest, hskip, Option.map_some]
  | case3 position hlt hpre =>
      have hnot : ¬(pattern ≠ [] ∧ pattern.isPrefixOf (s.drop position)) := by
        rintro ⟨hne, hpre'⟩
        have hle := (List.isPrefixOf_iff_prefix.1 hpre').length_le
        rw [List.length_drop] at hle
        exact hpre ⟨hne, hle, hpre'⟩
      exact ⟨position, h, by rw [stripFront_of_not_startsWith hnot],
        by rw [stripFront_of_not_startsWith hnot]⟩

theorem deleteFrom?_of_none {pattern s kept : Bytes} {copied position start count : Nat}
    (hkept : Bytes.slice? s copied position = some kept)
    (hskip : skipCopies? pattern s position = some (start, count))
    (hdec : Instr.decodeAt? s start = none) :
    deleteFrom? pattern s copied position =
      (Bytes.slice? s start s.length).map fun last => (kept ++ last, count) := by
  rw [deleteFrom?]
  grind

theorem deleteFrom?_of_some {pattern s kept : Bytes} {copied position start count next : Nat}
    {op : Instr} (hkept : Bytes.slice? s copied position = some kept)
    (hskip : skipCopies? pattern s position = some (start, count))
    (hdec : Instr.decodeAt? s start = some (op, next)) :
    deleteFrom? pattern s copied position =
      (deleteFrom? pattern s start next).map fun p => (kept ++ p.1, count + p.2) := by
  rw [deleteFrom?]
  grind

/-- From an instruction on, deletion by positions keeps what was to be copied before it and deletes
in the rest. -/
theorem deleteFrom?_eq (pattern s : Bytes) {copied position : Nat} {kept : Bytes}
    (hkept : Bytes.slice? s copied position = some kept) (hle : position ≤ s.length) :
    deleteFrom? pattern s copied position =
      some (kept ++ (findAndDelete pattern (s.drop position)).1,
        (findAndDelete pattern (s.drop position)).2) := by
  -- the rest behind the position gets shorter from one instruction to the next
  induction hn : s.length - position using Nat.strongRecOn
    generalizing copied position kept with
  | ind n ih =>
    obtain ⟨start, hstart, hdrop, hskip⟩ := exists_skipCopies?_eq pattern s position hle
    cases hdec : Instr.decodeAt? s start with
    | none =>
        have hnone : Instr.decode? (stripFront pattern (s.drop position)).1 = none := by
          rw [← hdrop]
          exact Option.map_eq_none_iff.1 hdec
        rw [deleteFrom?_of_none hkept hskip hdec, Bytes.slice?_length hstart,
          findAndDelete_of_none hnone, hdrop, Option.map_some]
    | some p =>
        obtain ⟨op, next⟩ := p
        obtain ⟨hop, hnext⟩ := Instr.drop_of_decodeAt? hdec
        have hinside := Instr.slice?_of_decodeAt? hdec
        have hlt := Instr.lt_of_decodeAt? hdec
        have hskipped := le_of_skipCopies? hskip
        have hend : next ≤ s.length := by
          rw [Bytes.slice?] at hinside
          split at hinside
          · omega
          · exact absurd hinside (by simp)
        rw [hdrop] at hop
        rw [deleteFrom?_of_some hkept hskip hdec,
          ih (s.length - next) (by omega) hinside hend rfl, findAndDelete_of_some hop,
          Option.map_some]

theorem stripFront_of_count {pattern s : Bytes} (h : (stripFront pattern s).2 = 0) :
    (stripFront pattern s).1 = s := by
  by_cases hpre : pattern ≠ [] ∧ pattern.isPrefixOf s
  · rw [stripFront_of_startsWith hpre.1 hpre.2] at h
    exact absurd h (by simp)
  · rw [stripFront_of_not_startsWith hpre]

theorem findAndDelete_of_count {pattern s : Bytes} (h : (findAndDelete pattern s).2 = 0) :
    (findAndDelete pattern s).1 = s := by
  fun_induction findAndDelete pattern s with
  | case1 s front hdec => exact stripFront_of_count h
  | case2 s front op rest hdec hlt kept count heq ih =>
      rw [heq] at ih
      have hsum : front.2 + count = 0 := h
      have hfront : front.1 = s := stripFront_of_count (show front.2 = 0 by omega)
      have hkept : kept = rest := ih (show count = 0 by omega)
      rw [hkept, ← Instr.eq_append_of_decode? hdec, hfront]

theorem findAndDelete_nil (s : Bytes) : findAndDelete [] s = (s, 0) := by
  have hcount : (findAndDelete [] s).2 = 0 := by
    have hstrip : ∀ s : Bytes, stripFront [] s = (s, 0) := fun s =>
      stripFront_of_not_startsWith (by simp)
    fun_induction findAndDelete [] s with
    | case1 s front hdec => exact congrArg Prod.snd (hstrip s)
    | case2 s front op rest hdec hlt kept count heq ih =>
        rw [heq] at ih
        have hfront : front.2 = 0 := congrArg Prod.snd (hstrip s)
        have hcount : count = 0 := ih
        show front.2 + count = 0
        omega
  exact Prod.ext (findAndDelete_of_count hcount) hcount

/-- Deletion by positions never leaves the script. -/
theorem findAndDelete?_eq (pattern s : Bytes) :
    findAndDelete? pattern s = some (findAndDelete pattern s) := by
  rw [findAndDelete?]
  split
  · rename_i hnil
    rw [hnil, findAndDelete_nil]
  · have hkept : Bytes.slice? s 0 0 = some [] := by simp [Bytes.slice?]
    rw [deleteFrom?_eq pattern s hkept (Nat.zero_le _), List.drop_zero, List.nil_append,
      Option.map_some]
    split
    · rename_i hcount
      rw [← hcount]
      exact congrArg some (Prod.ext (findAndDelete_of_count hcount).symm rfl)
    · rfl

end Script

end BitcoinScript
