import BitcoinScript.Script.Basic

/-!
# Removing instructions

The script code that a signature commits to leaves out some instructions of the script. Both
removals here walk from instruction to instruction, so that equal bytes inside pushed data stay, and
keep the tail of a cut-off script as it is.
-/

namespace BitcoinScript.Script

/-- Removes a byte string from the front as often as it stands there, and counts. -/
def stripFront (pattern s : Bytes) : Bytes × Nat :=
  if _ : pattern ≠ [] ∧ pattern.isPrefixOf s then
    let (rest, count) := stripFront pattern (s.drop pattern.length)
    (rest, count + 1)
  else (s, 0)
termination_by s.length
decreasing_by
  rename_i h
  have hpos := List.length_pos_iff.2 h.1
  have hle := (List.isPrefixOf_iff_prefix.1 h.2).length_le
  rw [List.length_drop]
  omega

theorem length_stripFront_le (pattern s : Bytes) :
    (stripFront pattern s).1.length ≤ s.length := by
  fun_induction stripFront pattern s with
  | case1 s h rest count heq ih =>
      rw [heq, List.length_drop] at ih
      exact Nat.le_trans ih (Nat.sub_le _ _)
  | case2 s h => exact Nat.le_refl _

/-- Removes every occurrence of a byte string that starts at an instruction, and counts them. After
an occurrence the next instruction starts. -/
def findAndDelete (pattern s : Bytes) : Script × Nat :=
  let front := stripFront pattern s
  match h : Instr.decode? front.1 with
  | none => front
  | some (op, rest) =>
      have : rest.length < s.length :=
        Nat.lt_of_lt_of_le (Instr.length_lt_of_decode? h) (length_stripFront_le pattern s)
      let (kept, count) := findAndDelete pattern rest
      (op.toBytes ++ kept, front.2 + count)
termination_by s.length

/-- Moves a position behind the copies of a byte string that start there, and counts them. There is
no result for a position behind the end of the script. -/
def skipCopies? (pattern s : Bytes) (position : Nat) : Option (Nat × Nat) :=
  if s.length < position then none
  else if _ : pattern ≠ [] ∧ pattern.length ≤ s.length - position ∧
      pattern.isPrefixOf (s.drop position) then
    (skipCopies? pattern s (position + pattern.length)).map fun p => (p.1, p.2 + 1)
  else some (position, 0)
termination_by s.length - position
decreasing_by
  rename_i h
  have hpos := List.length_pos_iff.2 h.1
  omega

theorem le_of_skipCopies? {pattern s : Bytes} {position start count : Nat}
    (h : skipCopies? pattern s position = some (start, count)) : position ≤ start := by
  fun_induction skipCopies? pattern s position generalizing start count with
  | case1 => exact absurd h (by simp)
  | case2 position _ _ ih =>
      obtain ⟨p, hp, hq⟩ := Option.map_eq_some_iff.1 h
      have := ih hp
      simp only [Prod.mk.injEq] at hq
      omega
  | case3 =>
      simp only [Option.some.injEq, Prod.mk.injEq] at h
      omega

/-- Removes a byte string as `findAndDelete` does, but on positions of one script: the bytes from
`copied` to `position`, where an instruction starts, stay. There is no result where a position lies
outside the script. -/
def deleteFrom? (pattern s : Bytes) (copied position : Nat) : Option (Bytes × Nat) :=
  match Bytes.slice? s copied position, h : skipCopies? pattern s position with
  | some kept, some (start, count) =>
      match h' : Instr.decodeAt? s start with
      | none => (Bytes.slice? s start s.length).map fun last => (kept ++ last, count)
      | some (_, next) =>
          have : s.length - next < s.length - position := by
            have hle := le_of_skipCopies? h
            have hlt := Instr.lt_of_decodeAt? h'
            omega
          (deleteFrom? pattern s start next).map fun p => (kept ++ p.1, count + p.2)
  | _, _ => none
termination_by s.length - position

/-- Removes every occurrence of a byte string that starts at an instruction, and counts them. A
script without an occurrence stays as it is. -/
def findAndDelete? (pattern s : Bytes) : Option (Script × Nat) :=
  if pattern = [] then some (s, 0)
  else (deleteFrom? pattern s 0 0).map fun p => if p.2 = 0 then (s, 0) else p

def withoutCodeSeparators (s : Script) : Script :=
  match h : Instr.decode? s with
  | none => s
  | some (op, rest) =>
      have : rest.length < s.length := Instr.length_lt_of_decode? h
      let kept := withoutCodeSeparators rest
      if op.code = .codeSeparator then kept else op.toBytes ++ kept
termination_by s.length

end BitcoinScript.Script
