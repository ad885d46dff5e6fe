import BitcoinScript.Proofs.Script.Filtering

/-!
# Deleting instructions

Deletion of the bytes of an instruction is `Script.keep` of all the others, with a count of those
that are gone. Reading what is left gives back just what was kept, so deletions can be made in any
order, and one that has been made before has no effect. For a byte string that is no instruction,
all that deletion tells is how many bytes are gone.
-/

namespace BitcoinScript

namespace Script

/-- The bytes are those of one instruction that can be read. -/
def IsInstr (p : Bytes) : Prop := ∃ op, Instr.decode? p = some (op, [])

theorem isReadable_of_isInstr {p : Bytes} {op : Instr} (h : Instr.decode? p = some (op, [])) :
    op.IsReadable ∧ p = op.toBytes := by
  refine ⟨Instr.isReadable_of_decode? h, ?_⟩
  rw [Instr.eq_append_of_decode? h, List.append_nil]

theorem isInstr_toBytes {op : Instr} (h : op.IsReadable) : IsInstr op.toBytes := by
  have hread := Instr.decode?_append h []
  rw [List.append_nil] at hread
  exact ⟨op, hread⟩

/-- Deleting the bytes of an instruction keeps all other instructions. -/
theorem findAndDelete?_of_isInstr {p : Bytes} (hp : IsInstr p) (s : Script) :
    findAndDelete? p s =
      some (keep (·.toBytes ≠ p) s, s.instrs.countP (·.toBytes = p)) := by
  obtain ⟨op, hop⟩ := hp
  obtain ⟨hreadable, rfl⟩ := isReadable_of_isInstr hop
  have hsame : ∀ op' ∈ s.instrs, op' = op ↔ op'.toBytes = op.toBytes := fun op' hmem =>
    ⟨fun h => h ▸ rfl, Instr.toBytes_inj (isReadable_of_mem_instrs hmem) hreadable⟩
  have hkeep : keep (· ≠ op) s = keep (·.toBytes ≠ op.toBytes) s :=
    keep_congr fun op' hmem => decide_eq_decide.2 (not_congr (hsame op' hmem))
  have hcount : s.instrs.count op = s.instrs.countP (·.toBytes = op.toBytes) :=
    List.countP_congr fun op' hmem => by simpa using hsame op' hmem
  rw [findAndDelete?_eq, findAndDelete_toBytes hreadable, hkeep, hcount]

/-! ## Bytes that are gone -/

theorem length_stripFront (pattern s : Bytes) :
    (stripFront pattern s).1.length + (stripFront pattern s).2 * pattern.length = s.length := by
  fun_induction stripFront pattern s with
  | case1 s h rest count heq ih =>
      have hle := (List.isPrefixOf_iff_prefix.1 h.2).length_le
      rw [heq, List.length_drop] at ih
      show rest.length + (count + 1) * pattern.length = s.length
      have hrest : rest.length + count * pattern.length = s.length - pattern.length := ih
      rw [Nat.add_mul, Nat.one_mul]
      omega
  | case2 s h => rw [Nat.zero_mul, Nat.add_zero]

/-- Every occurrence that is counted has taken its bytes away. -/
theorem length_findAndDelete (pattern s : Bytes) :
    (findAndDelete pattern s).1.length + (findAndDelete pattern s).2 * pattern.length =
      s.length := by
  fun_induction findAndDelete pattern s with
  | case1 s front hdec => exact length_stripFront pattern s
  | case2 s front op rest hdec hlt kept count heq ih =>
      have hfront : front.1.length + front.2 * pattern.length = s.length :=
        length_stripFront pattern s
      have hop := congrArg List.length (Instr.eq_append_of_decode? hdec)
      rw [List.length_append] at hop
      rw [heq] at ih
      have hkept : kept.length + count * pattern.length = rest.length := ih
      show (op.toBytes ++ kept).length + (front.2 + count) * pattern.length = s.length
      rw [List.length_append, Nat.add_mul]
      omega

/-! ## Deletion -/

/-- Deletion of the bytes of an instruction filters the instructions of a script, keeps its tail and
counts what is gone. Made again it finds nothing, and two such deletions can be made in either
order. Pushes of signatures are among these byte strings. Whatever is deleted, deletion ends, and
each occurrence that is counted has taken its bytes away. -/
theorem findAndDelete?_filter :
    (∀ p, IsInstr p → ∀ s : Script, ∃ t count, findAndDelete? p s = some (t, count) ∧
      t = ofInstrs (s.instrs.filter (·.toBytes ≠ p)) ++ s.tail ∧
      count = s.instrs.countP (·.toBytes = p) ∧
      findAndDelete? p t = some (t, 0) ∧
      ∀ q, IsInstr q → ∃ t' u count' n n', findAndDelete? q s = some (t', count') ∧
        findAndDelete? q t = some (u, n) ∧ findAndDelete? p t' = some (u, n')) ∧
    (∀ sig : Bytes, sig.length < 2 ^ 32 → IsInstr (Signature.pushed sig)) ∧
    ∀ p s, ∃ t count, findAndDelete? p s = some (t, count) ∧
      t.length + count * p.length = s.length := by
  refine ⟨fun p hp s => ?_, fun sig h => isInstr_toBytes (Signature.isReadable_pushed h),
    fun p s => ⟨_, _, findAndDelete?_eq p s, length_findAndDelete p s⟩⟩
  refine ⟨_, _, findAndDelete?_of_isInstr hp s, rfl, rfl, ?_, fun q hq => ?_⟩
  · have hgone : (s.instrs.filter (·.toBytes ≠ p)).countP (·.toBytes = p) = 0 := by
      rw [List.countP_filter]
      exact List.countP_eq_zero.2 fun op _ => by simp
    rw [findAndDelete?_of_isInstr hp, keep_idem, instrs_keep, hgone]
  · have hback : findAndDelete? p (keep (·.toBytes ≠ q) s) =
        some (keep (·.toBytes ≠ q) (keep (·.toBytes ≠ p) s),
          (keep (·.toBytes ≠ q) s).instrs.countP (·.toBytes = p)) := by
      rw [findAndDelete?_of_isInstr hp, keep_comm]
    exact ⟨_, _, _, _, _, findAndDelete?_of_isInstr hq s, findAndDelete?_of_isInstr hq _, hback⟩

/-- A push of one byte goes where it is an instruction, twice here. It stays where its bytes are
data of another push, and where the script ends inside of one. -/
theorem findAndDelete?_filter_push :
    let s : Script := [0x01, 0xaa, 0x01, 0xaa, 0x02, 0x01, 0xaa, 0x51, 0x03, 0x01, 0xaa]
    findAndDelete? (Signature.pushed [0xaa]) s =
        some ([0x02, 0x01, 0xaa, 0x51, 0x03, 0x01, 0xaa], 2) ∧
      ∃ t count, findAndDelete? [0x01] s = some (t, count) ∧ t.length + count = s.length := by
  intro s
  obtain ⟨hinstr, hpushed, hlength⟩ := findAndDelete?_filter
  have hsig : IsInstr (Signature.pushed [0xaa]) := hpushed [0xaa] (by decide)
  obtain ⟨t, count, hdelete, rfl, rfl, -⟩ := hinstr _ hsig s
  obtain ⟨t', count', hdelete', hle⟩ := hlength [0x01] s
  have hleft : ofInstrs (s.instrs.filter (·.toBytes ≠ Signature.pushed [0xaa])) ++ s.tail =
      [0x02, 0x01, 0xaa, 0x51, 0x03, 0x01, 0xaa] := by decide +kernel
  have hcount : s.instrs.countP (·.toBytes = Signature.pushed [0xaa]) = 2 := by decide +kernel
  rw [hleft, hcount] at hdelete
  rw [List.length_singleton, Nat.mul_one] at hle
  exact ⟨hdelete, t', count', hdelete', hle⟩

end Script

end BitcoinScript
