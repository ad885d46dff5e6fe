import BitcoinScript.Proofs.Machine.Arithmetic

/-!
# Products that wrap around

The limit on the length of operands can be raised above four bytes. As long as it stays below eight,
sums, differences, quotients, remainders and all the other results are still exact. Products are
not: from five bytes on there are operands whose product leaves the range of 64-bit integers, and
what is pushed is the product less a multiple of 2⁶⁴.
-/

namespace BitcoinScript

namespace Number

theorem inRange_wrap (n : Int) : InRange (wrap n) :=
  ⟨Int.le_bmod (by decide), Int.bmod_lt (by decide)⟩

theorem wrap_eq_self_iff {n : Int} : wrap n = n ↔ InRange n :=
  ⟨fun h => h ▸ inRange_wrap n, fun h => wrap_of_bounds h.1 h.2⟩

theorem encode_inj {m n : Int} : encode m = encode n ↔ m = n := by
  refine ⟨fun h => ?_, fun h => by rw [h]⟩
  rw [← value_encode m, h, value_encode]

/-- The shortest byte string of 2³². -/
def fiveBytes : Bytes := [0, 0, 0, 0, 1]

/-- The number 2³² is an operand under every limit of at least five bytes. -/
theorem decode_fiveBytes {limit : Nat} (strict : Bool) (h : 5 ≤ limit) :
    decode strict limit fiveBytes = .ok 0x100000000 := by
  refine decode_eq_ok_iff.2 ⟨h, by decide, fun _ => by decide, by decide⟩

end Number

namespace Exec

variable {r : Rules} {s : State}

section

variable {first second : Bytes} {rest : Stack Bytes} {a b : Int}

/-- A product is pushed as a 64-bit integer. -/
theorem binary_mul_of_decode (hstack : s.stack = second :: first :: rest)
    (ha : Number.decode (r.flags.contains .minimalData) r.limits.numberLength first = .ok a)
    (hb : Number.decode (r.flags.contains .minimalData) r.limits.numberLength second = .ok b) :
    binary r .mul s = .ok () { s with stack := Number.encode (Number.wrap (a * b)) :: rest } := by
  rw [binary_of_decode hstack ha hb]
  rfl

theorem outcome_mul_of_decode (hstack : s.stack = second :: first :: rest)
    (ha : Number.decode (r.flags.contains .minimalData) r.limits.numberLength first = .ok a)
    (hb : Number.decode (r.flags.contains .minimalData) r.limits.numberLength second = .ok b) :
    (Arithmetic.binary .mul).outcome r s =
      .ok () { s with stack := Number.encode (a * b) :: rest } := by
  have hitems : s.stack = [first, second].reverse ++ rest := hstack
  rw [Arithmetic.outcome_append hitems rfl]
  simp only [List.mapM_cons, List.mapM_nil, ha, hb]
  rfl

/-- A product is exact if it is a 64-bit integer. -/
theorem binary_mul_eq_outcome_iff (hstack : s.stack = second :: first :: rest)
    (ha : Number.decode (r.flags.contains .minimalData) r.limits.numberLength first = .ok a)
    (hb : Number.decode (r.flags.contains .minimalData) r.limits.numberLength second = .ok b) :
    binary r .mul s = (Arithmetic.binary .mul).outcome r s ↔ Number.InRange (a * b) := by
  rw [binary_mul_of_decode hstack ha hb, outcome_mul_of_decode hstack ha hb,
    ← Number.wrap_eq_self_iff, ← Number.encode_inj]
  refine ⟨fun h => ?_, fun h => by rw [h]⟩
  have hstate := (EStateM.Result.ok.inj h).2
  exact (List.cons.inj (congrArg State.stack hstate)).1

end

/-- From five bytes on a product wraps around. -/
theorem not_isExact_mul (hlimit : 5 ≤ r.limits.numberLength) :
    binary r .mul { stack := [Number.fiveBytes, Number.fiveBytes] } ≠
      (Arithmetic.binary .mul).outcome r { stack := [Number.fiveBytes, Number.fiveBytes] } := by
  have hread := Number.decode_fiveBytes (r.flags.contains .minimalData) hlimit
  intro h
  have hrange := (binary_mul_eq_outcome_iff rfl hread hread).1 h
  exact absurd hrange (by decide)

theorem command_eq_mul : Opcode.command ⟨0x95⟩ = .binary .mul := by decide

/-- Under limits of five to seven bytes all numeric opcodes but the product are exact. The product
is exact if it is a 64-bit integer, and in any case what is pushed differs from it by a multiple of
2⁶⁴. -/
theorem exact_iff_ne_mul (hlow : 5 ≤ r.limits.numberLength) (hhigh : r.limits.numberLength ≤ 7) :
    (∀ e ∈ Arithmetic.opcodes,
      (∀ script next s, execute r script true next e.opcode.command s = e.operation.outcome r s) ↔
        e.operation ≠ .binary .mul) ∧
    ∀ script next (s : State) first second rest a b, s.stack = second :: first :: rest →
      Number.decode (r.flags.contains .minimalData) r.limits.numberLength first = .ok a →
      Number.decode (r.flags.contains .minimalData) r.limits.numberLength second = .ok b →
      execute r script true next (Opcode.command ⟨0x95⟩) s =
          .ok () { s with stack := Number.encode (Number.wrap (a * b)) :: rest } ∧
        (execute r script true next (Opcode.command ⟨0x95⟩) s =
          (Arithmetic.binary .mul).outcome r s ↔ Number.InRange (a * b)) := by
  refine ⟨fun e he => ⟨fun hexact hmul => ?_, fun hmul script next s => ?_⟩, ?_⟩
  · have hsquare := hexact [] 0 { stack := [Number.fiveBytes, Number.fiveBytes] }
    rw [Arithmetic.command_of_mem_opcodes e he, hmul] at hsquare
    exact not_isExact_mul hlow hsquare
  · rw [Arithmetic.command_of_mem_opcodes e he]
    exact execute_of_isExact (Arithmetic.isExact_of_ne_mul hhigh hmul) script next
  · intro script next s first second rest a b hstack ha hb
    rw [command_eq_mul]
    exact ⟨binary_mul_of_decode hstack ha hb, binary_mul_eq_outcome_iff hstack ha hb⟩

/-- The largest number of seven bytes twice: the sum is exact, and the product is not. -/
theorem exact_iff_ne_mul_sevenBytes :
    let r : Rules := ⟨.ofList [.minimalData], { numberLength := 7 }, .refusing, .standard⟩
    let largest : Bytes := [0xff, 0xff, 0xff, 0xff, 0xff, 0xff, 0x7f]
    let s : State := { stack := [largest, largest] }
    (5 ≤ r.limits.numberLength ∧ r.limits.numberLength ≤ 7) ∧
      execute r [] true 1 (Opcode.command ⟨0x93⟩) s =
        .ok () { stack := [[0xfe, 0xff, 0xff, 0xff, 0xff, 0xff, 0xff, 0]] } ∧
      execute r [] true 1 (Opcode.command ⟨0x95⟩) s =
        .ok () { stack := [[0xff, 0xff, 0xff, 0xff, 0xff, 0xff, 0xff, 0x80]] } ∧
      execute r [] true 1 (Opcode.command ⟨0x95⟩) s ≠ (Arithmetic.binary .mul).outcome r s := by
  intro r largest s
  have hlow : 5 ≤ r.limits.numberLength := by decide
  have hhigh : r.limits.numberLength ≤ 7 := by decide
  obtain ⟨hexact, hmul⟩ := exact_iff_ne_mul hlow hhigh
  have hread : Number.decode (r.flags.contains .minimalData) r.limits.numberLength largest =
      .ok 0x7fffffffffffff := Number.decode_eq_ok_iff.2 (by decide)
  have hsum : Number.encode 0xfffffffffffffe = [0xfe, 0xff, 0xff, 0xff, 0xff, 0xff, 0xff, 0] :=
    Number.encode_value (d := [0xfe, 0xff, 0xff, 0xff, 0xff, 0xff, 0xff, 0]) rfl
  have hproduct : Number.encode (-0xffffffffffffff) =
      [0xff, 0xff, 0xff, 0xff, 0xff, 0xff, 0xff, 0x80] :=
    Number.encode_value (d := [0xff, 0xff, 0xff, 0xff, 0xff, 0xff, 0xff, 0x80]) rfl
  obtain ⟨hpushed, hiff⟩ := hmul [] 1 s largest largest [] _ _ rfl hread hread
  refine ⟨⟨hlow, hhigh⟩, ?_, ?_, fun h => absurd (hiff.1 h) (by decide)⟩
  · have hadd := (hexact ⟨⟨0x93⟩, "OP_ADD", .binary .add⟩ (by decide)).2 (by decide) [] 1 s
    have hitems : s.stack = [largest, largest].reverse ++ [] := rfl
    refine hadd.trans ?_
    rw [Arithmetic.outcome_append (a := .binary .add) hitems rfl, ← hsum]
    simp only [List.mapM_cons, List.mapM_nil, hread]
    rfl
  · rw [hpushed, ← hproduct]
    rfl

/-- Under a limit of five bytes the square of 2³² is zero and not 2⁶⁴. -/
theorem not_exact_square :
    let r : Rules := ⟨.none, { numberLength := 5 }, .refusing, .standard⟩
    let s : State := { stack := [Number.fiveBytes, Number.fiveBytes] }
    Number.decode (r.flags.contains .minimalData) r.limits.numberLength Number.fiveBytes =
        .ok 0x100000000 ∧
      execute r [] true 1 (Opcode.command ⟨0x95⟩) s = .ok () { stack := [[]] } ∧
      Number.value [] ≠ 0x100000000 * 0x100000000 := by
  intro r s
  have hread : Number.decode (r.flags.contains .minimalData) r.limits.numberLength
      Number.fiveBytes = .ok 0x100000000 := Number.decode_fiveBytes _ (by decide)
  refine ⟨hread, ?_, by decide⟩
  rw [command_eq_mul, ← Number.encode_zero]
  exact binary_mul_of_decode (s := s) rfl hread hread

end Exec

end BitcoinScript
