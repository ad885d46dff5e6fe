import BitcoinScript.Proofs.Script.Filtering

/-!
# Reading a script item by item

A script is read by going from one item to the next. Where a position lies inside the script, either
an instruction can be read there, and the next item starts behind it, or there is an error in the
place of all that is left. `Script.ReadsFrom` is the relation between a position and the items that
are read from there on. It holds of exactly one list of items, so the reading always ends, and this
list comes from the instructions of the script and its tail.

The bytes of an instruction are read back wherever they stand, and exactly the instructions with
data that fit their opcode have this property.
-/

namespace BitcoinScript

namespace Instr

/-- The data have the length that the opcode announces, or one that its length field can tell. -/
def Fits (op : Instr) : Prop :=
  if op.code.byte < Opcode.pushData1.byte then op.data.length = op.code.byte.toNat
  else if op.code = .pushData1 then op.data.length ≤ 2 ^ 8 - 1
  else if op.code = .pushData2 then op.data.length ≤ 2 ^ 16 - 1
  else if op.code = .pushData4 then op.data.length ≤ 2 ^ 32 - 1
  else op.data = []

instance (op : Instr) : Decidable op.Fits :=
  inferInstanceAs (Decidable (ite _ _ _))

theorem fits_iff_isReadable {op : Instr} : op.Fits ↔ op.IsReadable := by
  have hle : ∀ {n k : Nat}, 0 < k → (n ≤ k - 1 ↔ n < k) := by
    intro n k hk
    omega
  rw [Fits, IsReadable, Opcode.lengthWidth]
  split
  · exact Iff.rfl
  · split
    · exact hle (by decide)
    · split
      · exact hle (by decide)
      · split
        · exact hle (by decide)
        · exact List.length_eq_zero_iff.symm.trans Nat.lt_one_iff.symm

theorem length_pos (op : Instr) : 0 < op.length := by
  rw [length]
  omega

/-- An instruction is read wherever its bytes stand. -/
theorem decodeAt?_append {op : Instr} (h : op.IsReadable) (front rest : Bytes) :
    decodeAt? (front ++ op.toBytes ++ rest) front.length =
      some (op, front.length + op.length) := by
  have hdec : decode? ((front ++ op.toBytes ++ rest).drop front.length) = some (op, rest) := by
    rw [List.append_assoc, List.drop_left, decode?_append h]
  have hnext : (front ++ op.toBytes ++ rest).length - rest.length = front.length + op.length := by
    rw [List.length_append, List.length_append, length_toBytes, Nat.add_sub_cancel]
  rw [decodeAt?, hdec, Option.map_some, hnext]

theorem isReadable_of_decodeAt? {script : Bytes} {position next : Nat} {op : Instr}
    (h : decodeAt? script position = some (op, next)) : op.IsReadable :=
  isReadable_of_decode? (drop_of_decodeAt? h).1

/-- The instructions that can be read back. -/
theorem isReadable_iff_decodeAt? {op : Instr} :
    op.IsReadable ↔ ∀ front rest : Bytes,
      decodeAt? (front ++ op.toBytes ++ rest) front.length =
        some (op, front.length + op.length) :=
  ⟨decodeAt?_append, fun h => isReadable_of_decodeAt? (h [] [])⟩

end Instr

namespace Script

/-- What is read at a position: nothing at the end of the script, the instruction that starts there,
or an error in the place of all that is left. -/
def itemAt? (s : Script) (position : Nat) : Option Item :=
  if s.length ≤ position then none
  else
    match Instr.decodeAt? s position with
    | some (op, next) => some ⟨position, .ok op, next⟩
    | none => some ⟨position, .error .badOpcode, s.length⟩

/-- The items that are read from a position on, each of them where the one before it ends, until
there is nothing more to read. -/
inductive ReadsFrom (s : Script) : (position : Nat) → List Item → Prop
  | done {position : Nat} : itemAt? s position = none → ReadsFrom s position []
  | next {position : Nat} {item : Item} {items : List Item} :
      itemAt? s position = some item → ReadsFrom s item.next items →
      ReadsFrom s position (item :: items)

section

variable {s : Script} {position : Nat}

theorem itemAt?_of_le (h : s.length ≤ position) : itemAt? s position = none := if_pos h

theorem itemAt?_of_decodeAt? {op : Instr} {next : Nat}
    (h : Instr.decodeAt? s position = some (op, next)) :
    itemAt? s position = some ⟨position, .ok op, next⟩ := by
  rw [itemAt?, if_neg (Nat.not_le.2 (Instr.lt_of_decodeAt? h).1), h]

theorem itemAt?_of_none (h : position < s.length) (hdec : Instr.decode? (s.drop position) = none) :
    itemAt? s position = some ⟨position, .error .badOpcode, s.length⟩ := by
  rw [itemAt?, if_neg (Nat.not_le.2 h), Instr.decodeAt?, hdec]
  rfl

/-- From a position on at most one list of items is read. -/
theorem ReadsFrom.unique {items items' : List Item} (h : ReadsFrom s position items)
    (h' : ReadsFrom s position items') : items = items' := by
  induction h generalizing items' with
  | done hnone =>
      cases h' with
      | done => rfl
      | next hsome _ =>
          rw [hnone] at hsome
          cases hsome
  | next hsome _ ih =>
      cases h' with
      | done hnone =>
          rw [hsome] at hnone
          cases hnone
      | next hsome' hrest =>
          rw [hsome] at hsome'
          cases hsome'
          rw [ih hrest]

/-- Where no instruction can be read, all that is left is the tail. -/
theorem tail_of_instrs_eq_nil (h : s.instrs = []) : Instr.decode? s = none ∧ s.tail = s := by
  cases hdec : Instr.decode? s with
  | none => exact ⟨rfl, by rw [tail, parse_of_none hdec]⟩
  | some next =>
      rw [instrs, parse_of_some hdec] at h
      cases h

theorem tail_of_instrs_drop {op : Instr} {ops : List Instr}
    (h : instrs (s.drop position) = op :: ops) :
    tail (s.drop (position + op.length)) = tail (s.drop position) := by
  have hdec := (Instr.drop_of_decodeAt? (decodeAt?_of_instrs_drop h).1).1
  rw [tail.eq_def (s.drop position), parse_of_some hdec]

/-- From every position inside the script the items of the instructions that are left are read. -/
theorem readsFrom_itemsFrom (h : position ≤ s.length) :
    ReadsFrom s position
      (itemsFrom position (instrs (s.drop position)) (tail (s.drop position))) := by
  generalize hops : instrs (s.drop position) = ops
  induction ops generalizing position with
  | nil =>
      obtain ⟨hdec, htail⟩ := tail_of_instrs_eq_nil hops
      rw [itemsFrom, htail]
      split
      · rename_i hnil
        exact .done (itemAt?_of_le (List.drop_eq_nil_iff.1 hnil))
      · rename_i hne
        have hlt : position < s.length := Nat.not_le.1 fun hle => hne (List.drop_eq_nil_iff.2 hle)
        have hend : position + (s.drop position).length = s.length := by
          rw [List.length_drop]
          omega
        rw [hend]
        exact .next (itemAt?_of_none hlt hdec) (.done (itemAt?_of_le (Nat.le_refl _)))
  | cons op ops ih =>
      obtain ⟨hat, hrest⟩ := decodeAt?_of_instrs_drop hops
      have hbehind := ih (Instr.le_length_of_decodeAt? hat) hrest
      rw [tail_of_instrs_drop hops] at hbehind
      exact .next (itemAt?_of_decodeAt? hat) hbehind

theorem readsFrom_zero_iff {items : List Item} : ReadsFrom s 0 items ↔ items = s.items := by
  have hitems : ReadsFrom s 0 s.items := readsFrom_itemsFrom (Nat.zero_le _)
  exact ⟨fun h => h.unique hitems, fun h => h ▸ hitems⟩

end

/-- The contents of items: the instructions, and an error for a tail. -/
theorem map_content_itemsFrom (position : Nat) (ops : List Instr) (tail : Bytes) :
    (itemsFrom position ops tail).map (·.content) =
      ops.map .ok ++ if tail = [] then [] else [.error .badOpcode] := by
  induction ops generalizing position with
  | nil =>
      rw [itemsFrom]
      split
      · rfl
      · rfl
  | cons op ops ih => rw [itemsFrom, List.map_cons, ih, List.map_cons, List.cons_append]

/-- The next item starts behind an instruction. -/
theorem next_of_mem_itemsFrom {position : Nat} {ops : List Instr} {tail : Bytes} {item : Item}
    {op : Instr} (h : item ∈ itemsFrom position ops tail) (hop : item.content = .ok op) :
    item.next = item.position + op.length := by
  induction ops generalizing position with
  | nil =>
      rw [itemsFrom] at h
      split at h
      · cases h
      · rw [List.mem_singleton.1 h] at hop
        cases hop
  | cons op' ops ih =>
      rcases List.mem_cons.1 h with rfl | hmem
      · cases hop
        rfl
      · exact ih hmem

/-- Reading a script item by item ends. It gives the instructions of the script in order, and one
error behind them exactly if they are not the whole script; their bytes and the tail are the script,
and each of them reaches up to the next item. Conversely, an instruction with data that fit its
opcode is read wherever its bytes stand, and no other is. -/
theorem items_codec (s : Script) :
    (∀ items, ReadsFrom s 0 items ↔ items = s.items) ∧
      s.items.map (·.content) =
        s.instrs.map .ok ++ (if s.tail = [] then [] else [.error .badOpcode]) ∧
      s = s.instrs.flatMap Instr.toBytes ++ s.tail ∧
      (∀ item ∈ s.items, ∀ op, item.content = .ok op →
        op.length = item.next - item.position ∧ 0 < op.length ∧ item.position < item.next) ∧
      ∀ op : Instr, op.Fits ↔ ∀ front rest : Bytes,
        Instr.decodeAt? (front ++ op.toBytes ++ rest) front.length =
          some (op, front.length + op.length) := by
  refine ⟨fun items => readsFrom_zero_iff, map_content_itemsFrom 0 s.instrs s.tail,
    (ofInstrs_instrs_append_tail s).symm, fun item hitem op hop => ?_, fun op =>
      Instr.fits_iff_isReadable.trans Instr.isReadable_iff_decodeAt?⟩
  have hnext := next_of_mem_itemsFrom hitem hop
  have hpos := op.length_pos
  exact ⟨by omega, hpos, by omega⟩

/-- Two pushes and an opcode, and behind them a push that lacks data. -/
def cutOff : Script := [0x01, 0xaa, 0x4c, 0x01, 0xcc, 0x76, 0x03, 0x01]

theorem items_codec_cutOff :
    ReadsFrom cutOff 0 cutOff.items ∧
      cutOff.items.map (·.content) =
        [.ok ⟨⟨0x01⟩, [0xaa]⟩, .ok ⟨⟨0x4c⟩, [0xcc]⟩, .ok ⟨⟨0x76⟩, []⟩, .error .badOpcode] ∧
      Instr.decodeAt? [0xff, 0x4c, 0x01, 0xcc, 0x76] 1 = some (⟨⟨0x4c⟩, [0xcc]⟩, 4) := by
  have hinstrs : cutOff.instrs = [⟨⟨0x01⟩, [0xaa]⟩, ⟨⟨0x4c⟩, [0xcc]⟩, ⟨⟨0x76⟩, []⟩] := by
    decide +kernel
  have htail : cutOff.tail ≠ [] := by decide +kernel
  have hfits : Instr.Fits ⟨⟨0x4c⟩, [0xcc]⟩ := by decide
  obtain ⟨hreads, hcontents, -, -, hop⟩ := items_codec cutOff
  rw [hinstrs, if_neg htail] at hcontents
  exact ⟨(hreads _).2 rfl, hcontents, (hop _).1 hfits [0xff] [0x76]⟩

end Script

end BitcoinScript
