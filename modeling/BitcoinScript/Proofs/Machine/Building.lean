import BitcoinScript.Proofs.Machine.MinimalPushes
import BitcoinScript.Proofs.Number.Codec
import BitcoinScript.Proofs.Number.Length

/-!
# Scripts of values and numbers

A script is built by appending pushes of byte strings and of numbers. The opcode for a number is
chosen by the number and the one for a byte string by its bytes, and both choices come to the same:
pushing a number is pushing its shortest byte string. So a script that is built in this way consists
of one shortest push for each thing that was appended, and it leaves just these on the stack.
-/

namespace BitcoinScript

/-- A number that has an opcode is zero, or the opcode stands for it. -/
theorem Opcode.cases_of_ofSmallInt? {n : Int} {code : Opcode} (h : ofSmallInt? n = some code) :
    n = 0 ∧ code = op0 ∨ code.smallInt? = some n := by
  rw [ofSmallInt?] at h
  split at h
  · rename_i hneg
    rw [hneg, ← Option.some.inj h]
    exact Or.inr rfl
  · split at h
    · exact Or.inl ⟨‹_›, (Option.some.inj h).symm⟩
    · split at h
      · have htable : ∀ k : Fin 16,
            (⟨UInt8.ofNat (op1.byte.toNat + (k + 1) - 1)⟩ : Opcode).smallInt? =
              some ((k + 1 : Nat) : Int) := by decide
        obtain ⟨k, rfl⟩ : ∃ k : Fin 16, n = ((k + 1 : Nat) : Int) :=
          ⟨⟨n.toNat - 1, by omega⟩, by dsimp only; omega⟩
        rw [← Option.some.inj h]
        exact Or.inr (htable k)
      · cases h

/-- Pushing a number is pushing its shortest byte string. -/
theorem Instr.pushInt_eq_pushData (n : Int) : pushInt n = pushData (Number.encode n) := by
  rw [pushInt]
  split
  · rename_i code hcode
    rcases Opcode.cases_of_ofSmallInt? hcode with ⟨rfl, rfl⟩ | hn
    · rw [Number.encode_zero]
      rfl
    · exact (pushData_encode_of_smallInt? hn).symm
  · rfl

theorem Number.isWord_toInt (n : Int64) : IsWord n.toInt := by
  have hlow := n.le_toInt
  have hhigh := n.toInt_lt
  have hcapacity : Bytes.capacity 8 = 0x10000000000000000 := rfl
  rw [IsWord, hcapacity]
  omega

inductive Pushed where
  | data (d : Bytes)
  | number (n : Int64)

def Pushed.value : Pushed → Bytes
  | .data d => d
  | .number n => Number.encode n.toInt

namespace Script

def appendPushed (s : Script) : Pushed → Script
  | .data d => s.appendData d
  | .number n => s.appendNumber n.toInt

/-- The script that is built by appending pushes one after the other. -/
def ofPushed (items : List Pushed) : Script := items.foldl appendPushed []

theorem appendPushed_eq (s : Script) (item : Pushed) :
    s.appendPushed item = s ++ (Instr.pushData item.value).toBytes := by
  cases item with
  | data d => rfl
  | number n =>
      show s ++ (Instr.pushInt n.toInt).toBytes = _
      rw [Instr.pushInt_eq_pushData]
      rfl

theorem foldl_appendPushed (s : Script) (items : List Pushed) :
    items.foldl appendPushed s = s ++ ofInstrs ((items.map Pushed.value).map Instr.pushData) := by
  induction items generalizing s with
  | nil => exact (List.append_nil s).symm
  | cons item items ih =>
      rw [List.foldl_cons, ih, appendPushed_eq, List.append_assoc]
      rfl

/-- The instructions of a script that is built are the shortest pushes of what was appended, and it
leaves their values on the stack. -/
theorem ofPushed_eq (items : List Pushed) :
    ofPushed items = ofInstrs ((items.map Pushed.value).map Instr.pushData) := by
  rw [ofPushed, foldl_appendPushed, List.nil_append]

end Script

theorem Pushed.length_value_le {items : List Pushed} {size : Nat} (hsize : 9 ≤ size)
    (hitems : ∀ d, .data d ∈ items → d.length ≤ size) :
    ∀ v ∈ items.map value, v.length ≤ size := by
  intro v hv
  obtain ⟨item, hitem, rfl⟩ := List.mem_map.1 hv
  cases item with
  | data d => exact hitems d hitem
  | number n => exact Nat.le_trans (Number.length_encode_of_isWord (Number.isWord_toInt n)) hsize

/-- A script that is built from byte strings and numbers is complete and only pushes, and it has one
instruction for each of them, the shortest push of its value. If the limits leave room for the
script, for nine bytes and for the stack, it is evaluated without an error and leaves the values in
order on what the stack held before, whatever the flags. Numbers and their shortest byte strings are
pushed alike. -/
theorem Script.eval_ofPushed (r : Rules) (items : List Pushed)
    (hitems : ∀ d, .data d ∈ items → d.length ≤ r.limits.itemSize ∧ d.length < 2 ^ 32) :
    (ofPushed items).isPushOnly ∧
    (ofPushed items).tail = [] ∧
    (ofPushed items).instrs = items.map (fun item => Instr.pushData item.value) ∧
    (9 ≤ r.limits.itemSize → (ofPushed items).length ≤ r.limits.scriptSize →
      ∀ (stack : Stack Bytes) (calls : List SigCall),
        items.length + stack.length ≤ r.limits.stackDepth →
        eval r (ofPushed items) ⟨stack, calls⟩ =
          .ok () ⟨(items.map Pushed.value).reverse ++ stack, calls⟩) ∧
    ∀ n : Int64, Instr.pushInt n.toInt = Instr.pushData (Number.encode n.toInt) := by
  have hshort : ∀ v ∈ items.map Pushed.value, v.length < 2 ^ 32 := by
    have hle : ∀ v ∈ items.map Pushed.value, v.length ≤ 2 ^ 32 - 1 :=
      Pushed.length_value_le (by decide) fun d hd => Nat.le_sub_one_of_lt (hitems d hd).2
    exact fun v hv => Nat.lt_of_le_sub_one (by decide) (hle v hv)
  have hparse := parse_pushData hshort
  rw [← ofPushed_eq] at hparse
  refine ⟨?_, congrArg Prod.snd hparse, ?_, fun hnumber hsize stack calls hdepth => ?_,
    fun n => Instr.pushInt_eq_pushData n.toInt⟩
  · rw [ofPushed_eq]
    exact isPushOnly_pushData hshort
  · rw [instrs, hparse, List.map_map]
    rfl
  · have hroom := Pushed.length_value_le hnumber fun d hd => (hitems d hd).1
    rw [ofPushed_eq] at hsize ⊢
    refine eval_pushData hshort hroom ?_ hsize
    rwa [List.length_map]

/-- The smallest number takes nine bytes, and a byte string of 76 bytes needs a length field. The
number five and its byte are pushed by one opcode. -/
theorem Script.eval_ofPushed_fourItems :
    let r : Rules := ⟨.ofList [.minimalData], { itemSize := 76 }, .refusing, .standard⟩
    let long : Bytes := List.replicate 76 0
    let smallest : Bytes := [0, 0, 0, 0, 0, 0, 0, 0x80, 0x80]
    let items : List Pushed := [.number Int64.minValue, .data long, .number 5, .data [5]]
    let script : Script := [9] ++ smallest ++ [0x4c, 76] ++ long ++ [0x55, 0x55]
    ofPushed items = script ∧
      eval r script ⟨[[7]], []⟩ = .ok () ⟨[[5], [5], long, smallest, [7]], []⟩ := by
  intro r long smallest items script
  have hsmallest : Number.encode Int64.minValue.toInt = smallest :=
    Number.encode_value (d := smallest) rfl
  have hfive : Number.encode (5 : Int64).toInt = [5] := Number.encode_value (d := [5]) rfl
  have hvalues : items.map Pushed.value = [smallest, long, [5], [5]] := by
    simp only [items, List.map_cons, List.map_nil, Pushed.value, hsmallest, hfive]
  have hscript : ofPushed items = script := by
    rw [ofPushed_eq, hvalues]
    decide
  have hitems : ∀ d, .data d ∈ items → d.length ≤ r.limits.itemSize ∧ d.length < 2 ^ 32 := by
    intro d hd
    obtain rfl | rfl : d = long ∨ d = [5] := by simpa [items] using hd
    · decide
    · decide
  obtain ⟨-, -, -, heval, -⟩ := eval_ofPushed r items hitems
  have hsize : (ofPushed items).length ≤ r.limits.scriptSize := by
    rw [hscript]
    decide
  have hleft := heval (by decide) hsize [[7]] [] (by decide)
  rw [hscript, hvalues] at hleft
  exact ⟨hscript, hleft⟩

end BitcoinScript
