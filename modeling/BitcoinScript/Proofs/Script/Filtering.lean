import Mathlib.Algebra.Group.Nat.Defs
import Mathlib.Data.List.Flatten
import BitcoinScript.Machine.SigCheck
import BitcoinScript.Proofs.Script.Deletion

/-!
# Removal as a filter

An instruction is *readable* if its data are as long as its opcode announces. Exactly these are read
from scripts, and readable instructions written one after the other are read back, whatever follows.
So a script and the list of its instructions with its tail say the same, and removing instructions
from a script is filtering the list: the bytes of a readable instruction start another one only by
being that instruction, and a tail starts with none. Code separators and the pushes of signatures
all go by `Script.keep`. Several signatures make one filter, in which their order does not show.
-/

namespace BitcoinScript

namespace Instr

/-- The data are as long as the opcode announces, or as its length field can tell. -/
def IsReadable (op : Instr) : Prop :=
  if op.code.byte < Opcode.pushData1.byte then op.data.length = op.code.byte.toNat
  else op.data.length < Bytes.capacity op.code.lengthWidth

theorem dataLength?_append {op : Instr} (h : op.IsReadable) (rest : Bytes) :
    dataLength? op.code (Bytes.ofNatLE op.code.lengthWidth op.data.length ++ rest) =
      some (op.data.length, rest) := by
  rw [IsReadable] at h
  rw [dataLength?]
  split at h
  · rename_i hlt
    rw [if_pos hlt, lengthWidth_eq_zero hlt, Bytes.ofNatLE_zero, List.nil_append, h]
  · rename_i hge
    have hsplit : Bytes.splitAt? op.code.lengthWidth
        (Bytes.ofNatLE op.code.lengthWidth op.data.length ++ rest) = some (_, rest) :=
      Bytes.splitAt?_eq_some_iff.2 ⟨rfl, Bytes.length_ofNatLE _ _⟩
    rw [if_neg hge, hsplit, Option.map_some, Bytes.toNatLE_ofNatLE, Nat.mod_eq_of_lt h]

theorem decode?_append {op : Instr} (h : op.IsReadable) (rest : Bytes) :
    decode? (op.toBytes ++ rest) = some (op, rest) := by
  have hdata : Bytes.splitAt? op.data.length (op.data ++ rest) = some (op.data, rest) :=
    Bytes.splitAt?_eq_some_iff.2 ⟨rfl, rfl⟩
  rw [toBytes, List.cons_append, List.cons_append, List.append_assoc, decode?,
    dataLength?_append h]
  show (Bytes.splitAt? op.data.length (op.data ++ rest) >>= _) = _
  rw [hdata]
  rfl

theorem isReadable_of_decode? {s rest : Bytes} {op : Instr} (h : decode? s = some (op, rest)) :
    op.IsReadable := by
  match s, h with
  | b :: bytes, h =>
    simp only [decode?, Option.bind_eq_bind, Option.bind_eq_some_iff, Option.pure_def,
      Option.some.injEq, Prod.mk.injEq, Prod.exists] at h
    obtain ⟨length, mid, hlen, data, tail, hdata, rfl, rfl⟩ := h
    obtain ⟨-, rfl⟩ := Bytes.splitAt?_eq_some_iff.1 hdata
    rw [dataLength?] at hlen
    rw [IsReadable]
    split at hlen
    · rename_i hlt
      rw [if_pos hlt]
      simp only [Option.some.injEq, Prod.mk.injEq] at hlen
      exact hlen.1.symm
    · rename_i hge
      rw [if_neg hge]
      obtain ⟨p, hp, hq⟩ := Option.map_eq_some_iff.1 hlen
      simp only [Prod.mk.injEq] at hq
      rw [← hq.1, ← (Bytes.splitAt?_eq_some_iff.1 hp).2]
      exact Bytes.toNatLE_lt_capacity p.1

theorem toBytes_inj {op op' : Instr} (h : op.IsReadable) (h' : op'.IsReadable)
    (heq : op.toBytes = op'.toBytes) : op = op' := by
  have hread := decode?_append h []
  rw [heq, decode?_append h'] at hread
  exact (Prod.mk.inj (Option.some.inj hread)).1.symm

theorem toBytes_ne_nil (op : Instr) : op.toBytes ≠ [] := List.cons_ne_nil _ _

end Instr

namespace Script

theorem parse_of_none {s : Script} (h : Instr.decode? s = none) : parse s = ([], s) := by
  rw [parse]
  split
  · rfl
  · rename_i hsome
    rw [h] at hsome
    exact nomatch hsome

theorem parse_of_some {s rest : Script} {op : Instr} (h : Instr.decode? s = some (op, rest)) :
    parse s = (op :: rest.instrs, rest.tail) := by
  rw [parse]
  split
  · rename_i hnone
    rw [h] at hnone
    exact nomatch hnone
  · rename_i op' rest' hsome
    rw [h, Option.some.injEq, Prod.mk.injEq] at hsome
    rw [hsome.1, hsome.2]
    rfl

theorem isReadable_of_mem_instrs {s : Script} {op : Instr} (h : op ∈ s.instrs) :
    op.IsReadable := by
  rw [instrs] at h
  fun_induction parse s with
  | case1 => exact absurd h List.not_mem_nil
  | case2 s op' rest hdec hlt ops tail heq ih =>
      rw [heq] at ih
      rcases List.mem_cons.1 h with rfl | hmem
      · exact Instr.isReadable_of_decode? hdec
      · exact ih hmem

theorem decode?_tail (s : Script) : Instr.decode? s.tail = none := by
  rw [tail]
  fun_induction parse s with
  | case1 s h => exact h
  | case2 s op rest hdec hlt ops tail heq ih =>
      rw [heq] at ih
      exact ih

/-- Instructions in front of a script are read in front of its own. -/
theorem parse_ofInstrs_append {ops : List Instr} (h : ∀ op ∈ ops, op.IsReadable) (s : Script) :
    parse (ofInstrs ops ++ s) = (ops ++ s.instrs, s.tail) := by
  induction ops with
  | nil => rfl
  | cons op ops ih =>
      rw [List.forall_mem_cons] at h
      have hops := ih h.2
      rw [ofInstrs_cons, List.append_assoc, parse_of_some (Instr.decode?_append h.1 _), instrs,
        tail, hops]
      rfl

theorem parse_ofInstrs_of_none {ops : List Instr} {tail : Bytes} (h : ∀ op ∈ ops, op.IsReadable)
    (htail : Instr.decode? tail = none) : parse (ofInstrs ops ++ tail) = (ops, tail) := by
  rw [parse_ofInstrs_append h, instrs, Script.tail, parse_of_none htail, List.append_nil]

/-- The instructions and the tail of some of the instructions of a script with its tail. -/
theorem parse_ofInstrs_tail {ops : List Instr} {s : Script} (h : ∀ op ∈ ops, op ∈ s.instrs) :
    parse (ofInstrs ops ++ s.tail) = (ops, s.tail) :=
  parse_ofInstrs_of_none (fun op hop => isReadable_of_mem_instrs (h op hop)) (decode?_tail s)

/-! ## Keeping instructions -/

/-- The script with the instructions that are kept, and with its tail. -/
def keep (keeps : Instr → Bool) (s : Script) : Script :=
  ofInstrs (s.instrs.filter keeps) ++ s.tail

section

variable (keeps keeps' : Instr → Bool) (s : Script)

theorem parse_keep : parse (keep keeps s) = (s.instrs.filter keeps, s.tail) :=
  parse_ofInstrs_tail fun _ hop => (List.mem_filter.1 hop).1

@[simp] theorem instrs_keep : (keep keeps s).instrs = s.instrs.filter keeps := by
  rw [instrs, parse_keep]

@[simp] theorem tail_keep : (keep keeps s).tail = s.tail := by
  rw [tail.eq_def, parse_keep]

theorem keep_keep : keep keeps' (keep keeps s) = keep (fun op => keeps' op && keeps op) s := by
  rw [keep, instrs_keep, tail_keep, List.filter_filter, keep]

theorem keep_comm : keep keeps' (keep keeps s) = keep keeps (keep keeps' s) := by
  rw [keep_keep, keep_keep]
  simp only [Bool.and_comm]

theorem keep_idem : keep keeps (keep keeps s) = keep keeps s := by
  rw [keep_keep]
  simp only [Bool.and_self]

theorem length_keep_le : (keep keeps s).length ≤ s.length := by
  have hsub : (ofInstrs (s.instrs.filter keeps)).Sublist (ofInstrs s.instrs) :=
    List.filter_sublist.flatMap Instr.toBytes
  have hwhole := (hsub.append (List.Sublist.refl s.tail)).length_le
  rwa [ofInstrs_instrs_append_tail] at hwhole

end

theorem keep_congr {keeps keeps' : Instr → Bool} {s : Script}
    (h : ∀ op ∈ s.instrs, keeps op = keeps' op) : keep keeps s = keep keeps' s := by
  rw [keep, List.filter_congr h, keep]

theorem keep_of_forall {keeps : Instr → Bool} {s : Script} (h : ∀ op ∈ s.instrs, keeps op = true) :
    keep keeps s = s := by
  rw [keep, List.filter_eq_self.2 h, ofInstrs_instrs_append_tail]

theorem withoutCodeSeparators_eq (s : Script) :
    withoutCodeSeparators s = keep (·.code ≠ .codeSeparator) s := by
  rw [keep]
  fun_induction withoutCodeSeparators s with
  | case1 s h => rw [instrs, tail, parse_of_none h]; rfl
  | case2 s op rest h hlt kept hsep ih =>
      rw [instrs, tail, parse_of_some h, List.filter_cons_of_neg (by simpa using hsep)]
      exact ih
  | case3 s op rest h hlt kept hsep ih =>
      rw [instrs, tail, parse_of_some h, List.filter_cons_of_pos (by simpa using hsep),
        ofInstrs_cons, List.append_assoc]
      exact congrArg (op.toBytes ++ ·) ih

/-! ## Pushes -/

section

variable {p : Instr}

theorem not_startsWith_of_decode? (hp : p.IsReadable) {s rest : Script} {op : Instr}
    (h : Instr.decode? s = some (op, rest)) (hne : op ≠ p) :
    ¬(p.toBytes ≠ [] ∧ p.toBytes.isPrefixOf s) := by
  rintro ⟨-, hpre⟩
  obtain ⟨t, rfl⟩ := List.isPrefixOf_iff_prefix.1 hpre
  rw [Instr.decode?_append hp] at h
  exact hne (Prod.mk.inj (Option.some.inj h)).1.symm

theorem not_startsWith_of_none (hp : p.IsReadable) {s : Script} (h : Instr.decode? s = none) :
    ¬(p.toBytes ≠ [] ∧ p.toBytes.isPrefixOf s) := by
  rintro ⟨-, hpre⟩
  obtain ⟨t, rfl⟩ := List.isPrefixOf_iff_prefix.1 hpre
  rw [Instr.decode?_append hp] at h
  exact nomatch h

/-- An occurrence in front goes, and is counted. -/
theorem findAndDelete_append (p : Instr) (s : Script) :
    findAndDelete p.toBytes (p.toBytes ++ s) =
      ((findAndDelete p.toBytes s).1, (findAndDelete p.toBytes s).2 + 1) := by
  have hpre : p.toBytes.isPrefixOf (p.toBytes ++ s) :=
    List.isPrefixOf_iff_prefix.2 (List.prefix_append _ _)
  have hstrip := stripFront_of_startsWith p.toBytes_ne_nil hpre
  rw [List.drop_left] at hstrip
  cases hdec : Instr.decode? (stripFront p.toBytes s).1 with
  | none =>
      have hfront : Instr.decode? (stripFront p.toBytes (p.toBytes ++ s)).1 = none := by
        rw [hstrip, hdec]
      rw [findAndDelete_of_none hdec, findAndDelete_of_none hfront, hstrip]
  | some next =>
      obtain ⟨op, rest⟩ := next
      have hfront : Instr.decode? (stripFront p.toBytes (p.toBytes ++ s)).1 = some (op, rest) := by
        rw [hstrip, hdec]
      rw [findAndDelete_of_some hdec, findAndDelete_of_some hfront, hstrip, Nat.add_right_comm]

/-- Deleting the bytes of a readable instruction removes the instruction wherever it stands. -/
theorem findAndDelete_toBytes (hp : p.IsReadable) (s : Script) :
    findAndDelete p.toBytes s = (keep (· ≠ p) s, s.instrs.count p) := by
  rw [keep, instrs, tail]
  fun_induction parse s with
  | case1 s h =>
      have hstrip := stripFront_of_not_startsWith (not_startsWith_of_none hp h)
      rw [findAndDelete_of_none (by rw [hstrip, h]), hstrip]
      rfl
  | case2 s op rest h hlt ops tail heq ih =>
      rw [heq] at ih
      by_cases hop : op = p
      · subst hop
        rw [Instr.eq_append_of_decode? h, findAndDelete_append, ih,
          List.filter_cons_of_neg (by simp), List.count_cons_self]
      · have hstrip := stripFront_of_not_startsWith (not_startsWith_of_decode? hp h hop)
        rw [findAndDelete_of_some (by rw [hstrip, h]), hstrip, ih,
          List.filter_cons_of_pos (by simpa using hop), List.count_cons_of_ne hop, ofInstrs_cons,
          List.append_assoc, Nat.zero_add]

end

end Script

namespace Signature

/-- Whether a signature removes an instruction from the script code that it commits to: it is the
push of the signature, unless the signature keeps the code. -/
def removes (flags : Flags) (sig : Bytes) (op : Instr) : Bool :=
  !keepsCode flags sig && op.toBytes = pushed sig

/-- The push of a signature is readable if the length field of the longest push can hold its
length. -/
theorem isReadable_pushed {sig : Bytes} (h : sig.length < 2 ^ 32) :
    (⟨Instr.opcodeForLength sig.length, sig⟩ : Instr).IsReadable := by
  show if (Instr.opcodeForLength sig.length).byte < Opcode.pushData1.byte then _ else _
  rw [Instr.opcodeForLength]
  split
  · rename_i hlt
    have hbyte : (UInt8.ofNat sig.length).toNat = sig.length :=
      UInt8.toNat_ofNat_of_lt (Nat.lt_trans hlt (by decide))
    rw [if_pos (UInt8.lt_iff_toNat_lt.2 (by rw [hbyte]; exact hlt)), hbyte]
  · split
    · exact Nat.lt_succ_of_le ‹_›
    · split
      · exact Nat.lt_succ_of_le ‹_›
      · exact h

theorem cleanCode_eq {flags : Flags} {sig : Bytes} (h : sig.length < 2 ^ 32) (code : Script) :
    cleanCode flags code sig = Script.keep (!removes flags sig ·) code := by
  rw [cleanCode]
  split
  · rename_i hkeeps
    exact (Script.keep_of_forall fun op _ => by rw [removes, hkeeps]; rfl).symm
  · rename_i hkeeps
    have hsame : Script.keep (· ≠ ⟨Instr.opcodeForLength sig.length, sig⟩) code =
        Script.keep (!removes flags sig ·) code := by
      refine Script.keep_congr fun op hop => ?_
      rw [removes, Bool.eq_false_iff.2 hkeeps, Bool.not_false, Bool.true_and, ← decide_not]
      refine decide_eq_decide.2 (not_congr ⟨fun h => by rw [h]; rfl, fun heq => ?_⟩)
      exact Instr.toBytes_inj (Script.isReadable_of_mem_instrs hop) (isReadable_pushed h) heq
    rw [pushed, Script.findAndDelete_toBytes (isReadable_pushed h), hsame]

/-- Cleaning a script code of several signatures is one filter. -/
theorem foldl_cleanCode_eq {flags : Flags} {sigs : List Bytes}
    (h : ∀ sig ∈ sigs, sig.length < 2 ^ 32) (code : Script) :
    sigs.foldl (cleanCode flags) code =
      Script.keep (fun op => !sigs.any (removes flags · op)) code := by
  induction sigs generalizing code with
  | nil => exact (Script.keep_of_forall fun _ _ => rfl).symm
  | cons sig sigs ih =>
      rw [List.forall_mem_cons] at h
      rw [List.foldl_cons, ih h.2, cleanCode_eq h.1, Script.keep_keep]
      simp only [List.any_cons, Bool.not_or, Bool.and_comm]

end Signature

end BitcoinScript
