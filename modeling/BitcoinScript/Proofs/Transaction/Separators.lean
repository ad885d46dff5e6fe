import Mathlib.Logic.Relation
import BitcoinScript.Proofs.Script.Removal
import BitcoinScript.Proofs.Transaction.SignedCopy

/-!
# Code separators in signed scripts

A code separator can be inserted wherever an instruction of a script starts or the last one ends,
also in front of a cut-off push. Scripts that such insertions and their reversals lead to from one
another are those that are the same without their code separators, and a legacy digest is the same
for all of them. Other removals do not interfere, and bytes of data are no separators.
-/

namespace BitcoinScript

namespace Instr

def separator : Instr := ⟨.codeSeparator, []⟩

theorem isReadable_separator : separator.IsReadable := by
  rw [IsReadable]
  decide

theorem eq_separator {op : Instr} (h : op.IsReadable) (hcode : op.code = .codeSeparator) :
    op = separator := by
  obtain ⟨code, data⟩ := op
  obtain rfl : code = .codeSeparator := hcode
  have hempty : data.length < 1 := h
  rw [separator, List.length_eq_zero_iff.1 (Nat.lt_one_iff.1 hempty)]

end Instr

namespace Script

/-- An instruction starts at the position, or the last one ends there. -/
def IsBoundary (s : Script) (position : Nat) : Prop :=
  ∃ front back, s.instrs = front ++ back ∧ (ofInstrs front).length = position

def insertSeparator (s : Script) (position : Nat) : Script :=
  s.take position ++ Opcode.codeSeparator.byte :: s.drop position

/-- The second script has one more code separator, at a boundary of the first. -/
def AddsSeparator (s s' : Script) : Prop :=
  ∃ position, s.IsBoundary position ∧ s' = s.insertSeparator position

/-- Inserting and removing code separators at boundaries, any number of times, leads from one script
to the other. -/
def SameButSeparators : Script → Script → Prop := Relation.EqvGen AddsSeparator

/-! ## Inserting and removing -/

theorem insertSeparator_eq {s : Script} {front back : List Instr} (h : s.instrs = front ++ back) :
    s.insertSeparator (ofInstrs front).length =
      ofInstrs (front ++ .separator :: back) ++ s.tail := by
  have hsplit : s = ofInstrs front ++ (ofInstrs back ++ s.tail) := by
    have hwhole := ofInstrs_instrs_append_tail s
    rw [h, ofInstrs_append, List.append_assoc] at hwhole
    exact hwhole.symm
  have htake : s.take (ofInstrs front).length = ofInstrs front := by
    rw [hsplit, List.take_left]
  have hdrop : s.drop (ofInstrs front).length = ofInstrs back ++ s.tail := by
    rw [hsplit, List.drop_left, ← hsplit]
  rw [insertSeparator, htake, hdrop, ofInstrs_append, ofInstrs_cons, List.append_assoc]
  rfl

/-- A script with one more code separator, read as instructions. -/
theorem addsSeparator_iff {s s' : Script} :
    AddsSeparator s s' ↔ ∃ front back, s.instrs = front ++ back ∧
      s'.instrs = front ++ .separator :: back ∧ s'.tail = s.tail := by
  constructor
  · rintro ⟨_, ⟨front, back, hs, rfl⟩, rfl⟩
    have hreadable : ∀ op ∈ front ++ .separator :: back, op.IsReadable := by
      intro op hop
      by_cases hsep : op = .separator
      · exact hsep ▸ Instr.isReadable_separator
      · have hmem : op ∈ front ++ back := by
          simpa only [List.mem_append, List.mem_cons, hsep, false_or] using hop
        exact isReadable_of_mem_instrs (hs ▸ hmem)
    have hparse : parse (s.insertSeparator (ofInstrs front).length) =
        (front ++ .separator :: back, s.tail) := by
      rw [insertSeparator_eq hs]
      exact parse_ofInstrs_of_none hreadable (decode?_tail s)
    exact ⟨front, back, hs, by rw [instrs, hparse], by rw [tail.eq_def, hparse]⟩
  · rintro ⟨front, back, hs, hs', htail⟩
    refine ⟨_, ⟨front, back, hs, rfl⟩, ?_⟩
    rw [insertSeparator_eq hs, ← hs', ← htail, ofInstrs_instrs_append_tail]

theorem withoutCodeSeparators_of_addsSeparator {s s' : Script} (h : AddsSeparator s s') :
    withoutCodeSeparators s = withoutCodeSeparators s' := by
  obtain ⟨front, back, hs, hs', htail⟩ := addsSeparator_iff.1 h
  rw [withoutCodeSeparators_eq, withoutCodeSeparators_eq, keep, keep, hs, hs', htail,
    List.filter_append, List.filter_append, List.filter_cons_of_neg (by decide)]

/-- A script with a code separator has one more than some script with fewer instructions. -/
theorem exists_addsSeparator {s : Script} {op : Instr} (hop : op ∈ s.instrs)
    (hcode : op.code = .codeSeparator) :
    ∃ s', AddsSeparator s' s ∧ s'.instrs.length < s.instrs.length := by
  obtain rfl := Instr.eq_separator (isReadable_of_mem_instrs hop) hcode
  obtain ⟨front, back, hs⟩ := List.append_of_mem hop
  have hsub : (front ++ back).Sublist s.instrs :=
    hs ▸ (List.sublist_cons_self _ back).append_left front
  have hparse : parse (ofInstrs (front ++ back) ++ s.tail) = (front ++ back, s.tail) :=
    parse_ofInstrs_tail fun _ hmem => hsub.mem hmem
  have hinstrs : (ofInstrs (front ++ back) ++ s.tail).instrs = front ++ back :=
    congrArg Prod.fst hparse
  refine ⟨_, addsSeparator_iff.2 ⟨front, back, hinstrs, hs, (congrArg Prod.snd hparse).symm⟩, ?_⟩
  rw [hinstrs, hs, List.length_append, List.length_append, List.length_cons]
  omega

/-- All code separators go by removing one after the other. -/
theorem sameButSeparators_withoutCodeSeparators (s : Script) :
    SameButSeparators (withoutCodeSeparators s) s := by
  -- one separator less leaves fewer instructions
  induction hn : s.instrs.length using Nat.strongRecOn generalizing s with
  | ind n ih =>
    by_cases hany : ∃ op ∈ s.instrs, op.code = .codeSeparator
    · obtain ⟨op, hop, hcode⟩ := hany
      obtain ⟨s', hadds, hless⟩ := exists_addsSeparator hop hcode
      rw [← withoutCodeSeparators_of_addsSeparator hadds]
      exact .trans _ _ _ (ih _ (hn ▸ hless) s' rfl) (.rel _ _ hadds)
    · have hnone : ∀ op ∈ s.instrs, decide (op.code ≠ .codeSeparator) = true := fun op hop =>
        decide_eq_true fun hcode => hany ⟨op, hop, hcode⟩
      rw [withoutCodeSeparators_eq, keep_of_forall hnone]
      exact .refl s

/-- Two scripts differ in code separators only if they are the same without them. -/
theorem sameButSeparators_iff {s s' : Script} :
    SameButSeparators s s' ↔ withoutCodeSeparators s = withoutCodeSeparators s' := by
  constructor
  · intro h
    induction h with
    | rel s s' h => exact withoutCodeSeparators_of_addsSeparator h
    | refl s => rfl
    | symm s s' _ ih => exact ih.symm
    | trans s s' s'' _ _ ih ih' => exact ih.trans ih'
  · intro h
    have hs' := sameButSeparators_withoutCodeSeparators s'
    rw [← h] at hs'
    exact .trans _ _ _ (.symm _ _ (sameButSeparators_withoutCodeSeparators s)) hs'

/-! ## Other instructions -/

/-- Bytes of data are no code separators. -/
theorem data_withoutCodeSeparators (s : Script) :
    (withoutCodeSeparators s).instrs.flatMap (·.data) = s.instrs.flatMap (·.data) := by
  have hdata : ∀ ops : List Instr, (∀ op ∈ ops, op.IsReadable) →
      (ops.filter (·.code ≠ .codeSeparator)).flatMap (·.data) = ops.flatMap (·.data) := by
    intro ops h
    induction ops with
    | nil => rfl
    | cons op ops ih =>
        rw [List.forall_mem_cons] at h
        by_cases hcode : op.code = .codeSeparator
        · rw [List.filter_cons_of_neg (by simpa using hcode), ih h.2, List.flatMap_cons,
            Instr.eq_separator h.1 hcode]
          rfl
        · rw [List.filter_cons_of_pos (by simpa using hcode), List.flatMap_cons, ih h.2,
            List.flatMap_cons]
  rw [withoutCodeSeparators_eq, instrs_keep]
  exact hdata s.instrs fun _ => isReadable_of_mem_instrs

/-- It does not matter whether the code separators or the bytes of an instruction go first. -/
theorem findAndDelete?_withoutCodeSeparators {p : Bytes} (hp : IsInstr p) (s : Script) :
    ∃ t count count', findAndDelete? p s = some (t, count) ∧
      findAndDelete? p (withoutCodeSeparators s) = some (withoutCodeSeparators t, count') := by
  have hdelete := findAndDelete?_of_isInstr hp (withoutCodeSeparators s)
  rw [withoutCodeSeparators_eq, keep_comm, ← withoutCodeSeparators_eq,
    ← withoutCodeSeparators_eq] at hdelete
  exact ⟨_, _, _, findAndDelete?_of_isInstr hp s, hdelete⟩

end Script

namespace SigHash

open Script

theorem LegacyRequest.digest_of_sameButSeparators {q : LegacyRequest} {code : Script}
    (h : SameButSeparators q.code code) (c : Crypto) (cache : SigHashCache) :
    { q with code := code }.digest c cache = q.digest c cache := by
  have hsame : withoutCodeSeparators code = withoutCodeSeparators q.code :=
    (sameButSeparators_iff.1 h).symm
  have hfork : ¬usesForkId q.hashType q.flags = true := Bool.not_eq_true _ ▸ q.usesLegacy
  rw [digest, digest, signatureHash, signatureHash, if_neg hfork, if_neg hfork, legacy, legacy,
    hsame]

/-- Removing the code separators of a script filters its instructions, keeps its tail and all pushed
data, leaves nothing to remove and is not disturbed by deletions. So the legacy digest of an input
is the same for script codes that inserting and removing code separators turns into one another. -/
theorem separators_ignored :
    (∀ s : Script,
      withoutCodeSeparators s = ofInstrs (s.instrs.filter (·.code ≠ .codeSeparator)) ++ s.tail ∧
      (∀ op ∈ (withoutCodeSeparators s).instrs, op.code ≠ .codeSeparator) ∧
      withoutCodeSeparators (withoutCodeSeparators s) = withoutCodeSeparators s ∧
      (withoutCodeSeparators s).instrs.flatMap (·.data) = s.instrs.flatMap (·.data) ∧
      ∀ p, IsInstr p → ∃ t count count', findAndDelete? p s = some (t, count) ∧
        findAndDelete? p (withoutCodeSeparators s) = some (withoutCodeSeparators t, count')) ∧
    ∀ (c : Crypto) (cache : SigHashCache) (q : LegacyRequest) (code : Script),
      SameButSeparators q.code code →
        { q with code := code }.digest c cache = q.digest c cache := by
  refine ⟨fun s => ⟨withoutCodeSeparators_eq s, fun op hop => ?_, ?_, data_withoutCodeSeparators s,
    fun p hp => findAndDelete?_withoutCodeSeparators hp s⟩,
    fun c cache q code h => q.digest_of_sameButSeparators h c cache⟩
  · rw [withoutCodeSeparators_eq, instrs_keep] at hop
    exact of_decide_eq_true (List.mem_filter.1 hop).2
  · rw [withoutCodeSeparators_eq, withoutCodeSeparators_eq, keep_idem]

/-- Two separators go, one in front and one before the cut-off push at the end. The bytes of one
that are pushed, and those that the cut-off push would have, stay. -/
theorem separators_ignored_cutOff :
    let code : Script := [0xab, 0x02, 0xab, 0xab, 0xac, 0xab, 0x03, 0xab]
    let q : LegacyRequest := { LegacyRequest.change 0 ⟨0x01⟩ with code := code }
    withoutCodeSeparators code = [0x02, 0xab, 0xab, 0xac, 0x03, 0xab] ∧
      (∃ t count count', findAndDelete? [0xac] code = some (t, count) ∧
        findAndDelete? [0xac] (withoutCodeSeparators code) =
          some (withoutCodeSeparators t, count')) ∧
      { q with code := [0x02, 0xab, 0xab, 0xac, 0xab, 0xab, 0x03, 0xab] }.digest .standard
          (.ofTransaction .standard q.tx) =
        q.digest .standard (.ofTransaction .standard q.tx) := by
  intro code q
  obtain ⟨hall, hdigest⟩ := separators_ignored
  obtain ⟨hwithout, -, -, -, hdelete⟩ := hall code
  have hbytes : ofInstrs (code.instrs.filter (·.code ≠ .codeSeparator)) ++ code.tail =
      [0x02, 0xab, 0xab, 0xac, 0x03, 0xab] := by decide +kernel
  have hinstr : IsInstr [0xac] := ⟨⟨.checkSig, []⟩, by decide⟩
  have hsame : SameButSeparators code [0x02, 0xab, 0xab, 0xac, 0xab, 0xab, 0x03, 0xab] :=
    sameButSeparators_iff.2 (by decide +kernel)
  exact ⟨hwithout.trans hbytes, hdelete _ hinstr, hdigest _ _ q _ hsame⟩

end SigHash

end BitcoinScript
