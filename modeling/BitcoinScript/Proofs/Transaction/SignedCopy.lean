import BitcoinScript.Proofs.Script.Filtering
import BitcoinScript.Proofs.Transaction.Wire
import BitcoinScript.Transaction.SigHash

/-!
# The transaction that a legacy digest signs

A legacy digest is the hash of a transaction and a hash type, where the transaction is a copy of the
one that is signed in which everything that the signature does not commit to is left out or blanked.
The digest is computed without making this copy, by writing the fields of the transaction one by
one; `LegacyRequest.message_eq` says that the bytes are those of the copy. As the wire format is
unambiguous, the message determines the copy and the hash type.
-/

namespace BitcoinScript

theorem Bytes.ofList_map {α β : Type} (f : α → β) (form : β → Bytes) (items : List α) :
    ofList form (items.map f) = ofList (fun a => form (f a)) items := by
  rw [ofList, ofList, List.length_map, List.flatMap_map]

namespace SigHash

/-- The form of an input in the signed copy. The signed one holds the script code. The others hold
nothing, and keep their sequence number only if all outputs are signed. -/
def copyInput (index : Nat) (code : Script) (t : HashType) (i : Nat) (input : TxInput) : TxInput :=
  if i = index then { input with unlockScript := code }
  else if t.base = HashType.noOutputs ∨ t.base = HashType.single then
    { input with unlockScript := [], sequence := 0 }
  else { input with unlockScript := [] }

def copyInputs (tx : Transaction) (index : Nat) (code : Script) (t : HashType) : List TxInput :=
  if t.anyoneCanPay then tx.inputs[index]?.toList.map (copyInput index code t index)
  else tx.inputs.mapIdx (copyInput index code t)

def copyOutputs (tx : Transaction) (index : Nat) (t : HashType) : List TxOutput :=
  if t.base = HashType.noOutputs then []
  else if t.base = HashType.single then
    (tx.outputs.take (index + 1)).mapIdx fun i o => if i = index then o else TxOutput.null
  else tx.outputs

/-- The transaction that a legacy signature of an input signs. The script code goes into it without
its code separators. -/
def signedCopy (tx : Transaction) (index : Nat) (code : Script) (t : HashType) : Transaction where
  version := tx.version
  inputs := copyInputs tx index
    (Script.ofInstrs (code.instrs.filter (·.code ≠ .codeSeparator)) ++ code.tail) t
  outputs := copyOutputs tx index t
  lockTime := tx.lockTime

/-! ## The bytes of the copy -/

theorem legacyInput_eq (index : Nat) (code : Script) (t : HashType) (input : TxInput) (i : Nat) :
    legacyInput index code t input i = (copyInput index code t i input).bytes := by
  rw [legacyInput, copyInput, TxInput.bytes]
  by_cases hi : i = index
  · simp [hi]
  · by_cases hpart : t.base = HashType.noOutputs ∨ t.base = HashType.single
    · have hall : commitsToAll t.base = false :=
        Bool.eq_false_iff.2 fun h => commitsToAll_iff.1 h hpart
      simp [hi, hpart, hall]
    · have hall : commitsToAll t.base = true := commitsToAll_iff.2 hpart
      simp [hi, hpart, hall]

theorem filter_zipIdx_eq {α : Type} (as : List α) (index start : Nat) :
    ((as.zipIdx start).filter fun p => p.2 = start + index) =
      as[index]?.toList.map fun a => (a, start + index) := by
  induction as generalizing index start with
  | nil => rfl
  | cons a as ih =>
      rw [List.zipIdx_cons]
      cases index with
      | zero =>
          have hrest : ((as.zipIdx (start + 1)).filter fun p => p.2 = start + 0) = [] := by
            refine List.filter_eq_nil_iff.2 fun p hp => ?_
            have hle := (List.mem_zipIdx hp).1
            simp only [decide_eq_true_eq]
            omega
          rw [List.filter_cons_of_pos (by simp), hrest]
          rfl
      | succ index =>
          have hnext := ih index (start + 1)
          rw [Nat.add_right_comm] at hnext
          rw [List.filter_cons_of_neg (by simp), List.getElem?_cons_succ]
          exact hnext

theorem ofList_copyInputs (tx : Transaction) (index : Nat) (code : Script) (t : HashType) :
    Bytes.ofList (fun p : TxInput × Nat => legacyInput index code t p.1 p.2)
        (tx.inputs.zipIdx.filter fun p => !t.anyoneCanPay || p.2 = index) =
      Bytes.ofList TxInput.bytes (copyInputs tx index code t) := by
  simp only [legacyInput_eq]
  rw [copyInputs]
  by_cases hpay : t.anyoneCanPay = true
  · have hfilter := filter_zipIdx_eq tx.inputs index 0
    rw [Nat.zero_add] at hfilter
    simp only [hpay, Bool.not_true, Bool.false_or, if_true, hfilter, Bytes.ofList_map]
  · have hall : (tx.inputs.zipIdx.filter fun p => !t.anyoneCanPay || p.2 = index) =
        tx.inputs.zipIdx := List.filter_eq_self.2 fun p _ => by simp [hpay]
    rw [if_neg hpay, hall, List.mapIdx_eq_zipIdx_map, Bytes.ofList_map]

theorem zipIdx_take {α : Type} (as : List α) (n : Nat) :
    (as.take n).zipIdx = as.zipIdx.take n := by
  refine List.ext_getElem? fun i => ?_
  rw [List.getElem?_zipIdx, List.getElem?_take, List.getElem?_take]
  split
  · rw [List.getElem?_zipIdx]
  · rfl

/-- The outputs as a legacy digest writes them. -/
theorem ofList_copyOutputs {tx : Transaction} {index : Nat} {t : HashType}
    (h : t.base = HashType.single → index < tx.outputs.length) :
    Bytes.ofCount
          (if t.base = HashType.noOutputs then 0
          else if t.base = HashType.single then index + 1
          else tx.outputs.length) ++
        (tx.outputs.zipIdx.take
          (if t.base = HashType.noOutputs then 0
          else if t.base = HashType.single then index + 1
          else tx.outputs.length)).flatMap (fun p => legacyOutput index t p.1 p.2) =
      Bytes.ofList TxOutput.bytes (copyOutputs tx index t) := by
  rw [copyOutputs]
  by_cases hnone : t.base = HashType.noOutputs
  · rw [if_pos hnone, if_pos hnone]
    rfl
  · rw [if_neg hnone, if_neg hnone]
    by_cases hsingle : t.base = HashType.single
    · have hform : ∀ p : TxOutput × Nat, legacyOutput index t p.1 p.2 =
          (if p.2 = index then p.1 else TxOutput.null).bytes := by
        intro p
        rw [legacyOutput]
        by_cases hp : p.2 = index
        · simp [hp]
        · simp [hp, hsingle]
      have hlen : (tx.outputs.take (index + 1)).length = index + 1 :=
        List.length_take_of_le (h hsingle)
      simp only [if_pos hsingle, hform]
      rw [Bytes.ofList, List.length_mapIdx, hlen, List.mapIdx_eq_zipIdx_map, List.flatMap_map,
        zipIdx_take]
    · have hform : ∀ p : TxOutput × Nat, legacyOutput index t p.1 p.2 = p.1.bytes := by
        intro p
        rw [legacyOutput, if_neg fun hp => hsingle hp.1]
      have hall : tx.outputs.zipIdx.take tx.outputs.length = tx.outputs.zipIdx :=
        List.take_of_length_le (Nat.le_of_eq List.length_zipIdx)
      simp only [if_neg hsingle, hform]
      rw [hall, Bytes.ofList, ← List.flatMap_map (fun p : TxOutput × Nat => p.1) TxOutput.bytes,
        List.zipIdx_map_fst]

/-- A request for the digest of an input, under a hash type and flags that select the legacy
digest. -/
structure LegacyRequest where
  tx : Transaction
  index : Nat
  code : Script
  satoshis : Int64
  hashType : HashType
  flags : Flags
  usesLegacy : SigHash.usesForkId hashType flags = false

namespace LegacyRequest

def digest (c : Crypto) (cache : SigHashCache) (q : LegacyRequest) : Except Error (Digest 32) :=
  signatureHash c cache q.tx q.index q.code q.satoshis q.hashType q.flags

/-- There is no such input, or only the output at its index would be signed and there is none. -/
def SignsNothing (q : LegacyRequest) : Prop :=
  q.tx.inputs.length ≤ q.index ∨
    q.hashType.base = HashType.single ∧ q.tx.outputs.length ≤ q.index

def message (q : LegacyRequest) : Bytes :=
  legacyMessage q.tx q.index (Script.withoutCodeSeparators q.code) q.hashType

/-- The transaction that is signed if there is something to sign. -/
def copy (q : LegacyRequest) : Transaction := signedCopy q.tx q.index q.code q.hashType

/-- The lengths in the transaction and that of the script code fit into the 64 bits in which they
are written. -/
structure Fits (q : LegacyRequest) : Prop where
  tx : q.tx.Fits
  code : q.code.length < 2 ^ 64

theorem message_eq {q : LegacyRequest} (h : ¬q.SignsNothing) :
    q.message = q.copy.bytes ++ Bytes.ofUInt32 q.hashType.byte.toUInt32 := by
  have hsingle : q.hashType.base = HashType.single → q.index < q.tx.outputs.length :=
    fun hbase => Nat.lt_of_not_le fun hle => h (Or.inr ⟨hbase, hle⟩)
  rw [message, legacyMessage, ofList_copyInputs, List.append_assoc (_ ++ _) (Bytes.ofCount _),
    ofList_copyOutputs hsingle, Script.withoutCodeSeparators_eq]
  rfl

/-! ## What is hashed -/

theorem digest_of_signsNothing {q : LegacyRequest} (h : q.SignsNothing) (c : Crypto)
    (cache : SigHashCache) : q.digest c cache = .ok one := by
  rw [digest, signatureHash, if_neg (Bool.not_eq_true _ ▸ q.usesLegacy), legacy]
  by_cases hinput : q.tx.inputs.length ≤ q.index
  · rw [if_pos hinput]
  · rw [if_neg hinput, if_pos (h.resolve_left hinput)]

theorem digest_of_not_signsNothing {q : LegacyRequest} (h : ¬q.SignsNothing) (c : Crypto)
    (cache : SigHashCache) : q.digest c cache = .ok (c.sha256d q.message) := by
  obtain ⟨hinput, hsingle⟩ := not_or.1 h
  rw [digest, signatureHash, if_neg (Bool.not_eq_true _ ▸ q.usesLegacy), legacy, if_neg hinput,
    if_neg hsingle]
  rfl

theorem length_copyInputs_le (tx : Transaction) (index : Nat) (code : Script) (t : HashType) :
    (copyInputs tx index code t).length ≤ tx.inputs.length := by
  rw [copyInputs]
  split
  · rw [List.length_map]
    cases hinput : tx.inputs[index]? with
    | none => exact Nat.zero_le _
    | some input =>
        have hlt : index < tx.inputs.length := (List.getElem?_eq_some_iff.1 hinput).1
        exact Nat.lt_of_le_of_lt (Nat.zero_le index) hlt
  · exact Nat.le_of_eq List.length_mapIdx

/-- An input of the copy holds the script code or nothing. -/
theorem length_unlockScript_le {tx : Transaction} {index : Nat} {code : Script} {t : HashType}
    {input : TxInput} (h : input ∈ copyInputs tx index code t) :
    input.unlockScript.length ≤ code.length := by
  have hform : ∀ i input, (copyInput index code t i input).unlockScript.length ≤ code.length := by
    intro i input
    rw [copyInput]
    split
    · exact Nat.le_refl _
    · split
      · exact Nat.zero_le _
      · exact Nat.zero_le _
  rw [copyInputs] at h
  split at h
  · obtain ⟨original, -, rfl⟩ := List.mem_map.1 h
    exact hform index original
  · obtain ⟨i, hi, rfl⟩ := List.mem_mapIdx.1 h
    exact hform i tx.inputs[i]

theorem length_copyOutputs_le (tx : Transaction) (index : Nat) (t : HashType) :
    (copyOutputs tx index t).length ≤ tx.outputs.length := by
  rw [copyOutputs]
  split
  · exact Nat.zero_le _
  · split
    · rw [List.length_mapIdx]
      exact List.length_take_le' _ _
    · exact Nat.le_refl _

/-- An output of the copy is one of the transaction or holds no script. -/
theorem mem_copyOutputs {tx : Transaction} {index : Nat} {t : HashType} {o : TxOutput}
    (h : o ∈ copyOutputs tx index t) : o ∈ tx.outputs ∨ o = TxOutput.null := by
  rw [copyOutputs] at h
  split at h
  · exact nomatch h
  · split at h
    · obtain ⟨i, hi, rfl⟩ := List.mem_mapIdx.1 h
      split
      · exact Or.inl (List.mem_of_mem_take (List.getElem_mem hi))
      · exact Or.inr rfl
    · exact Or.inl h

/-- The copy is written with lengths that are not greater. -/
theorem Fits.copy {q : LegacyRequest} (h : q.Fits) : q.copy.Fits where
  inputs := Nat.lt_of_le_of_lt (length_copyInputs_le _ _ _ _) h.tx.inputs
  outputs := Nat.lt_of_le_of_lt (length_copyOutputs_le _ _ _) h.tx.outputs
  unlockScripts input hinput :=
    Nat.lt_of_le_of_lt (Nat.le_trans (length_unlockScript_le hinput) (Script.length_keep_le _ _))
      h.code
  lockScripts o ho := by
    rcases mem_copyOutputs ho with hmem | rfl
    · exact h.tx.lockScripts o hmem
    · exact Nat.two_pow_pos 64

/-- The legacy digest is the hash of the signed copy and the hash type, or the number one where
there is nothing to sign. Different copies or types are hashed as different byte strings. -/
theorem digest_eq_sha256d_copy (c : Crypto) (cache : SigHashCache) (q : LegacyRequest) :
    (q.SignsNothing → q.digest c cache = .ok one) ∧
      (¬q.SignsNothing →
        q.digest c cache = .ok (c.sha256d q.message) ∧
          q.message = q.copy.bytes ++ Bytes.ofUInt32 q.hashType.byte.toUInt32) ∧
      ∀ q' : LegacyRequest, ¬q.SignsNothing → ¬q'.SignsNothing → q.Fits → q'.Fits →
        (q.copy, q.hashType) ≠ (q'.copy, q'.hashType) → q.message ≠ q'.message := by
  refine ⟨fun h => digest_of_signsNothing h c cache,
    fun h => ⟨digest_of_not_signsNothing h c cache, message_eq h⟩, ?_⟩
  intro q' h h' hfits hfits' hne heq
  rw [message_eq h, message_eq h'] at heq
  obtain ⟨hcopy, htype⟩ := Transaction.delimited_bytes hfits.copy hfits'.copy heq
  have hbyte : q.hashType.byte = q'.hashType.byte := UInt8.toUInt32_inj.1 (Bytes.ofUInt32_inj htype)
  have hhashType : q.hashType = q'.hashType := by
    rw [← HashType.mk.injEq] at hbyte
    exact hbyte
  exact hne (by rw [hcopy, hhashType])

/-- The digest of an input of a payment whose second output is change. -/
def change (index : Nat) (t : HashType) : LegacyRequest where
  tx := ⟨1, [⟨⟨Digest.zero 32, 0⟩, [0x51], 7⟩, ⟨⟨Digest.zero 32, 1⟩, [], 8⟩],
    [⟨60, [0x52]⟩, ⟨30, [0x53]⟩], 0⟩
  index := index
  code := [0xab, 0xac, 0x4c]
  satoshis := 100
  hashType := t
  flags := .none
  usesLegacy := by rw [SigHash.usesForkId]; exact Bool.and_false _

/-- There is no third input. With one output signed, the copy of the second input has a null output
in front, and it is hashed as other bytes than the copy without the first input. -/
theorem digest_eq_sha256d_copy_change :
    (change 2 ⟨0x01⟩).digest .standard (.ofTransaction .standard (change 2 ⟨0x01⟩).tx) = .ok one ∧
      (change 1 ⟨0x03⟩).digest .standard (.ofTransaction .standard (change 1 ⟨0x03⟩).tx) =
        .ok (Crypto.standard.sha256d
          ((change 1 ⟨0x03⟩).copy.bytes ++ Bytes.ofUInt32 (0x03 : UInt8).toUInt32)) ∧
      (change 1 ⟨0x03⟩).copy.outputs = [TxOutput.null, ⟨30, [0x53]⟩] ∧
      (change 1 ⟨0x03⟩).message ≠ (change 1 ⟨0x83⟩).message := by
  have hsigns : ∀ t, ¬(change 1 t).SignsNothing := fun t => not_or.2
    ⟨(by decide : ¬2 ≤ 1), fun h => absurd h.2 (by decide : ¬2 ≤ 1)⟩
  have hfits : ∀ t, (change 1 t).Fits := fun t =>
    { tx :=
        { inputs := (by decide : 2 < 2 ^ 64)
          outputs := (by decide : 2 < 2 ^ 64)
          unlockScripts := show ∀ i ∈ (change 1 ⟨0⟩).tx.inputs, _ by decide
          lockScripts := show ∀ o ∈ (change 1 ⟨0⟩).tx.outputs, _ by decide }
      code := (by decide : 3 < 2 ^ 64) }
  have hcopies : ((change 1 ⟨0x03⟩).copy, (change 1 ⟨0x03⟩).hashType) ≠
      ((change 1 ⟨0x83⟩).copy, (change 1 ⟨0x83⟩).hashType) := fun h =>
    absurd (congrArg (·.2.byte) h) (by decide : (0x03 : UInt8) ≠ 0x83)
  refine ⟨(digest_eq_sha256d_copy _ _ (change 2 ⟨0x01⟩)).1 (Or.inl (Nat.le_refl 2)), ?_, rfl, ?_⟩
  · obtain ⟨hdigest, hmessage⟩ := (digest_eq_sha256d_copy .standard
      (.ofTransaction .standard (change 1 ⟨0x03⟩).tx) (change 1 ⟨0x03⟩)).2.1 (hsigns _)
    rw [hdigest, hmessage]
    rfl
  · exact (digest_eq_sha256d_copy .standard (.ofTransaction .standard (change 1 ⟨0x03⟩).tx)
      (change 1 ⟨0x03⟩)).2.2 (change 1 ⟨0x83⟩) (hsigns _) (hsigns _) (hfits _) (hfits _) hcopies

end LegacyRequest

end SigHash

end BitcoinScript
