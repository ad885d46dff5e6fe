import BitcoinScript.Proofs.Transaction.Wire
import BitcoinScript.Transaction.SigHash
import Mathlib.Tactic.ByContra
import Mathlib.Tactic.SplitIfs

/-!
# What a digest with the fork identifier commits to

`ForkIdRequest.commitment` lists the data that a digest with the fork identifier depends on. The
hashed message can be computed from it alone, so equal commitments have equal digests. The other way
round, every field of the message starts at a place that the fields before it determine, and what
stands there gives the field back. Three fields are hashes themselves, or zeros in place of one, so
equal digests have equal commitments unless the hash takes one value twice or is zero.
-/

namespace BitcoinScript

namespace Crypto

/-- Two different ones of some byte strings have one hash. -/
def Collides (c : Crypto) (strings : List Bytes) : Prop :=
  ∃ x ∈ strings, ∃ y ∈ strings, x ≠ y ∧ c.sha256d x = c.sha256d y

/-- One of some byte strings has the hash that consists of zeros. -/
def ReachesZero (c : Crypto) (strings : List Bytes) : Prop :=
  ∃ x ∈ strings, c.sha256d x = Digest.zero 32

/-- The hash of a byte string, or zeros where there is none. -/
def hashOrZero (c : Crypto) : Option Bytes → Digest 32
  | some bytes => c.sha256d bytes
  | none => Digest.zero 32

theorem eq_of_sha256d_eq {c : Crypto} {strings : List Bytes} (hc : ¬c.Collides strings)
    {x y : Bytes} (hx : x ∈ strings) (hy : y ∈ strings) (h : c.sha256d x = c.sha256d y) :
    x = y := by
  by_contra hne
  exact hc ⟨x, hx, y, hy, hne, h⟩

/-- Zeros in place of a hash are not mistaken for one. -/
theorem eq_of_hashOrZero_eq {c : Crypto} {strings : List Bytes} (hc : ¬c.Collides strings)
    (hz : ¬c.ReachesZero strings) {x y : Option Bytes} (hx : ∀ bytes ∈ x, bytes ∈ strings)
    (hy : ∀ bytes ∈ y, bytes ∈ strings) (h : c.hashOrZero x = c.hashOrZero y) : x = y := by
  cases x with
  | none =>
      cases y with
      | none => rfl
      | some bytes => exact absurd ⟨bytes, hy bytes rfl, h.symm⟩ hz
  | some bytes =>
      cases y with
      | none => exact absurd ⟨bytes, hx bytes rfl, h⟩ hz
      | some bytes' => rw [eq_of_sha256d_eq hc (hx bytes rfl) (hy bytes' rfl) h]

end Crypto

theorem Digest.delimited_bytes {size : Nat} :
    Bytes.Delimited (fun _ => True) fun d : Digest size => d.bytes :=
  Bytes.delimited_of_length Digest.length_bytes fun _ _ => Digest.ext

/-- Behind a script a known number of bytes is left, so its length needs no bound. -/
theorem Script.counted_append_inj {s t : Script} {rest rest' : Bytes}
    (hlen : rest.length = rest'.length) (h : counted s ++ rest = counted t ++ rest') :
    s = t ∧ rest = rest' := by
  obtain ⟨hcounted, hrest⟩ := List.append_inj' h hlen
  have hsize := congrArg List.length hcounted
  rw [counted, counted, List.length_append, List.length_append, Bytes.length_ofCount,
    Bytes.length_ofCount] at hsize
  have hlength : s.length = t.length := by
    unfold Bytes.countSize at hsize
    split_ifs at hsize <;> omega
  rw [counted, counted, hlength] at hcounted
  exact ⟨List.append_cancel_left hcounted, hrest⟩

namespace SigHash

inductive SignedOutputs where
  | all (outputs : List TxOutput)
  | single (output : Option TxOutput)
  | none
  deriving DecidableEq

def SignedOutputs.bytes? : SignedOutputs → Option Bytes
  | all outputs => some (outputs.flatMap TxOutput.bytes)
  | single output => output.map TxOutput.bytes
  | none => Option.none

/-- What a digest with the fork identifier commits to. -/
@[ext] structure Commitment where
  hashType : HashType
  version : UInt32
  lockTime : UInt32
  code : Script
  satoshis : Int64
  prevOutput : OutPoint
  sequence : UInt32
  /-- All out points that are spent, unless anyone can add inputs. -/
  prevOutputs : Option (List OutPoint)
  /-- All sequence numbers, unless anyone can add inputs or not all outputs are signed. -/
  sequences : Option (List UInt32)
  outputs : SignedOutputs

namespace Commitment

def prevOutputBytes? (k : Commitment) : Option Bytes :=
  k.prevOutputs.map (·.flatMap OutPoint.bytes)

def sequenceBytes? (k : Commitment) : Option Bytes :=
  k.sequences.map (·.flatMap Bytes.ofUInt32)

def message (c : Crypto) (k : Commitment) : Bytes :=
  Bytes.ofUInt32 k.version ++ (c.hashOrZero k.prevOutputBytes?).bytes ++
    (c.hashOrZero k.sequenceBytes?).bytes ++ k.prevOutput.bytes ++ Script.counted k.code ++
    Bytes.ofInt64 k.satoshis ++ Bytes.ofUInt32 k.sequence ++
    (c.hashOrZero k.outputs.bytes?).bytes ++ Bytes.ofUInt32 k.lockTime ++
    Bytes.ofUInt32 k.hashType.byte.toUInt32

/-- The byte strings that are hashed on the way to the digest. -/
def hashed (c : Crypto) (k : Commitment) : List Bytes :=
  k.message c :: (k.prevOutputBytes?.toList ++ k.sequenceBytes?.toList ++ k.outputs.bytes?.toList)

theorem message_mem_hashed (c : Crypto) (k : Commitment) : k.message c ∈ k.hashed c :=
  List.mem_cons_self

theorem prevOutputBytes_mem_hashed {c : Crypto} (k : Commitment) :
    ∀ bytes ∈ k.prevOutputBytes?, bytes ∈ k.hashed c := by
  intro bytes h
  simp [hashed, Option.mem_toList.2 h]

theorem sequenceBytes_mem_hashed {c : Crypto} (k : Commitment) :
    ∀ bytes ∈ k.sequenceBytes?, bytes ∈ k.hashed c := by
  intro bytes h
  simp [hashed, Option.mem_toList.2 h]

theorem outputBytes_mem_hashed {c : Crypto} (k : Commitment) :
    ∀ bytes ∈ k.outputs.bytes?, bytes ∈ k.hashed c := by
  intro bytes h
  simp [hashed, Option.mem_toList.2 h]

/-- A part whose bytes are hashed can be told from its hash. -/
theorem part_eq_of_hashOrZero_eq {c : Crypto} {k k' : Commitment} {part : Commitment → Option Bytes}
    (hpart : ∀ k : Commitment, ∀ bytes ∈ part k, bytes ∈ k.hashed c)
    (hc : ¬c.Collides (k.hashed c ++ k'.hashed c))
    (hz : ¬c.ReachesZero (k.hashed c ++ k'.hashed c))
    (h : c.hashOrZero (part k) = c.hashOrZero (part k')) : part k = part k' := by
  apply Crypto.eq_of_hashOrZero_eq hc hz _ _ h
  · intro bytes hb
    exact List.mem_append_left _ (hpart k bytes hb)
  · intro bytes hb
    exact List.mem_append_right _ (hpart k' bytes hb)

/-- The fields of a message can be read off it, the three hashes as such. -/
theorem fields_of_message_eq {c : Crypto} {k k' : Commitment} (h : k.message c = k'.message c) :
    k.version = k'.version ∧ c.hashOrZero k.prevOutputBytes? = c.hashOrZero k'.prevOutputBytes? ∧
      c.hashOrZero k.sequenceBytes? = c.hashOrZero k'.sequenceBytes? ∧
      k.prevOutput = k'.prevOutput ∧ k.code = k'.code ∧ k.satoshis = k'.satoshis ∧
      k.sequence = k'.sequence ∧
      c.hashOrZero k.outputs.bytes? = c.hashOrZero k'.outputs.bytes? ∧
      k.lockTime = k'.lockTime ∧ k.hashType = k'.hashType := by
  simp only [message, List.append_assoc] at h
  obtain ⟨hversion, h⟩ := Bytes.delimited_ofUInt32 trivial trivial h
  obtain ⟨hprevOutputs, h⟩ := Digest.delimited_bytes trivial trivial h
  obtain ⟨hsequences, h⟩ := Digest.delimited_bytes trivial trivial h
  obtain ⟨hprevOutput, h⟩ := OutPoint.delimited_bytes trivial trivial h
  obtain ⟨hcode, h⟩ := Script.counted_append_inj (by simp) h
  obtain ⟨hsatoshis, h⟩ := Bytes.delimited_ofInt64 trivial trivial h
  obtain ⟨hsequence, h⟩ := Bytes.delimited_ofUInt32 trivial trivial h
  obtain ⟨houtputs, h⟩ := Digest.delimited_bytes trivial trivial h
  obtain ⟨hlockTime, h⟩ := Bytes.delimited_ofUInt32 trivial trivial h
  have hbyte := UInt8.toUInt32_inj.1 (Bytes.ofUInt32_inj h)
  exact ⟨hversion, hprevOutputs, hsequences, hprevOutput, hcode, hsatoshis, hsequence, houtputs,
    hlockTime, congrArg HashType.mk hbyte⟩

end Commitment

/-- A request for the digest of an input that exists, under a hash type and flags that select the
digest with the fork identifier. -/
structure ForkIdRequest where
  tx : Transaction
  index : Fin tx.inputs.length
  code : Script
  satoshis : Int64
  hashType : HashType
  flags : Flags
  usesForkId : SigHash.usesForkId hashType flags = true

namespace ForkIdRequest

def input (q : ForkIdRequest) : TxInput := q.tx.inputs[q.index]

/-- The digest, with the shared hashes of the transaction itself. -/
def digest (c : Crypto) (q : ForkIdRequest) : Except Error (Digest 32) :=
  signatureHash c (.ofTransaction c q.tx) q.tx q.index q.code q.satoshis q.hashType q.flags

def signedOutputs (q : ForkIdRequest) : SignedOutputs :=
  if q.hashType.base = HashType.single then .single q.tx.outputs[q.index.val]?
  else if q.hashType.base = HashType.noOutputs then .none
  else .all q.tx.outputs

def commitment (q : ForkIdRequest) : Commitment where
  hashType := q.hashType
  version := q.tx.version
  lockTime := q.tx.lockTime
  code := q.code
  satoshis := q.satoshis
  prevOutput := q.input.prevOutput
  sequence := q.input.sequence
  prevOutputs := if q.hashType.anyoneCanPay then none else some (q.tx.inputs.map (·.prevOutput))
  sequences :=
    if q.hashType.anyoneCanPay ∨ q.hashType.base = HashType.noOutputs ∨
        q.hashType.base = HashType.single then none
    else some (q.tx.inputs.map (·.sequence))
  outputs := q.signedOutputs

theorem hashOrZero_prevOutputs (c : Crypto) (q : ForkIdRequest) :
    c.hashOrZero q.commitment.prevOutputBytes? =
      if q.hashType.anyoneCanPay then Digest.zero 32
      else (SigHashCache.ofTransaction c q.tx).prevouts := by
  show c.hashOrZero (Option.map _ (if q.hashType.anyoneCanPay then none else some _)) = _
  split
  · rfl
  · rw [Option.map_some, List.flatMap_map]
    rfl

theorem hashOrZero_sequences (c : Crypto) (q : ForkIdRequest) :
    c.hashOrZero q.commitment.sequenceBytes? =
      if q.hashType.anyoneCanPay || !commitsToAll q.hashType.base then Digest.zero 32
      else (SigHashCache.ofTransaction c q.tx).sequences := by
  have hpart : (q.hashType.anyoneCanPay || !commitsToAll q.hashType.base) = true ↔
      q.hashType.anyoneCanPay ∨ q.hashType.base = HashType.noOutputs ∨
        q.hashType.base = HashType.single := by
    rw [Bool.or_eq_true, Bool.not_eq_true', ← Bool.not_eq_true, commitsToAll_iff, not_not]
  simp only [hpart]
  show c.hashOrZero (Option.map _ (if _ then none else some _)) = _
  split
  · rfl
  · rw [Option.map_some, List.flatMap_map]
    rfl

theorem hashOrZero_outputs (c : Crypto) (q : ForkIdRequest) :
    c.hashOrZero q.commitment.outputs.bytes? =
      forkIdOutputs c (.ofTransaction c q.tx) q.tx q.index q.hashType := by
  show c.hashOrZero q.signedOutputs.bytes? = _
  rw [signedOutputs, forkIdOutputs]
  by_cases hsingle : q.hashType.base = HashType.single
  · have hall : ¬commitsToAll q.hashType.base = true := fun h =>
      commitsToAll_iff.1 h (Or.inr hsingle)
    rw [if_pos hsingle, if_neg hall, if_pos hsingle]
    cases q.tx.outputs[q.index.val]? <;> rfl
  · rw [if_neg hsingle, if_neg hsingle]
    by_cases hnone : q.hashType.base = HashType.noOutputs
    · rw [if_pos hnone, if_neg fun h => commitsToAll_iff.1 h (Or.inl hnone)]
      rfl
    · rw [if_neg hnone, if_pos (commitsToAll_iff.2 (not_or.2 ⟨hnone, hsingle⟩))]
      rfl

/-- The digest is the hash of a message that depends on the commitment only. -/
theorem digest_eq (c : Crypto) (q : ForkIdRequest) :
    q.digest c = .ok (c.sha256d (q.commitment.message c)) := by
  have hinput : q.tx.inputs[q.index.val]? = some q.input := List.getElem?_eq_getElem q.index.isLt
  rw [digest, signatureHash, if_pos q.usesForkId, forkId, hinput]
  show Except.ok (c.sha256d _) = _
  rw [forkIdMessage, Commitment.message, hashOrZero_prevOutputs, hashOrZero_sequences,
    hashOrZero_outputs]
  rfl

end ForkIdRequest

/-! ## Equal digests -/

theorem prevOutputs_inj {ps ps' : Option (List OutPoint)}
    (h : ps.map (·.flatMap OutPoint.bytes) = ps'.map (·.flatMap OutPoint.bytes)) : ps = ps' := by
  refine Option.map_injective (fun as bs heq => ?_) h
  have hne : ∀ p : OutPoint, p.bytes ≠ [] := fun p =>
    List.ne_nil_of_length_pos (by rw [OutPoint.length_bytes]; decide)
  exact OutPoint.delimited_bytes.flatMap_inj hne (fun _ _ => trivial) (fun _ _ => trivial) heq

theorem sequences_inj {ns ns' : Option (List UInt32)}
    (h : ns.map (·.flatMap Bytes.ofUInt32) = ns'.map (·.flatMap Bytes.ofUInt32)) : ns = ns' := by
  refine Option.map_injective (fun as bs heq => ?_) h
  have hne : ∀ n : UInt32, Bytes.ofUInt32 n ≠ [] := fun n =>
    List.ne_nil_of_length_pos (by rw [Bytes.length_ofUInt32]; decide)
  exact Bytes.delimited_ofUInt32.flatMap_inj hne (fun _ _ => trivial) (fun _ _ => trivial) heq

namespace ForkIdRequest

variable {c : Crypto} {q q' : ForkIdRequest}

/-- The lengths of the lock scripts fit into the 64 bits in which they are written. -/
def LocksFit (q : ForkIdRequest) : Prop := ∀ o ∈ q.tx.outputs, o.lockScript.length < 2 ^ 64

/-- Under one hash type, outputs that are signed are told apart by their bytes. -/
theorem signedOutputs_inj (hq : q.LocksFit) (hq' : q'.LocksFit) (ht : q.hashType = q'.hashType)
    (h : q.signedOutputs.bytes? = q'.signedOutputs.bytes?) :
    q.signedOutputs = q'.signedOutputs := by
  rw [signedOutputs, signedOutputs, ← ht] at h ⊢
  by_cases hsingle : q.hashType.base = HashType.single
  · rw [if_pos hsingle, if_pos hsingle] at h ⊢
    cases ho : q.tx.outputs[q.index.val]? with
    | none =>
        cases ho' : q'.tx.outputs[q'.index.val]? with
        | none => rfl
        | some o' =>
            rw [ho, ho'] at h
            exact nomatch h
    | some o =>
        cases ho' : q'.tx.outputs[q'.index.val]? with
        | none =>
            rw [ho, ho'] at h
            exact nomatch h
        | some o' =>
            rw [ho, ho'] at h
            have hfits := hq o (List.mem_of_getElem? ho)
            have hfits' := hq' o' (List.mem_of_getElem? ho')
            rw [TxOutput.delimited_bytes.eq_of_eq hfits hfits' (Option.some.inj h)]
  · rw [if_neg hsingle, if_neg hsingle] at h ⊢
    by_cases hnone : q.hashType.base = HashType.noOutputs
    · rw [if_pos hnone, if_pos hnone]
    · rw [if_neg hnone, if_neg hnone] at h ⊢
      have hne : ∀ o : TxOutput, o.bytes ≠ [] := fun o =>
        List.append_ne_nil_of_left_ne_nil (List.ne_nil_of_length_pos (by simp)) _
      rw [TxOutput.delimited_bytes.flatMap_inj hne hq hq' (Option.some.inj h)]

/-- Where the hash neither takes one value twice nor is zero, the message determines what it was
made of. -/
theorem commitment_eq_of_sha256d_eq (hq : q.LocksFit) (hq' : q'.LocksFit)
    (hc : ¬c.Collides (q.commitment.hashed c ++ q'.commitment.hashed c))
    (hz : ¬c.ReachesZero (q.commitment.hashed c ++ q'.commitment.hashed c))
    (h : c.sha256d (q.commitment.message c) = c.sha256d (q'.commitment.message c)) :
    q.commitment = q'.commitment := by
  have hmessage := Crypto.eq_of_sha256d_eq hc
    (List.mem_append_left _ (Commitment.message_mem_hashed c q.commitment))
    (List.mem_append_right _ (Commitment.message_mem_hashed c q'.commitment)) h
  obtain ⟨hversion, hprevOutputs, hsequences, hprevOutput, hcode, hsatoshis, hsequence, houtputs,
    hlockTime, hhashType⟩ := Commitment.fields_of_message_eq hmessage
  have hpart := Commitment.part_eq_of_hashOrZero_eq Commitment.prevOutputBytes_mem_hashed hc hz
    hprevOutputs
  have hpart' := Commitment.part_eq_of_hashOrZero_eq Commitment.sequenceBytes_mem_hashed hc hz
    hsequences
  have hpart'' := Commitment.part_eq_of_hashOrZero_eq Commitment.outputBytes_mem_hashed hc hz
    houtputs
  exact Commitment.ext hhashType hversion hlockTime hcode hsatoshis hprevOutput hsequence
    (prevOutputs_inj hpart) (sequences_inj hpart') (signedOutputs_inj hq hq' hhashType hpart'')

/-- A digest with the fork identifier commits to exactly the data of its commitment: two digests are
equal if the commitments are, and only then, unless two of the byte strings hashed for them have one
hash or the hash of one of them is zero. -/
theorem digest_eq_iff_commitment (c : Crypto) (q q' : ForkIdRequest) :
    ∃ d d', q.digest c = .ok d ∧ q'.digest c = .ok d' ∧
      (q.commitment = q'.commitment → d = d') ∧
      (q.LocksFit → q'.LocksFit → d = d' →
        q.commitment = q'.commitment ∨
          c.Collides (q.commitment.hashed c ++ q'.commitment.hashed c) ∨
          c.ReachesZero (q.commitment.hashed c ++ q'.commitment.hashed c)) := by
  refine ⟨_, _, digest_eq c q, digest_eq c q', fun h => by rw [h], fun hq hq' heq => ?_⟩
  by_cases hc : c.Collides (q.commitment.hashed c ++ q'.commitment.hashed c)
  · exact Or.inr (Or.inl hc)
  · by_cases hz : c.ReachesZero (q.commitment.hashed c ++ q'.commitment.hashed c)
    · exact Or.inr (Or.inr hz)
    · exact Or.inl (commitment_eq_of_sha256d_eq hq hq' hc hz heq)

/-- The digest of a payment of some satoshis from a single input, unlocked by some script. -/
def payment (satoshis : Int64) (unlock : Script) : ForkIdRequest where
  tx := ⟨1, [⟨⟨Digest.zero 32, 0⟩, unlock, 0⟩], [⟨satoshis, [0x51]⟩], 0⟩
  index := ⟨0, Nat.one_pos⟩
  code := [0xac]
  satoshis := 100
  hashType := ⟨0x41⟩
  flags := .ofList [.enableForkId]
  usesForkId := by decide

/-- The unlock script does not matter, the amount does. -/
theorem digest_eq_iff_commitment_payment :
    (payment 1 []).digest .standard = (payment 1 [0x52]).digest .standard ∧
      ((payment 1 []).digest .standard = (payment 2 []).digest .standard →
        Crypto.standard.Collides ((payment 1 []).commitment.hashed .standard ++
            (payment 2 []).commitment.hashed .standard) ∨
          Crypto.standard.ReachesZero ((payment 1 []).commitment.hashed .standard ++
            (payment 2 []).commitment.hashed .standard)) := by
  have hfits : ∀ satoshis, (payment satoshis []).LocksFit := by
    intro satoshis o ho
    rw [List.mem_singleton.1 ho]
    exact Nat.lt_of_lt_of_le (by decide : 1 < 2) (by decide)
  constructor
  · obtain ⟨d, d', hd, hd', heq, -⟩ :=
      digest_eq_iff_commitment .standard (payment 1 []) (payment 1 [0x52])
    rw [hd, hd', heq rfl]
  · intro h
    obtain ⟨d, d', hd, hd', -, heq⟩ :=
      digest_eq_iff_commitment .standard (payment 1 []) (payment 2 [])
    rw [hd, hd'] at h
    have houtputs : (payment 1 []).commitment ≠ (payment 2 []).commitment := by
      intro hsame
      have hamount := congrArg (fun k : Commitment => k.outputs) hsame
      exact absurd hamount (by decide)
    exact (heq (hfits 1) (hfits 2) (Except.ok.inj h)).resolve_left houtputs

end ForkIdRequest

end SigHash

end BitcoinScript
