import BitcoinScript.Proofs.Signature.Creation
import BitcoinScript.Proofs.Transaction.Acceptance
import BitcoinScript.Proofs.Transaction.PubkeyHash
import BitcoinScript.Proofs.Transaction.Replay

/-!
# Signing a transaction

The inputs of a transaction are signed one after the other, each over the digest of the transaction
as it is then. A digest with the fork identifier does not look at unlocking scripts, so it makes no
difference which inputs have been signed before: what is signed is the digest that is checked in the
end. A signature that is made is strict, low and of a defined type, so that no flag refuses it.
-/

namespace BitcoinScript

/-- Who signs an input: a private key with its public key in compressed form, and the type of the
signature. -/
structure Signer where
  privateKey : Bytes
  pubkey : Bytes
  type : HashType
  isCompressedKey : Signature.isCompressedKey pubkey = true
  mem_forkIdTypes : type ∈ HashType.forkIdTypes

namespace Signer

/-- A digest has a signature under the private key, which verifies in its low form under the public
key. -/
def Signs (c : Crypto) (signer : Signer) (digest : Digest 32) : Prop :=
  ∃ sig, c.sign? signer.privateKey digest = some sig ∧ sig.IsReduced ∧
    c.verify signer.pubkey digest (c.normalize sig) = true

variable {signer : Signer} {flags : Flags}

theorem usesForkId (signer : Signer) (h : flags.contains .enableForkId) :
    SigHash.usesForkId signer.type flags = true := by
  rw [SigHash.usesForkId, HashType.hasForkId_of_mem_forkIdTypes _ signer.mem_forkIdTypes, h]
  rfl

end Signer

def TxInput.withoutUnlock (input : TxInput) : TxInput := { input with unlockScript := [] }

namespace Transaction

variable {c : Crypto} {utxos : UtxoSet} {flags : Flags} {tx tx' : Transaction} {i : Nat}
  {signer : Signer}

/-! ## What is signed -/

def withoutUnlocks (tx : Transaction) : Transaction :=
  { tx with inputs := tx.inputs.map TxInput.withoutUnlock }

def setUnlock (tx : Transaction) (i : Nat) (unlock : Script) : Transaction :=
  { tx with inputs := tx.inputs.modify i fun input => { input with unlockScript := unlock } }

/-- The digest that an input signs, as the transaction is. -/
def inputDigest (c : Crypto) (utxos : UtxoSet) (flags : Flags) (t : HashType) (tx : Transaction)
    (i : Nat) : Except Error (Digest 32) :=
  match tx.inputs[i]? with
  | none => .error (.badArgument (.inputIndex i))
  | some input =>
      match utxos.get? input.prevOutput with
      | none => .error (.badData .utxoNotFound)
      | some o =>
          signatureHash c (SigHashCache.ofTransaction c tx) tx i o.lockScript o.satoshis t flags

theorem inputDigest_eq {input : TxInput} {o : TxOutput} (hinput : tx.inputs[i]? = some input)
    (ho : utxos.get? input.prevOutput = some o) (t : HashType) :
    inputDigest c utxos flags t tx i =
      signatureHash c (SigHashCache.ofTransaction c tx) tx i o.lockScript o.satoshis t flags := by
  simp only [inputDigest, hinput, ho]

def signInput (c : Crypto) (utxos : UtxoSet) (flags : Flags) (signer : Signer) (i : Nat)
    (tx : Transaction) : Except Error Transaction := do
  let digest ← inputDigest c utxos flags signer.type tx i
  let sig ← Signature.create c signer.privateKey digest signer.type
  return tx.setUnlock i (PubkeyHash.unlockScript sig signer.pubkey)

/-- Signs inputs in the given order. -/
def signInputs (c : Crypto) (utxos : UtxoSet) (flags : Flags) (signers : Nat → Signer) :
    (order : List Nat) → Transaction → Except Error Transaction
  | [], tx => .ok tx
  | i :: order, tx => do
      let tx ← signInput c utxos flags (signers i) i tx
      signInputs c utxos flags signers order tx

@[simp] theorem withoutUnlocks_setUnlock (tx : Transaction) (i : Nat) (unlock : Script) :
    (tx.setUnlock i unlock).withoutUnlocks = tx.withoutUnlocks := by
  have hinputs : (tx.setUnlock i unlock).inputs.map TxInput.withoutUnlock =
      tx.inputs.map TxInput.withoutUnlock := by
    refine List.ext_getElem? fun k => ?_
    rw [List.getElem?_map, List.getElem?_map, setUnlock, List.getElem?_modify]
    cases tx.inputs[k]? with
    | none => rfl
    | some input =>
        refine congrArg some ?_
        split
        · rfl
        · rfl
  rw [withoutUnlocks, hinputs]
  rfl

theorem getElem?_withoutUnlocks (tx : Transaction) (i : Nat) :
    tx.withoutUnlocks.inputs[i]? = tx.inputs[i]?.map TxInput.withoutUnlock := List.getElem?_map

theorem ofTransaction_withoutUnlocks (c : Crypto) (tx : Transaction) :
    SigHashCache.ofTransaction c tx.withoutUnlocks = SigHashCache.ofTransaction c tx := by
  simp only [SigHashCache.ofTransaction, withoutUnlocks, List.flatMap_map, TxInput.withoutUnlock]

/-- A digest with the fork identifier does not look at unlocking scripts. -/
theorem signatureHash_withoutUnlocks {t : HashType} (ht : SigHash.usesForkId t flags = true)
    (code : Script) (satoshis : Int64) :
    signatureHash c (SigHashCache.ofTransaction c tx.withoutUnlocks) tx.withoutUnlocks i code
        satoshis t flags =
      signatureHash c (SigHashCache.ofTransaction c tx) tx i code satoshis t flags := by
  rw [signatureHash, signatureHash, if_pos ht, if_pos ht, SigHash.forkId, SigHash.forkId,
    getElem?_withoutUnlocks, ofTransaction_withoutUnlocks]
  cases tx.inputs[i]? with
  | none => rfl
  | some input => rfl

theorem inputDigest_withoutUnlocks {t : HashType} (ht : SigHash.usesForkId t flags = true) :
    inputDigest c utxos flags t tx.withoutUnlocks i = inputDigest c utxos flags t tx i := by
  rw [inputDigest, inputDigest, getElem?_withoutUnlocks]
  simp only [signatureHash_withoutUnlocks ht]
  cases tx.inputs[i]? with
  | none => rfl
  | some input => rfl

theorem inputDigest_congr (h : tx.withoutUnlocks = tx'.withoutUnlocks) {t : HashType}
    (ht : SigHash.usesForkId t flags = true) :
    inputDigest c utxos flags t tx i = inputDigest c utxos flags t tx' i := by
  rw [← inputDigest_withoutUnlocks ht, h, inputDigest_withoutUnlocks ht]

/-! ## Signing one input after the other -/

/-- An input holds the unlocking script that its signer makes. -/
def IsSigned (c : Crypto) (utxos : UtxoSet) (flags : Flags) (signer : Signer) (tx : Transaction)
    (i : Nat) : Prop :=
  ∃ input digest sig, tx.inputs[i]? = some input ∧
    inputDigest c utxos flags signer.type tx i = .ok digest ∧
    Signature.create c signer.privateKey digest signer.type = .ok sig ∧
    input.unlockScript = PubkeyHash.unlockScript sig signer.pubkey

/-- Every input has a digest, which its signer can sign. -/
def IsSignable (c : Crypto) (utxos : UtxoSet) (flags : Flags) (signers : Nat → Signer)
    (tx : Transaction) : Prop :=
  ∀ i < tx.inputs.length, ∃ digest,
    inputDigest c utxos flags (signers i).type tx i = .ok digest ∧ (signers i).Signs c digest

theorem length_inputs_of_withoutUnlocks_eq (h : tx.withoutUnlocks = tx'.withoutUnlocks) :
    tx.inputs.length = tx'.inputs.length := by
  have hlength := congrArg (·.inputs.length) h
  simpa only [withoutUnlocks, List.length_map] using hlength

section

variable {signers : Nat → Signer} (hflags : flags.contains .enableForkId)

include hflags

theorem IsSignable.congr (h : tx.withoutUnlocks = tx'.withoutUnlocks)
    (hsignable : IsSignable c utxos flags signers tx) : IsSignable c utxos flags signers tx' := by
  intro i hi
  rw [← length_inputs_of_withoutUnlocks_eq h] at hi
  obtain ⟨digest, hdigest, hsigns⟩ := hsignable i hi
  rw [inputDigest_congr h ((signers i).usesForkId hflags)] at hdigest
  exact ⟨digest, hdigest, hsigns⟩

/-- An input that keeps its unlocking script stays signed. -/
theorem IsSigned.congr (h : tx.withoutUnlocks = tx'.withoutUnlocks)
    (hinput : tx.inputs[i]? = tx'.inputs[i]?) (hsigned : IsSigned c utxos flags signer tx i) :
    IsSigned c utxos flags signer tx' i := by
  obtain ⟨input, digest, sig, hget, hdigest, hcreate, hunlock⟩ := hsigned
  rw [hinput] at hget
  rw [inputDigest_congr h (signer.usesForkId hflags)] at hdigest
  exact ⟨input, digest, sig, hget, hdigest, hcreate, hunlock⟩

/-- Signing an input changes nothing but its unlocking script. -/
theorem exists_signInput (h : IsSignable c utxos flags signers tx) (hi : i < tx.inputs.length) :
    ∃ tx', signInput c utxos flags (signers i) i tx = .ok tx' ∧
      tx.withoutUnlocks = tx'.withoutUnlocks ∧ IsSigned c utxos flags (signers i) tx' i ∧
      ∀ j, j ≠ i → tx.inputs[j]? = tx'.inputs[j]? := by
  obtain ⟨digest, hdigest, parsed, hsign, -⟩ := h i hi
  have hcreate : Signature.create c (signers i).privateKey digest (signers i).type =
      .ok (c.toDer (c.normalize parsed) ++ [(signers i).type.byte]) := by
    rw [Signature.create, hsign]
  generalize c.toDer (c.normalize parsed) ++ [(signers i).type.byte] = sig at hcreate
  have hsame := (withoutUnlocks_setUnlock tx i
    (PubkeyHash.unlockScript sig (signers i).pubkey)).symm
  refine ⟨tx.setUnlock i (PubkeyHash.unlockScript sig (signers i).pubkey), ?_, hsame, ?_, ?_⟩
  · rw [signInput, hdigest]
    show Signature.create c (signers i).privateKey digest (signers i).type >>= _ = _
    rw [hcreate]
    rfl
  · have hget : (tx.setUnlock i (PubkeyHash.unlockScript sig (signers i).pubkey)).inputs[i]? =
        some { tx.inputs[i] with
          unlockScript := PubkeyHash.unlockScript sig (signers i).pubkey } := by
      rw [setUnlock, List.getElem?_modify, List.getElem?_eq_getElem hi]
      simp
    rw [inputDigest_congr hsame ((signers i).usesForkId hflags)] at hdigest
    exact ⟨_, digest, sig, hget, hdigest, hcreate, rfl⟩
  · intro j hj
    rw [setUnlock, List.getElem?_modify]
    simp [Ne.symm hj]

/-- However many inputs are signed and in whichever order, the others stay as they are. -/
theorem exists_signInputs {order : List Nat} (h : IsSignable c utxos flags signers tx)
    (horder : ∀ i ∈ order, i < tx.inputs.length) :
    ∃ tx', signInputs c utxos flags signers order tx = .ok tx' ∧
      tx.withoutUnlocks = tx'.withoutUnlocks ∧
      ∀ i, i ∈ order ∨ IsSigned c utxos flags (signers i) tx i →
        IsSigned c utxos flags (signers i) tx' i := by
  -- Along the order the signed inputs only become more: what is signed next keeps the digests and
  -- the other unlocking scripts, and an input that comes up again is signed again.
  induction order generalizing tx with
  | nil => exact ⟨tx, rfl, rfl, fun i hi => hi.resolve_left List.not_mem_nil⟩
  | cons i order ih =>
      rw [List.forall_mem_cons] at horder
      obtain ⟨mid, hmid, hsame, hown, hothers⟩ := exists_signInput hflags h horder.1
      have hlength := length_inputs_of_withoutUnlocks_eq hsame
      obtain ⟨tx', htx', hsame', hsigned⟩ := ih (h.congr hflags hsame) fun j hj => by
        rw [← hlength]
        exact horder.2 j hj
      refine ⟨tx', ?_, hsame.trans hsame', fun j hj => hsigned j ?_⟩
      · rw [signInputs, hmid]
        exact htx'
      · by_cases hji : j = i
        · exact Or.inr (hji ▸ hown)
        · rcases hj with hj | hj
          · exact Or.inl ((List.mem_cons.1 hj).resolve_left hji)
          · exact Or.inr (hj.congr hflags hsame (hothers j hji))

end

/-! ## Validating what has been signed -/

/-- The checker accepts a signature of the digest that it computes. -/
theorem verifiesSig_toDer {cache : SigHashCache} {satoshis : Int64} {sig : Secp256k1.Signature}
    {t : HashType} {key : Bytes} {code : Script} {digest : Digest 32}
    (hc : c.LawfulSigs) (hsig : sig.IsReduced) (hlow : c.normalize sig = sig)
    (hdigest : signatureHash c cache tx i code satoshis t flags = .ok digest)
    (hverify : c.verify key digest sig = true) :
    verifiesSig c cache tx i satoshis ⟨c.toDer sig ++ [t.byte], key, code⟩ flags = true := by
  have hne : c.toDer sig ++ [t.byte] ≠ [] := by simp
  simp only [verifiesSig, if_neg hne, List.dropLast_concat, hc.readLaxDer?_toDer hsig,
    Signature.ofSignature_append, hdigest, hlow, hverify]

/-- The unlocking script of a signer satisfies the lock that pays to the hash of its key. -/
theorem verifyError?_of_signs {satoshis : Int64} {digest : Digest 32} {sig : Bytes}
    (hc : c.LawfulSigs) (hflags : flags.contains .enableForkId)
    (hdigest : signatureHash c (SigHashCache.ofTransaction c tx) tx i
      (PubkeyHash.lockScript (c.hash160 signer.pubkey)) satoshis signer.type flags = .ok digest)
    (hsigns : signer.Signs c digest)
    (hcreate : Signature.create c signer.privateKey digest signer.type = .ok sig) :
    Script.verifyError?
        ⟨flags, .consensus, checker c (SigHashCache.ofTransaction c tx) tx i satoshis, c⟩
        (PubkeyHash.unlockScript sig signer.pubkey)
        (PubkeyHash.lockScript (c.hash160 signer.pubkey)) = none := by
  obtain ⟨parsed, hsign, hparsed, hverify⟩ := hsigns
  rw [Signature.create, hsign, Except.ok.injEq] at hcreate
  subst hcreate
  have hreduced := hc.isReduced_normalize hparsed
  have hlow := hc.normalize_normalize hparsed
  generalize c.normalize parsed = low at *
  have hsize : (c.toDer low ++ [signer.type.byte]).length ≤ 520 :=
    Nat.le_trans (Signature.length_toDer_append_le hc hreduced _) (by decide)
  have hkey : signer.pubkey.length ≤ 520 := by
    rw [(Signature.isCompressedKey_iff.1 signer.isCompressedKey).1]
    decide
  have hkeeps : Signature.keepsCode flags (c.toDer low ++ [signer.type.byte]) = true := by
    rw [Signature.keepsCode_eq_usesForkId, Signature.ofSignature_append, signer.usesForkId hflags]
  have hcode : PubkeyHash.signedCode flags (c.hash160 signer.pubkey)
      (c.toDer low ++ [signer.type.byte]) = PubkeyHash.lockScript (c.hash160 signer.pubkey) := by
    rw [PubkeyHash.signedCode, hkeeps, if_neg (by simp)]
  have hform := Signature.checkForm_toDer hc hreduced hlow signer.mem_forkIdTypes hflags
  have hkeyForm : Signature.checkKeyForm signer.pubkey flags = .ok () :=
    Signature.checkKeyForm_of_isCompressedKey signer.isCompressedKey
  have haccepted := verifiesSig_toDer hc hreduced hlow hdigest hverify
  rw [PubkeyHash.verifyError?_of_eq rfl hsize hkey rfl, hcode, PubkeyHash.checkError?, hform,
    hkeyForm]
  show PubkeyHash.answerError? flags _ (some (verifiesSig _ _ _ _ _ _ _)) = none
  rw [haccepted]
  rfl

/-- A transaction that has nothing wrong but its unlocking scripts, and spends payments to the
hashes of the keys of signers. -/
structure SpendsPayments (c : Crypto) (utxos : UtxoSet) (signers : Nat → Signer)
    (tx : Transaction) : Prop where
  inputs_ne : tx.inputs ≠ []
  outputs_ne : tx.outputs ≠ []
  not_coinbase : ∀ i ∈ tx.inputs, i.prevOutput ≠ OutPoint.coinbase
  amounts : ∃ paid spent taken, totalOut 0 tx.outputs = .ok paid ∧ paid ≤ maxSatoshis ∧
    spend utxos 0 tx.inputs = .ok (spent, taken) ∧ taken ≤ maxSatoshis ∧ paid ≤ taken
  pays : ∀ i input, tx.inputs[i]? = some input → ∃ satoshis, utxos.get? input.prevOutput =
    some ⟨satoshis, PubkeyHash.lockScript (c.hash160 (signers i).pubkey)⟩

/-- What is spent does not depend on unlocking scripts. -/
theorem spend_withoutUnlock (utxos : UtxoSet) (total : Int) (inputs : List TxInput) :
    spend utxos total (inputs.map TxInput.withoutUnlock) = spend utxos total inputs := by
  induction inputs generalizing total with
  | nil => rfl
  | cons input inputs ih => simp only [List.map_cons, spend, ih, TxInput.withoutUnlock]

section

variable {signers : Nat → Signer}

/-- An input that spends a payment has a digest to sign. -/
theorem SpendsPayments.exists_inputDigest (h : SpendsPayments c utxos signers tx)
    (hflags : flags.contains .enableForkId) (hi : i < tx.inputs.length) :
    ∃ digest, inputDigest c utxos flags (signers i).type tx i = .ok digest := by
  have hinput := List.getElem?_eq_getElem hi
  obtain ⟨satoshis, hspent⟩ := h.pays i _ hinput
  rw [inputDigest_eq hinput hspent, signatureHash, if_pos ((signers i).usesForkId hflags),
    SigHash.forkId, hinput]
  exact ⟨_, rfl⟩

/-- What a signed transaction spends stays, and the amounts with it. -/
theorem SpendsPayments.congr (hsame : tx.withoutUnlocks = tx'.withoutUnlocks)
    (h : SpendsPayments c utxos signers tx) : SpendsPayments c utxos signers tx' := by
  have hinputs : tx.inputs.map TxInput.withoutUnlock = tx'.inputs.map TxInput.withoutUnlock :=
    congrArg inputs hsame
  have houtputs : tx.withoutUnlocks.outputs = tx'.withoutUnlocks.outputs := congrArg outputs hsame
  have hspend : ∀ total, spend utxos total tx.inputs = spend utxos total tx'.inputs := by
    intro total
    rw [← spend_withoutUnlock, hinputs, spend_withoutUnlock]
  refine ⟨?_, ?_, ?_, ?_, ?_⟩
  · intro hnil
    rw [hnil, List.map_nil, List.map_eq_nil_iff] at hinputs
    exact h.inputs_ne hinputs
  · show tx'.withoutUnlocks.outputs ≠ []
    rw [← houtputs]
    exact h.outputs_ne
  · intro i hi
    have hmem : i.withoutUnlock ∈ tx.inputs.map TxInput.withoutUnlock := by
      rw [hinputs]
      exact List.mem_map_of_mem hi
    obtain ⟨j, hj, heq⟩ := List.mem_map.1 hmem
    have hsameOutput : j.withoutUnlock.prevOutput = i.withoutUnlock.prevOutput :=
      congrArg TxInput.prevOutput heq
    show i.withoutUnlock.prevOutput ≠ OutPoint.coinbase
    rw [← hsameOutput]
    exact h.not_coinbase j hj
  · rw [← hspend]
    show ∃ paid spent taken, totalOut 0 tx'.withoutUnlocks.outputs = .ok paid ∧ _
    rw [← houtputs]
    exact h.amounts
  · intro i input hinput
    have hget := congrArg (·[i]?) hinputs
    simp only [List.getElem?_map, hinput, Option.map_some] at hget
    obtain ⟨j, hj, heq⟩ := Option.map_eq_some_iff.1 hget
    have hsameOutput : j.withoutUnlock.prevOutput = input.withoutUnlock.prevOutput :=
      congrArg TxInput.prevOutput heq
    show ∃ satoshis, utxos.get? input.withoutUnlock.prevOutput = _
    rw [← hsameOutput]
    exact h.pays i j hj

theorem SpendsPayments.accepted (h : SpendsPayments c utxos signers tx)
    (hscripts : ∀ i input o, tx.inputs[i]? = some input → utxos.get? input.prevOutput = some o →
      Script.verifyError?
        ⟨flags, .consensus, checker c (SigHashCache.ofTransaction c tx) tx i o.satoshis, c⟩
        input.unlockScript o.lockScript = none) :
    ∃ spent, Accepted c utxos flags tx spent := by
  obtain ⟨paid, spent, taken, hpaid, hmax, hspent, htaken, hcovered⟩ := h.amounts
  obtain ⟨hpaidNonneg, rfl, -⟩ := (totalOut_eq_ok_iff (by decide)).1 hpaid
  obtain ⟨hfound, hspentNonneg, rfl, -⟩ := (spend_eq_ok_iff (by decide)).1 hspent
  rw [Int.zero_add] at hmax htaken hcovered
  rw [Int.zero_add] at hcovered
  refine ⟨spent, ⟨h.inputs_ne, h.outputs_ne, hpaidNonneg, hmax, h.not_coinbase, hfound,
    hspentNonneg, htaken, hcovered⟩, ?_⟩
  refine verifyScripts_eq_ok_iff.2 fun k => Option.bind_eq_none_iff.2 fun p hp => ?_
  obtain ⟨hinput, ho⟩ := List.getElem?_zip_eq_some.1 hp
  rw [pairError?, Nat.zero_add]
  refine hscripts k p.1 p.2 hinput ?_
  have hk := congrArg (·[k]?) hfound
  simpa [hinput, ho] using hk

end

/-- A transaction that is signed input by input, in whichever order, is valid. -/
theorem validate_signInputs {signers : Nat → Signer} {order : List Nat} (hc : c.LawfulSigs)
    (hflags : flags.contains .enableForkId) (hspends : SpendsPayments c utxos signers tx)
    (horder : ∀ i, i ∈ order ↔ i < tx.inputs.length)
    (hsigns : ∀ i < tx.inputs.length, ∀ digest,
      inputDigest c utxos flags (signers i).type tx i = .ok digest → (signers i).Signs c digest) :
    ∃ signed, signInputs c utxos flags signers order tx = .ok signed ∧
      signed.withoutUnlocks = tx.withoutUnlocks ∧ validate c utxos flags signed = .ok () := by
  have hsignable : IsSignable c utxos flags signers tx := by
    intro i hi
    obtain ⟨digest, hdigest⟩ := hspends.exists_inputDigest hflags hi
    exact ⟨digest, hdigest, hsigns i hi digest hdigest⟩
  obtain ⟨signed, hsigned, hsame, hall⟩ :=
    exists_signInputs hflags hsignable fun i hi => (horder i).1 hi
  have hlength := length_inputs_of_withoutUnlocks_eq hsame
  refine ⟨signed, hsigned, hsame.symm, validate_eq_ok_iff.2 ?_⟩
  refine (hspends.congr hsame).accepted fun i input o hinput ho => ?_
  have hi : i < tx.inputs.length := by
    rw [hlength]
    exact (List.getElem?_eq_some_iff.1 hinput).1
  obtain ⟨input', digest, sig, hinput', hdigest, hcreate, hunlock⟩ :=
    hall i (Or.inl ((horder i).2 hi))
  -- The digest that is signed is that of the first transaction, under which the signer signs; the
  -- digest that is checked is that of the last one.
  obtain rfl : input' = input := Option.some.inj (hinput'.symm.trans hinput)
  obtain ⟨satoshis, hpays⟩ := (hspends.congr hsame).pays i input' hinput
  obtain rfl := Option.some.inj (ho.symm.trans hpays)
  rw [inputDigest_eq hinput ho] at hdigest
  rw [hunlock]
  refine verifyError?_of_signs hc hflags hdigest (hsigns i hi digest ?_) hcreate
  rw [inputDigest_congr hsame ((signers i).usesForkId hflags), inputDigest_eq hinput ho]
  exact hdigest

/-! ## Two signers -/

/-- The private key one, whose public key is the generator. -/
def firstSigner : Signer where
  privateKey := Bytes.ofNatBE 32 1
  pubkey := PubkeyHash.generatorKey
  type := ⟨0x43⟩
  isCompressedKey := by decide
  mem_forkIdTypes := by decide

/-- The private key two, whose public key is twice the generator. -/
def secondSigner : Signer where
  privateKey := Bytes.ofNatBE 32 2
  pubkey := 2 :: Bytes.ofNatBE 32
    0xc6047f9441ed7d6d3045406e95c07cd85c778e4b8cef3ca7abac09b95c709ee5
  type := ⟨0xc1⟩
  isCompressedKey := by decide
  mem_forkIdTypes := by decide

/-- The signature that the first signer makes for `jointPayment`. -/
def firstSig : Secp256k1.Signature where
  r := 0xf754629d3ce4902a0ab7d3d64f88bf205326bbdfebc37d1b6d944cc1bfd5ec7a
  s := 0x4b8ab9493d02c3ef7ded4baadb4d0f5f0a32b3e8878a14ea61afb38862c7277b

/-- The signature that the second signer makes for `jointPayment`. -/
def secondSig : Secp256k1.Signature where
  r := 0x994bd00956cc2224361ce7aa2ad874bd3e8401e7ae40e272f9e0a7e06d01038e
  s := 0x4ba56f6b9b3f64651ff6d261c3f6114024cdcc9959433c39bb6210883b48edde

/-- The functions in use, but of the signature scheme only what two signers need for one
transaction. -/
def twoSignersCrypto : Crypto :=
  { Crypto.standard with
    sign? := fun privateKey _ =>
      if privateKey = firstSigner.privateKey then some firstSig
      else if privateKey = secondSigner.privateKey then some secondSig
      else none
    verify := fun pubkey _ sig =>
      (pubkey = firstSigner.pubkey ∧ sig = firstSig) ∨
        (pubkey = secondSigner.pubkey ∧ sig = secondSig) }

/-- The signers of the inputs of `jointPayment`. -/
def jointSigners : Nat → Signer
  | 0 => firstSigner
  | _ => secondSigner

def paymentTo (signer : Signer) (satoshis : Int64) : TxOutput where
  satoshis := satoshis
  lockScript := PubkeyHash.lockScript (twoSignersCrypto.hash160 signer.pubkey)

/-- A payment to each of the two signers. -/
def jointOutputs : UtxoSet where
  entries :=
    [(⟨Digest.ofNat 32 1, 0⟩, paymentTo firstSigner 100),
      (⟨Digest.ofNat 32 1, 1⟩, paymentTo secondSigner 80)]

/-- A transaction that spends them, not signed yet. -/
def jointPayment : Transaction where
  version := 1
  inputs :=
    [⟨⟨Digest.ofNat 32 1, 0⟩, [], 0xffffffff⟩, ⟨⟨Digest.ofNat 32 1, 1⟩, [], 0xffffffff⟩]
  outputs := [⟨150, [Opcode.op1.byte]⟩]
  lockTime := 0

/-- The second input is signed first. -/
theorem validate_signInputs_joint :
    ∃ signed, signInputs twoSignersCrypto jointOutputs (.ofList Flag.all) jointSigners [1, 0]
        jointPayment = .ok signed ∧
      signed.withoutUnlocks = jointPayment ∧
      validate twoSignersCrypto jointOutputs (.ofList Flag.all) signed = .ok () := by
  have hspends : SpendsPayments twoSignersCrypto jointOutputs jointSigners jointPayment := by
    refine ⟨by decide, by decide, by decide,
      ⟨150, [paymentTo firstSigner 100, paymentTo secondSigner 80], 180, rfl, by decide, rfl,
        by decide, by decide⟩, ?_⟩
    intro i input hinput
    match i with
    | 0 => exact ⟨100, Option.some.inj hinput ▸ rfl⟩
    | 1 => exact ⟨80, Option.some.inj hinput ▸ rfl⟩
    | i + 2 => exact nomatch hinput
  have horder : ∀ i, i ∈ [1, 0] ↔ i < jointPayment.inputs.length := by
    intro i
    simp only [List.mem_cons, List.not_mem_nil, or_false]
    show i = 1 ∨ i = 0 ↔ i < 2
    omega
  have hsigns : ∀ i < jointPayment.inputs.length, ∀ digest,
      inputDigest twoSignersCrypto jointOutputs (.ofList Flag.all) (jointSigners i).type
        jointPayment i = .ok digest → (jointSigners i).Signs twoSignersCrypto digest := by
    intro i hi digest _
    match i with
    | 0 => exact ⟨firstSig, rfl, ⟨by decide, by decide⟩, rfl⟩
    | 1 => exact ⟨secondSig, rfl, ⟨by decide, by decide⟩, rfl⟩
    | i + 2 => exact absurd hi (by show ¬i + 2 < 2; omega)
  have hlaws := Crypto.lawfulSigs_standard
  have hlawful : twoSignersCrypto.LawfulSigs :=
    ⟨hlaws.isReduced_normalize, hlaws.normalize_normalize, hlaws.isStrictForm_toDer,
      hlaws.readLaxDer?_toDer⟩
  exact validate_signInputs hlawful (by decide) hspends horder hsigns

end Transaction

end BitcoinScript
