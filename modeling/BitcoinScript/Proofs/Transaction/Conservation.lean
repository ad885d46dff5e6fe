import BitcoinScript.Proofs.Transaction.Acceptance
import Mathlib.Algebra.Order.BigOperators.Ring.Finset

/-!
# Conservation of value

Validation compares what a transaction pays with one amount for each input. An output that several
inputs reference is therefore counted several times, and a transaction can pay more than the outputs
that it references hold. This happens exactly where an output with an amount is referenced twice:
for any such references there is an accepted transaction that pays too much, and without any the
amounts are conserved.
-/

namespace BitcoinScript

/-- The amount of an output, or nothing under a name that is not there. -/
def UtxoSet.amount (utxos : UtxoSet) (p : OutPoint) : Int :=
  ((utxos.get? p).map (·.satoshis.toInt)).getD 0

namespace Transaction

def references (tx : Transaction) : List OutPoint := tx.inputs.map (·.prevOutput)

/-- The transaction pays no more than the outputs that it references hold, each counted once. -/
def Conserves (utxos : UtxoSet) (tx : Transaction) : Prop :=
  TxOutput.total tx.outputs ≤ ∑ p ∈ tx.references.toFinset, utxos.amount p

/-- What is spent, with one amount for each reference. -/
theorem Accepted.total_spent {c : Crypto} {utxos : UtxoSet} {flags : Flags} {tx : Transaction}
    {spent : List TxOutput} (h : Accepted c utxos flags tx spent) :
    TxOutput.total spent = (tx.references.map utxos.amount).sum := by
  have hamount : tx.references.map utxos.amount =
      (tx.inputs.map fun i => utxos.get? i.prevOutput).map
        fun o => (o.map (·.satoshis.toInt)).getD 0 := by
    rw [references, List.map_map, List.map_map]
    rfl
  rw [hamount, h.found, List.map_map, TxOutput.total]
  rfl

/-- A sum over references counts each out point as often as it occurs. -/
theorem sum_references (refs : List OutPoint) (amount : OutPoint → Int) :
    (refs.map amount).sum = ∑ p ∈ refs.toFinset, refs.count p * amount p := by
  rw [Finset.sum_list_map_count]
  simp only [nsmul_eq_mul]

/-- Counting each out point once gives the same if nothing with an amount occurs twice. -/
theorem sum_references_eq {refs : List OutPoint} {amount : OutPoint → Int}
    (h : ∀ p ∈ refs, 2 ≤ refs.count p → amount p = 0) :
    (refs.map amount).sum = ∑ p ∈ refs.toFinset, amount p := by
  rw [sum_references]
  refine Finset.sum_congr rfl fun p hp => ?_
  have hmem := List.mem_toFinset.1 hp
  have hpos := List.count_pos_iff.2 hmem
  by_cases htwo : 2 ≤ refs.count p
  · rw [h p hmem htwo, mul_zero]
  · have hone : refs.count p = 1 := by omega
    rw [hone, Nat.cast_one, one_mul]

/-- Counting each out point once gives less if something with an amount occurs twice. -/
theorem lt_sum_references {refs : List OutPoint} {amount : OutPoint → Int}
    (hnonneg : ∀ p ∈ refs, 0 ≤ amount p) {p : OutPoint} (hcount : 2 ≤ refs.count p)
    (hp : amount p ≠ 0) : ∑ p ∈ refs.toFinset, amount p < (refs.map amount).sum := by
  have hmem : p ∈ refs := List.count_pos_iff.1 (by omega)
  rw [sum_references]
  refine Finset.sum_lt_sum (fun q hq => ?_) ⟨p, List.mem_toFinset.2 hmem, ?_⟩
  · have hq' := List.mem_toFinset.1 hq
    have hpos : (1 : Int) ≤ refs.count q := by exact_mod_cast List.count_pos_iff.2 hq'
    exact le_mul_of_one_le_left (hnonneg q hq') hpos
  · have htwo : (1 : Int) < refs.count p := by exact_mod_cast hcount
    exact lt_mul_of_one_lt_left (lt_of_le_of_ne (hnonneg p hmem) hp.symm) htwo

end Transaction

/-! ## Outputs that anyone can spend -/

theorem Script.parse_nil : parse [] = ([], []) := by
  rw [parse]
  rfl

theorem Script.parse_one : parse [0x51] = ([⟨Opcode.op1, []⟩], []) := by
  rw [parse]
  split
  · rename_i h
    exact absurd h (by decide)
  · rename_i op rest h
    have hdec : Instr.decode? [0x51] = some (⟨Opcode.op1, []⟩, []) := by decide
    rw [hdec] at h
    simp only [Option.some.injEq, Prod.mk.injEq] at h
    obtain ⟨rfl, rfl⟩ := h
    rw [parse_nil]

/-- A lock that pushes one is satisfied by an empty script. -/
theorem Script.verifyError?_one (c : Crypto) (flags : Flags) (checker : Checker) :
    verifyError? ⟨flags, Limits.consensus, checker, c⟩ [] [0x51] = none := by
  have hnil : eval ⟨flags, Limits.consensus, checker, c⟩ [] {} = .ok () {} := by
    rw [eval, Exec.run, instrs, tail, parse_nil]
    rfl
  have hone : eval ⟨flags, Limits.consensus, checker, c⟩ [0x51] {} =
      .ok () ⟨[Number.encode 1], []⟩ := by
    rw [eval, Exec.run, instrs, tail, parse_one]
    rfl
  have hpush : isPushOnly [] = true := by
    rw [isPushOnly, instrs, tail, parse_nil]
    rfl
  have hresult : checkResult flags [Number.encode 1] = .ok () := by
    have hencode : Number.encode 1 = [1] := by
      simp [Number.encode, Number.magnitudeBytes, Number.withSign]
    rw [hencode, checkResult, if_neg (by decide), if_neg (by simp)]
  have hverify : verify ⟨flags, Limits.consensus, checker, c⟩ [] [0x51] {} =
      .ok () ⟨[Number.encode 1], []⟩ := by
    have hreset : (modify fun session : Session => { session with stack := [] } :
        EStateM ScriptError Session PUnit) {} = .ok ⟨⟩ {} := rfl
    have hget (session : Session) : (get : EStateM ScriptError Session Session) session =
        .ok session session := rfl
    rw [verify, if_neg (by rw [hpush]; simp)]
    refine (bind_of_ok hreset).trans ?_
    rw [bind_of_ok hnil, bind_of_ok hone, bind_of_ok (hget _), hresult]
    rfl
  rw [verifyError?, hverify]

namespace Transaction

/-- References and amounts that validation has nothing against. -/
structure Spendable (refs : List OutPoint) (amount : OutPoint → Int64) : Prop where
  ne_nil : refs ≠ []
  not_coinbase : OutPoint.coinbase ∉ refs
  nonneg : ∀ p ∈ refs, 0 ≤ (amount p).toInt
  total_le : (refs.map fun p => (amount p).toInt).sum ≤ maxSatoshis

/-- Outputs with the given names and amounts that anyone can spend. -/
def openOutputs (names : List OutPoint) (amount : OutPoint → Int64) : UtxoSet :=
  ⟨names.map fun p => (p, ⟨amount p, [0x51]⟩)⟩

/-- The transaction that spends such outputs and pays all that is counted for them. -/
def sweep (refs : List OutPoint) (amount : OutPoint → Int64) : Transaction where
  version := 1
  inputs := refs.map fun p => ⟨p, [], 0⟩
  outputs := [⟨Int64.ofInt (refs.map fun p => (amount p).toInt).sum, []⟩]
  lockTime := 0

theorem get?_openOutputs {names : List OutPoint} {amount : OutPoint → Int64} {p : OutPoint}
    (h : p ∈ names) : (openOutputs names amount).get? p = some ⟨amount p, [0x51]⟩ := by
  rw [openOutputs, UtxoSet.get?]
  induction names with
  | nil => exact nomatch h
  | cons q names ih =>
      rw [List.map_cons, List.find?_cons]
      by_cases hq : q = p
      · subst hq
        simp
      · have hmem := (List.mem_cons.1 h).resolve_left (Ne.symm hq)
        simpa [hq] using ih hmem

theorem amount_openOutputs {names : List OutPoint} {amount : OutPoint → Int64} {p : OutPoint}
    (h : p ∈ names) : (openOutputs names amount).amount p = (amount p).toInt := by
  rw [UtxoSet.amount, get?_openOutputs h]
  rfl

theorem references_sweep (refs : List OutPoint) (amount : OutPoint → Int64) :
    (sweep refs amount).references = refs := by
  rw [references, sweep, List.map_map]
  exact List.map_id refs

namespace Spendable

variable {refs : List OutPoint} {amount : OutPoint → Int64}

theorem sum_nonneg (h : Spendable refs amount) :
    0 ≤ (refs.map fun p => (amount p).toInt).sum :=
  List.sum_nonneg (List.forall_mem_map.2 h.nonneg)

theorem toInt_sum (h : Spendable refs amount) :
    (Int64.ofInt (refs.map fun p => (amount p).toInt).sum).toInt =
      (refs.map fun p => (amount p).toInt).sum := by
  have hnonneg := h.sum_nonneg
  have hmax := h.total_le
  have hlimit : maxSatoshis < 2 ^ 63 := by decide
  exact Int64.toInt_ofInt_of_le (by omega) (by omega)

theorem total_sweep (h : Spendable refs amount) :
    TxOutput.total (sweep refs amount).outputs = (refs.map fun p => (amount p).toInt).sum := by
  rw [sweep, TxOutput.total_cons, TxOutput.total_nil, add_zero]
  exact h.toInt_sum

theorem inOrder_sweep (h : Spendable refs amount) :
    InOrder (openOutputs refs.dedup amount) (sweep refs amount)
      (refs.map fun p => ⟨amount p, [0x51]⟩) := by
  have hspent : TxOutput.total (refs.map fun p => ⟨amount p, [0x51]⟩) =
      (refs.map fun p => (amount p).toInt).sum := by
    rw [TxOutput.total, List.map_map]
    rfl
  constructor
  case inputs_ne => exact fun hnil => h.ne_nil (List.map_eq_nil_iff.1 hnil)
  case outputs_ne => exact List.cons_ne_nil _ _
  case paid_nonneg =>
    intro o ho
    obtain rfl := List.mem_singleton.1 ho
    show 0 ≤ (Int64.ofInt _).toInt
    rw [h.toInt_sum]
    exact h.sum_nonneg
  case paid_le => exact h.total_sweep ▸ h.total_le
  case not_coinbase =>
    intro i hi
    obtain ⟨p, hp, rfl⟩ := List.mem_map.1 hi
    exact fun heq => h.not_coinbase (heq ▸ hp)
  case found =>
    rw [sweep, List.map_map, List.map_map]
    exact List.map_congr_left fun p hp => get?_openOutputs (List.mem_dedup.2 hp)
  case spent_nonneg => exact List.forall_mem_map.2 h.nonneg
  case spent_le => exact hspent ▸ h.total_le
  case covered => rw [h.total_sweep, hspent]

theorem accepted_sweep (h : Spendable refs amount) (c : Crypto) (flags : Flags) :
    Accepted c (openOutputs refs.dedup amount) flags (sweep refs amount)
      (refs.map fun p => ⟨amount p, [0x51]⟩) := by
  refine ⟨h.inOrder_sweep, verifyScripts_eq_ok_iff.2 fun k => ?_⟩
  refine Option.bind_eq_none_iff.2 fun p hp => ?_
  obtain ⟨hinput, houtput⟩ := List.of_mem_zip (List.mem_of_getElem? hp)
  obtain ⟨_, -, hi⟩ := List.mem_map.1 hinput
  obtain ⟨_, -, ho⟩ := List.mem_map.1 houtput
  rw [pairError?, ← hi, ← ho]
  exact Script.verifyError?_one c flags _

end Spendable

/-- Accepted transactions pay no more than is counted for their references. They pay no more than
the outputs hold exactly if no output with an amount is referenced twice. -/
theorem validate_conserves_iff (c : Crypto) (flags : Flags) :
    (∀ utxos tx, validate c utxos flags tx = .ok () →
      TxOutput.total tx.outputs ≤
          ∑ p ∈ tx.references.toFinset, tx.references.count p * utxos.amount p ∧
        ((∀ p, 2 ≤ tx.references.count p → utxos.amount p = 0) → Conserves utxos tx)) ∧
    ∀ refs amount, Spendable refs amount →
      ((∀ utxos tx, tx.references = refs → (∀ p ∈ refs, utxos.amount p = (amount p).toInt) →
          validate c utxos flags tx = .ok () → Conserves utxos tx) ↔
        ∀ p, 2 ≤ refs.count p → (amount p).toInt = 0) := by
  have hgeneral : ∀ utxos tx, validate c utxos flags tx = .ok () →
      TxOutput.total tx.outputs ≤
          ∑ p ∈ tx.references.toFinset, tx.references.count p * utxos.amount p ∧
        ((∀ p, 2 ≤ tx.references.count p → utxos.amount p = 0) → Conserves utxos tx) := by
    intro utxos tx hvalid
    obtain ⟨spent, h⟩ := validate_eq_ok_iff.1 hvalid
    have hcovered := h.covered
    rw [h.total_spent] at hcovered
    refine ⟨sum_references _ _ ▸ hcovered, fun hzero => ?_⟩
    rwa [sum_references_eq fun p _ => hzero p] at hcovered
  refine ⟨hgeneral, fun refs amount hspend => ⟨fun hall p hcount => ?_, fun hzero => ?_⟩⟩
  · by_contra hne
    have hheld : ∀ q ∈ refs, (openOutputs refs.dedup amount).amount q = (amount q).toInt :=
      fun q hq => amount_openOutputs (List.mem_dedup.2 hq)
    have hvalid := validate_eq_ok_iff.2 ⟨_, hspend.accepted_sweep c flags⟩
    have hconserves := hall _ _ (references_sweep refs amount) hheld hvalid
    rw [Conserves, hspend.total_sweep, references_sweep,
      Finset.sum_congr rfl fun q hq => hheld q (List.mem_toFinset.1 hq)] at hconserves
    have hless := lt_sum_references hspend.nonneg hcount hne
    exact absurd hconserves (not_le.2 hless)
  · intro utxos tx hrefs hamount hvalid
    subst hrefs
    refine (hgeneral utxos tx hvalid).2 fun p hcount => ?_
    have hmem : p ∈ tx.references := List.count_pos_iff.1 (by omega)
    rw [hamount p hmem, hzero p hcount]

/-- An output whose name is not that of inputs that create coins. -/
def someOutput : OutPoint := ⟨Digest.zero 32, 0⟩

theorem spendable_someOutput {n : Nat} (h : n = 1 ∨ n = 2) :
    Spendable (List.replicate n someOutput) fun _ => 100 := by
  rcases h with rfl | rfl
  · constructor <;> decide
  · constructor <;> decide

/-- The amount of an output that is referenced once is conserved. The amount of one that is
referenced twice is not. -/
theorem validate_conserves_someOutput :
    validate Crypto.standard (openOutputs [someOutput] fun _ => 100) Flags.none
        (sweep [someOutput] fun _ => 100) = .ok () ∧
      Conserves (openOutputs [someOutput] fun _ => 100) (sweep [someOutput] fun _ => 100) ∧
      Spendable [someOutput, someOutput] (fun _ => 100) ∧
      ¬∀ utxos tx, tx.references = [someOutput, someOutput] →
        (∀ p ∈ [someOutput, someOutput], utxos.amount p = 100) →
        validate Crypto.standard utxos Flags.none tx = .ok () → Conserves utxos tx := by
  have hone := spendable_someOutput (Or.inl rfl)
  have htwo := spendable_someOutput (Or.inr rfl)
  have hvalid := validate_eq_ok_iff.2 ⟨_, hone.accepted_sweep Crypto.standard Flags.none⟩
  have htheorem := validate_conserves_iff Crypto.standard Flags.none
  refine ⟨hvalid, (htheorem.1 _ _ hvalid).2 fun p hp => ?_, htwo, fun hall => ?_⟩
  · rw [references_sweep] at hp
    exact absurd (Nat.le_trans hp List.count_le_length) (by decide)
  · have hzero := (htheorem.2 _ _ htwo).1 hall someOutput (by decide)
    exact absurd hzero (by decide)

/-- Two inputs that reference one output pay its amount twice. -/
theorem not_conserves_sweep_twice :
    validate Crypto.standard (openOutputs [someOutput] fun _ => 100) Flags.none
        (sweep [someOutput, someOutput] fun _ => 100) = .ok () ∧
      ¬Conserves (openOutputs [someOutput] fun _ => 100)
        (sweep [someOutput, someOutput] fun _ => 100) := by
  have htwo := spendable_someOutput (Or.inr rfl)
  refine ⟨validate_eq_ok_iff.2 ⟨_, htwo.accepted_sweep Crypto.standard Flags.none⟩, ?_⟩
  rw [Conserves]
  decide

end Transaction

end BitcoinScript
