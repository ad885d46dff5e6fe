import BitcoinScript.Proofs.Machine.Outcome
import BitcoinScript.Transaction.Validate
import Mathlib.Algebra.Order.Ring.Int

/-!
# What validation accepts

Validation adds up amounts as it goes and stops where a sum would leave 64 bits. Amounts are not
negative, so partial sums stay below the last one, and what counts in the end are the exact sums.
The accepted transactions are therefore described without running totals.

Everything before the scripts can only refuse the data. So every other outcome is that of the
scripts, and these are those of each input with the output that it spends, the first failure
deciding.
-/

namespace BitcoinScript

def TxOutput.total (outputs : List TxOutput) : Int := (outputs.map (·.satoshis.toInt)).sum

namespace TxOutput

@[simp] theorem total_nil : total [] = 0 := rfl

@[simp] theorem total_cons (o : TxOutput) (outputs : List TxOutput) :
    total (o :: outputs) = o.satoshis.toInt + total outputs := List.sum_cons

theorem total_nonneg {outputs : List TxOutput} (h : ∀ o ∈ outputs, 0 ≤ o.satoshis.toInt) :
    0 ≤ total outputs := by
  induction outputs with
  | nil => exact Int.le_refl 0
  | cons o outputs ih =>
      rw [List.forall_mem_cons] at h
      rw [total_cons]
      exact Int.add_nonneg h.1 (ih h.2)

end TxOutput

namespace Transaction

theorem ensure_eq_ok_iff {p : Prop} [Decidable p] {e : DataError} {u : Unit} :
    ensure p e = .ok u ↔ p := by
  rw [ensure]
  split
  · exact ⟨fun _ => ‹p›, fun _ => rfl⟩
  · exact ⟨(nomatch ·), fun h => absurd h ‹¬p›⟩

theorem addAmount_eq_ok_iff {e : DataError} {total next : Int} {satoshis : Int64} :
    addAmount e total satoshis = .ok next ↔
      0 ≤ satoshis.toInt ∧ total + satoshis.toInt ≤ maxTotal ∧ next = total + satoshis.toInt := by
  rw [addAmount]
  split
  · exact ⟨(nomatch ·), fun h => by omega⟩
  · split
    · exact ⟨(nomatch ·), fun h => by omega⟩
    · rw [Except.ok.injEq]
      exact ⟨fun h => ⟨by omega, by omega, h.symm⟩, fun h => h.2.2.symm⟩

theorem totalOut_eq_ok_iff {outputs : List TxOutput} {total paid : Int} (h : total ≤ maxTotal) :
    totalOut total outputs = .ok paid ↔
      (∀ o ∈ outputs, 0 ≤ o.satoshis.toInt) ∧ paid = total + TxOutput.total outputs ∧
        paid ≤ maxTotal := by
  induction outputs generalizing total with
  | nil =>
      rw [totalOut, TxOutput.total_nil, Except.ok.injEq]
      refine ⟨fun heq => ⟨fun _ ho => (nomatch ho), by omega, by omega⟩, fun heq => ?_⟩
      omega
  | cons o outputs ih =>
      rw [totalOut, except_bind_eq_ok_iff, List.forall_mem_cons, TxOutput.total_cons]
      constructor
      · rintro ⟨next, hnext, hrest⟩
        obtain ⟨hnonneg, hmax, rfl⟩ := addAmount_eq_ok_iff.1 hnext
        obtain ⟨hall, hpaid, hle⟩ := (ih hmax).1 hrest
        exact ⟨⟨hnonneg, hall⟩, by omega, hle⟩
      · rintro ⟨⟨hnonneg, hall⟩, hpaid, hle⟩
        have hrest := TxOutput.total_nonneg hall
        have hmax : total + o.satoshis.toInt ≤ maxTotal := by omega
        exact ⟨_, addAmount_eq_ok_iff.2 ⟨hnonneg, hmax, rfl⟩, (ih hmax).2 ⟨hall, by omega, hle⟩⟩

/-- Spending finds one output for each input, in order, and counts each of them. -/
theorem spend_eq_ok_iff {utxos : UtxoSet} {inputs : List TxInput} {total taken : Int}
    {spent : List TxOutput} (h : total ≤ maxTotal) :
    spend utxos total inputs = .ok (spent, taken) ↔
      inputs.map (fun i => utxos.get? i.prevOutput) = spent.map some ∧
        (∀ o ∈ spent, 0 ≤ o.satoshis.toInt) ∧ taken = total + TxOutput.total spent ∧
        taken ≤ maxTotal := by
  induction inputs generalizing total spent with
  | nil =>
      rw [spend, Except.ok.injEq, Prod.mk.injEq, List.map_nil]
      constructor
      · rintro ⟨rfl, rfl⟩
        exact ⟨rfl, fun _ ho => (nomatch ho), by simp, h⟩
      · rintro ⟨hspent, -, htaken, -⟩
        obtain rfl := List.map_eq_nil_iff.1 hspent.symm
        rw [TxOutput.total_nil] at htaken
        exact ⟨rfl, by omega⟩
  | cons i inputs ih =>
      rw [spend, List.map_cons]
      cases hget : utxos.get? i.prevOutput with
      | none =>
          refine ⟨(nomatch ·), fun h => ?_⟩
          cases spent with
          | nil => exact nomatch h.1
          | cons o spent => exact nomatch (List.cons.inj h.1).1
      | some o =>
          simp only [except_bind_eq_ok_iff]
          constructor
          · rintro ⟨next, hnext, ⟨rest, last⟩, hrest, heq⟩
            obtain ⟨hnonneg, hmax, rfl⟩ := addAmount_eq_ok_iff.1 hnext
            simp only [pure, Except.pure, Except.ok.injEq, Prod.mk.injEq] at heq
            obtain ⟨rfl, rfl⟩ := heq
            obtain ⟨hfound, hall, htaken, hle⟩ := (ih hmax).1 hrest
            refine ⟨by rw [hfound, List.map_cons], List.forall_mem_cons.2 ⟨hnonneg, hall⟩, ?_, hle⟩
            rw [TxOutput.total_cons]
            omega
          · rintro ⟨hfound, hall, htaken, hle⟩
            cases spent with
            | nil => exact nomatch hfound
            | cons o' spent =>
                rw [List.map_cons, List.cons.injEq, Option.some.injEq] at hfound
                obtain ⟨rfl, hfound⟩ := hfound
                rw [List.forall_mem_cons] at hall
                rw [TxOutput.total_cons] at htaken
                have hrest := TxOutput.total_nonneg hall.2
                have hmax : total + o.satoshis.toInt ≤ maxTotal := by omega
                refine ⟨_, addAmount_eq_ok_iff.2 ⟨hall.1, hmax, rfl⟩, (spent, taken), ?_, rfl⟩
                exact (ih hmax).2 ⟨hfound, hall.2, by omega, hle⟩

/-! ## Before the scripts -/

/-- All that can go wrong is that data are refused. -/
def OnlyRefuses {α : Type} (m : Except Error α) : Prop :=
  ∀ e, m = .error e → ∃ cause, e = .badData cause

namespace OnlyRefuses

variable {α β : Type} {m : Except Error α} {f : α → Except Error β}

theorem of_ok {a : α} : OnlyRefuses (.ok a) := fun _ h => nomatch h

theorem refuse {cause : DataError} : OnlyRefuses (.error (.badData cause) : Except Error α) :=
  fun _ h => ⟨cause, (Except.error.inj h).symm⟩

theorem bind (hm : OnlyRefuses m) (hf : ∀ a, OnlyRefuses (f a)) : OnlyRefuses (m >>= f) := by
  intro e h
  cases hm' : m with
  | ok a =>
      rw [hm'] at h
      exact hf a e h
  | error e' =>
      rw [hm'] at h
      cases h
      exact hm e hm'

/-- Any other outcome than a refusal comes from behind. -/
theorem bind_eq_iff (hm : OnlyRefuses m) {out : Except Error β}
    (hout : ∀ cause, out ≠ .error (.badData cause)) :
    m >>= f = out ↔ ∃ a, m = .ok a ∧ f a = out := by
  cases hm' : m with
  | ok a => exact ⟨fun h => ⟨a, rfl, h⟩, fun ⟨_, h, hf⟩ => Except.ok.inj h ▸ hf⟩
  | error e =>
      obtain ⟨cause, rfl⟩ := hm e hm'
      exact ⟨fun h => absurd h.symm (hout cause), fun ⟨_, h, _⟩ => nomatch h⟩

end OnlyRefuses

theorem onlyRefuses_ensure {p : Prop} [Decidable p] {cause : DataError} :
    OnlyRefuses (ensure p cause) := by
  rw [ensure]
  split
  · exact .of_ok
  · exact .refuse

theorem onlyRefuses_addAmount {overflow : DataError} {total : Int} {satoshis : Int64} :
    OnlyRefuses (addAmount overflow total satoshis) := by
  rw [addAmount]
  split
  · exact .refuse
  · split
    · exact .refuse
    · exact .of_ok

theorem onlyRefuses_totalOut {total : Int} {outputs : List TxOutput} :
    OnlyRefuses (totalOut total outputs) := by
  induction outputs generalizing total with
  | nil => exact .of_ok
  | cons o outputs ih => exact onlyRefuses_addAmount.bind fun _ => ih

theorem onlyRefuses_spend {utxos : UtxoSet} {total : Int} {inputs : List TxInput} :
    OnlyRefuses (spend utxos total inputs) := by
  induction inputs generalizing total with
  | nil => exact .of_ok
  | cons i inputs ih =>
      rw [spend]
      split
      · exact .refuse
      · exact onlyRefuses_addAmount.bind fun _ => ih.bind fun _ => .of_ok

/-- What is checked of a transaction that spends the given outputs before its scripts are run. -/
structure InOrder (utxos : UtxoSet) (tx : Transaction) (spent : List TxOutput) : Prop where
  inputs_ne : tx.inputs ≠ []
  outputs_ne : tx.outputs ≠ []
  paid_nonneg : ∀ o ∈ tx.outputs, 0 ≤ o.satoshis.toInt
  paid_le : TxOutput.total tx.outputs ≤ maxSatoshis
  not_coinbase : ∀ i ∈ tx.inputs, i.prevOutput ≠ OutPoint.coinbase
  found : tx.inputs.map (fun i => utxos.get? i.prevOutput) = spent.map some
  spent_nonneg : ∀ o ∈ spent, 0 ≤ o.satoshis.toInt
  spent_le : TxOutput.total spent ≤ maxSatoshis
  covered : TxOutput.total tx.outputs ≤ TxOutput.total spent

/-- What an accepted transaction that spends the given outputs keeps to. -/
structure Accepted (c : Crypto) (utxos : UtxoSet) (flags : Flags) (tx : Transaction)
    (spent : List TxOutput) : Prop extends InOrder utxos tx spent where
  scripts : verifyScripts c (SigHashCache.ofTransaction c tx) tx flags 0
    (tx.inputs.zip spent) = .ok ()

section

variable {c : Crypto} {utxos : UtxoSet} {flags : Flags} {tx : Transaction}

/-- Every outcome but a refusal is that of the scripts. -/
theorem validate_eq_iff {out : Except Error Unit}
    (hout : ∀ cause, out ≠ .error (.badData cause)) :
    validate c utxos flags tx = out ↔ ∃ spent, InOrder utxos tx spent ∧
      verifyScripts c (SigHashCache.ofTransaction c tx) tx flags 0 (tx.inputs.zip spent) = out := by
  have hzero : (0 : Int) ≤ maxTotal := by decide
  have hmax : maxSatoshis ≤ maxTotal := by decide
  simp only [validate, onlyRefuses_ensure.bind_eq_iff hout, onlyRefuses_totalOut.bind_eq_iff hout,
    onlyRefuses_spend.bind_eq_iff hout, ensure_eq_ok_iff, totalOut_eq_ok_iff hzero,
    Prod.exists, spend_eq_ok_iff hzero]
  constructor
  · rintro ⟨-, hin, -, hout, paid, ⟨hpaid, rfl, -⟩, -, hle, -, hcoin, spent, taken,
      ⟨hfound, hspent, rfl, -⟩, -, htaken, -, hcovered, hscripts⟩
    refine ⟨spent, ⟨hin, hout, hpaid, by omega, fun i hi => ?_, hfound, hspent, by omega, by omega⟩,
      hscripts⟩
    simpa [OutPoint.isCoinbase] using hcoin i hi
  · rintro ⟨spent, h, hscripts⟩
    have hpaid := h.paid_le
    have htaken := h.spent_le
    have hcovered := h.covered
    refine ⟨(), h.inputs_ne, (), h.outputs_ne, _, ⟨h.paid_nonneg, rfl, by omega⟩, (), by omega, (),
      fun i hi => ?_, spent, _, ⟨h.found, h.spent_nonneg, rfl, by omega⟩, (), by omega, (),
      by omega, hscripts⟩
    simpa [OutPoint.isCoinbase] using h.not_coinbase i hi

theorem validate_eq_ok_iff :
    validate c utxos flags tx = .ok () ↔ ∃ spent, Accepted c utxos flags tx spent :=
  (validate_eq_iff (by simp)).trans
    ⟨fun ⟨spent, h, hscripts⟩ => ⟨spent, h, hscripts⟩,
      fun ⟨spent, h⟩ => ⟨spent, h.toInOrder, h.scripts⟩⟩

/-! ## Scripts -/

/-- The error of the scripts of an input and the output that it spends, if they fail. -/
def pairError? (c : Crypto) (cache : SigHashCache) (tx : Transaction) (flags : Flags)
    (index : Nat) (p : TxInput × TxOutput) : Option ScriptError :=
  Script.verifyError? ⟨flags, Limits.consensus, checker c cache tx index p.2.satoshis, c⟩
    p.1.unlockScript p.2.lockScript

section

variable {cache : SigHashCache} {index : Nat} {pairs : List (TxInput × TxOutput)}

theorem verifyScripts_cons (p : TxInput × TxOutput) :
    verifyScripts c cache tx flags index (p :: pairs) =
      match pairError? c cache tx flags index p with
      | some e => .error (.script e)
      | none => verifyScripts c cache tx flags (index + 1) pairs := rfl

/-- Verification succeeds if no pair fails. -/
theorem verifyScripts_eq_ok_iff :
    verifyScripts c cache tx flags index pairs = .ok () ↔
      ∀ k, pairs[k]?.bind (pairError? c cache tx flags (index + k)) = none := by
  induction pairs generalizing index with
  | nil => exact ⟨fun _ _ => rfl, fun _ => rfl⟩
  | cons p pairs ih =>
      have hrest := @ih (index + 1)
      simp only [Nat.add_right_comm index 1] at hrest
      rw [verifyScripts_cons, ← Nat.and_forall_add_one]
      simp only [List.getElem?_cons_zero, List.getElem?_cons_succ, Option.bind_some, Nat.add_zero,
        ← Nat.add_assoc, ← hrest]
      cases pairError? c cache tx flags index p with
      | none => exact (and_iff_right rfl).symm
      | some e => exact ⟨(nomatch ·), fun h => nomatch h.1⟩

/-- The error is that of the first pair that fails. -/
theorem verifyScripts_eq_error_iff {e : ScriptError} :
    verifyScripts c cache tx flags index pairs = .error (.script e) ↔
      ∃ k, pairs[k]?.bind (pairError? c cache tx flags (index + k)) = some e ∧
        ∀ j < k, pairs[j]?.bind (pairError? c cache tx flags (index + j)) = none := by
  induction pairs generalizing index with
  | nil => exact ⟨(nomatch ·), fun ⟨_, h, _⟩ => nomatch h⟩
  | cons p pairs ih =>
      have hrest := @ih (index + 1)
      simp only [Nat.add_right_comm index 1] at hrest
      rw [verifyScripts_cons, ← Nat.or_exists_add_one]
      simp only [Nat.forall_lt_succ_left, List.getElem?_cons_zero, List.getElem?_cons_succ,
        Option.bind_some, Nat.add_zero, ← Nat.add_assoc]
      cases pairError? c cache tx flags index p with
      | none => simpa using hrest
      | some e' => simp

end

/-- The error of the scripts of the input at an index, if it spends a known output and they fail. -/
def scriptError? (c : Crypto) (utxos : UtxoSet) (flags : Flags) (tx : Transaction)
    (index : Nat) : Option ScriptError := do
  let i ← tx.inputs[index]?
  let o ← utxos.get? i.prevOutput
  Script.verifyError?
    ⟨flags, Limits.consensus, checker c (SigHashCache.ofTransaction c tx) tx index o.satoshis, c⟩
    i.unlockScript o.lockScript

/-- The scripts at an index are those of the pair at this index. -/
theorem InOrder.scriptError?_eq {spent : List TxOutput} (h : InOrder utxos tx spent)
    (index : Nat) :
    (tx.inputs.zip spent)[index]?.bind
        (pairError? c (SigHashCache.ofTransaction c tx) tx flags (0 + index)) =
      scriptError? c utxos flags tx index := by
  have hfound := congrArg (·[index]?) h.found
  simp only [List.getElem?_map] at hfound
  rw [scriptError?, List.zip, List.getElem?_zipWith, Nat.zero_add]
  cases hi : tx.inputs[index]? with
  | none => rfl
  | some i =>
      rw [hi] at hfound
      cases ho : spent[index]? with
      | none =>
        rw [ho] at hfound
        cases hfound
      | some o =>
          rw [ho] at hfound
          have hget : utxos.get? i.prevOutput = some o := Option.some.inj hfound
          simp [hget, pairError?]

/-- A transaction is accepted exactly if everything that is checked before the scripts is in order,
with exact sums, and the scripts of no input fail. If it is in order and scripts fail, the error is
that of the first input whose scripts do. -/
theorem validate_accepts_iff (c : Crypto) (utxos : UtxoSet) (flags : Flags) (tx : Transaction) :
    (validate c utxos flags tx = .ok () ↔
      (∃ spent, InOrder utxos tx spent) ∧ ∀ index, scriptError? c utxos flags tx index = none) ∧
    ∀ e, validate c utxos flags tx = .error (.script e) ↔
      (∃ spent, InOrder utxos tx spent) ∧ ∃ index, scriptError? c utxos flags tx index = some e ∧
        ∀ j < index, scriptError? c utxos flags tx j = none := by
  constructor
  · rw [validate_eq_iff (by simp), ← exists_and_right]
    refine exists_congr fun spent => and_congr_right fun h => ?_
    simp only [verifyScripts_eq_ok_iff, h.scriptError?_eq]
  · intro e
    rw [validate_eq_iff (by simp), ← exists_and_right]
    refine exists_congr fun spent => and_congr_right fun h => ?_
    simp only [verifyScripts_eq_error_iff, h.scriptError?_eq]

end

/-- Outputs of which only the first can be spent by an empty script. -/
def threeOutputs : UtxoSet :=
  ⟨[(⟨.zero 32, 0⟩, ⟨10, [0x51]⟩), (⟨.zero 32, 1⟩, ⟨20, [0x6a]⟩), (⟨.zero 32, 2⟩, ⟨30, []⟩)]⟩

def threeInputs : Transaction :=
  ⟨1, [⟨⟨.zero 32, 0⟩, [], 0⟩, ⟨⟨.zero 32, 1⟩, [], 0⟩, ⟨⟨.zero 32, 2⟩, [], 0⟩], [⟨60, []⟩], 0⟩

/-- Of the two inputs whose scripts fail, the first one gives the error. -/
theorem validate_accepts_iff_threeInputs :
    validate Crypto.standard threeOutputs Flags.none threeInputs = .error (.script .opReturn) ∧
      scriptError? Crypto.standard threeOutputs Flags.none threeInputs 2 = some .evalFalse := by
  have hspent : InOrder threeOutputs threeInputs
      [⟨10, [0x51]⟩, ⟨20, [0x6a]⟩, ⟨30, []⟩] := by constructor <;> decide
  refine ⟨((validate_accepts_iff _ _ _ _).2 _).2 ⟨⟨_, hspent⟩, 1, ?_, ?_⟩, ?_⟩
  · decide +kernel
  · decide +kernel
  · decide +kernel

end Transaction

end BitcoinScript
