import BitcoinScript.Proofs.Machine.SignedCode

/-!
# Counted operations

An opcode above the one that pushes sixteen counts as one operation wherever it stands. A multiple
signature check that is executed counts its keys besides, before it tries the first of them.

Asking the checker is paid for by what is counted: a check of one signature asks once, and a
multiple one goes on to another key with every call. So no more calls are made than operations
counted, and since counting stops at the limit, no more than there may be operations. This holds
also where an instruction stops halfway.
-/

namespace BitcoinScript

def Command.checksSigs : Command → Bool
  | .checkSig _ | .checkMultiSig _ => true
  | _ => false

/-- The number of keys that a command reads from the top of a stack. -/
def Command.keyCount (r : Rules) : Command → Stack Bytes → Nat
  | .checkMultiSig _, item :: _ =>
      match Number.decode (r.flags.contains .minimalData) r.limits.numberLength item with
      | .ok n => n.toNat
      | .error _ => 0
  | _, _ => 0

/-- The calls that a command makes on account of its own opcode. -/
def Command.ownCalls : Command → Nat
  | .checkSig _ => 1
  | _ => 0

/-- The opcodes that check signatures count as operations and do nothing in branches that are not
taken. -/
theorem Opcode.classes_of_checksSigs {op : Opcode} (h : op.command.checksSigs) :
    op.isPush = false ∧ op.isPushData = false ∧ op.isConditional = false :=
  command_of_entries
    (P := fun b c => c.checksSigs → (⟨b⟩ : Opcode).isPush = false ∧
      (⟨b⟩ : Opcode).isPushData = false ∧ (⟨b⟩ : Opcode).isConditional = false)
    (fun _ h => nomatch h) (by decide) op h

theorem Instr.ownCalls_le_cost (op : Instr) : op.code.command.ownCalls ≤ op.cost := by
  by_cases h : op.code.command.checksSigs
  · rw [Instr.cost, (Opcode.classes_of_checksSigs h).1]
    cases hc : op.code.command with
    | checkSig verify => exact Nat.le_refl 1
    | _ => exact Nat.zero_le 1
  · cases hc : op.code.command with
    | checkSig verify =>
        rw [hc] at h
        exact absurd rfl h
    | _ => exact Nat.zero_le _

namespace Exec

def Taken.keyCount (r : Rules) (p : Taken) : Nat :=
  if p.before.branches.all id then p.op.code.command.keyCount r p.before.stack else 0

section

variable {α β : Type} {r : Rules} {script code : Script} {s t u : State} {c : Command}

/-! ## Commands -/

/-- The operations counted are `ops`, and the checker has been asked `calls` times at most. -/
def Counts (ops calls : Nat) (s : State) : Prop := s.opCount = ops ∧ s.calls.length ≤ calls

theorem ignoresStack_counts {ops calls : Nat} : IgnoresStack (Counts ops calls) :=
  fun _ _ h => h

/-- The step asks the checker `n` times at most and counts no operation. -/
def AsksAtMost (n : Nat) (m : Exec α) : Prop :=
  ∀ (ops calls : Nat) (s : State), Counts ops calls s →
    m.Ends s (fun _ t => Counts ops (calls + n) t) fun _ t => Counts ops (calls + n) t

namespace AsksAtMost

variable {m : Exec α} {f : α → Exec β} {n : Nat}

theorem bind {k l : Nat} (h : AsksAtMost n m) (hf : ∀ a, AsksAtMost k (f a)) (hl : n + k ≤ l) :
    AsksAtMost l (m >>= f) := by
  have hle : ∀ {ops calls j : Nat} {t : State}, j ≤ calls + l → Counts ops j t →
      Counts ops (calls + l) t := fun hj ht => ⟨ht.1, Nat.le_trans ht.2 hj⟩
  intro ops calls s hs
  refine (ends_bind m f).2 ((h ops calls s hs).mono (fun a t ht => ?_) fun _ t => hle (by omega))
  exact (hf a ops (calls + n) t ht).mono (fun _ _ => hle (by omega)) fun _ _ => hle (by omega)

theorem ite {p : Prop} [Decidable p] {m m' : Exec α} (h : p → AsksAtMost n m)
    (h' : ¬p → AsksAtMost n m') : AsksAtMost n (if p then m else m') := by
  split
  · exact h ‹p›
  · exact h' ‹¬p›

/-- A step that asks for nothing in front of others. -/
theorem behind (h : ∀ ops calls, Keeps (Counts ops calls) m) (hf : ∀ a, AsksAtMost n (f a)) :
    AsksAtMost n (m >>= f) := fun ops calls s hs =>
  (ends_bind m f).2 ((h ops calls s hs).mono (fun a t ht => hf a ops calls t ht)
    fun _ _ ht => ⟨ht.1, Nat.le_trans ht.2 (Nat.le_add_right _ _)⟩)

/-- Steps that ask for nothing behind another one. -/
theorem before (h : AsksAtMost n m) (hf : ∀ ops calls a, Keeps (Counts ops calls) (f a)) :
    AsksAtMost n (m >>= f) := fun ops calls s hs =>
  (ends_bind m f).2 ((h ops calls s hs).mono (fun a t ht => hf ops (calls + n) a t ht)
    fun _ _ ht => ht)

end AsksAtMost

theorem asksAtMost_pure (n : Nat) (a : α) : AsksAtMost n (pure a) :=
  fun _ _ _ hs => ⟨hs.1, Nat.le_trans hs.2 (Nat.le_add_right _ _)⟩

theorem asksAtMost_ask (call : SigCall) : AsksAtMost 1 (ask r call) := by
  intro ops calls s hs
  have hcounts : Counts ops (calls + 1) { s with calls := s.calls ++ [call] } := by
    refine ⟨hs.1, ?_⟩
    rw [List.length_append]
    exact Nat.succ_le_succ hs.2
  exact (ends_ask r call).2 ⟨fun _ _ => hcounts, fun _ => hcounts⟩

theorem asksAtMost_checkPair (sig key : Bytes) : AsksAtMost 1 (checkPair r code sig key) := by
  refine .behind (fun _ _ => keeps_ofExcept _) fun _ => ?_
  exact .behind (fun _ _ => keeps_ofExcept _) fun _ => asksAtMost_ask _

theorem asksAtMost_tryPair (sigPlace keyPlace : Nat) :
    AsksAtMost 1 (tryPair r code sigPlace keyPlace) := by
  refine .behind (fun _ _ => keeps_peek _) fun sig => ?_
  exact .behind (fun _ _ => keeps_peek _) fun key => asksAtMost_checkPair sig key

/-- Every call leaves one key less, whether it accepts the signature or not. -/
theorem asksAtMost_matchSigs {keysLeft sigsLeft keyPlace sigPlace : Nat}
    (h : sigsLeft ≤ keysLeft) :
    AsksAtMost keysLeft (matchSigs r code keysLeft sigsLeft keyPlace sigPlace) := by
  induction keysLeft generalizing sigsLeft keyPlace sigPlace with
  | zero =>
      obtain rfl := Nat.le_zero.1 h
      exact asksAtMost_pure 0 true
  | succ keysLeft ih =>
      cases sigsLeft with
      | zero => exact asksAtMost_pure _ true
      | succ sigsLeft =>
          refine .bind (asksAtMost_tryPair sigPlace keyPlace) (fun accepted => ?_)
            (Nat.le_of_eq (Nat.add_comm 1 keysLeft))
          exact .ite (fun _ => asksAtMost_pure _ false) fun hleft => ih (Nat.le_of_not_lt hleft)

theorem asksAtMost_checkSig (verify : Bool) : AsksAtMost 1 (checkSig r script verify) := by
  refine .behind (fun _ _ => keeps_need 2) fun _ => ?_
  refine .behind (fun _ _ => keeps_peek 1) fun sig => ?_
  refine .behind (fun _ _ => keeps_peek 0) fun key => ?_
  refine .behind (fun _ _ => keeps_scriptCode script) fun code => ?_
  refine .behind (fun _ _ => keeps_ofOption _) fun code => ?_
  exact (asksAtMost_checkPair sig key).before fun _ _ result =>
    keeps_closeSig ignoresStack_counts verify sig result

theorem keyCount_of_decode {verify : Bool} {stack : Stack Bytes} {item : Bytes} {n : Nat}
    (hitem : stack[0]? = some item)
    (hn : Number.decode (r.flags.contains .minimalData) r.limits.numberLength item =
      .ok (n : Int)) : (Command.checkMultiSig verify).keyCount r stack = n := by
  cases stack with
  | nil => exact nomatch hitem
  | cons top rest =>
      obtain rfl : top = item := Option.some.inj hitem
      rw [Command.keyCount, hn]
      rfl

/-- The calls that are made between two states are paid for by the operations that are counted
there, but for `own` of them, and no operation beyond the limit pays for a call. -/
def Pays (r : Rules) (own : Nat) (s t : State) : Prop :=
  t.calls.length + s.opCount ≤ s.calls.length + own + min t.opCount r.limits.ops

theorem pays_of_calls_eq {own : Nat} (hops : s.opCount ≤ r.limits.ops) (hcalls : t.calls = s.calls)
    (hcount : s.opCount ≤ t.opCount) : Pays r own s t := by
  have hmin : s.opCount ≤ min t.opCount r.limits.ops := Nat.le_min.2 ⟨hcount, hops⟩
  rw [Pays, hcalls]
  omega

/-- Calls that are paid for, with `n` operations counted. -/
theorem Counts.pays {own n calls : Nat} (h : Counts (s.opCount + n) calls t)
    (hops : s.opCount + n ≤ r.limits.ops) (hcalls : calls ≤ s.calls.length + own + n) :
    t.opCount = s.opCount + n ∧ t.opCount ≤ r.limits.ops ∧ Pays r own s t := by
  obtain ⟨hcount, hle⟩ := h
  have hmin : min t.opCount r.limits.ops = s.opCount + n := by rw [hcount, Nat.min_eq_left hops]
  refine ⟨hcount, by rwa [hcount], ?_⟩
  rw [Pays, hmin]
  omega

/-- Commands that do not check signatures neither count operations nor ask the checker. -/
theorem ends_execute_of_not_checksSigs {taken : Bool} {next : Nat} (hc : ¬c.checksSigs) :
    (execute r script taken next c).Ends s
      (fun _ t => t.opCount = s.opCount ∧ t.calls = s.calls)
      fun _ t => t.opCount = s.opCount ∧ t.calls = s.calls := by
  have hcontrol : ∀ t : State, t.control = s.control →
      t.opCount = s.opCount ∧ t.calls = s.calls := by
    intro t ht
    simp only [State.control, Prod.mk.injEq] at ht
    exact ht.2.2
  have hplain : c.IsPlain → (execute r script taken next c).Ends s
      (fun _ t => t.opCount = s.opCount ∧ t.calls = s.calls)
      fun _ t => t.opCount = s.opCount ∧ t.calls = s.calls := fun h =>
    Ends.mono (onlyStacks_execute h) (fun _ t ht => hcontrol t ht) fun _ t ht => hcontrol t ht.2
  cases c with
  | openBranch negated =>
      rw [execute_openBranch]
      exact (ends_bind _ _).2 (Ends.mono onlyStacks_condition (fun _ t ht => hcontrol t ht)
        fun _ t ht => hcontrol t ht.2)
  | switchBranch => exact ends_switchBranch.2 ⟨fun _ _ _ => ⟨rfl, rfl⟩, fun _ => ⟨rfl, rfl⟩⟩
  | closeBranch => exact ends_closeBranch.2 ⟨fun _ _ _ => ⟨rfl, rfl⟩, fun _ => ⟨rfl, rfl⟩⟩
  | codeSeparator => exact ⟨rfl, rfl⟩
  | checkSig verify => exact absurd rfl hc
  | checkMultiSig verify => exact absurd rfl hc
  | _ => exact hplain trivial

theorem keyCount_of_not_checksSigs (hc : ¬c.checksSigs) (stack : Stack Bytes) :
    c.keyCount r stack = 0 := by
  cases c with
  | checkMultiSig verify => exact absurd rfl hc
  | _ => rfl

/-- A command counts the keys that it reads, and pays for its calls whether it stops or not. -/
theorem ends_execute_count {next : Nat} (hops : s.opCount ≤ r.limits.ops) :
    (execute r script true next c).Ends s
      (fun _ t => t.opCount = s.opCount + c.keyCount r s.stack ∧ t.opCount ≤ r.limits.ops ∧
        Pays r c.ownCalls s t)
      fun _ t => Pays r c.ownCalls s t := by
  by_cases hc : c.checksSigs
  · cases c with
    | checkSig verify =>
        have hpays : ∀ t, Counts s.opCount (s.calls.length + 1) t →
            t.opCount = s.opCount + 0 ∧ t.opCount ≤ r.limits.ops ∧ Pays r 1 s t :=
          fun t ht => Counts.pays (n := 0) ht hops (Nat.le_refl _)
        exact (asksAtMost_checkSig verify _ _ s ⟨rfl, Nat.le_refl _⟩).mono
          (fun _ t ht => hpays t ht) fun _ t ht => (hpays t ht).2.2
    | checkMultiSig verify =>
        refine ends_checkMultiSig (fun _ n _ => ?_) fun n keys _ _ _ _ hfinds => ?_
        · exact pays_of_calls_eq hops rfl (Nat.le_add_right _ _)
        · have hpays : ∀ t, Counts (s.opCount + keys.length) (s.calls.length + keys.length) t →
              t.opCount = s.opCount + keys.length ∧ t.opCount ≤ r.limits.ops ∧ Pays r 0 s t :=
            fun t ht => ht.pays hfinds.ops_le (Nat.le_refl _)
          have hitem : s.stack[0]? = some n := by rw [hfinds.stack, List.getElem?_cons_zero]
          rw [keyCount_of_decode hitem hfinds.keyCount]
          refine Ends.mono ((asksAtMost_matchSigs hfinds.sigs_le).before (fun _ _ _ =>
            keeps_closeMultiSig ignoresStack_counts _ _ _ _) (s.opCount + keys.length)
            s.calls.length _ ⟨rfl, Nat.le_refl _⟩) (fun _ t ht => hpays t ht)
            fun _ t ht => (hpays t ht).2.2
    | _ => exact nomatch hc
  · have hpays : ∀ t : State, t.opCount = s.opCount ∧ t.calls = s.calls →
        Pays r c.ownCalls s t :=
      fun t ht => pays_of_calls_eq hops ht.2 (Nat.le_of_eq ht.1.symm)
    rw [keyCount_of_not_checksSigs hc]
    refine (ends_execute_of_not_checksSigs hc).mono (fun _ t ht => ⟨ht.1, ?_, hpays t ht⟩)
      fun _ t ht => hpays t ht
    rw [ht.1]
    exact hops

/-! ## Instructions -/

variable {op : Instr} {next : Nat} {taken : Bool}

theorem act_of_checksSigs (h : op.code.command.checksSigs) :
    act r script op next taken =
      if taken then execute r script true next op.code.command else pure () := by
  obtain ⟨-, hdata, hconditional⟩ := Opcode.classes_of_checksSigs h
  rw [act, hdata, hconditional, Bool.and_false, Bool.or_false]
  cases taken with
  | false => rfl
  | true => rfl

theorem ends_act_of_not_checksSigs (h : ¬op.code.command.checksSigs) :
    (act r script op next taken).Ends s (fun _ t => t.opCount = s.opCount ∧ t.calls = s.calls)
      fun _ t => t.opCount = s.opCount ∧ t.calls = s.calls := by
  rw [act]
  split
  · exact (ends_bind _ _).2 ((ends_require _ _).2 ⟨fun _ => ⟨rfl, rfl⟩, fun _ => ⟨rfl, rfl⟩⟩)
  · split
    · exact ends_execute_of_not_checksSigs h
    · exact ⟨rfl, rfl⟩

/-- What is done with an instruction that has been counted. -/
theorem ends_act_count (hops : s.opCount ≤ r.limits.ops) :
    (act r script op next (s.branches.all id)).Ends s
      (fun _ t => t.opCount = s.opCount + Taken.keyCount r ⟨op, s⟩ ∧ t.opCount ≤ r.limits.ops ∧
        Pays r op.code.command.ownCalls s t)
      fun _ t => Pays r op.code.command.ownCalls s t := by
  have hpays : ∀ t : State, t.opCount = s.opCount ∧ t.calls = s.calls →
      t.opCount = s.opCount ∧ t.opCount ≤ r.limits.ops ∧ Pays r op.code.command.ownCalls s t :=
    fun t ht => ⟨ht.1, by rwa [ht.1], pays_of_calls_eq hops ht.2 (Nat.le_of_eq ht.1.symm)⟩
  by_cases h : op.code.command.checksSigs
  · rw [act_of_checksSigs h, Taken.keyCount]
    split
    · exact ends_execute_count hops
    · exact hpays s ⟨rfl, rfl⟩
  · have hkeys : Taken.keyCount r ⟨op, s⟩ = 0 := by
      rw [Taken.keyCount, keyCount_of_not_checksSigs h, ite_self]
    rw [hkeys]
    exact (ends_act_of_not_checksSigs h).mono (fun _ t ht => hpays t ht)
      fun _ t ht => (hpays t ht).2.2

/-- An instruction counts itself, if it is an operation, and the keys of a multiple signature check
that is executed. -/
theorem ends_step_count (hops : s.opCount ≤ r.limits.ops) :
    (step r script op next).Ends s
      (fun _ t => t.opCount = s.opCount + (op.cost + Taken.keyCount r ⟨op, s⟩) ∧
        t.opCount ≤ r.limits.ops ∧ Pays r 0 s t)
      fun _ t => Pays r 0 s t := by
  rw [step_eq]
  refine (ends_bind _ _).2 ((ends_prepare op).mono ?_ ?_)
  · rintro _ _ ⟨rfl, -, -, hcount⟩
    have hown := Instr.ownCalls_le_cost op
    have hpays : ∀ t, Pays r op.code.command.ownCalls { s with opCount := s.opCount + op.cost } t →
        Pays r 0 s t := by
      intro t ht
      rw [Pays] at ht ⊢
      dsimp only at ht
      omega
    refine (ends_bind _ _).2 (ends_isTaken.2 ?_)
    refine (ends_act_count (hcount hops)).mono (fun _ t ht => ⟨?_, ht.2.1, hpays t ht.2.2⟩)
      fun _ t ht => hpays t ht
    rw [ht.1]
    exact Nat.add_assoc _ _ _
  · rintro _ _ ⟨n, rfl⟩
    exact pays_of_calls_eq hops rfl (Nat.le_add_right _ _)

end

end Exec

end BitcoinScript
