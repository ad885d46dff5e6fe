import BitcoinScript.Proofs.Machine.Outcome
import BitcoinScript.Proofs.Bytes.Shift
import BitcoinScript.Proofs.Number.Minimal
import BitcoinScript.Proofs.Script.Deletion

/-!
# Operations on values never fault

What commands do with single values either gives a result or is one of few errors of the script: a
division is by a number that is not zero, a number is never brought to fewer bytes than it needs,
the test for strict DER stays inside the signature and deletion stays inside the script code. Block
moves of a stack have a result exactly on the stacks that are deep enough.
-/

namespace BitcoinScript

namespace Stack

variable {α : Type}

theorem isSome_block? {depth count : Nat} {s : Stack α} (h : depth + count ≤ s.length) :
    (block? depth count s).isSome := by
  rw [block?, if_pos h]
  rfl

theorem isSome_dropBlock? {depth count : Nat} {s : Stack α} (h : depth + count ≤ s.length) :
    (dropBlock? depth count s).isSome := by
  rw [dropBlock?, if_pos h]
  rfl

theorem isSome_copyBlock? {depth count : Nat} {s : Stack α} (h : depth + count ≤ s.length) :
    (copyBlock? depth count s).isSome := by
  rw [copyBlock?, Option.isSome_map]
  exact isSome_block? h

theorem isSome_raiseBlock? {depth count : Nat} {s : Stack α} (h : depth + count ≤ s.length) :
    (raiseBlock? depth count s).isSome := by
  rw [raiseBlock?, block?, dropBlock?, if_pos h, if_pos h]
  rfl

theorem length_of_raiseBlock? {depth count : Nat} {s t : Stack α}
    (h : raiseBlock? depth count s = some t) : t.length = s.length := by
  rw [raiseBlock?, block?, dropBlock?] at h
  split at h
  · simp only [Option.bind_eq_bind, Option.bind_some, Option.pure_def, Option.some.injEq] at h
    rw [← h]
    simp only [List.length_append, List.length_take, List.length_drop]
    omega
  · exact absurd h (by simp)

end Stack

/-- A shuffle has a result on every stack that is deep enough. -/
theorem Shuffle.isSome_run? {α : Type} {s : Shuffle} {stack : Stack α}
    (h : s.depth ≤ stack.length) : (s.run? stack).isSome := by
  cases s with
  | drop depth count => exact Stack.isSome_dropBlock? h
  | copy depth count => exact Stack.isSome_copyBlock? h
  | raise depth count => exact Stack.isSome_raiseBlock? h
  | tuck =>
      have htwo : 1 + 1 ≤ stack.length := h
      obtain ⟨raised, hraised⟩ := Option.isSome_iff_exists.1 (Stack.isSome_raiseBlock? htwo)
      have hlen := Stack.length_of_raiseBlock? hraised
      show ((Stack.raiseBlock? 1 1 stack).bind (Stack.copyBlock? 1 1)).isSome
      rw [hraised]
      exact Stack.isSome_copyBlock? (by rw [hlen]; exact htwo)

namespace Stop

/-- Whatever stops a check is one of the given errors. -/
def FailsOnly {α : Type} (errors : List ScriptError) (x : Except Stop α) : Prop :=
  ∀ stop, x = .error stop → ∃ e ∈ errors, stop = .error e

namespace FailsOnly

variable {α β : Type} {errors errors' : List ScriptError} {x : Except Stop α}

theorem of_ok {a : α} : FailsOnly errors (.ok a) := fun _ h => by cases h

theorem of_mem {e : ScriptError} (h : e ∈ errors) :
    FailsOnly errors (.error (.error e) : Except Stop α) := fun _ hstop =>
  ⟨e, h, (Except.error.inj hstop).symm⟩

theorem require {p : Prop} [Decidable p] {e : ScriptError} : FailsOnly [e] (require p e) := by
  rw [Stop.require]
  split
  · exact of_ok
  · exact of_mem (List.mem_singleton_self e)

/-- The first of two checks to fail decides. -/
theorem bind {f : α → Except Stop β} (hx : FailsOnly errors x)
    (hf : ∀ a, FailsOnly errors' (f a)) : FailsOnly (errors ++ errors') (x >>= f) := by
  intro stop h
  cases x with
  | error stop' =>
      obtain ⟨e, he, rfl⟩ := hx stop' rfl
      exact ⟨e, List.mem_append_left _ he, (Except.error.inj h).symm⟩
  | ok a =>
      obtain ⟨e, he, rfl⟩ := hf a stop h
      exact ⟨e, List.mem_append_right _ he, rfl⟩

theorem isClean (h : FailsOnly errors x) (herrors : .unknownError ∉ errors) {stop : Stop}
    (hx : x = .error stop) : stop.IsClean := by
  obtain ⟨e, he, rfl⟩ := h stop hx
  exact fun heq => herrors (heq ▸ he)

/-- Any other error is not that of the check. -/
theorem ne (h : FailsOnly errors x) {e : ScriptError} (he : e ∉ errors) :
    x ≠ .error (.error e) := by
  intro hx
  obtain ⟨e', he', heq⟩ := h _ hx
  exact he (Stop.error.inj heq ▸ he')

end FailsOnly

end Stop

theorem Number.failsOnly_decode {strict : Bool} {limit : Nat} {d : Bytes} :
    Stop.FailsOnly [.numberOverflow, .numberMinEncode] (decode strict limit d) := by
  rw [decode]
  split
  · exact .of_mem (by decide)
  · split
    · exact .of_mem (by decide)
    · exact .of_ok

namespace Operand

theorem failsOnly_bitwise {op : Bitwise} {a b : Bytes} :
    Stop.FailsOnly [.invalidOperandSize] (bitwise op a b) := by
  rw [bitwise]
  split
  · exact .of_mem (by decide)
  · exact .of_ok

theorem failsOnly_split {a : Bytes} {position : Nat} :
    Stop.FailsOnly [.invalidSplitRange] (split a position) := by
  rw [split]
  split
  · exact .of_mem (by decide)
  · exact .of_ok

/-- The byte for the sign is there: only the empty number fits into no bytes, and that one needs
none. -/
theorem failsOnly_resize {a : Bytes} {size : Nat} :
    Stop.FailsOnly [.impossibleEncoding] (resize a size) := by
  simp only [resize, Number.minimal?_eq]
  split
  · exact .of_mem (by decide)
  · rename_i hfits
    split
    · exact .of_ok
    · rename_i hne
      cases size with
      | zero => exact absurd (Nat.le_zero.1 (Nat.not_lt.1 hfits)) hne
      | succ fill => exact .of_ok

end Operand

theorem Bytes.isSome_shift? (left : Bool) (bs : Bytes) (n : Nat) :
    (if left then shiftLeft? bs n else shiftRight? bs n).isSome := by
  rw [shiftLeft?_eq, shiftRight?_eq]
  split <;> rfl

/-- Division and remainder are guarded against zero. -/
theorem BinaryOp.failsOnly_eval {op : BinaryOp} {a b : Int} :
    Stop.FailsOnly [.divByZero, .modByZero] (op.eval a b) := by
  cases op with
  | div =>
      rw [eval, Number.divide]
      split
      · exact .of_mem (by decide)
      · exact .of_ok
  | mod =>
      rw [eval, Number.remainder]
      split
      · exact .of_mem (by decide)
      · exact .of_ok
  | _ => exact .of_ok

namespace Signature

/-- An early answer, or the rest of a test. -/
theorem isSome_unless {p : Prop} [Decidable p] {b : Bool} {x : Option Bool}
    (h : ¬p → x.isSome) : (if p then pure b else x).isSome := by
  by_cases hp : p
  · rw [if_pos hp]
    rfl
  · rw [if_neg hp]
    exact h hp

/-- A byte inside a signature, and the rest of a test. -/
theorem isSome_read {sig : Bytes} {i : Nat} {f : UInt8 → Option Bool} (hi : i < sig.length)
    (h : (f sig[i]).isSome) : (sig[i]? >>= f).isSome := by
  rw [List.getElem?_eq_getElem hi]
  exact h

/-- An integer that fits into the signature is read inside of it. -/
theorem isSome_strictInteger? {sig : Bytes} {start length : Nat}
    (h : start + length ≤ sig.length) : (strictInteger? sig start length).isSome := by
  refine isSome_unless fun hpos => ?_
  refine isSome_read (by omega) (isSome_unless fun _ => ?_)
  refine isSome_unless fun hlong => ?_
  refine isSome_read (by omega) (isSome_unless fun _ => ?_)
  exact isSome_read (by omega) rfl

/-- The test for strict DER reads inside the signature only. -/
theorem isSome_strictDer? (sig : Bytes) : (strictDer? sig).isSome := by
  refine isSome_unless fun hlen => ?_
  refine isSome_read (by omega) (isSome_unless fun _ => ?_)
  refine isSome_read (by omega) (isSome_unless fun _ => ?_)
  refine isSome_read (by omega) (isSome_unless fun hr => ?_)
  refine isSome_read (by omega) (isSome_unless fun hs => ?_)
  refine isSome_read (by omega) (isSome_unless fun _ => ?_)
  have hinteger : 4 + sig[3].toNat ≤ sig.length := by omega
  obtain ⟨r, hr'⟩ := Option.isSome_iff_exists.1 (isSome_strictInteger? hinteger)
  rw [hr']
  refine isSome_unless fun _ => ?_
  refine isSome_read (by omega) (isSome_unless fun _ => ?_)
  exact isSome_strictInteger? (by omega)

theorem failsOnly_checkDer {sig : Bytes} {flags : Flags} :
    Stop.FailsOnly [.sigDer] (checkDer sig flags) := by
  rw [checkDer]
  split
  · obtain ⟨strict, hstrict⟩ := Option.isSome_iff_exists.1 (isSome_strictDer? sig)
    rw [hstrict]
    exact .require
  · exact .of_ok

theorem failsOnly_checkHashType {sig : Bytes} {flags : Flags} :
    Stop.FailsOnly [.sigHashType, .illegalForkId, .mustUseForkId] (checkHashType sig flags) := by
  rw [checkHashType]
  split
  · exact Stop.FailsOnly.require.bind fun _ => Stop.FailsOnly.require.bind fun _ => .require
  · exact .of_ok

/-- What the form of a signature can be refused for. -/
theorem failsOnly_checkForm {sig : Bytes} {c : Crypto} {flags : Flags} :
    Stop.FailsOnly [.sigDer, .sigHighS, .sigHashType, .illegalForkId, .mustUseForkId]
      (checkForm sig c flags) := by
  rw [checkForm]
  split
  · exact .of_ok
  · exact failsOnly_checkDer.bind fun _ => Stop.FailsOnly.require.bind fun _ =>
      failsOnly_checkHashType

theorem failsOnly_checkKeyForm {key : Bytes} {flags : Flags} :
    Stop.FailsOnly [.pubkeyType, .nonCompressedPubkey] (checkKeyForm key flags) :=
  Stop.FailsOnly.require.bind fun _ => .require

/-- Cleaning a script code always has a result. -/
theorem cleanCode?_eq (flags : Flags) (code : Script) (sig : Bytes) :
    cleanCode? flags code sig = some (cleanCode flags code sig) := by
  rw [cleanCode?, cleanCode]
  split
  · rfl
  · rw [Script.findAndDelete?_eq, Option.map_some]

end Signature

end BitcoinScript
