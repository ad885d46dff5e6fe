import BitcoinScript.Proofs.Machine.Branches
import BitcoinScript.Proofs.Machine.Values
import BitcoinScript.Proofs.Number.Length
import BitcoinScript.Proofs.Number.Resize

/-!
# Sizes of items

No item on the two stacks is ever longer than some bound that is at least the limit on items: what
is pushed is data of an instruction, a piece or a combination of items, a number of nine bytes at
most, or a hash of 32 bytes at most.

`Exec.StaysWithin n m V` says of a step that it keeps the lengths of all items within `n` and that
`V` holds of the value it gives. The value is what a later step may push.
-/

namespace BitcoinScript

namespace Stack

variable {α : Type} {depth count : Nat} {s t : Stack α} {a : α}

theorem mem_of_mem_block? (h : block? depth count s = some t) (ha : a ∈ t) : a ∈ s := by
  rw [block?] at h
  split at h
  · obtain rfl := Option.some.inj h
    exact List.mem_of_mem_drop (List.mem_of_mem_take ha)
  · cases h

theorem mem_of_mem_dropBlock? (h : dropBlock? depth count s = some t) (ha : a ∈ t) : a ∈ s := by
  rw [dropBlock?] at h
  split at h
  · obtain rfl := Option.some.inj h
    rcases List.mem_append.1 ha with ha | ha
    · exact List.mem_of_mem_take ha
    · exact List.mem_of_mem_drop ha
  · cases h

theorem mem_of_mem_copyBlock? (h : copyBlock? depth count s = some t) (ha : a ∈ t) : a ∈ s := by
  obtain ⟨block, hblock, rfl⟩ := Option.map_eq_some_iff.1 h
  rcases List.mem_append.1 ha with ha | ha
  · exact mem_of_mem_block? hblock ha
  · exact ha

theorem mem_of_mem_raiseBlock? (h : raiseBlock? depth count s = some t) (ha : a ∈ t) : a ∈ s := by
  simp only [raiseBlock?, Option.bind_eq_bind, Option.bind_eq_some_iff, Option.pure_def,
    Option.some.injEq] at h
  obtain ⟨block, hblock, rest, hrest, rfl⟩ := h
  rcases List.mem_append.1 ha with ha | ha
  · exact mem_of_mem_block? hblock ha
  · exact mem_of_mem_dropBlock? hrest ha

end Stack

/-- A shuffle brings in no new item. -/
theorem Shuffle.mem_of_mem_run? {α : Type} {f : Shuffle} {s t : Stack α} {a : α}
    (h : f.run? s = some t) (ha : a ∈ t) : a ∈ s := by
  cases f with
  | drop depth count => exact Stack.mem_of_mem_dropBlock? h ha
  | copy depth count => exact Stack.mem_of_mem_copyBlock? h ha
  | raise depth count => exact Stack.mem_of_mem_raiseBlock? h ha
  | tuck =>
      obtain ⟨raised, hraised, hcopied⟩ := Option.bind_eq_some_iff.1 h
      exact Stack.mem_of_mem_raiseBlock? hraised (Stack.mem_of_mem_copyBlock? hcopied ha)

/-! ## Lengths of what operations give -/

theorem Operand.length_ofBool_le (b : Bool) : (ofBool b).length ≤ 1 := by
  cases b with
  | false => exact Nat.zero_le _
  | true => exact Nat.le_refl 1

theorem Exec.length_hashBytes_le (c : Crypto) (op : HashOp) (item : Bytes) :
    (hashBytes c op item).length ≤ 32 := by
  cases op with
  | ripemd160 | sha1 | hash160 =>
      rw [hashBytes, Digest.length_bytes]
      decide
  | sha256 | hash256 =>
      rw [hashBytes, Digest.length_bytes]

/-! ## Steps -/

structure State.ItemsWithin (s : State) (n : Nat) : Prop where
  stack : ∀ item ∈ s.stack, item.length ≤ n
  alt : ∀ item ∈ s.alt, item.length ≤ n

namespace Exec

section

variable {α β : Type} {n : Nat}

/-- The step keeps the lengths of all items within a bound, and gives a value that `V` holds of. -/
def StaysWithin (n : Nat) (m : Exec α) (V : α → Prop) : Prop :=
  ∀ s : State, s.ItemsWithin n → m.Ends s (fun a t => V a ∧ t.ItemsWithin n) fun _ _ => True

namespace StaysWithin

theorem bind {m : Exec α} {f : α → Exec β} {V : α → Prop} {W : β → Prop} (h : StaysWithin n m V)
    (hf : ∀ a, V a → StaysWithin n (f a) W) : StaysWithin n (m >>= f) W := by
  intro s hs
  refine (ends_bind m f).2 ((h s hs).mono (fun a t ht => ?_) fun _ _ _ => trivial)
  exact hf a ht.1 t ht.2

theorem mono {m : Exec α} {V W : α → Prop} (h : StaysWithin n m V) (hV : ∀ a, V a → W a) :
    StaysWithin n m W := fun s hs =>
  (h s hs).mono (fun a _ ht => ⟨hV a ht.1, ht.2⟩) fun _ _ _ => trivial

theorem bind_get {f : State → Exec α} {V : α → Prop}
    (hf : ∀ s : State, s.ItemsWithin n → StaysWithin n (f s) V) : StaysWithin n (get >>= f) V :=
  fun s hs => (ends_bind get f).2 (hf s hs s hs)

theorem ite {p : Prop} [Decidable p] {m m' : Exec α} {V : α → Prop} (h : p → StaysWithin n m V)
    (h' : ¬p → StaysWithin n m' V) : StaysWithin n (if p then m else m') V := by
  split
  · exact h ‹p›
  · exact h' ‹¬p›

end StaysWithin

theorem staysWithin_pure {a : α} {V : α → Prop} (h : V a) : StaysWithin n (pure a) V :=
  fun _ hs => ⟨h, hs⟩

theorem staysWithin_fail (e : ScriptError) (V : α → Prop) :
    StaysWithin n (fail e : Exec α) V := fun _ _ => trivial

theorem staysWithin_fault (V : α → Prop) : StaysWithin n (fault : Exec α) V := fun _ _ => trivial

theorem staysWithin_ofExcept (x : Except Stop α) :
    StaysWithin n (ofExcept x) fun a => x = .ok a :=
  fun _ hs => (ends_ofExcept x).2 ⟨fun _ ha => ⟨ha, hs⟩, fun _ _ => trivial⟩

theorem staysWithin_ofOption (x : Option α) : StaysWithin n (ofOption x) fun a => x = some a :=
  fun _ hs => (ends_ofOption x).2 ⟨fun _ ha => ⟨ha, hs⟩, fun _ => trivial⟩

theorem staysWithin_require (p : Prop) [Decidable p] (e : ScriptError) :
    StaysWithin n (require p e) fun _ => p :=
  fun _ hs => (ends_require p e).2 ⟨fun hp => ⟨hp, hs⟩, fun _ => trivial⟩

theorem staysWithin_need (k : Nat) : StaysWithin n (need k) fun _ => True :=
  .bind_get fun _ _ => (staysWithin_require _ _).mono fun _ _ => trivial

theorem staysWithin_peek (k : Nat) : StaysWithin n (peek k) fun item => item.length ≤ n :=
  fun _ hs => (ends_peek k).2
    ⟨fun item hitem => ⟨hs.stack item (List.mem_of_getElem? hitem), hs⟩, fun _ => trivial⟩

theorem staysWithin_push {item : Bytes} (h : item.length ≤ n) :
    StaysWithin n (push item) fun _ => True :=
  fun _ hs => ⟨trivial, List.forall_mem_cons.2 ⟨h, hs.stack⟩, hs.alt⟩

theorem staysWithin_pop : StaysWithin n pop fun item => item.length ≤ n := by
  intro s hs
  refine ends_pop.2 ⟨fun item rest hstack => ?_, fun _ => trivial⟩
  have hitems := hs.stack
  rw [hstack, List.forall_mem_cons] at hitems
  exact ⟨hitems.1, hitems.2, hs.alt⟩

theorem staysWithin_rearrange {f : Stack Bytes → Option (Stack Bytes)}
    (h : ∀ {s t item}, f s = some t → item ∈ t → item ∈ s) :
    StaysWithin n (rearrange f) fun _ => True :=
  fun _ hs => (ends_rearrange f).2 ⟨fun _ hstack =>
    ⟨trivial, fun item hitem => hs.stack item (h hstack hitem), hs.alt⟩, fun _ => trivial⟩

theorem staysWithin_discard (k : Nat) : StaysWithin n (discard k) fun _ => True :=
  staysWithin_rearrange fun h ha => Stack.mem_of_mem_dropBlock? h ha

theorem staysWithin_number (r : Rules) (k : Nat) : StaysWithin n (number r k) Number.IsWord :=
  (staysWithin_peek k).bind fun _ _ =>
    (staysWithin_ofExcept _).mono fun _ h => Number.isWord_of_decode h

theorem staysWithin_charge (r : Rules) (k : Nat) : StaysWithin n (charge r k) fun _ => True :=
  fun _ hs => (ends_charge r k).2 ⟨fun _ => ⟨trivial, hs.stack, hs.alt⟩, fun _ => trivial⟩

theorem staysWithin_pushAlt {item : Bytes} (h : item.length ≤ n) :
    StaysWithin n (pushAlt item) fun _ => True :=
  fun _ hs => ⟨trivial, hs.stack, List.forall_mem_cons.2 ⟨h, hs.alt⟩⟩

theorem staysWithin_popAlt : StaysWithin n popAlt fun item => item.length ≤ n := by
  intro s hs
  refine ends_popAlt.2 ⟨fun item rest halt => ?_, fun _ => trivial⟩
  have hitems := hs.alt
  rw [halt, List.forall_mem_cons] at hitems
  exact ⟨hitems.1, hs.stack, hitems.2⟩

theorem staysWithin_scriptCode (script : Script) :
    StaysWithin n (scriptCode script) fun _ => True :=
  .bind_get fun _ _ => .ite (fun _ => staysWithin_pure trivial) fun _ => staysWithin_fault _

theorem staysWithin_ask (r : Rules) (call : SigCall) :
    StaysWithin n (ask r call) fun _ => True :=
  fun _ hs => (ends_ask r call).2 ⟨fun _ _ => ⟨trivial, hs.stack, hs.alt⟩, fun _ => trivial⟩

end

/-! ### Commands -/

section

variable {r : Rules} {n : Nat}

theorem staysWithin_pushEncoded (h : 32 ≤ n) {v : Int} (hv : Number.IsWord v) :
    StaysWithin n (push (Number.encode v)) fun _ => True :=
  staysWithin_push (Nat.le_trans (Number.length_encode_of_isWord hv) (by omega))

theorem staysWithin_pushBool (h : 32 ≤ n) (b : Bool) :
    StaysWithin n (push (Operand.ofBool b)) fun _ => True :=
  staysWithin_push (Nat.le_trans (Operand.length_ofBool_le b) (by omega))

theorem staysWithin_conclude (h : 32 ≤ n) (verify result : Bool) (e : ScriptError) :
    StaysWithin n (conclude verify result e) fun _ => True :=
  .ite (fun _ => (staysWithin_require _ _).mono fun _ _ => trivial)
    fun _ => staysWithin_pushBool h result

theorem staysWithin_reservedNop : StaysWithin n (reservedNop r) fun _ => True :=
  (staysWithin_require _ _).mono fun _ _ => trivial

theorem staysWithin_popCondition (negated : Bool) :
    StaysWithin n (popCondition r negated) fun _ => True := by
  rw [popCondition_eq]
  refine .bind_get fun s _ => (staysWithin_require _ _).bind fun _ _ => ?_
  refine staysWithin_pop.bind fun item _ => (staysWithin_require _ _).bind fun _ _ => ?_
  exact staysWithin_pure trivial

theorem staysWithin_verifyTop (e : ScriptError) : StaysWithin n (verifyTop e) fun _ => True := by
  refine (staysWithin_peek 0).bind fun top _ => (staysWithin_require _ _).bind fun _ _ => ?_
  exact staysWithin_pop.bind fun _ _ => staysWithin_pure trivial

theorem staysWithin_select {f : Nat → Stack Bytes → Option (Stack Bytes)}
    (h : ∀ {k s t item}, f k s = some t → item ∈ t → item ∈ s) :
    StaysWithin n (select r f) fun _ => True := by
  refine (staysWithin_need 2).bind fun _ _ => (staysWithin_number r 0).bind fun k _ => ?_
  refine staysWithin_pop.bind fun _ _ => .bind_get fun s _ => ?_
  exact (staysWithin_require _ _).bind fun _ _ => staysWithin_rearrange h

/-- The only operation that makes an item longer than its operands looks at the limit. -/
theorem staysWithin_concat (hlimit : r.limits.itemSize ≤ n) :
    StaysWithin n (concat r) fun _ => True := by
  rintro ⟨stack, alt, branches, codeStart, opCount, calls⟩ hs
  rcases stack with - | ⟨second, - | ⟨first, rest⟩⟩
  · exact trivial
  · exact trivial
  · have hitems := hs.stack
    rw [List.forall_mem_cons, List.forall_mem_cons] at hitems
    refine (ends_bind _ _).2 ((ends_need 2).2 ⟨fun _ => ?_, fun _ => trivial⟩)
    refine (ends_bind _ _).2 ((ends_peek 1).2 ⟨fun a ha => ?_, fun _ => trivial⟩)
    refine (ends_bind _ _).2 ((ends_peek 0).2 ⟨fun b hb => ?_, fun _ => trivial⟩)
    obtain rfl : first = a := Option.some.inj ha
    obtain rfl : second = b := Option.some.inj hb
    refine (ends_bind _ _).2 ((ends_require _ _).2 ⟨fun hsum => ?_, fun _ => trivial⟩)
    have hjoined : (first ++ second).length ≤ n := by
      rw [List.length_append]
      exact Nat.le_trans hsum hlimit
    exact ⟨trivial, List.forall_mem_cons.2 ⟨hjoined, hitems.2.2⟩, hs.alt⟩

theorem staysWithin_split : StaysWithin n (split r) fun _ => True := by
  refine (staysWithin_need 2).bind fun _ _ => (staysWithin_number r 0).bind fun position _ => ?_
  refine staysWithin_pop.bind fun _ _ => staysWithin_pop.bind fun item hitem => ?_
  refine (staysWithin_require _ _).bind fun _ _ => (staysWithin_ofExcept _).bind fun parts h => ?_
  rw [Operand.split] at h
  split at h
  · cases h
  · obtain rfl := Except.ok.inj h
    refine (staysWithin_push ?_).bind fun _ _ => staysWithin_push ?_
    · exact Nat.le_trans (List.length_take_le' _ _) hitem
    · exact Nat.le_trans (List.drop_sublist _ _).length_le hitem

theorem staysWithin_resize (hlimit : r.limits.itemSize ≤ n) :
    StaysWithin n (resize r) fun _ => True := by
  refine (staysWithin_need 2).bind fun _ _ => (staysWithin_number r 0).bind fun size _ => ?_
  refine (staysWithin_require _ _).bind fun _ hsize => staysWithin_pop.bind fun _ _ => ?_
  refine staysWithin_pop.bind fun item _ => (staysWithin_ofExcept _).bind fun resized h => ?_
  refine staysWithin_push ?_
  rw [Operand.length_of_resize h]
  exact Nat.le_trans hsize.2 hlimit

theorem staysWithin_minimize : StaysWithin n (minimize r) fun _ => True := by
  refine staysWithin_pop.bind fun item hitem => (staysWithin_ofOption _).bind fun trimmed h => ?_
  refine (staysWithin_require _ _).bind fun _ _ => staysWithin_push ?_
  rw [Number.minimal?_eq] at h
  obtain rfl := Option.some.inj h
  exact Nat.le_trans (Number.length_minimal_le item) hitem

theorem staysWithin_bitwise (op : Operand.Bitwise) :
    StaysWithin n (bitwise op) fun _ => True := by
  refine (staysWithin_need 2).bind fun _ _ => staysWithin_pop.bind fun b _ => ?_
  refine staysWithin_pop.bind fun a ha => (staysWithin_ofExcept _).bind fun combined h => ?_
  refine staysWithin_push ?_
  rw [Operand.bitwise] at h
  split at h
  · cases h
  · obtain rfl := Except.ok.inj h
    rw [List.length_zipWith]
    exact Nat.le_trans (Nat.min_le_left _ _) ha

theorem staysWithin_shift (left : Bool) : StaysWithin n (shift r left) fun _ => True := by
  refine (staysWithin_need 2).bind fun _ _ => (staysWithin_number r 0).bind fun k _ => ?_
  refine (staysWithin_require _ _).bind fun _ _ => staysWithin_pop.bind fun _ _ => ?_
  refine staysWithin_pop.bind fun item hitem => (staysWithin_ofOption _).bind fun shifted h => ?_
  refine staysWithin_push ?_
  rw [Bytes.shiftLeft?_eq, Bytes.shiftRight?_eq] at h
  split at h
  · obtain rfl := Option.some.inj h
    rwa [Bytes.length_shiftLeft]
  · obtain rfl := Option.some.inj h
    rwa [Bytes.length_shiftRight]

theorem staysWithin_equal (h : 32 ≤ n) (verify : Bool) :
    StaysWithin n (equal verify) fun _ => True := by
  refine (staysWithin_need 2).bind fun _ _ => staysWithin_pop.bind fun b _ => ?_
  exact staysWithin_pop.bind fun a _ => staysWithin_conclude h _ _ _

theorem staysWithin_unary (h : 32 ≤ n) (op : UnaryOp) :
    StaysWithin n (unary r op) fun _ => True := by
  refine (staysWithin_need 1).bind fun _ _ => (staysWithin_number r 0).bind fun v hv => ?_
  exact staysWithin_pop.bind fun _ _ => staysWithin_pushEncoded h (UnaryOp.isWord_eval hv)

theorem staysWithin_binary (h : 32 ≤ n) (op : BinaryOp) :
    StaysWithin n (binary r op) fun _ => True := by
  refine (staysWithin_need 2).bind fun _ _ => (staysWithin_number r 1).bind fun a ha => ?_
  refine (staysWithin_number r 0).bind fun b hb => (staysWithin_discard 2).bind fun _ _ => ?_
  refine (staysWithin_ofExcept _).bind fun result hresult => ?_
  exact staysWithin_pushEncoded h (BinaryOp.isWord_of_eval ha hb hresult)

theorem staysWithin_within (h : 32 ≤ n) : StaysWithin n (within r) fun _ => True := by
  refine (staysWithin_need 3).bind fun _ _ => (staysWithin_number r 2).bind fun x _ => ?_
  refine (staysWithin_number r 1).bind fun low _ => (staysWithin_number r 0).bind fun high _ => ?_
  exact (staysWithin_discard 3).bind fun _ _ => staysWithin_pushBool h _

/-! ### Signature checks -/

variable {script code : Script}

theorem staysWithin_checkPair (sig key : Bytes) :
    StaysWithin n (checkPair r code sig key) fun _ => True := by
  refine (staysWithin_ofExcept _).bind fun _ _ => (staysWithin_ofExcept _).bind fun _ _ => ?_
  exact staysWithin_ask r _

theorem staysWithin_closeSig (h : 32 ≤ n) (verify : Bool) (sig : Bytes) (result : Bool) :
    StaysWithin n (closeSig r verify sig result) fun _ => True :=
  (staysWithin_require _ _).bind fun _ _ => (staysWithin_discard 2).bind fun _ _ =>
    staysWithin_conclude h _ _ _

theorem staysWithin_checkSig (h : 32 ≤ n) (verify : Bool) :
    StaysWithin n (checkSig r script verify) fun _ => True := by
  refine (staysWithin_need 2).bind fun _ _ => (staysWithin_peek 1).bind fun sig _ => ?_
  refine (staysWithin_peek 0).bind fun key _ => (staysWithin_scriptCode script).bind fun _ _ => ?_
  refine (staysWithin_ofOption _).bind fun code _ => ?_
  exact (staysWithin_checkPair sig key).bind fun result _ =>
    staysWithin_closeSig h verify sig result

theorem staysWithin_count (place bound : Nat) (e : ScriptError) :
    StaysWithin n (count r place bound e) fun _ => True := by
  refine (staysWithin_number r place).bind fun v _ => (staysWithin_require _ _).bind fun _ _ => ?_
  exact staysWithin_pure trivial

theorem staysWithin_cleanCodes (count place : Nat) :
    StaysWithin n (cleanCodes r count place code) fun _ => True := by
  induction count generalizing place code with
  | zero => exact staysWithin_pure trivial
  | succ count ih =>
      refine (staysWithin_peek place).bind fun sig _ => ?_
      exact (staysWithin_ofOption _).bind fun cleaned _ => ih (place + 1)

theorem staysWithin_tryPair (sigPlace keyPlace : Nat) :
    StaysWithin n (tryPair r code sigPlace keyPlace) fun _ => True := by
  refine (staysWithin_peek sigPlace).bind fun sig _ => ?_
  exact (staysWithin_peek keyPlace).bind fun key _ => staysWithin_checkPair sig key

theorem staysWithin_matchSigs (keysLeft sigsLeft keyPlace sigPlace : Nat) :
    StaysWithin n (matchSigs r code keysLeft sigsLeft keyPlace sigPlace) fun _ => True := by
  induction keysLeft generalizing sigsLeft keyPlace sigPlace with
  | zero =>
      cases sigsLeft with
      | zero => exact staysWithin_pure trivial
      | succ sigsLeft => exact (staysWithin_tryPair _ _).bind fun _ _ => staysWithin_fault _
  | succ keysLeft ih =>
      cases sigsLeft with
      | zero => exact staysWithin_pure trivial
      | succ sigsLeft =>
          refine (staysWithin_tryPair _ _).bind fun accepted _ => ?_
          exact .ite (fun _ => staysWithin_pure trivial) fun _ => ih _ _ _

theorem staysWithin_requireNull (asked : Bool) :
    StaysWithin n (requireNull asked) fun _ => True :=
  .ite (fun _ => (staysWithin_peek 0).bind fun _ _ =>
    (staysWithin_require _ _).mono fun _ _ => trivial) fun _ => staysWithin_pure trivial

theorem staysWithin_unwind (result : Bool) (items others : Nat) :
    StaysWithin n (unwind r result items others) fun _ => True := by
  induction items generalizing others with
  | zero => exact staysWithin_pure trivial
  | succ items ih =>
      refine (staysWithin_requireNull _).bind fun _ _ => staysWithin_pop.bind fun _ _ => ?_
      exact ih (others - 1)

theorem staysWithin_closeMultiSig (h : 32 ≤ n) (verify : Bool) (keys sigs : Nat) (result : Bool) :
    StaysWithin n (closeMultiSig r verify keys sigs result) fun _ => True := by
  refine (staysWithin_unwind _ _ _).bind fun _ _ => (staysWithin_need 1).bind fun _ _ => ?_
  refine (staysWithin_peek 0).bind fun dummy _ => (staysWithin_require _ _).bind fun _ _ => ?_
  exact staysWithin_pop.bind fun _ _ => staysWithin_conclude h _ _ _

theorem staysWithin_checkMultiSig (h : 32 ≤ n) (verify : Bool) :
    StaysWithin n (checkMultiSig r script verify) fun _ => True := by
  refine (staysWithin_need 1).bind fun _ _ => (staysWithin_count _ _ _).bind fun keys _ => ?_
  refine (staysWithin_charge r keys).bind fun _ _ => (staysWithin_need _).bind fun _ _ => ?_
  refine (staysWithin_count _ _ _).bind fun sigs _ => (staysWithin_need _).bind fun _ _ => ?_
  refine (staysWithin_scriptCode script).bind fun _ _ => ?_
  refine (staysWithin_cleanCodes sigs _).bind fun code _ => ?_
  exact (staysWithin_matchSigs _ _ _ _).bind fun result _ =>
    staysWithin_closeMultiSig h verify keys sigs result

end

end Exec

/-- The number that a command pushes, if that is fixed. -/
def Command.constant : Command → Int
  | .pushNumber v => v
  | _ => 0

theorem Opcode.isWord_constant (op : Opcode) : Number.IsWord op.command.constant :=
  command_of_entries (P := fun _ c => Number.IsWord c.constant) (fun _ => by decide) (by decide) op

namespace Exec

variable {r : Rules} {script : Script} {n : Nat}

/-- Every command keeps the lengths of items within a bound that covers the limit on items and the
hashes; the number that it pushes must be short if it is fixed. -/
theorem staysWithin_execute (hlimit : r.limits.itemSize ≤ n) (h : 32 ≤ n) {taken : Bool}
    {next : Nat} {c : Command} (hc : Number.IsWord c.constant) :
    StaysWithin n (execute r script taken next c) fun _ => True := by
  cases c with
  | pushNumber v => exact staysWithin_pushEncoded h hc
  | nop => exact staysWithin_pure trivial
  | reservedNop => exact staysWithin_reservedNop
  | lockTime => exact .ite (fun _ => staysWithin_pure trivial) fun _ => staysWithin_reservedNop
  | relativeLockTime =>
      exact .ite (fun _ => staysWithin_pure trivial) fun _ => staysWithin_reservedNop
  | openBranch negated =>
      rw [execute_openBranch]
      refine (StaysWithin.ite (fun _ => staysWithin_popCondition negated)
        fun _ => staysWithin_pure trivial).bind fun condition _ => ?_
      exact fun _ hs => ⟨trivial, hs.stack, hs.alt⟩
  | switchBranch =>
      exact fun _ hs => ends_switchBranch.2
        ⟨fun _ _ _ => ⟨trivial, hs.stack, hs.alt⟩, fun _ => trivial⟩
  | closeBranch =>
      exact fun _ hs => ends_closeBranch.2
        ⟨fun _ _ _ => ⟨trivial, hs.stack, hs.alt⟩, fun _ => trivial⟩
  | verify => exact (staysWithin_need 1).bind fun _ _ => staysWithin_verifyTop _
  | abort => exact staysWithin_fail _ _
  | toAltStack => exact staysWithin_pop.bind fun item hitem => staysWithin_pushAlt hitem
  | fromAltStack => exact staysWithin_popAlt.bind fun item hitem => staysWithin_push hitem
  | shuffle f =>
      exact (staysWithin_need _).bind fun _ _ =>
        staysWithin_rearrange fun hrun ha => Shuffle.mem_of_mem_run? hrun ha
  | copyIfTrue =>
      refine (staysWithin_need 1).bind fun _ _ => (staysWithin_peek 0).bind fun top _ => ?_
      refine .ite (fun _ => ?_) fun _ => staysWithin_pure trivial
      exact staysWithin_rearrange fun hcopy ha => Stack.mem_of_mem_copyBlock? hcopy ha
  | pushDepth => exact .bind_get fun s _ => staysWithin_pushEncoded h (Number.isWord_wrap _)
  | pick => exact staysWithin_select fun hpick ha => Stack.mem_of_mem_copyBlock? hpick ha
  | roll => exact staysWithin_select fun hroll ha => Stack.mem_of_mem_raiseBlock? hroll ha
  | concat => exact staysWithin_concat hlimit
  | split => exact staysWithin_split
  | resize => exact staysWithin_resize hlimit
  | minimize => exact staysWithin_minimize
  | pushSize =>
      refine (staysWithin_need 1).bind fun _ _ => (staysWithin_peek 0).bind fun top _ => ?_
      exact staysWithin_pushEncoded h (Number.isWord_wrap _)
  | invert =>
      refine staysWithin_pop.bind fun item hitem => staysWithin_push ?_
      rwa [Operand.invert, List.length_map]
  | bitwise op => exact staysWithin_bitwise op
  | shift left => exact staysWithin_shift left
  | equal verify => exact staysWithin_equal h verify
  | unary op => exact staysWithin_unary h op
  | binary op => exact staysWithin_binary h op
  | numEqualVerify =>
      exact (staysWithin_binary h _).bind fun _ _ => staysWithin_verifyTop _
  | within => exact staysWithin_within h
  | hash op =>
      refine staysWithin_pop.bind fun item _ => staysWithin_push ?_
      exact Nat.le_trans (length_hashBytes_le _ _ _) h
  | codeSeparator => exact fun _ hs => ⟨trivial, hs.stack, hs.alt⟩
  | checkSig verify => exact staysWithin_checkSig h verify
  | checkMultiSig verify => exact staysWithin_checkMultiSig h verify
  | invalid => exact staysWithin_fail _ _

theorem staysWithin_prepare (op : Instr) :
    StaysWithin n (prepare r op) fun _ => op.data.length ≤ r.limits.itemSize := by
  refine (staysWithin_require _ _).bind fun _ hdata => ?_
  have hcharge : StaysWithin n (chargeInstr r op) fun _ => True :=
    .ite (fun _ => staysWithin_pure trivial) fun _ => staysWithin_charge r 1
  exact hcharge.bind fun _ _ => (staysWithin_require _ _).mono fun _ _ => hdata

theorem staysWithin_step (hlimit : r.limits.itemSize ≤ n) (h : 32 ≤ n) (op : Instr) (next : Nat) :
    StaysWithin n (step r script op next) fun _ => True := by
  rw [step_eq]
  refine (staysWithin_prepare op).bind fun _ hdata => .bind_get fun s _ => ?_
  have hpush : StaysWithin n (pushInstr r op) fun _ => True :=
    (staysWithin_require _ _).bind fun _ _ => staysWithin_push (Nat.le_trans hdata hlimit)
  exact .ite (fun _ => hpush) fun _ =>
    .ite (fun _ => staysWithin_execute hlimit h op.code.isWord_constant)
      fun _ => staysWithin_pure trivial

end Exec

end BitcoinScript
