import BitcoinScript.Proofs.Machine.Stepping
import BitcoinScript.Proofs.Number.Word
import BitcoinScript.Proofs.Stack.Effects

/-!
# Opcodes that rearrange the stack

Fifteen opcodes do nothing but rearrange the top of the stack. `Rearrangement.opcodes` lists them
with their effects, which for two of them depend on a number on top of the items that are
rearranged. Each of them fails for want of items exactly if there are fewer than its effect names,
and otherwise rewrites those items as the effect says and leaves the rest of the state as it is.

Some of them, when they are executed again and again, bring back the state that they started from.
-/

namespace BitcoinScript

inductive Rearrangement where
  | fixed (e : Stack.Effect)
  /-- The top item is removed and read as a number, and that number selects the effect that the
  command has on the items below. -/
  | selected (e : Nat → Stack.Effect)

/-- How a command rearranges the stack, if it does nothing else. -/
def Command.rearrangement? : Command → Option Rearrangement
  | .shuffle m => some (.fixed m.effect)
  | .pick => some (.selected .pick)
  | .roll => some (.selected .roll)
  | _ => none

namespace Rearrangement

structure Entry where
  opcode : Opcode
  name : String
  rearrangement : Rearrangement

def opcodes : List Entry :=
  [⟨⟨0x6d⟩, "OP_2DROP", .fixed { before := [1, 2], behind := [] }⟩,
   ⟨⟨0x6e⟩, "OP_2DUP", .fixed { before := [1, 2], behind := [1, 2, 1, 2] }⟩,
   ⟨⟨0x6f⟩, "OP_3DUP", .fixed { before := [1, 2, 3], behind := [1, 2, 3, 1, 2, 3] }⟩,
   ⟨⟨0x70⟩, "OP_2OVER", .fixed { before := [1, 2, 3, 4], behind := [1, 2, 3, 4, 1, 2] }⟩,
   ⟨⟨0x71⟩, "OP_2ROT", .fixed { before := [1, 2, 3, 4, 5, 6], behind := [3, 4, 5, 6, 1, 2] }⟩,
   ⟨⟨0x72⟩, "OP_2SWAP", .fixed { before := [1, 2, 3, 4], behind := [3, 4, 1, 2] }⟩,
   ⟨⟨0x75⟩, "OP_DROP", .fixed { before := [1], behind := [] }⟩,
   ⟨⟨0x76⟩, "OP_DUP", .fixed { before := [1], behind := [1, 1] }⟩,
   ⟨⟨0x77⟩, "OP_NIP", .fixed { before := [1, 2], behind := [2] }⟩,
   ⟨⟨0x78⟩, "OP_OVER", .fixed { before := [1, 2], behind := [1, 2, 1] }⟩,
   ⟨⟨0x79⟩, "OP_PICK", .selected .pick⟩,
   ⟨⟨0x7a⟩, "OP_ROLL", .selected .roll⟩,
   ⟨⟨0x7b⟩, "OP_ROT", .fixed { before := [1, 2, 3], behind := [2, 3, 1] }⟩,
   ⟨⟨0x7c⟩, "OP_SWAP", .fixed { before := [1, 2], behind := [2, 1] }⟩,
   ⟨⟨0x7d⟩, "OP_TUCK", .fixed { before := [1, 2], behind := [2, 1, 2] }⟩]

/-- The opcodes ask for commands that have their effects. -/
theorem rearrangement?_of_mem_opcodes :
    ∀ e ∈ opcodes, e.opcode.command.rearrangement? = some e.rearrangement :=
  List.map_inj_left.1 rfl

/-- The opcodes have their names, and are operations that no script is refused for. -/
theorem name_of_mem_opcodes : ∀ e ∈ opcodes,
    e.opcode.name = e.name ∧ e.opcode.isPush = false ∧ e.opcode.isDisabled = false := by
  decide +kernel

end Rearrangement

/-! ## Outcomes -/

namespace Exec

open Stack (Effect)

/-- The outcome has an effect on the stack of a state, and on nothing else. There are too few items
for it exactly if the outcome is a failure for want of items. -/
structure HasEffect (e : Effect) (s : State) (x : EStateM.Result Stop State Unit) : Prop where
  invalid_iff : (∃ t, x = .error (.error .invalidStackOperation) t) ↔ s.stack.length < e.depth
  ok_iff : ∀ t, x = .ok () t ↔ ∃ stack, e.Rewrites s.stack stack ∧ t = { s with stack := stack }
  exists_ok : e.depth ≤ s.stack.length → ∃ t, x = .ok () t

/-- The outcome has the effect that is selected by the top item, on the items below it. It is a
failure for want of items exactly if there are not two items, or if the number that is read is not a
place below the top item. If no number can be read, the outcome says why. -/
structure Selects (e : Nat → Effect) (r : Rules) (s : State) (x : EStateM.Result Stop State Unit) :
    Prop where
  invalid_iff : (∃ t, x = .error (.error .invalidStackOperation) t) ↔
    s.stack.length < 2 ∨ ∃ d rest n, s.stack = d :: rest ∧
      Number.decode (r.flags.contains .minimalData) r.limits.numberLength d = .ok n ∧
      (n < 0 ∨ (rest.length : Int) ≤ n)
  unread : ∀ d rest stop, s.stack = d :: rest → 1 ≤ rest.length →
    Number.decode (r.flags.contains .minimalData) r.limits.numberLength d = .error stop →
    x = .error stop s
  hasEffect : ∀ d rest (n : Nat), s.stack = d :: rest →
    Number.decode (r.flags.contains .minimalData) r.limits.numberLength d = .ok (n : Int) →
    HasEffect (e n) { s with stack := rest } x

/-- The outcome rearranges the stack in the given way. -/
def Rearranges (r : Rules) (s : State) (x : EStateM.Result Stop State Unit) :
    Rearrangement → Prop
  | .fixed e => HasEffect e s x
  | .selected e => Selects e r s x

section

variable {r : Rules} {script : Script} {next : Nat} {s : State} {d : Bytes} {rest : Stack Bytes}

/-- An outcome that fails on stacks that are too shallow and makes a move on all others. -/
theorem HasEffect.of_isOf {e : Effect} {f : Stack Bytes → Option (Stack Bytes)} (hf : e.IsOf f)
    {x : EStateM.Result Stop State Unit}
    (hshallow : s.stack.length < e.depth → ∃ t, x = .error (.error .invalidStackOperation) t)
    (hdeep : ∀ stack, e.depth ≤ s.stack.length → f s.stack = some stack →
      x = .ok () { s with stack := stack }) : HasEffect e s x := by
  have hok {stack : Stack Bytes} (hstack : e.Rewrites s.stack stack) :
      x = .ok () { s with stack := stack } :=
    hdeep stack hstack.depth_le (hf.eq_some_of_rewrites hstack)
  by_cases h : e.depth ≤ s.stack.length
  · obtain ⟨stack, hstack⟩ := Effect.exists_rewrites h
    have hx := hok hstack
    refine ⟨iff_of_false ?_ (Nat.not_lt.2 h), fun t => ⟨fun ht => ?_, ?_⟩, fun _ => ⟨_, hx⟩⟩
    · rintro ⟨t, ht⟩
      cases hx.symm.trans ht
    · obtain ⟨-, rfl⟩ := EStateM.Result.ok.inj (hx.symm.trans ht)
      exact ⟨stack, hstack, rfl⟩
    · rintro ⟨stack, hstack, rfl⟩
      exact hok hstack
  · obtain ⟨u, hx⟩ := hshallow (Nat.not_le.1 h)
    refine ⟨iff_of_true ⟨u, hx⟩ (Nat.not_le.1 h), fun t => ⟨fun ht => ?_, ?_⟩,
      fun hdepth => absurd hdepth h⟩
    · cases hx.symm.trans ht
    · rintro ⟨stack, hstack, -⟩
      exact absurd hstack.depth_le h

theorem execute_shuffle_of_eq_some {m : Shuffle} {stack : Stack Bytes}
    (hdeep : m.depth ≤ s.stack.length) (hrun : m.run? s.stack = some stack) :
    execute r script true next (.shuffle m) s = .ok () { s with stack := stack } :=
  (bind_of_ok (need_of_le hdeep)).trans (rearrange_of_eq_some hrun)

theorem hasEffect_shuffle (m : Shuffle) :
    HasEffect m.effect s (execute r script true next (.shuffle m) s) := by
  refine .of_isOf m.isOf_effect (fun hshallow => ⟨s, ?_⟩) fun stack hdeep hrun => ?_
  · rw [m.depth_effect] at hshallow
    exact bind_of_error (need_of_lt hshallow)
  · rw [m.depth_effect] at hdeep
    exact execute_shuffle_of_eq_some hdeep hrun

/-! ### Effects that are selected -/

variable {f : Nat → Stack Bytes → Option (Stack Bytes)}

theorem select_of_lt (h : s.stack.length < 2) :
    select r f s = .error (.error .invalidStackOperation) s :=
  bind_of_error (need_of_lt h)

theorem select_of_cons (hstack : s.stack = d :: rest) (hrest : 1 ≤ rest.length) :
    select r f s =
      match Number.decode (r.flags.contains .minimalData) r.limits.numberLength d with
      | .error stop => .error stop s
      | .ok n =>
          (require (0 ≤ n ∧ n.toNat < rest.length) .invalidStackOperation >>= fun _ =>
            rearrange (f n.toNat)) { s with stack := rest } := by
  have hdeep : 2 ≤ s.stack.length := by
    rw [hstack, List.length_cons]
    omega
  have htop : s.stack[0]? = some d := by rw [hstack]; rfl
  rw [select, bind_of_ok (need_of_le hdeep)]
  cases hread : Number.decode (r.flags.contains .minimalData) r.limits.numberLength d with
  | error stop => rw [bind_of_error (number_of_error htop hread)]
  | ok n =>
      rw [bind_of_ok (number_of_ok htop hread), bind_of_ok (pop_of_cons hstack)]
      rfl

theorem select_of_eq_some {n : Nat} {stack : Stack Bytes} (hstack : s.stack = d :: rest)
    (hread : Number.decode (r.flags.contains .minimalData) r.limits.numberLength d = .ok (n : Int))
    (hn : n < rest.length) (hrun : f n rest = some stack) :
    select r f s = .ok () { s with stack := stack } := by
  have hplace : 0 ≤ (n : Int) ∧ (n : Int).toNat < rest.length := by omega
  rw [select_of_cons hstack (by omega), hread]
  exact (bind_of_ok (require_of _ hplace)).trans
    (rearrange_of_eq_some (s := { s with stack := rest }) hrun)

theorem select_of_not_place {n : Int} (hstack : s.stack = d :: rest)
    (hread : Number.decode (r.flags.contains .minimalData) r.limits.numberLength d = .ok n)
    (hn : n < 0 ∨ (rest.length : Int) ≤ n) :
    ∃ t, select r f s = .error (.error .invalidStackOperation) t := by
  by_cases hrest : 1 ≤ rest.length
  · rw [select_of_cons hstack hrest, hread]
    exact ⟨_, bind_of_error (require_of_not _ (by omega))⟩
  · exact ⟨s, select_of_lt (by rw [hstack, List.length_cons]; omega)⟩

/-- A place that is read selects an effect on the items below it. -/
theorem hasEffect_select {e : Nat → Effect} (hf : ∀ n, (e n).IsOf (f n))
    (hdepth : ∀ n, (e n).depth = n + 1) {n : Nat} (hstack : s.stack = d :: rest)
    (hread : Number.decode (r.flags.contains .minimalData) r.limits.numberLength d =
      .ok (n : Int)) : HasEffect (e n) { s with stack := rest } (select r f s) := by
  refine .of_isOf (hf n) (fun hshallow => ?_) fun stack hdeep hrun => ?_
  · rw [hdepth] at hshallow
    have hle : (rest.length : Int) ≤ n := Int.ofNat_le.2 (Nat.le_of_lt_succ hshallow)
    exact select_of_not_place hstack hread (Or.inr hle)
  · rw [hdepth] at hdeep
    exact select_of_eq_some hstack hread hdeep hrun

/-- Where two items are there, a failure for want of items is due to the number that is read. -/
theorem exists_not_place_of_invalid {e : Nat → Effect} (hf : ∀ n, (e n).IsOf (f n))
    (hdepth : ∀ n, (e n).depth = n + 1) (hdeep : 2 ≤ s.stack.length) {t : State}
    (h : select r f s = .error (.error .invalidStackOperation) t) :
    ∃ d rest n, s.stack = d :: rest ∧
      Number.decode (r.flags.contains .minimalData) r.limits.numberLength d = .ok n ∧
      (n < 0 ∨ (rest.length : Int) ≤ n) := by
  obtain ⟨d, rest, hstack⟩ := List.exists_cons_of_length_pos (Nat.zero_lt_of_lt hdeep)
  have hrest : 1 ≤ rest.length := by
    rw [hstack, List.length_cons] at hdeep
    omega
  cases hread : Number.decode (r.flags.contains .minimalData) r.limits.numberLength d with
  | error stop =>
      -- reading a number does not fail for want of items
      have hstop : select r f s = .error stop s := by rw [select_of_cons hstack hrest, hread]
      obtain ⟨rfl, -⟩ := EStateM.Result.error.inj (hstop.symm.trans h)
      exact absurd hread (Number.failsOnly_decode.ne (by decide))
  | ok n =>
      refine ⟨d, rest, n, hstack, hread, ?_⟩
      by_contra hplace
      obtain ⟨hpos, hlt⟩ : 0 ≤ n ∧ n < (rest.length : Int) := by omega
      obtain ⟨place, rfl⟩ := Int.eq_ofNat_of_zero_le hpos
      have hbelow : (e place).depth ≤ rest.length := by
        rw [hdepth]
        exact Int.ofNat_lt.1 hlt
      obtain ⟨u, hu⟩ := (hasEffect_select hf hdepth hstack hread).exists_ok hbelow
      cases hu.symm.trans h

theorem selects_select {e : Nat → Effect} (hf : ∀ n, (e n).IsOf (f n))
    (hdepth : ∀ n, (e n).depth = n + 1) : Selects e r s (select r f s) := by
  constructor
  case invalid_iff =>
    constructor
    · rintro ⟨t, ht⟩
      by_cases hshallow : s.stack.length < 2
      · exact Or.inl hshallow
      · exact Or.inr (exists_not_place_of_invalid hf hdepth (Nat.not_lt.1 hshallow) ht)
    · rintro (hshallow | ⟨d, rest, n, hstack, hread, hn⟩)
      · exact ⟨s, select_of_lt hshallow⟩
      · exact select_of_not_place hstack hread hn
  case unread =>
    intro d rest stop hstack hrest hread
    rw [select_of_cons hstack hrest, hread]
  case hasEffect =>
    intro d rest n hstack hread
    exact hasEffect_select hf hdepth hstack hread

/-- A command that does nothing but rearrange the stack does so. -/
theorem rearranges_execute {c : Command} {way : Rearrangement} (h : c.rearrangement? = some way) :
    Rearranges r s (execute r script true next c s) way := by
  cases c with
  | shuffle m =>
      obtain rfl := Option.some.inj h
      exact hasEffect_shuffle m
  | pick =>
      obtain rfl := Option.some.inj h
      exact selects_select Stack.isOf_pick? Effect.depth_pick
  | roll =>
      obtain rfl := Option.some.inj h
      exact selects_select Stack.isOf_roll? Effect.depth_roll
  | _ => cases h

end

/-! ## Commands that are repeated -/

def times (m : Exec Unit) : Nat → Exec Unit
  | 0 => pure ()
  | k + 1 => m >>= fun _ => times m k

/-- Taking the step a number of times brings back every state whose stack is deep enough. -/
def Restores (m : Exec Unit) (size k : Nat) : Prop :=
  ∀ s : State, size ≤ s.stack.length → times m k s = .ok () s

section

variable {m : Exec Unit} {f : Stack Bytes → Option (Stack Bytes)} {size k : Nat}

theorem times_of_times? (hm : ∀ {s : State} {stack}, f s.stack = some stack →
    m s = .ok () { s with stack := stack }) {s : State} {stack : Stack Bytes}
    (h : Stack.times? f k s.stack = some stack) :
    times m k s = .ok () { s with stack := stack } := by
  induction k generalizing s with
  | zero =>
      obtain rfl := Option.some.inj h
      rfl
  | succ k ih =>
      obtain ⟨first, hfirst, hrest⟩ := Option.bind_eq_some_iff.1 h
      rw [times, bind_of_ok (hm hfirst)]
      exact ih (s := { s with stack := first }) hrest

theorem Restores.of_stack (h : Stack.Restores f size k)
    (hm : ∀ {s : State} {stack}, f s.stack = some stack → m s = .ok () { s with stack := stack }) :
    Restores m size k := fun s hs => times_of_times? hm (h s.stack hs)

variable {r : Rules} {script : Script} {next : Nat}

theorem restores_shuffle_raise (depth count : Nat) (hk : depth + count ∣ k * depth) :
    Restores (execute r script true next (.shuffle (.raise depth count))) (depth + count) k :=
  .of_stack (Stack.restores_raiseBlock? hk) fun hrun =>
    execute_shuffle_of_eq_some (Stack.le_length_of_raiseBlock? hrun) hrun

theorem restores_roll {d : Bytes} {n : Nat}
    (hread : Number.decode (r.flags.contains .minimalData) r.limits.numberLength d =
      .ok (n : Int)) :
    Restores (push d >>= fun _ => execute r script true next .roll) (n + 1) (n + 1) :=
  .of_stack (Stack.restores_roll? n) fun {s} _ hrun =>
    select_of_eq_some (s := { s with stack := d :: s.stack }) rfl hread
      (Stack.le_length_of_raiseBlock? hrun) hrun

end

/-- The opcodes that rearrange the stack have their effects at every depth. Each of them fails for
want of items exactly if there are fewer than its effect names, and otherwise rewrites these items
and leaves those below as they are; taken as an instruction it is counted as well. It changes
nothing to raise the item `n` places below the top `n + 1` times, to rotate three pairs three times
or to swap two pairs twice. -/
theorem execute_rearranges (r : Rules) (script : Script) (next : Nat) :
    (∀ e ∈ Rearrangement.opcodes, e.opcode.name = e.name ∧
      (∀ s, Rearranges r s (execute r script true next e.opcode.command s) e.rearrangement) ∧
      ∀ s : State, s.branches.all id = true → step r script ⟨e.opcode, []⟩ next s =
        (charge r 1 >>= fun _ => execute r script true next e.opcode.command) s) ∧
    (∀ n : Nat, (∀ α : Type, Stack.Restores (α := α) (Stack.roll? n) (n + 1) (n + 1)) ∧
      ∀ d, Number.decode (r.flags.contains .minimalData) r.limits.numberLength d = .ok (n : Int) →
        Restores (push d >>= fun _ => execute r script true next (Opcode.command ⟨0x7a⟩))
          (n + 1) (n + 1)) ∧
    Restores (execute r script true next (Opcode.command ⟨0x71⟩)) 6 3 ∧
    Restores (execute r script true next (Opcode.command ⟨0x72⟩)) 4 2 := by
  refine ⟨fun e he => ?_, fun n => ⟨fun _ => Stack.restores_roll? n, fun _ => restores_roll⟩,
    ?_, ?_⟩
  · obtain ⟨hname, hpush, hdisabled⟩ := Rearrangement.name_of_mem_opcodes e he
    exact ⟨hname, fun s => rearranges_execute (Rearrangement.rearrangement?_of_mem_opcodes e he),
      fun s hs => step_eq_charge hpush hdisabled rfl hs⟩
  · exact restores_shuffle_raise 4 2 (by decide)
  · exact restores_shuffle_raise 2 2 (by decide)

/-- Three pairs above another item are rotated. Two places below the top there is nothing to move in
a stack of two items, and in a stack of three items three moves bring it back. -/
theorem execute_rearranges_pairs :
    let r : Rules := ⟨.ofList [.minimalData], .consensus, .refusing, .standard⟩
    execute r [] true 1 (Opcode.command ⟨0x71⟩)
        { stack := [[6], [5], [4], [3], [2], [1], [7, 7]] } =
      .ok () { stack := [[2], [1], [6], [5], [4], [3], [7, 7]] } ∧
    (∃ t, execute r [] true 1 (Opcode.command ⟨0x7a⟩) { stack := [[2], [8], [9]] } =
      .error (.error .invalidStackOperation) t) ∧
    times (push [2] >>= fun _ => execute r [] true 1 (Opcode.command ⟨0x7a⟩)) 3
      { stack := [[7], [8], [9]] } = .ok () { stack := [[7], [8], [9]] } := by
  intro r
  obtain ⟨htable, hroll, -⟩ := execute_rearranges r [] 1
  have hread : Number.decode (r.flags.contains .minimalData) r.limits.numberLength [2] =
    .ok (2 : Nat) := Number.decode_eq_ok_iff.2 (by decide)
  have hpairs : HasEffect { before := [1, 2, 3, 4, 5, 6], behind := [3, 4, 5, 6, 1, 2] }
      { stack := [[6], [5], [4], [3], [2], [1], [7, 7]] } _ :=
    (htable _ (List.mem_of_getElem? (i := 4) rfl)).2.1 _
  have hselects : Selects .roll r { stack := [[2], [8], [9]] } _ :=
    (htable _ (List.mem_of_getElem? (i := 11) rfl)).2.1 _
  refine ⟨(hpairs.ok_iff _).2 ⟨_, ⟨fun i => [UInt8.ofNat i], [[7, 7]], rfl, rfl⟩, rfl⟩, ?_, ?_⟩
  · exact hselects.invalid_iff.2 (Or.inr ⟨[2], [[8], [9]], 2, rfl, hread, Or.inr (by decide)⟩)
  · exact (hroll 2).2 [2] hread _ (by decide)

end Exec

end BitcoinScript
