import BitcoinScript.Stack
import Mathlib.Data.List.Nodup
import Mathlib.Data.List.Rotate

/-!
# Effects of stack moves

A move is described by what is on top of a stack before and behind it. The items are named by
numbers, the top one last: what finds `x1 x2 x3` and leaves `x2 x3 x1` has `[1, 2, 3]` before it and
`[2, 3, 1]` behind it. `Stack.Effect.Rewrites` reads such a pair as a relation between stacks of
any items and of any depth, and every shuffle has an effect in this sense: it is done exactly on the
stacks that are deep enough, and the items below stay where they are.

A block that is raised changes places with the items above it, so that both together are rotated.
Doing it again and again brings the stack back as soon as the rotations add up to full turns.
-/

namespace BitcoinScript

namespace Stack

variable {α : Type}

/-! ## Blocks between other items -/

section

variable {depth count : Nat} {above block : Stack α}

theorem block?_of_append (habove : above.length = depth) (hblock : block.length = count)
    (below : Stack α) : block? depth count (above ++ block ++ below) = some block := by
  subst habove hblock
  have hdeep : above.length + block.length ≤ (above ++ block ++ below).length := by
    rw [List.length_append, List.length_append]
    omega
  rw [block?, if_pos hdeep, List.append_assoc, List.drop_left, List.take_left]

theorem dropBlock?_of_append (habove : above.length = depth) (hblock : block.length = count)
    (below : Stack α) :
    dropBlock? depth count (above ++ block ++ below) = some (above ++ below) := by
  subst habove hblock
  have hlength : above.length + block.length = (above ++ block).length := List.length_append.symm
  have hdeep : above.length + block.length ≤ (above ++ block ++ below).length := by
    rw [List.length_append, List.length_append]
    omega
  rw [dropBlock?, if_pos hdeep, hlength, List.drop_left, List.append_assoc, List.take_left]

theorem copyBlock?_of_append (habove : above.length = depth) (hblock : block.length = count)
    (below : Stack α) :
    copyBlock? depth count (above ++ block ++ below) =
      some (block ++ (above ++ block ++ below)) := by
  rw [copyBlock?, block?_of_append habove hblock, Option.map_some]

theorem raiseBlock?_of_append (habove : above.length = depth) (hblock : block.length = count)
    (below : Stack α) :
    raiseBlock? depth count (above ++ block ++ below) = some (block ++ above ++ below) := by
  rw [raiseBlock?, block?_of_append habove hblock, dropBlock?_of_append habove hblock,
    List.append_assoc]
  rfl

theorem le_length_of_block? {s : Stack α} (h : block? depth count s = some block) :
    depth + count ≤ s.length := by
  by_contra hshallow
  rw [block?, if_neg hshallow] at h
  cases h

theorem le_length_of_raiseBlock? {s t : Stack α} (h : raiseBlock? depth count s = some t) :
    depth + count ≤ s.length := by
  obtain ⟨block, hblock, -⟩ := Option.bind_eq_some_iff.1 h
  exact le_length_of_block? hblock

end

/-! ## Effects -/

/-- What is on top of a stack before and behind a move. Items are named by numbers, and the last one
that is named is the top one. -/
structure Effect where
  before : List Nat
  behind : List Nat
  /-- No two items have the same name, so that any items may be found. -/
  nodup_before : before.Nodup := by decide
  deriving DecidableEq, Repr

/-- The items with the given names, the last one on top. -/
def named (x : Nat → α) (names : List Nat) : Stack α := ofBottomFirst (names.map x)

theorem named_append (x : Nat → α) (names names' : List Nat) :
    named x (names ++ names') = named x names' ++ named x names := by
  rw [named, List.map_append]
  exact List.reverse_append

@[simp] theorem length_named (x : Nat → α) (names : List Nat) :
    (named x names).length = names.length := by
  rw [named, ofBottomFirst, List.length_reverse, List.length_map]

/-- Different names may stand for any items. -/
theorem exists_map_eq [Nonempty α] {names : List Nat} (hnames : names.Nodup) {items : List α}
    (hlength : items.length = names.length) : ∃ x : Nat → α, names.map x = items := by
  induction names generalizing items with
  | nil =>
      obtain ⟨a⟩ := ‹Nonempty α›
      exact ⟨fun _ => a, (List.eq_nil_of_length_eq_zero hlength).symm⟩
  | cons name names ih =>
      obtain ⟨hname, hnames⟩ := List.nodup_cons.1 hnames
      cases items with
      | nil => cases hlength
      | cons item items =>
          obtain ⟨x, rfl⟩ := ih hnames (Nat.succ.inj hlength)
          refine ⟨Function.update x name item, ?_⟩
          have hrest : names.map (Function.update x name item) = names.map x :=
            List.map_congr_left fun other hother =>
              Function.update_of_ne (ne_of_mem_of_not_mem hother hname) item x
          rw [List.map_cons, Function.update_self, hrest]

namespace Effect

variable {e : Effect}

def depth (e : Effect) : Nat := e.before.length

/-- The second stack is the first one with its top items rewritten. All items below stay. -/
def Rewrites (e : Effect) (s t : Stack α) : Prop :=
  ∃ (x : Nat → α) (below : Stack α), s = named x e.before ++ below ∧ t = named x e.behind ++ below

theorem Rewrites.depth_le {s t : Stack α} (h : e.Rewrites s t) : e.depth ≤ s.length := by
  obtain ⟨x, below, rfl, -⟩ := h
  rw [List.length_append, length_named]
  exact Nat.le_add_right _ _

theorem exists_rewrites [Nonempty α] {s : Stack α} (h : e.depth ≤ s.length) :
    ∃ t, e.Rewrites s t := by
  have hlength : (s.take e.depth).reverse.length = e.before.length := by
    rw [List.length_reverse]
    exact List.length_take_of_le h
  obtain ⟨x, hx⟩ := exists_map_eq e.nodup_before hlength
  refine ⟨_, x, s.drop e.depth, ?_, rfl⟩
  rw [named, hx, ofBottomFirst, List.reverse_reverse, List.take_append_drop]

/-- The move has the effect on all items, whatever is below. -/
def IsOf (e : Effect) (f : Stack α → Option (Stack α)) : Prop :=
  ∀ x below, f (named x e.before ++ below) = some (named x e.behind ++ below)

theorem IsOf.eq_some_of_rewrites {f : Stack α → Option (Stack α)} (h : e.IsOf f) {s t : Stack α}
    (ht : e.Rewrites s t) : f s = some t := by
  obtain ⟨x, below, rfl, rfl⟩ := ht
  exact h x below

/-- The item `n` places below the top is copied: `xn … x0` becomes `xn … x0 xn`. -/
def pick (n : Nat) : Effect where
  before := (List.range (n + 1)).reverse
  behind := (List.range (n + 1)).reverse ++ [n]
  nodup_before := List.nodup_reverse.2 List.nodup_range

/-- The item `n` places below the top is moved: `xn … x0` becomes `xn-1 … x0 xn`. -/
def roll (n : Nat) : Effect where
  before := (List.range (n + 1)).reverse
  behind := (List.range n).reverse ++ [n]
  nodup_before := List.nodup_reverse.2 List.nodup_range

@[simp] theorem depth_pick (n : Nat) : (pick n).depth = n + 1 := by
  rw [depth, pick, List.length_reverse, List.length_range]

@[simp] theorem depth_roll (n : Nat) : (roll n).depth = n + 1 := by
  rw [depth, roll, List.length_reverse, List.length_range]

end Effect

/-- The item `n` places below the top, and those above it. -/
theorem named_reverse_range (x : Nat → α) (n : Nat) :
    named x (List.range (n + 1)).reverse = named x (List.range n).reverse ++ [x n] := by
  rw [List.range_succ, List.reverse_append, named_append]
  rfl

theorem isOf_pick? (n : Nat) : (Effect.pick n).IsOf (α := α) (pick? n) := by
  intro x below
  have habove : (named x (List.range n).reverse).length = n := by simp
  show pick? n (named x (List.range (n + 1)).reverse ++ below) =
    some (named x ((List.range (n + 1)).reverse ++ [n]) ++ below)
  rw [named_append, named_reverse_range, pick?, copyBlock?_of_append habove List.length_singleton,
    List.append_assoc (named x [n])]
  rfl

theorem isOf_roll? (n : Nat) : (Effect.roll n).IsOf (α := α) (roll? n) := by
  intro x below
  have habove : (named x (List.range n).reverse).length = n := by simp
  show roll? n (named x (List.range (n + 1)).reverse ++ below) =
    some (named x ((List.range n).reverse ++ [n]) ++ below)
  rw [named_append, named_reverse_range, roll?, raiseBlock?_of_append habove List.length_singleton]
  rfl

end Stack

/-! ## Shuffles -/

namespace Shuffle

open Stack

variable {α : Type}

/-- The effect of a shuffle. The items of the block have the first names, since it lies deepest. -/
def effect : Shuffle → Effect
  | .drop depth count =>
      ⟨List.range' 1 (count + depth), List.range' (1 + count) depth, List.nodup_range'⟩
  | .copy depth count =>
      ⟨List.range' 1 (count + depth), List.range' 1 (count + depth) ++ List.range' 1 count,
        List.nodup_range'⟩
  | .raise depth count =>
      ⟨List.range' 1 (count + depth), List.range' (1 + count) depth ++ List.range' 1 count,
        List.nodup_range'⟩
  | .tuck => ⟨List.range' 1 2, [2, 1, 2], List.nodup_range'⟩

theorem depth_effect (m : Shuffle) : m.effect.depth = m.depth := by
  cases m with
  | drop depth count | copy depth count | raise depth count =>
      exact List.length_range'.trans (Nat.add_comm _ _)
  | tuck => rfl

/-- The items above a block, and the block. -/
theorem named_range' (x : Nat → α) (depth count : Nat) :
    named x (List.range' 1 (count + depth)) =
      named x (List.range' (1 + count) depth) ++ named x (List.range' 1 count) := by
  rw [← List.range'_append_1, named_append]

theorem isOf_effect (m : Shuffle) : m.effect.IsOf (α := α) m.run? := by
  intro x below
  have habove (depth count : Nat) : (named x (List.range' (1 + count) depth)).length = depth := by
    simp
  have hblock (count : Nat) : (named x (List.range' 1 count)).length = count := by simp
  cases m with
  | drop depth count =>
      show dropBlock? depth count (named x (List.range' 1 (count + depth)) ++ below) = _
      rw [named_range', dropBlock?_of_append (habove depth count) (hblock count)]
      rfl
  | copy depth count =>
      show copyBlock? depth count (named x (List.range' 1 (count + depth)) ++ below) =
        some (named x (List.range' 1 (count + depth) ++ List.range' 1 count) ++ below)
      rw [named_append, named_range', copyBlock?_of_append (habove depth count) (hblock count),
        List.append_assoc (named x (List.range' 1 count))]
  | raise depth count =>
      show raiseBlock? depth count (named x (List.range' 1 (count + depth)) ++ below) =
        some (named x (List.range' (1 + count) depth ++ List.range' 1 count) ++ below)
      rw [named_append, named_range', raiseBlock?_of_append (habove depth count) (hblock count)]
  | tuck =>
      -- the second item is raised, and then what was the top one is copied over it
      show (raiseBlock? 1 1 ([x 2] ++ [x 1] ++ below)).bind (copyBlock? 1 1) = _
      rw [raiseBlock?_of_append List.length_singleton List.length_singleton, Option.bind_some,
        copyBlock?_of_append List.length_singleton List.length_singleton]
      rfl

end Shuffle

/-! ## Moves that are repeated -/

namespace Stack

variable {α : Type}

def times? (f : Stack α → Option (Stack α)) : Nat → Stack α → Option (Stack α)
  | 0, s => some s
  | k + 1, s => f s >>= times? f k

/-- A number of moves brings back every stack that is deep enough. -/
def Restores (f : Stack α → Option (Stack α)) (size k : Nat) : Prop :=
  ∀ s, size ≤ s.length → times? f k s = some s

section

variable {depth count : Nat}

/-- Raising a block rotates it together with the items above it. -/
theorem raiseBlock?_append_eq_rotate {top : Stack α} (h : top.length = depth + count)
    (below : Stack α) :
    raiseBlock? depth count (top ++ below) = some (top.rotate depth ++ below) := by
  have hdepth : depth ≤ top.length := by omega
  have habove : (top.take depth).length = depth := List.length_take_of_le hdepth
  have hblock : (top.drop depth).length = count := by
    rw [List.length_drop, h, Nat.add_sub_cancel_left]
  have hraise := raiseBlock?_of_append habove hblock below
  rwa [List.take_append_drop, ← List.rotate_eq_drop_append_take hdepth] at hraise

theorem times?_raiseBlock? {top : Stack α} (h : top.length = depth + count) (below : Stack α)
    (k : Nat) :
    times? (raiseBlock? depth count) k (top ++ below) =
      some (top.rotate (k * depth) ++ below) := by
  induction k generalizing top with
  | zero => rw [Nat.zero_mul, List.rotate_zero, times?]
  | succ k ih =>
      have hrotated : (top.rotate depth).length = depth + count := by rw [List.length_rotate, h]
      calc times? (raiseBlock? depth count) (k + 1) (top ++ below)
        _ = raiseBlock? depth count (top ++ below) >>= times? (raiseBlock? depth count) k := rfl
        _ = times? (raiseBlock? depth count) k (top.rotate depth ++ below) := by
            rw [raiseBlock?_append_eq_rotate h, Option.bind_eq_bind, Option.bind_some]
        _ = some (top.rotate (depth + k * depth) ++ below) := by
            rw [ih hrotated, List.rotate_rotate]
        _ = some (top.rotate ((k + 1) * depth) ++ below) := by rw [Nat.succ_mul, Nat.add_comm]

/-- Blocks that are raised come back with full turns. -/
theorem restores_raiseBlock? {k : Nat} (hk : depth + count ∣ k * depth) :
    Restores (α := α) (raiseBlock? depth count) (depth + count) k := by
  intro s hs
  have htop : (s.take (depth + count)).length = depth + count := List.length_take_of_le hs
  obtain ⟨turns, hturns⟩ := hk
  have hrotate : (s.take (depth + count)).rotate (k * depth) = s.take (depth + count) := by
    have hfull := List.rotate_length_mul (s.take (depth + count)) turns
    rwa [htop, ← hturns] at hfull
  have htimes := times?_raiseBlock? htop (s.drop (depth + count)) k
  rwa [hrotate, List.take_append_drop] at htimes

/-- An item that is moved to the top comes back when those above it have been moved as well. -/
theorem restores_roll? (n : Nat) : Restores (α := α) (roll? n) (n + 1) (n + 1) :=
  restores_raiseBlock? (Nat.dvd_mul_right (n + 1) n)

end

end Stack

end BitcoinScript
