/-!
# Stacks

A stack is a list with its top item first. Scripts rearrange it by a few block moves: dropping,
copying and raising `count` neighbouring items that lie below the top `depth` items. Every shuffle
of the script language but one is such a move, and `Shuffle.tuck` is a move followed by a copy.
A move on a stack that is too shallow has no result.
-/

namespace BitcoinScript

abbrev Stack (α : Type) := List α

namespace Stack

variable {α : Type}

def ofBottomFirst (items : List α) : Stack α := items.reverse

def bottomFirst (s : Stack α) : List α := s.reverse

/-- The items between `depth` and `depth + count` below the top, if the stack reaches that far. -/
def block? (depth count : Nat) (s : Stack α) : Option (List α) :=
  if depth + count ≤ s.length then some ((s.drop depth).take count) else none

def dropBlock? (depth count : Nat) (s : Stack α) : Option (Stack α) :=
  if depth + count ≤ s.length then some (s.take depth ++ s.drop (depth + count)) else none

def copyBlock? (depth count : Nat) (s : Stack α) : Option (Stack α) :=
  (block? depth count s).map (· ++ s)

def raiseBlock? (depth count : Nat) (s : Stack α) : Option (Stack α) := do
  let block ← block? depth count s
  let rest ← dropBlock? depth count s
  return block ++ rest

def peek? (n : Nat) (s : Stack α) : Option α := s[n]?

def set? (n : Nat) (x : α) (s : Stack α) : Option (Stack α) :=
  if n < s.length then some (s.set n x) else none

def pick? (n : Nat) (s : Stack α) : Option (Stack α) := copyBlock? n 1 s

def roll? (n : Nat) (s : Stack α) : Option (Stack α) := raiseBlock? n 1 s

end Stack

/-- The ways in which a script rearranges the top of its stack. -/
inductive Shuffle where
  | drop (depth count : Nat)
  | copy (depth count : Nat)
  | raise (depth count : Nat)
  /-- Puts a copy of the top item below the second one. -/
  | tuck
  deriving DecidableEq, Repr

namespace Shuffle

def depth : Shuffle → Nat
  | .drop depth count => depth + count
  | .copy depth count => depth + count
  | .raise depth count => depth + count
  | .tuck => 2

def run? {α : Type} : Shuffle → Stack α → Option (Stack α)
  | .drop depth count => Stack.dropBlock? depth count
  | .copy depth count => Stack.copyBlock? depth count
  | .raise depth count => Stack.raiseBlock? depth count
  | .tuck => fun s => (Stack.raiseBlock? 1 1 s).bind (Stack.copyBlock? 1 1)

end Shuffle

end BitcoinScript
