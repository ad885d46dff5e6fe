/-!
# Limits

The bounds that an evaluation keeps to. The defaults are those of the consensus rules.
-/

namespace BitcoinScript

structure Limits where
  scriptSize : Nat := 10000
  itemSize : Nat := 520
  ops : Nat := 500
  /-- The most items on both stacks together. -/
  stackDepth : Nat := 1000
  numberLength : Nat := 4
  deriving DecidableEq, Repr

def Limits.consensus : Limits := {}

/-- The most keys of a multiple signature check. -/
def Limits.maxKeys : Nat := 20

end BitcoinScript
