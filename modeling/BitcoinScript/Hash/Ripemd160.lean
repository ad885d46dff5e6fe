import BitcoinScript.Hash.Block

/-!
# RIPEMD-160

Each block goes through two lines of 80 rounds, which differ in the order of the words, the
rotations, the Boolean functions and the constants, and whose results are added crosswise.
-/

namespace BitcoinScript.Hash.Ripemd160

structure State where
  a : UInt32
  b : UInt32
  c : UInt32
  d : UInt32
  e : UInt32

def initial : State := ⟨0x67452301, 0xefcdab89, 0x98badcfe, 0x10325476, 0xc3d2e1f0⟩

/-- The index of the message word used in each round of the left line. -/
def leftWords : List Nat :=
  [0, 1, 2, 3, 4, 5, 6, 7, 8, 9, 10, 11, 12, 13, 14, 15,
   7, 4, 13, 1, 10, 6, 15, 3, 12, 0, 9, 5, 2, 14, 11, 8,
   3, 10, 14, 4, 9, 15, 8, 1, 2, 7, 0, 6, 13, 11, 5, 12,
   1, 9, 11, 10, 0, 8, 12, 4, 13, 3, 7, 15, 14, 5, 6, 2,
   4, 0, 5, 9, 7, 12, 2, 10, 14, 1, 3, 8, 11, 6, 15, 13]

def rightWords : List Nat :=
  [5, 14, 7, 0, 9, 2, 11, 4, 13, 6, 15, 8, 1, 10, 3, 12,
   6, 11, 3, 7, 0, 13, 5, 10, 14, 15, 8, 12, 4, 9, 1, 2,
   15, 5, 1, 3, 7, 14, 6, 9, 11, 8, 12, 2, 10, 0, 4, 13,
   8, 6, 4, 1, 3, 11, 15, 0, 5, 12, 2, 13, 9, 7, 10, 14,
   12, 15, 10, 4, 1, 5, 8, 7, 6, 2, 13, 14, 0, 3, 9, 11]

/-- The rotation of each round of the left line. -/
def leftRotations : List UInt32 :=
  [11, 14, 15, 12, 5, 8, 7, 9, 11, 13, 14, 15, 6, 7, 9, 8,
   7, 6, 8, 13, 11, 9, 7, 15, 7, 12, 15, 9, 11, 7, 13, 12,
   11, 13, 6, 7, 14, 9, 13, 15, 14, 8, 13, 6, 5, 12, 7, 5,
   11, 12, 14, 15, 14, 15, 9, 8, 9, 14, 5, 6, 8, 6, 5, 12,
   9, 15, 5, 11, 6, 8, 13, 12, 5, 12, 13, 14, 11, 8, 5, 6]

def rightRotations : List UInt32 :=
  [8, 9, 9, 11, 13, 15, 15, 5, 7, 7, 8, 11, 14, 14, 12, 6,
   9, 13, 15, 7, 12, 8, 9, 11, 7, 7, 12, 7, 6, 15, 13, 11,
   9, 7, 15, 11, 8, 6, 6, 14, 12, 13, 5, 14, 13, 13, 7, 5,
   15, 5, 8, 11, 14, 14, 6, 14, 6, 9, 12, 9, 12, 5, 15, 8,
   8, 5, 12, 9, 12, 5, 14, 6, 8, 13, 6, 5, 15, 13, 11, 11]

/-- The Boolean function of the group of sixteen rounds with the given number. -/
def mix : Nat → (x y z : UInt32) → UInt32
  | 0, x, y, z => x ^^^ y ^^^ z
  | 1, x, y, z => (x &&& y) ||| (~~~x &&& z)
  | 2, x, y, z => (x ||| ~~~y) ^^^ z
  | 3, x, y, z => (x &&& z) ||| (y &&& ~~~z)
  | _, x, y, z => x ^^^ (y ||| ~~~z)

/-- The constant of a group of rounds of the left line. -/
def leftConstant : Nat → UInt32
  | 0 => 0
  | 1 => 0x5a827999
  | 2 => 0x6ed9eba1
  | 3 => 0x8f1bbcdc
  | _ => 0xa953fd4e

def rightConstant : Nat → UInt32
  | 0 => 0x50a28be6
  | 1 => 0x5c4dd124
  | 2 => 0x6d703ef3
  | 3 => 0x7a6d76e9
  | _ => 0

/-- One round: the Boolean value and constant `t` with the word enter by the rotation `r`. -/
def round (s : State) (t : UInt32) (r : UInt32) : State :=
  ⟨s.e, rotateLeft (s.a + t) r + s.e, s.b, rotateLeft s.c 10, s.d⟩

def leftLine (block : Array UInt32) (s : State) : State :=
  ((List.range 80).zip (leftWords.zip leftRotations)).foldl
    (fun s p => round s
      (mix (p.1 / 16) s.b s.c s.d + wordAt block p.2.1 + leftConstant (p.1 / 16)) p.2.2) s

/-- The right line of a block, which takes the Boolean functions in the opposite order. -/
def rightLine (block : Array UInt32) (s : State) : State :=
  ((List.range 80).zip (rightWords.zip rightRotations)).foldl
    (fun s p => round s
      (mix (4 - p.1 / 16) s.b s.c s.d + wordAt block p.2.1 + rightConstant (p.1 / 16)) p.2.2) s

/-- Both lines of one block, added crosswise to the chaining words. -/
def compress (s : State) (block : Array UInt32) : State :=
  let l := leftLine block s
  let r := rightLine block s
  ⟨s.b + l.c + r.d, s.c + l.d + r.e, s.d + l.e + r.a, s.e + l.a + r.b, s.a + l.b + r.c⟩

end Ripemd160

def ripemd160 (message : Bytes) : Digest 20 :=
  let s := (messageBlocks .little message).foldl Ripemd160.compress Ripemd160.initial
  ⟨wordBytes .little [s.a, s.b, s.c, s.d, s.e], by simp⟩

end BitcoinScript.Hash
