import BitcoinScript.Hash.Block

/-!
# SHA-1

The hash is a fold of `Sha1.compress` over the blocks of the message.
-/

namespace BitcoinScript.Hash.Sha1

structure State where
  a : UInt32
  b : UInt32
  c : UInt32
  d : UInt32
  e : UInt32

def initial : State := ⟨0x67452301, 0xefcdab89, 0x98badcfe, 0x10325476, 0xc3d2e1f0⟩

def scheduleWord (ws : Array UInt32) (i : Nat) : UInt32 :=
  rotateLeft
    (wordAt ws (i - 3) ^^^ wordAt ws (i - 8) ^^^ wordAt ws (i - 14) ^^^ wordAt ws (i - 16)) 1

/-- The Boolean function and the constant of round `i`. -/
def mix (i : Nat) (b c d : UInt32) : UInt32 :=
  if i < 20 then ((b &&& c) ||| (~~~b &&& d)) + 0x5a827999
  else if i < 40 then (b ^^^ c ^^^ d) + 0x6ed9eba1
  else if i < 60 then ((b &&& c) ||| (b &&& d) ||| (c &&& d)) + 0x8f1bbcdc
  else (b ^^^ c ^^^ d) + 0xca62c1d6

def round (s : State) (i : Nat) (w : UInt32) : State :=
  ⟨rotateLeft s.a 5 + mix i s.b s.c s.d + s.e + w, s.a, rotateLeft s.b 30, s.c, s.d⟩

/-- The 80 rounds of one block, added to the chaining words. -/
def compress (s : State) (block : Array UInt32) : State :=
  let schedule := extendSchedule scheduleWord 64 block
  let t := ((List.range 80).zip schedule.toList).foldl (fun t p => round t p.1 p.2) s
  ⟨s.a + t.a, s.b + t.b, s.c + t.c, s.d + t.d, s.e + t.e⟩

end Sha1

def sha1 (message : Bytes) : Digest 20 :=
  let s := (messageBlocks .big message).foldl Sha1.compress Sha1.initial
  ⟨wordBytes .big [s.a, s.b, s.c, s.d, s.e], by simp⟩

end BitcoinScript.Hash
