import BitcoinScript.Hash.Digest

/-!
# Messages as blocks of words

SHA-1, SHA-256 and RIPEMD-160 cut a message into blocks of sixteen 32-bit words and fold a
compression function over the blocks. The message is first filled up: one bit, as many zeros as
needed, and its own length in bits as the last eight bytes of the last block. The functions differ
in whether they read words big-endian or little-endian, which is the `Endian` argument here.
-/

namespace BitcoinScript.Hash

/-- Which byte of a word comes first. -/
inductive Endian where
  | big
  | little
  deriving DecidableEq

def Endian.bytes : Endian → (width n : Nat) → Bytes
  | .big => Bytes.ofNatBE
  | .little => Bytes.ofNatLE

@[simp] theorem Endian.length_bytes (e : Endian) (width n : Nat) :
    (e.bytes width n).length = width := by
  cases e <;> simp [Endian.bytes]

def Endian.word : Endian → (a b c d : UInt8) → UInt32
  | .big, a, b, c, d =>
      a.toUInt32 <<< 24 ||| b.toUInt32 <<< 16 ||| c.toUInt32 <<< 8 ||| d.toUInt32
  | .little, a, b, c, d =>
      d.toUInt32 <<< 24 ||| c.toUInt32 <<< 16 ||| b.toUInt32 <<< 8 ||| a.toUInt32

/-- The message with its filling. Its length is a multiple of 64. -/
def fill (e : Endian) (message : Bytes) : Bytes :=
  message ++ 0x80 :: List.replicate ((119 - message.length % 64) % 64) 0 ++
    e.bytes 8 (8 * message.length)

/-- The words of a byte string; up to three bytes at the end are dropped. -/
def words (e : Endian) : Bytes → List UInt32
  | a :: b :: c :: d :: rest => e.word a b c d :: words e rest
  | _ => []

def blocks : (count : Nat) → List UInt32 → List (Array UInt32)
  | 0, _ => []
  | count + 1, ws => (ws.take 16).toArray :: blocks count (ws.drop 16)

def messageBlocks (e : Endian) (message : Bytes) : List (Array UInt32) :=
  let filled := fill e message
  blocks (filled.length / 64) (words e filled)

def wordAt (ws : Array UInt32) (i : Nat) : UInt32 := ws.getD i 0

/-- Rotates a word towards its most significant bit, by `n` places with `0 < n < 32`. -/
def rotateLeft (x n : UInt32) : UInt32 := x <<< n ||| x >>> (32 - n)

/-- Rotates a word towards its least significant bit, by `n` places with `0 < n < 32`. -/
def rotateRight (x n : UInt32) : UInt32 := x >>> n ||| x <<< (32 - n)

/-- Appends `count` words to a schedule, each computed from those before it. -/
def extendSchedule (next : Array UInt32 → Nat → UInt32) :
    (count : Nat) → Array UInt32 → Array UInt32
  | 0, ws => ws
  | count + 1, ws => extendSchedule next count (ws.push (next ws ws.size))

def wordBytes (e : Endian) (ws : List UInt32) : Bytes :=
  ws.flatMap fun w => e.bytes 4 w.toNat

@[simp] theorem length_wordBytes (e : Endian) (ws : List UInt32) :
    (wordBytes e ws).length = 4 * ws.length := by
  induction ws with
  | nil => rfl
  | cons w ws ih =>
      simp only [wordBytes, List.flatMap_cons, List.length_append, Endian.length_bytes,
        List.length_cons] at ih ⊢
      omega

end BitcoinScript.Hash
