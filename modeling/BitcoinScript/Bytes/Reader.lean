import BitcoinScript.Error
import BitcoinScript.Hash.Digest

/-!
# Reading and writing numbers and counts

A `Reader` takes a value from the front of a byte string and leaves the rest. Numbers are
little-endian. A count is written in one byte if it is at most 252, and otherwise as a marker
followed by two, four or eight bytes; reading accepts every marker whether or not a shorter one
would do.
-/

namespace BitcoinScript

/-- Takes a value from the front of a byte string. -/
abbrev Reader := StateT Bytes (Except Error)

namespace Reader

def take (n : Nat) : Reader Bytes := fun bytes =>
  match Bytes.splitAt? n bytes with
  | some p => .ok p
  | none => .error (.input .truncated)

def natLE (width : Nat) : Reader Nat := do
  let bytes ← take width
  return Bytes.toNatLE bytes

def uint32 : Reader UInt32 := do
  let n ← natLE 4
  return UInt32.ofNat n

def int64 : Reader Int64 := do
  let n ← natLE 8
  return (UInt64.ofNat n).toInt64

def digest (size : Nat) : Reader (Digest size) := fun bytes =>
  match h : Bytes.splitAt? size bytes with
  | some (taken, rest) => .ok (⟨taken, (Bytes.splitAt?_eq_some_iff.1 h).2⟩, rest)
  | none => .error (.input .truncated)

def count : Reader Nat := do
  let marker ← natLE 1
  if marker = 0xff then natLE 8
  else if marker = 0xfe then natLE 4
  else if marker = 0xfd then natLE 2
  else return marker

def list {α : Type} (item : Reader α) : (n : Nat) → Reader (List α)
  | 0 => return []
  | n + 1 => do
      let a ← item
      let as ← list item n
      return a :: as

def require (p : Prop) [Decidable p] (e : Error) : Reader Unit :=
  if p then return else throw e

end Reader

namespace Bytes

def ofUInt32 (n : UInt32) : Bytes := ofNatLE 4 n.toNat

def ofInt64 (n : Int64) : Bytes := ofNatLE 8 n.toUInt64.toNat

/-- The form of a count below `2 ^ 64`. -/
def ofCount (n : Nat) : Bytes :=
  if n ≤ 252 then ofNatLE 1 n
  else if n ≤ 0xffff then 0xfd :: ofNatLE 2 n
  else if n ≤ 0xffffffff then 0xfe :: ofNatLE 4 n
  else 0xff :: ofNatLE 8 n

def countSize (n : Nat) : Nat :=
  if n ≤ 252 then 1 else if n ≤ 0xffff then 3 else if n ≤ 0xffffffff then 5 else 9

@[simp] theorem length_ofUInt32 (n : UInt32) : (ofUInt32 n).length = 4 := by simp [ofUInt32]

@[simp] theorem length_ofInt64 (n : Int64) : (ofInt64 n).length = 8 := by simp [ofInt64]

@[simp] theorem length_ofCount (n : Nat) : (ofCount n).length = countSize n := by
  simp only [ofCount, countSize, apply_ite List.length, List.length_cons, length_ofNatLE]

end Bytes

end BitcoinScript
