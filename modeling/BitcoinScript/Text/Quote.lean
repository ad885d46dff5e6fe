/-!
# Quoted characters

Error texts show an offending byte as a character in single quotes, the byte being read as a code
point below 256. Tab, line ends, the quote itself, the backslash and NUL are escaped by a letter or
by themselves. Control characters, the no-break space and the soft hyphen, which a terminal
does not show, are written as their code point in hex.
-/

namespace BitcoinScript.Text

/-- The characters below 256 that leave no mark of their own when shown. -/
def isInvisible (c : Char) : Bool :=
  c.toNat < 0x20 || (0x7f ≤ c.toNat && c.toNat ≤ 0xa0) || c.toNat = 0xad

def hexDigits (n : Nat) : List Char := Nat.toDigits 16 n

/-- The form of a character between single quotes. -/
def escape (c : Char) : List Char :=
  match c.toNat with
  | 0 => ['\\', '0']
  | 9 => ['\\', 't']
  | 10 => ['\\', 'n']
  | 13 => ['\\', 'r']
  | 39 => ['\\', c]
  | 92 => ['\\', c]
  | n => if isInvisible c then "\\u\x7b".toList ++ hexDigits n ++ "\x7d".toList else [c]

def quoteByte (b : UInt8) : String :=
  let quote := Char.ofNat 39
  String.ofList (quote :: escape (Char.ofNat b.toNat) ++ [quote])

end BitcoinScript.Text
