import BitcoinScript.Error
import BitcoinScript.Script.Basic

/-!
# Script text

A script is written as one word per instruction: pushed data as hex and anything else by the name of
its opcode, with `[error]` for a tail that is cut off. Reading takes each word as a name if it is
one, and otherwise as hex to be pushed in the shortest way.
-/

namespace BitcoinScript.Script

def Item.display (item : Item) : String :=
  match item.content with
  | .ok op => op.display
  | .error _ => "[error]"

def display (s : Script) : String := String.intercalate " " (s.items.map Item.display)

def describe (s : Script) : String := "Script(" ++ s.display ++ ")"

/-- The bytes that a word stands for. -/
def ofWord (word : String) : Except Error Bytes :=
  match Opcode.ofName? word with
  | some op => .ok [op.byte]
  | none =>
      match Hex.decode word with
      | .ok data => .ok (Instr.pushData data).toBytes
      | .error _ => .error (.badData (.asmToken word))

def ofText (text : String) : Except Error Script :=
  ((Text.words text).mapM ofWord).map List.flatten

end BitcoinScript.Script
