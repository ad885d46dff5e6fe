/-!
# Blanks

The characters that separate words are those with the Unicode property *White_Space*. A text is cut
at them into words that are not empty, and trimming removes them from both ends.
-/

namespace BitcoinScript.Text

def isBlank (c : Char) : Bool :=
  let n := c.toNat
  (0x09 ≤ n && n ≤ 0x0d) || n = 0x20 || n = 0x85 || n = 0xa0 || n = 0x1680 ||
    (0x2000 ≤ n && n ≤ 0x200a) || n = 0x2028 || n = 0x2029 || n = 0x202f || n = 0x205f ||
    n = 0x3000

/-- The words of a text: longest runs of characters that do not separate. The
characters of a word that has been begun are kept in `current`, the last one first. -/
def splitWords (separates : Char → Bool) : (current : List Char) → List Char → List (List Char)
  | current, [] => if current = [] then [] else [current.reverse]
  | current, c :: cs =>
      if separates c then
        if current = [] then splitWords separates [] cs
        else current.reverse :: splitWords separates [] cs
      else splitWords separates (c :: current) cs

def words (s : String) : List String := (splitWords isBlank [] s.toList).map String.ofList

def trim (cs : List Char) : List Char :=
  ((cs.dropWhile isBlank).reverse.dropWhile isBlank).reverse

/-- The parts of a text between commas, without blanks at their ends. Empty parts are left out. -/
def commaParts (s : String) : List String :=
  ((splitWords (· = ',') [] s.toList).map trim).filterMap fun part =>
    if part = [] then none else some (String.ofList part)

end BitcoinScript.Text
