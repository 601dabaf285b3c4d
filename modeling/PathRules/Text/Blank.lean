/-!
# Blank characters

The characters that count as white space in a text: lines made only of them are skipped in line
input, and extended patterns ignore them. Lines end with a line feed, and a carriage return just
before it belongs to the ending.
-/

namespace PathRules.Text

/-- The characters with the Unicode property `White_Space`. -/
def isBlank (c : Char) : Bool :=
  let n := c.toNat
  (0x09 ≤ n && n ≤ 0x0D) || n == 0x20 || n == 0x85 || n == 0xA0 || n == 0x1680 ||
    (0x2000 ≤ n && n ≤ 0x200A) || n == 0x2028 || n == 0x2029 || n == 0x202F || n == 0x205F ||
    n == 0x3000

/-- A line without the carriage return of its ending. -/
def dropReturn (line : List Char) : List Char :=
  if line.getLast? = some '\r' then line.dropLast else line

/-- The lines of a text. A line feed at the very end opens no further line. -/
def lines (cs : List Char) : List (List Char) :=
  let parts := cs.splitOnP (· == '\n')
  let full := parts.dropLast.map dropReturn
  match parts.getLast? with
  | none | some [] => full
  | some last => full ++ [last]

end PathRules.Text
