import PathRules.Decimal.Shortest
import PathRules.Value

/-!
# JSON text of values

Values are written without blanks or over indented lines. A string escapes the quote, the
backslash and the control characters below the blank; everything else stands for itself. JSON has
no spelling for infinities and not-a-number, so they are written as null.
-/

namespace PathRules.Json

/-- Floats in JSON: a positive exponent carries its sign. -/
def floatStyle : Decimal.Style := ⟨true, "null", "null", "null"⟩

def hexDigit (n : Nat) : Char :=
  (Nat.digitChar (n % 16))

/-- The characters that stand for one character inside a string. -/
def escapeChar (c : Char) : List Char :=
  if c = '"' then ['\\', '"']
  else if c = '\\' then ['\\', '\\']
  else if c = '\n' then ['\\', 'n']
  else if c = '\r' then ['\\', 'r']
  else if c = '\t' then ['\\', 't']
  else if c = '\x08' then ['\\', 'b']
  else if c = '\x0c' then ['\\', 'f']
  else if c.toNat < 0x20 then ['\\', 'u', '0', '0', hexDigit (c.toNat / 16), hexDigit c.toNat]
  else [c]

def quote (s : String) : List Char :=
  '"' :: (s.toList.flatMap escapeChar ++ ['"'])

def scalarText : Scalar → List Char
  | .null => "null".toList
  | .bool true => "true".toList
  | .bool false => "false".toList
  | .int i => Numeral.intDigits i.toInt
  | .float x => floatStyle.write x
  | .text s => quote s

/-- Texts with a separator between each two. -/
def joinWith (sep : List Char) : List (List Char) → List Char
  | [] => []
  | [t] => t
  | t :: ts => t ++ sep ++ joinWith sep ts

mutual

/-- The text without blanks. -/
def compact : Value → List Char
  | .scalar s => scalarText s
  | .seq items => '[' :: (joinWith [','] (compactItems items) ++ [']'])
  | .map es => '\x7b' :: (joinWith [','] (compactEntries es) ++ ['\x7d'])

def compactItems : List Value → List (List Char)
  | [] => []
  | x :: xs => compact x :: compactItems xs

def compactEntries : Entries Value → List (List Char)
  | [] => []
  | (k, x) :: es => (quote k ++ ':' :: compact x) :: compactEntries es

end

/-- A line break and the blanks that open a line at a depth of nesting. -/
def newLine (depth : Nat) : List Char :=
  '\n' :: List.replicate (2 * depth) ' '

/-- A bracketed list with one line for each element. -/
def block (opening closing : Char) (depth : Nat) (parts : List (List Char)) : List Char :=
  if parts.isEmpty then [opening, closing]
  else opening :: (newLine (depth + 1) ++ joinWith (',' :: newLine (depth + 1)) parts ++
    newLine depth ++ [closing])

mutual

/-- The text over indented lines. -/
def indented (depth : Nat) : Value → List Char
  | .scalar s => scalarText s
  | .seq items => block '[' ']' depth (indentedItems (depth + 1) items)
  | .map es => block '\x7b' '\x7d' depth (indentedEntries (depth + 1) es)

def indentedItems (depth : Nat) : List Value → List (List Char)
  | [] => []
  | x :: xs => indented depth x :: indentedItems depth xs

def indentedEntries (depth : Nat) : Entries Value → List (List Char)
  | [] => []
  | (k, x) :: es => (quote k ++ ':' :: ' ' :: indented depth x) :: indentedEntries depth es

end

/-- The JSON text of a value, over indented lines if asked for. -/
def print (pretty : Bool) (v : Value) : List Char :=
  if pretty then indented 0 v else compact v

end PathRules.Json
