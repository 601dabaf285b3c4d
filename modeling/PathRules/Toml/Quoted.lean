import PathRules.Toml.Text

/-!
# Quoted strings of TOML

There are four kinds: with escapes or without, on one line or over many. In the kinds without
escapes every character stands for itself. A string over many lines starts with three quotes, and a
line break just after them is dropped; it ends with three quotes, and up to two more just before
them belong to the text.
-/

namespace PathRules.Toml

/-- The number of a hexadecimal digit. -/
def hexDigit? (c : Char) : Option Nat :=
  if '0' ≤ c ∧ c ≤ '9' then some (c.toNat - 48)
  else if 'a' ≤ c ∧ c ≤ 'f' then some (c.toNat - 87)
  else if 'A' ≤ c ∧ c ≤ 'F' then some (c.toNat - 55)
  else none

def readHex? (cs : List Char) : Option Nat :=
  cs.foldlM (fun n c => (hexDigit? c).map (16 * n + ·)) 0

/-- The character with a number in hexadecimal digits. Surrogates have none. -/
def readScalar? (cs : List Char) : Option Char :=
  (readHex? cs).bind fun n => if n.isValidChar then some (Char.ofNat n) else none

/-- The character that a letter after a backslash stands for. -/
def shortEscape? : Char → Option Char
  | 'b' => some '\x08'
  | 't' => some '\t'
  | 'n' => some '\n'
  | 'f' => some '\x0c'
  | 'r' => some '\r'
  | '"' => some '"'
  | '\\' => some '\\'
  | _ => none

/-- A text with a character in front. -/
def consText (c : Char) : Option (List Char × List Char) → Option (List Char × List Char) :=
  Option.map fun (text, rest) => (c :: text, rest)

/-- A string with escapes on one line, after its opening quote. -/
def readBasic? : List Char → Option (List Char × List Char)
  | [] => none
  | '"' :: cs => some ([], cs)
  | '\\' :: 'u' :: a :: b :: c :: d :: cs =>
      (readScalar? [a, b, c, d]).bind fun x => consText x (readBasic? cs)
  | '\\' :: 'U' :: a :: b :: c :: d :: e :: f :: g :: h :: cs =>
      (readScalar? [a, b, c, d, e, f, g, h]).bind fun x => consText x (readBasic? cs)
  | '\\' :: e :: cs => (shortEscape? e).bind fun x => consText x (readBasic? cs)
  | c :: cs => if isPlain c && c != '\\' then consText c (readBasic? cs) else none

/-- Whether nothing but blanks is left on the line. -/
def blankToBreak (cs : List Char) : Bool :=
  (breakAt? (skipBlanks cs)).isSome

/-- A string with escapes over many lines, after its opening. `skipping` is set after a backslash at
the end of a line, which drops the blanks and line breaks that follow. -/
def readLongBasic? : Bool → List Char → Option (List Char × List Char)
  | _, [] => none
  | _, '"' :: '"' :: '"' :: '"' :: '"' :: cs => some (['"', '"'], cs)
  | _, '"' :: '"' :: '"' :: '"' :: cs => some (['"'], cs)
  | _, '"' :: '"' :: '"' :: cs => some ([], cs)
  | skipping, '\n' :: cs =>
      if skipping then readLongBasic? true cs else consText '\n' (readLongBasic? false cs)
  | skipping, '\r' :: '\n' :: cs =>
      if skipping then readLongBasic? true cs else consText '\n' (readLongBasic? false cs)
  | _, '\\' :: 'u' :: a :: b :: c :: d :: cs =>
      (readScalar? [a, b, c, d]).bind fun x => consText x (readLongBasic? false cs)
  | _, '\\' :: 'U' :: a :: b :: c :: d :: e :: f :: g :: h :: cs =>
      (readScalar? [a, b, c, d, e, f, g, h]).bind fun x => consText x (readLongBasic? false cs)
  | _, '\\' :: e :: cs =>
      if blankToBreak (e :: cs) then readLongBasic? true (e :: cs)
      else (shortEscape? e).bind fun x => consText x (readLongBasic? false cs)
  | skipping, c :: cs =>
      if skipping && isBlank c then readLongBasic? true cs
      else if isPlain c && c != '\\' then consText c (readLongBasic? false cs)
      else none

/-- A string without escapes on one line, after its opening quote. -/
def readLiteral? : List Char → Option (List Char × List Char)
  | [] => none
  | '\'' :: cs => some ([], cs)
  | c :: cs => if isPlain c then consText c (readLiteral? cs) else none

/-- A string without escapes over many lines, after its opening. -/
def readLongLiteral? : List Char → Option (List Char × List Char)
  | [] => none
  | '\'' :: '\'' :: '\'' :: '\'' :: '\'' :: cs => some (['\'', '\''], cs)
  | '\'' :: '\'' :: '\'' :: '\'' :: cs => some (['\''], cs)
  | '\'' :: '\'' :: '\'' :: cs => some ([], cs)
  | '\n' :: cs => consText '\n' (readLongLiteral? cs)
  | '\r' :: '\n' :: cs => consText '\n' (readLongLiteral? cs)
  | c :: cs => if isPlain c then consText c (readLongLiteral? cs) else none

/-- The text without the line break that it starts with. -/
def dropBreak (cs : List Char) : List Char :=
  (breakAt? cs).getD cs

/-- A string of any kind, and the text after it. -/
def readString? : List Char → Option (List Char × List Char)
  | '"' :: '"' :: '"' :: cs => readLongBasic? false (dropBreak cs)
  | '"' :: cs => readBasic? cs
  | '\'' :: '\'' :: '\'' :: cs => readLongLiteral? (dropBreak cs)
  | '\'' :: cs => readLiteral? cs
  | _ => none

/-- The kinds of strings. -/
inductive QuoteStyle where
  | basic
  | longBasic
  | literal
  | longLiteral
  deriving DecidableEq

/-- The length of the longest run of a character. -/
def longestRun (c : Char) (cs : List Char) : Nat :=
  (cs.foldl (fun (best, run) d =>
    let run := if d = c then run + 1 else 0
    (max best run, run)) (0, 0)).1

/-- Control characters that only an escape can spell. -/
def needsEscape (c : Char) : Bool :=
  !isPlain c && c != '\n'

/-- The kind in which a text is written: on one line without anything escaped if possible, then
without escapes, then over many lines, and with escapes where nothing else will do. -/
def QuoteStyle.ofText (cs : List Char) : QuoteStyle :=
  let coded := cs.any needsEscape
  let manyLines := cs.contains '\n'
  let backslash := cs.contains '\\'
  if !coded && !backslash && !cs.contains '"' && !manyLines then basic
  else if !coded && !cs.contains '\'' && !manyLines then literal
  else if !coded && !backslash && longestRun '"' cs ≤ 2 then longBasic
  else if !coded && longestRun '\'' cs ≤ 2 then longLiteral
  else if manyLines then longBasic
  else basic

def upperHex (n : Nat) : Char :=
  (Nat.digitChar (n % 16)).toUpper

/-- The characters that stand for one character other than a quote in a string with escapes. -/
def escapeChar (c : Char) : List Char :=
  if c = '\\' then ['\\', '\\']
  else if c = '\x08' then ['\\', 'b']
  else if c = '\t' then ['\\', 't']
  else if c = '\n' then ['\\', 'n']
  else if c = '\x0c' then ['\\', 'f']
  else if c = '\r' then ['\\', 'r']
  else if isPlain c then [c]
  else ['\\', 'u', '0', '0', upperHex (c.toNat / 16), upperHex c.toNat]

/-- Text in a string with escapes. Of quotes in a row, `room` stay as they are before one is
escaped, and `quotes` of them stand just before. -/
def escapeText (long : Bool) (room : Nat) : Nat → List Char → List Char
  | _, [] => []
  | quotes, c :: cs =>
      if c = '"' then
        if quotes < room then '"' :: escapeText long room (quotes + 1) cs
        else '\\' :: '"' :: escapeText long room 0 cs
      else if long && c = '\n' then '\n' :: escapeText long room 0 cs
      else escapeChar c ++ escapeText long room 0 cs

/-- The line break that opens a text with line breaks. -/
def opening (cs : List Char) : List Char :=
  if cs.contains '\n' then ['\n'] else []

/-- The string that spells a text. -/
def quote (cs : List Char) : List Char :=
  match QuoteStyle.ofText cs with
  | .basic => '"' :: escapeText false 0 0 cs ++ ['"']
  | .literal => '\'' :: cs ++ ['\'']
  | .longBasic => ['"', '"', '"'] ++ opening cs ++ escapeText true 2 0 cs ++ ['"', '"', '"']
  | .longLiteral => ['\'', '\'', '\''] ++ opening cs ++ cs ++ ['\'', '\'', '\'']

end PathRules.Toml
