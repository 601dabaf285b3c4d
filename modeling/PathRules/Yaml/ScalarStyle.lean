import PathRules.Yaml.Node
import PathRules.Yaml.Source

/-!
# How YAML scalars are written

A text is plain when it reads back as the same text, and single-quoted otherwise. Characters that
cannot be shown and blanks next to line breaks ask for double quotes. Text with line feeds is a
literal block where that is possible.
-/

namespace PathRules.Yaml

inductive ScalarStyle where
  | plain
  | single
  | double
  | literal
  deriving DecidableEq

namespace ScalarStyle

/-- Characters that are shown as they are. -/
def isPrintable (c : Char) : Bool :=
  let n := c.toNat
  n == 0x0A || (0x20 ≤ n && n ≤ 0x7E) || (0xA0 ≤ n && n ≤ 0xFFFD && n != 0xFEFF) || 0x10000 ≤ n

/-- Characters that mean something at the start of a scalar. -/
def isLeadIndicator (c : Char) : Bool :=
  "#,[]\x7b\x7d&*!|>'\"%@\x60".toList.contains c

def endsWord (next : Option Char) : Bool :=
  next.all fun c => isSpace c || isBreak c

/-- Whether a character after the first means something: a colon at the end of a word, or a number
sign at the start of one. -/
def hasInnerIndicator : Char → List Char → Bool
  | _, [] => false
  | before, c :: cs =>
      (c == ':' && endsWord cs.head?) || (c == '#' && (isSpace before || isBreak before)) ||
        hasInnerIndicator c cs

def hasIndicator (cs : List Char) : Bool :=
  ['-', '-', '-'].isPrefixOf cs || ['.', '.', '.'].isPrefixOf cs ||
    match cs with
    | [] => false
    | c :: cs =>
        isLeadIndicator c || ((c == '?' || c == ':' || c == '-') && endsWord cs.head?) ||
          hasInnerIndicator c cs

/-- Whether two neighbours satisfy a relation. -/
def hasPair (p : Char → Char → Bool) : List Char → Bool
  | a :: b :: cs => p a b || hasPair p (b :: cs)
  | _ => false

def isMultiline (cs : List Char) : Bool :=
  cs.any isBreak

def hasSpecial (cs : List Char) : Bool :=
  cs.any fun c => !isPrintable c

def spaceThenBreak (cs : List Char) : Bool :=
  hasPair (fun a b => a == ' ' && isBreak b) cs

def breakThenSpace (cs : List Char) : Bool :=
  hasPair (fun a b => isBreak a && b == ' ') cs

def allowsDirect (cs : List Char) : Bool :=
  !hasSpecial cs && !spaceThenBreak cs

def allowsSingle (cs : List Char) : Bool :=
  allowsDirect cs && !breakThenSpace cs

def allowsLiteral (cs : List Char) : Bool :=
  !cs.isEmpty && allowsDirect cs && cs.getLast? != some ' '

def allowsPlain (cs : List Char) : Bool :=
  allowsDirect cs && !isMultiline cs && !hasIndicator cs &&
    cs.head? != some ' ' && cs.getLast? != some ' '

/-- Spellings that would not read back as text: those with another type, and digits that start with
a zero. -/
def isAmbiguous (s : String) : Bool :=
  Node.isZeroPadded s.toList ||
    match Node.resolve s with
    | .text => false
    | _ => true

/-- The style of a text. Keys that stand on one line with their values are never blocks. -/
def ofText (simpleKey : Bool) (s : String) : ScalarStyle :=
  let cs := s.toList
  let quoted := if allowsSingle cs then single else double
  if cs.contains '\n' then if allowsLiteral cs && !simpleKey then literal else double
  else if isAmbiguous s || !allowsPlain cs then quoted
  else plain

def upperHex (digits n : Nat) : List Char :=
  (List.range digits).reverse.map fun i => (Nat.digitChar (n / Nat.pow 16 i % 16)).toUpper

/-- The escape of a character in double quotes. -/
def escape (c : Char) : List Char :=
  match c with
  | '\x00' => ['\\', '0']
  | '\x07' => ['\\', 'a']
  | '\x08' => ['\\', 'b']
  | '\t' => ['\\', 't']
  | '\n' => ['\\', 'n']
  | '\x0b' => ['\\', 'v']
  | '\x0c' => ['\\', 'f']
  | '\r' => ['\\', 'r']
  | '\x1b' => ['\\', 'e']
  | '"' => ['\\', '"']
  | '\\' => ['\\', '\\']
  | '\x85' => ['\\', 'N']
  | '\xa0' => ['\\', '_']
  | '\u2028' => ['\\', 'L']
  | '\u2029' => ['\\', 'P']
  | c =>
      let n := c.toNat
      if n ≤ 0xFF then '\\' :: 'x' :: upperHex 2 n
      else if n ≤ 0xFFFF then '\\' :: 'u' :: upperHex 4 n
      else '\\' :: 'U' :: upperHex 8 n

def writeDouble (cs : List Char) : List Char :=
  '"' :: (cs.flatMap fun c =>
    if !isPrintable c || isBreak c || c == '"' || c == '\\' then escape c else [c]) ++ ['"']

/-- The characters of a single-quoted text. A quote is doubled, the first line feed of a row of
line breaks is doubled too, and a line that follows breaks is indented. -/
def writeLines (indent : Nat) : Bool → List Char → List Char
  | afterBreak, [] => if afterBreak then List.replicate indent ' ' else []
  | afterBreak, c :: cs =>
      if isBreak c then
        (if !afterBreak && c == '\n' then ['\n', '\n'] else [c]) ++ writeLines indent true cs
      else
        (if afterBreak then List.replicate indent ' ' else []) ++
          (if c == '\'' then ['\'', '\''] else [c]) ++ writeLines indent false cs

def writeSingle (indent : Nat) (cs : List Char) : List Char :=
  '\'' :: writeLines indent false cs ++ ['\'']

/-- The indicators of a literal block: its indentation, if the first line would not show it, and
what becomes of the line breaks at the end. -/
def blockHints (cs : List Char) : List Char :=
  let lead := match cs with
    | c :: _ => if c == ' ' || isBreak c then ['2'] else []
    | [] => []
  let chomp := match cs.reverse with
    | [] => ['-']
    | [c] => if isBreak c then ['+'] else ['-']
    | c :: d :: _ => if !isBreak c then ['-'] else if isBreak d then ['+'] else []
  lead ++ chomp

def writeBlockLines (indent : Nat) : Bool → List Char → List Char
  | _, [] => []
  | lineStart, c :: cs =>
      if isBreak c then c :: writeBlockLines indent true cs
      else (if lineStart then List.replicate indent ' ' else []) ++
        c :: writeBlockLines indent false cs

def writeLiteral (indent : Nat) (cs : List Char) : List Char :=
  '|' :: blockHints cs ++ '\n' :: writeBlockLines indent true cs

/-- The characters of a text in a style. Further lines are indented. -/
def write (indent : Nat) (cs : List Char) : ScalarStyle → List Char
  | plain => cs
  | single => writeSingle indent cs
  | double => writeDouble cs
  | literal => writeLiteral indent cs

end ScalarStyle

end PathRules.Yaml
