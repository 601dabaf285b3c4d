import PathRules.Yaml.ScalarStyle

/-!
# YAML text of values

Collections are written in block style, empty ones as a pair of brackets. A sequence inside a
mapping is not indented. A key that is short and on one line is followed by a colon; any other key
has an indicator of its own. Lines are never wrapped.
-/

namespace PathRules.Yaml.Node

/-- Floats in YAML: no sign for positive exponents, and names for the special values. -/
def floatStyle : Decimal.Style := ⟨false, ".nan", ".inf", "-.inf"⟩

/-- The spelling of a scalar without quotes; collections have none. -/
def plainText : Node → List Char
  | null => ['n', 'u', 'l', 'l']
  | bool true => ['t', 'r', 'u', 'e']
  | bool false => ['f', 'a', 'l', 's', 'e']
  | int i => Numeral.intDigits i
  | float x => floatStyle.write x
  | text s => s.toList
  | _ => []

def pad (indent : Nat) : List Char :=
  List.replicate indent ' '

/-- The characters of a scalar inside a collection at an indentation. -/
def scalarText (indent : Nat) (simpleKey : Bool) : Node → List Char
  | text s => (ScalarStyle.ofText simpleKey s).write (indent + 2) s.toList
  | node => node.plainText

/-- Ends a line, unless it ended with a line break of its own. -/
def endLine (cs : List Char) : List Char :=
  if cs.getLast?.any isBreak then cs else cs ++ ['\n']

/-- Characters of a tag that need no percent sign. -/
def isTagChar (c : Char) : Bool :=
  isWordChar c || ";/?:@&=+$,.!~*'()[]".toList.contains c

def tagText (tag : String) : List Char :=
  '!' :: tag.toList.flatMap fun c =>
    if isTagChar c then [c]
    else (String.singleton c).toUTF8.toList.flatMap fun b =>
      '%' :: ScalarStyle.upperHex 2 b.toNat

/-- The number of bytes that count towards the length of a key; none if it needs more than a
line. -/
def keyLength? : Node → Option Nat
  | seq items => if items.isEmpty then some 0 else none
  | map es => if es.isEmpty then some 0 else none
  | tagged tag content => (keyLength? content).map (· + 1 + tag.utf8ByteSize)
  | text s => if ScalarStyle.isMultiline s.toList then none else some s.utf8ByteSize
  | node => some node.plainText.length

/-- Keys of at most 128 bytes on one line do without an indicator. -/
def isSimpleKey (node : Node) : Bool :=
  (keyLength? node).any (· ≤ 128)

def simpleKeyText (indent : Nat) : Node → List Char
  | seq _ => ['[', ']']
  | map _ => ['\x7b', '\x7d']
  | tagged tag content => tagText tag ++ ' ' :: simpleKeyText indent content
  | node => scalarText indent true node

mutual

/-- A node after an indicator at an indentation. Its own entries start on the same line. -/
def afterIndicator (indent tagIndent : Nat) : Node → List Char
  | seq [] => [' ', '[', ']', '\n']
  | map [] => [' ', '\x7b', '\x7d', '\n']
  | seq (x :: xs) => ' ' :: seqLines (indent + 2) (x :: xs)
  | map (e :: es) => ' ' :: mapLines (indent + 2) (e :: es)
  | tagged tag content => ' ' :: tagText tag ++ onNextLine indent tagIndent content
  | node => endLine (' ' :: scalarText indent false node)

/-- A node whose entries start on the next line, those of a sequence at `seqIndent`. -/
def onNextLine (indent seqIndent : Nat) : Node → List Char
  | seq [] => [' ', '[', ']', '\n']
  | map [] => [' ', '\x7b', '\x7d', '\n']
  | seq (x :: xs) => '\n' :: pad seqIndent ++ seqLines seqIndent (x :: xs)
  | map (e :: es) => '\n' :: pad (indent + 2) ++ mapLines (indent + 2) (e :: es)
  | tagged tag content => ' ' :: tagText tag ++ onNextLine indent seqIndent content
  | node => endLine (' ' :: scalarText indent false node)

/-- The items of a sequence. The indentation of the first is written already. -/
def seqLines (indent : Nat) : List Node → List Char
  | [] => []
  | x :: xs =>
      '-' :: afterIndicator indent (indent + 2) x ++
        (if xs.isEmpty then [] else pad indent) ++ seqLines indent xs

/-- The entries of a mapping. The indentation of the first is written already. -/
def mapLines (indent : Nat) : List (Node × Node) → List Char
  | [] => []
  | (k, x) :: es =>
      (if isSimpleKey k then simpleKeyText indent k ++ ':' :: onNextLine indent indent x
        else '?' :: afterIndicator indent indent k ++ pad indent ++
          ':' :: afterIndicator indent indent x) ++
        (if es.isEmpty then [] else pad indent) ++ mapLines indent es

end

/-- The text of a document below a tag at its root. -/
def rootOnNextLine : Node → List Char
  | seq (x :: xs) => '\n' :: seqLines 0 (x :: xs)
  | map (e :: es) => '\n' :: mapLines 0 (e :: es)
  | node => onNextLine 0 0 node

/-- The text of a document. -/
def print : Node → List Char
  | seq [] => ['[', ']', '\n']
  | map [] => ['\x7b', '\x7d', '\n']
  | seq (x :: xs) => seqLines 0 (x :: xs)
  | map (e :: es) => mapLines 0 (e :: es)
  | tagged tag content => tagText tag ++ rootOnNextLine content
  | node => endLine (scalarText 0 false node)

end PathRules.Yaml.Node
