import PathRules.Pattern
import PathRules.Tree

/-!
# Matchers

A part of a path matches keys or values. A part made only of wildcards matches anything, a range
matches integers, a part with wildcards, bars or parentheses is a pattern, and any other part
matches its own text. A match yields captures: none for a literal, and the candidate's text for a
range or for a part that matches anything.
-/

namespace PathRules

inductive Matcher where
  | literal (s : String)
  | pattern (p : Pattern)
  | range (start stop : Int64) (inclusive : Bool)
  | any

namespace Matcher

def same : Matcher → Matcher → Bool
  | literal s, literal t => s == t
  | pattern p, pattern q => p.same q
  | range a b i, range a' b' i' => a == a' && b == b' && i == i'
  | any, any => true
  | _, _ => false

/-- The texts before and after the first occurrence of a word. -/
def splitAtWord (word : List Char) : List Char → Option (List Char × List Char)
  | [] => if word.isEmpty then some ([], []) else none
  | c :: cs =>
      if word.isPrefixOf (c :: cs) then some ([], (c :: cs).drop word.length)
      else (splitAtWord word cs).map fun (a, b) => (c :: a, b)

/-- Start and length, with a comma between them. -/
def readSlice? (start length : List Char) : Option Matcher := do
  let a ← Numeral.readInt64? start
  let n ← Numeral.readInt64? length
  let b ← Numeral.toInt64? (a.toInt + n.toInt)
  return range a b true

def readBounds? (start stop : List Char) (inclusive : Bool) : Option Matcher := do
  return range (← Numeral.readInt64? start) (← Numeral.readInt64? stop) inclusive

/-- The range that a part spells. A comma makes it a slice, three dots exclude the end, and two
dots include it. -/
def readRange? (cs : List Char) : Option Matcher :=
  match splitAtWord [','] cs with
  | some (start, length) => readSlice? start length
  | none =>
      match splitAtWord ['.', '.', '.'] cs with
      | some (start, stop) => readBounds? start stop false
      | none => (splitAtWord ['.', '.'] cs).bind fun (start, stop) => readBounds? start stop true

def isWildcard (t : Token) : Bool :=
  t.is '*' || t.is '?'

/-- Characters that make a part a pattern. -/
def isSpecial (t : Token) : Bool :=
  isWildcard t || t.is '|' || t.is '(' || t.is ')'

/-- Compiles a part. Escapes keep a part from being a range. -/
def ofTokens (flags : Flags) (part : List Token) : Except Fault Matcher :=
  if part.all isWildcard then .ok any
  else match readRange? (Token.print part) with
    | some r => .ok r
    | none =>
        if !flags.isEmpty || part.any isSpecial then
          (Pattern.compile flags part).map pattern
        else .ok (literal (String.ofList (part.map Token.char)))

/-- Compiles a part that stands alone. -/
def compile (part : String) (flags : Flags) : Except PathError Matcher :=
  match Token.scan? part.toList with
  | none => .error (.malformed part "\\" .unterminatedEscape)
  | some tokens =>
      match ofTokens flags tokens with
      | .ok m => .ok m
      | .error fault => .error (.malformed part part fault)

/-- A negative bound counts from the end of a sequence. -/
def resolve (length : Option Nat) (bound : Int64) : Int :=
  match length with
  | some n =>
      if bound.toInt < 0 then bound.toInt + min (n : Int) (Numeral.int64Bound - 1)
      else bound.toInt
  | none => bound.toInt

def inRange (start stop : Int64) (inclusive : Bool) (length : Option Nat) (n : Int) : Bool :=
  let lo := resolve length start
  let hi := resolve length stop
  decide (lo ≤ n) && if inclusive then decide (n ≤ hi) else decide (n < hi)

def matchText? : Matcher → String → Option (List String)
  | literal s, text => if s = text then some [] else none
  | pattern p, text => p.captures? text
  | range a b inclusive, text => do
      let n := (← Numeral.readInt64? text.toList).toInt
      if inRange a b inclusive none n then some [Numeral.intText n] else none
  | any, text => some [text]

/-- The integer that a key stands for in a range. -/
def rangeKey? : Key → Option Int
  | .index i => if i < Numeral.int64Bound then some i else none
  | .name s => (Numeral.readInt64? s.toList).map Int64.toInt

/-- Captures of a key; `length` is the length of the sequence that the key belongs to. -/
def matchKey? (m : Matcher) (key : Key) (length : Option Nat) : Option (List String) :=
  match m with
  | range a b inclusive => do
      let n ← rangeKey? key
      if inRange a b inclusive length n then some [Numeral.intText n] else none
  | _ => m.matchText? key.text

/-- Captures of a value. Only a part that matches anything matches a container. -/
def matchValue? {α : Type} [Tree α] (m : Matcher) (value : α) : Option (List String) :=
  match m with
  | any => some [Tree.spelling value]
  | _ => if Tree.isContainer value then none else m.matchText? (Tree.spelling value)

end Matcher

end PathRules
