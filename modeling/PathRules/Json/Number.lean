import PathRules.Numeral
import PathRules.Value

/-!
# JSON numbers

A number is an integer when it is written as one and fits into 64 bits. Every other number is the
float nearest to it. The integer spelled minus zero is the negative zero, and a number beyond the
largest float is refused.
-/

namespace PathRules.Json

/-- The parts of a numeral: sign, whole part, digits after the point, and exponent. -/
structure NumberParts where
  negative : Bool
  whole : List Char
  fraction : Option (List Char)
  exponent : Option Int

/-- Digits of a whole part: a single zero, or digits that do not start with one. -/
def isWholePart : List Char → Bool
  | ['0'] => true
  | d :: ds => d.isDigit && d != '0' && ds.all Char.isDigit
  | [] => false

/-- The digits at the front, which must not be missing, and what follows them. -/
def splitDigits (cs : List Char) : Option (List Char × List Char) :=
  match cs.takeWhile Char.isDigit with
  | [] => none
  | ds => some (ds, cs.dropWhile Char.isDigit)

/-- An exponent with its letter already gone. -/
def readExponent? : List Char → Option Int
  | '+' :: cs => (Numeral.readNat? cs).map fun n => (n : Int)
  | cs => Numeral.readInt? cs

/-- What follows the digits of a number: nothing, or an exponent. -/
def readTail? : List Char → Option (Option Int)
  | [] => some none
  | c :: cs => if c = 'e' ∨ c = 'E' then (readExponent? cs).map some else none

def splitNumber? (cs : List Char) : Option NumberParts := do
  let (negative, cs) := match cs with
    | '-' :: cs => (true, cs)
    | cs => (false, cs)
  let (whole, cs) ← splitDigits cs
  guard (isWholePart whole)
  match cs with
  | '.' :: cs =>
      let (fraction, cs) ← splitDigits cs
      let exponent ← readTail? cs
      return ⟨negative, whole, some fraction, exponent⟩
  | cs =>
      let exponent ← readTail? cs
      return ⟨negative, whole, none, exponent⟩

/-- The float nearest to a numeral. -/
def NumberParts.toFloat (p : NumberParts) : Binary64 :=
  let fraction := p.fraction.getD []
  Binary64.ofDecimal p.negative (Nat.ofDigitChars 10 (p.whole ++ fraction) 0)
    (p.exponent.getD 0 - fraction.length)

/-- The integer that a numeral without fraction and exponent spells, if it is one. -/
def NumberParts.toInt? (p : NumberParts) : Option Int64 :=
  match p.fraction, p.exponent with
  | none, none =>
      let n := Nat.ofDigitChars 10 p.whole 0
      if p.negative then if n = 0 then none else Numeral.toInt64? (-(n : Int))
      else Numeral.toInt64? n
  | _, _ => none

def readNumber? (cs : List Char) : Option Scalar := do
  let p ← splitNumber? cs
  match p.toInt? with
  | some i => return .int i
  | none =>
      let x := p.toFloat
      guard x.isFinite
      return .float x

end PathRules.Json
