import PathRules.Binary64
import PathRules.Numeral
import PathRules.Toml.Quoted

/-!
# Numbers of TOML

Integers have 64 bits. Decimal ones may have a sign and no needless zeros in front; hexadecimal,
octal and binary ones have a mark and no sign. Single underscores may stand between digits. Floats
have a fraction, an exponent or both, or are infinite or not a number.
-/

namespace PathRules.Toml

/-- The digits of a run with single underscores between them. -/
def dropUnderscores? (isDigit : Char → Bool) : List Char → Option (List Char)
  | [] => none
  | [c] => if isDigit c then some [c] else none
  | c :: '_' :: cs =>
      if isDigit c then (dropUnderscores? isDigit cs).map (c :: ·) else none
  | c :: cs => if isDigit c then (dropUnderscores? isDigit cs).map (c :: ·) else none

/-- Takes a sign off the front; the flag tells a minus. -/
def splitSign : List Char → Bool × List Char
  | '-' :: cs => (true, cs)
  | '+' :: cs => (false, cs)
  | cs => (false, cs)

/-- The digits of a decimal whole number, without a needless zero in front. -/
def wholeDigits? (cs : List Char) : Option (List Char) :=
  (dropUnderscores? Char.isDigit cs).filter fun ds => ds.length = 1 || ds.head? != some '0'

/-- The number that digits of a base spell. -/
def ofDigits? (base : Nat) (cs : List Char) : Option Nat := do
  let ds ← dropUnderscores? (fun c => (hexDigit? c).any (· < base)) cs
  return ds.foldl (fun n c => base * n + (hexDigit? c).getD 0) 0

def readInteger? : List Char → Option Int64
  | '0' :: 'x' :: cs => (ofDigits? 16 cs).bind fun n => Numeral.toInt64? n
  | '0' :: 'o' :: cs => (ofDigits? 8 cs).bind fun n => Numeral.toInt64? n
  | '0' :: 'b' :: cs => (ofDigits? 2 cs).bind fun n => Numeral.toInt64? n
  | cs => do
      let (negative, cs) := splitSign cs
      let n ← Numeral.readNat? (← wholeDigits? cs)
      Numeral.toInt64? (if negative then -(n : Int) else n)

/-- The parts of a text before and after the first character that passes a test. -/
def splitAt? (p : Char → Bool) (cs : List Char) : Option (List Char × List Char) :=
  match cs.dropWhile fun c => !p c with
  | [] => none
  | _ :: rest => some (cs.takeWhile fun c => !p c, rest)

def readExponent? (cs : List Char) : Option Int := do
  let (negative, cs) := splitSign cs
  let n ← Numeral.readNat? (← dropUnderscores? Char.isDigit cs)
  return if negative then -(n : Int) else n

/-- A float without its sign. -/
def readMagnitude? (negative : Bool) (cs : List Char) : Option Binary64 := do
  let (mantissa, exponent) ← match splitAt? (fun c => c == 'e' || c == 'E') cs with
    | some (mantissa, exponent) => (readExponent? exponent).map (mantissa, ·)
    | none => if cs.contains '.' then some (cs, 0) else none
  let (whole, fraction) ← match splitAt? (· == '.') mantissa with
    | some (whole, fraction) => (dropUnderscores? Char.isDigit fraction).map (whole, ·)
    | none => some (mantissa, [])
  let digits ← Numeral.readNat? ((← wholeDigits? whole) ++ fraction)
  return Binary64.ofDecimal negative digits (exponent - fraction.length)

/-- A float. Numbers that are too large are refused, unless they are negative. -/
def readFloat? (cs : List Char) : Option Binary64 :=
  let (negative, rest) := splitSign cs
  if rest = ['i', 'n', 'f'] then some (.infinite negative)
  else if rest = ['n', 'a', 'n'] then some .nan
  else (readMagnitude? negative rest).filter (· != .infinite false)

end PathRules.Toml
