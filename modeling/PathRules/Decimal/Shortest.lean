import PathRules.Numeral
import PathRules.Binary64

/-!
# Shortest decimal numerals of floats

A finite number is written with the fewest significant digits that still read back as it, and of
those decimals with the nearest one. The decimals that read back are the ones between the two
midpoints to the neighbouring numbers; the midpoints themselves belong to them when the significand
is even, since a tie is rounded to even. For each count of digits only the two decimals next to the
number have to be tried.
-/

namespace PathRules.Decimal

/-- A positive number and the two ends of the interval of decimals that read back as it, over one
common denominator. -/
structure Span where
  low : Nat
  mid : Nat
  high : Nat
  den : Nat
  closed : Bool

/-- The span of `m * 2 ^ q`. Below a power of two the neighbouring numbers lie twice as close. -/
def Span.of (m : Nat) (q : Int) (narrowBelow : Bool) : Span :=
  let up := Nat.pow 2 q.toNat
  let den := 4 * Nat.pow 2 (-q).toNat
  { low := (4 * m - if narrowBelow then 1 else 2) * up
    mid := 4 * m * up
    high := (4 * m + 2) * up
    den := den
    closed := m % 2 == 0 }

/-- Whether `a * 10 ^ p` reads back as the number. -/
def Span.holds (s : Span) (a : Nat) (p : Int) : Bool :=
  let x := a * Nat.pow 10 p.toNat * s.den
  let unit := Nat.pow 10 (-p).toNat
  if s.closed then s.low * unit ≤ x && x ≤ s.high * unit else s.low * unit < x && x < s.high * unit

/-- Of `a` and `a + 1` on the grid of `10 ^ p` the one that reads back, the nearer if both do, and
the even one at a tie. -/
def Span.pick (s : Span) (p : Int) : Option Nat :=
  let unit := s.den * Nat.pow 10 p.toNat
  let v := s.mid * Nat.pow 10 (-p).toNat
  let a := v / unit
  let r := v % unit
  match s.holds a p, s.holds (a + 1) p with
  | true, true =>
      if 2 * r < unit then some a else if unit < 2 * r then some (a + 1) else some (a + a % 2)
  | true, false => some a
  | false, true => some (a + 1)
  | false, false => none

/-- The exponent of the first decimal digit of `num / den`. -/
def floorLog10 (num den : Nat) : Int :=
  let k : Int := (Nat.toDigits 10 num).length - (Nat.toDigits 10 den).length
  let fits := if 0 ≤ k then decide (den * Nat.pow 10 k.toNat ≤ num)
    else decide (den ≤ num * Nat.pow 10 (-k).toNat)
  if fits then k else k - 1

/-- Tries one digit more until a decimal reads back; seventeen digits always do. -/
def Span.search (s : Span) (top : Int) : Nat → Nat → Nat × Int
  | _, 0 => (s.mid / s.den, 0)
  | n, fuel + 1 =>
      let p := top - n
      match s.pick p with
      | some a => (a, p)
      | none => s.search top (n + 1) fuel

/-- Drops the zeros at the end of a digit list. -/
def trimZeros (ds : List Char) : List Char :=
  (ds.reverse.dropWhile (· == '0')).reverse

/-- The shortest digits of `m * 2 ^ q` and the exponent of the first of them. -/
def shortest (m : Nat) (q : Int) (narrowBelow : Bool) : List Char × Int :=
  let s := Span.of m q narrowBelow
  let (a, p) := s.search (floorLog10 s.mid s.den) 0 17
  let ds := Numeral.natDigits a
  (trimZeros ds, p + (ds.length : Int) - 1)

/-- The choices a format makes when it writes floats. -/
structure Style where
  /-- Whether an exponent that is not negative carries a plus sign. -/
  plusSign : Bool
  nan : String
  infinity : String
  negativeInfinity : String

/-- Positional digits, with at least one on each side of the point. -/
def positional (ds : List Char) (e : Int) : List Char :=
  if e < 0 then '0' :: '.' :: (List.replicate (-e - 1).toNat '0' ++ ds)
  else
    let whole := e.toNat + 1
    if ds.length ≤ whole then ds ++ List.replicate (whole - ds.length) '0' ++ ['.', '0']
    else ds.take whole ++ '.' :: ds.drop whole

/-- Digits with an exponent. -/
def scientific (style : Style) (ds : List Char) (e : Int) : List Char :=
  let lead := match ds with
    | d :: r :: rs => d :: '.' :: r :: rs
    | _ => ds
  let sign := if 0 ≤ e && style.plusSign then ['+'] else []
  lead ++ 'e' :: (sign ++ Numeral.intDigits e)

/-- The text of a float. Positional notation serves the exponents from -5 to 15. -/
def Style.write (style : Style) : Binary64 → List Char
  | .nan => style.nan.toList
  | .infinite false => style.infinity.toList
  | .infinite true => style.negativeInfinity.toList
  | .finite negative e f =>
      let sign := if negative then ['-'] else []
      if e.val = 0 ∧ f.val = 0 then sign ++ ['0', '.', '0'] else
        let (ds, x) := shortest (Binary64.significand e f) (Binary64.scale e)
          (f.val == 0 && 1 < e.val)
        sign ++ if -5 ≤ x && x < 16 then positional ds x else scientific style ds x

end PathRules.Decimal
