/-!
# Floating-point numbers as data

A binary floating-point number of 64 bits is not-a-number, an infinity, or a sign with an exponent
field and a fraction field. A finite number is its significand times a power of two. Reading a
decimal rounds to the nearest number, and a tie goes to the even significand; nothing here
computes with machine floats.
-/

namespace PathRules

/-- The number of fractions: two to the power of 52. -/
abbrev fractionBound : Nat := 4503599627370496

inductive Binary64 where
  | nan
  | infinite (negative : Bool)
  | finite (negative : Bool) (exponent : Fin 2047) (fraction : Fin fractionBound)
  deriving DecidableEq, Inhabited

namespace Binary64

/-- The whole significand of the fields. Exponent field zero holds the subnormal numbers, which
lack the leading bit. -/
def significand (exponent : Fin 2047) (fraction : Fin fractionBound) : Nat :=
  if exponent.val = 0 then fraction.val else fractionBound + fraction.val

/-- The power of two that scales the significand. -/
def scale (exponent : Fin 2047) : Int :=
  (max exponent.val 1 : Nat) - 1075

def isFinite : Binary64 → Bool
  | finite .. => true
  | _ => false

/-- Comparison as numbers: not-a-number differs from everything, and the two zeros are equal. -/
def sameNumber : Binary64 → Binary64 → Bool
  | nan, _ | _, nan => false
  | infinite s, infinite t => s == t
  | finite s e f, finite t e' f' =>
      (e == e' && f == f') && (s == t || (e.val == 0 && f.val == 0))
  | _, _ => false

/-- The quotient rounded to the nearest whole number, a tie to the even one. -/
def divNearest (num den : Nat) : Nat :=
  let q := num / den
  let r := num % den
  if 2 * r < den then q
  else if den < 2 * r then q + 1
  else q + q % 2

/-- The greatest power of two that is at most `num / den`, as its exponent. -/
def floorLog2 (num den : Nat) : Int :=
  let k : Int := (num.log2 : Int) - (den.log2 : Int)
  let fits := if 0 ≤ k then decide (den * Nat.pow 2 k.toNat ≤ num)
    else decide (den ≤ num * Nat.pow 2 (-k).toNat)
  if fits then k else k - 1

/-- The number nearest to `num / den`. The exponent field and the fraction are read off together,
so that rounding up to the next power of two carries into the exponent. -/
def ofRatio (negative : Bool) (num den : Nat) : Binary64 :=
  if num = 0 then finite negative 0 0 else
    let q : Int := max (floorLog2 num den - 52) (-1074)
    let m := if 0 ≤ q then divNearest num (den * Nat.pow 2 q.toNat)
      else divNearest (num * Nat.pow 2 (-q).toNat) den
    let fields := (q + 1074).toNat * fractionBound + m
    if h : fields / fractionBound < 2047 then
      finite negative ⟨fields / fractionBound, h⟩ ⟨fields % fractionBound, Nat.mod_lt _ (by decide)⟩
    else infinite negative

/-- The number nearest to `digits * 10 ^ exponent`. Exponents that lead out of the range of the
format at once are settled before any power is computed. -/
def ofDecimal (negative : Bool) (digits : Nat) (exponent : Int) : Binary64 :=
  let places : Int := (Nat.toDigits 10 digits).length
  if digits = 0 ∨ exponent + places < -330 then finite negative 0 0
  else if 310 < exponent + places then infinite negative
  else if 0 ≤ exponent then ofRatio negative (digits * Nat.pow 10 exponent.toNat) 1
  else ofRatio negative digits (Nat.pow 10 (-exponent).toNat)

/-- The number nearest to an integer. -/
def ofInt (i : Int) : Binary64 :=
  ofRatio (decide (i < 0)) i.natAbs 1

end Binary64

end PathRules
