import PathRules.Numeral

/-!
# Dates and times

A moment is a date, a time, or both, and both may have an offset. Only its form is checked here:
the fields have fixed widths and stay in their ranges.
-/

namespace PathRules.Toml

def daysInMonth (year month : Nat) : Nat :=
  if month = 2 then
    if year % 4 = 0 ∧ (year % 100 ≠ 0 ∨ year % 400 = 0) then 29 else 28
  else if month ∈ [4, 6, 9, 11] then 30
  else 31

/-- The number in a field of digits. -/
def field? (cs : List Char) : Option Nat :=
  Numeral.readNat? cs

def isDate : List Char → Bool
  | [y₁, y₂, y₃, y₄, '-', m₁, m₂, '-', d₁, d₂] =>
      match field? [y₁, y₂, y₃, y₄], field? [m₁, m₂], field? [d₁, d₂] with
      | some year, some month, some day =>
          1 ≤ month && month ≤ 12 && 1 ≤ day && day ≤ daysInMonth year month
      | _, _, _ => false
  | _ => false

def isClock (hour minute : List Char) : Bool :=
  match field? hour, field? minute with
  | some h, some m => h < 24 && m < 60
  | _, _ => false

/-- What may follow the seconds of a time: a fraction, and an offset if `zoned` is set. -/
def isOffset (zoned : Bool) : List Char → Bool
  | [] => true
  | ['Z'] | ['z'] => zoned
  | ['+', h₁, h₂, ':', m₁, m₂] | ['-', h₁, h₂, ':', m₁, m₂] => zoned && isClock [h₁, h₂] [m₁, m₂]
  | _ => false

def isTimeEnd (zoned : Bool) : List Char → Bool
  | '.' :: c :: cs => c.isDigit && isOffset zoned (cs.dropWhile Char.isDigit)
  | cs => isOffset zoned cs

def isTime (zoned : Bool) : List Char → Bool
  | h₁ :: h₂ :: ':' :: m₁ :: m₂ :: ':' :: s₁ :: s₂ :: rest =>
      isClock [h₁, h₂] [m₁, m₂] && (field? [s₁, s₂]).any (· ≤ 60) && isTimeEnd zoned rest
  | _ => false

def isMoment (cs : List Char) : Bool :=
  isTime false cs || isDate cs ||
    (isDate (cs.take 10) && match cs.drop 10 with
      | c :: rest => (c == 'T' || c == 't' || c == ' ') && isTime true rest
      | [] => false)

end PathRules.Toml
