/-!
# Decimal numerals

Numerals are written without leading zeros. Readers take any number of leading zeros, and no sign
other than a minus. Integers have 64 bits, so a numeral outside that range is no integer.
-/

namespace PathRules.Numeral

/-- The digits of a natural number. -/
def natDigits (n : Nat) : List Char :=
  Nat.toDigits 10 n

/-- The numeral of a natural number. -/
def natText (n : Nat) : String :=
  String.ofList (natDigits n)

/-- The numeral of an integer. -/
def intDigits : Int → List Char
  | .ofNat n => natDigits n
  | .negSucc n => '-' :: natDigits (n + 1)

def intText (i : Int) : String :=
  String.ofList (intDigits i)

/-- The number that a non-empty list of digits spells. -/
def readNat? (cs : List Char) : Option Nat :=
  if cs.isEmpty || !cs.all Char.isDigit then none else some (Nat.ofDigitChars 10 cs 0)

/-- The number that digits spell, with a minus in front or without. -/
def readInt? : List Char → Option Int
  | '-' :: cs => (readNat? cs).map fun n => -(n : Int)
  | cs => (readNat? cs).map fun n => (n : Int)

/-- The first number that 64 bits with a sign do not reach: two to the power of 63. -/
abbrev int64Bound : Nat := 9223372036854775808

/-- An integer as a number of 64 bits, if it has one. -/
def toInt64? (i : Int) : Option Int64 :=
  if -(int64Bound : Int) ≤ i ∧ i < (int64Bound : Int) then some (Int64.ofInt i) else none

def readInt64? (cs : List Char) : Option Int64 :=
  (readInt? cs).bind toInt64?

theorem isDigit_of_mem_natDigits {n : Nat} {c : Char} (h : c ∈ natDigits n) : c.isDigit :=
  Nat.isDigit_of_mem_toDigits (by decide) (by decide) h

theorem isDigit_of_mem_intDigits {i : Int} {c : Char} (h : c ∈ intDigits i) :
    c = '-' ∨ c.isDigit := by
  cases i with
  | ofNat n => exact Or.inr (isDigit_of_mem_natDigits h)
  | negSucc n =>
      rcases List.mem_cons.mp h with rfl | h
      · exact Or.inl rfl
      · exact Or.inr (isDigit_of_mem_natDigits h)

theorem intDigits_ne_nil (i : Int) : intDigits i ≠ [] := by
  cases i with
  | ofNat n => exact Nat.toDigits_ne_nil
  | negSucc n => simp [intDigits]

theorem readNat?_natDigits (n : Nat) : readNat? (natDigits n) = some n := by
  have hne : (natDigits n).isEmpty = false := by
    simp [natDigits, List.isEmpty_eq_false_iff, Nat.toDigits_ne_nil]
  have hall : (natDigits n).all Char.isDigit = true := by
    rw [List.all_eq_true]
    exact fun _ => isDigit_of_mem_natDigits
  simp only [readNat?, hne, hall, Bool.not_true, Bool.or_self, Bool.false_eq_true, if_false]
  simp [natDigits, Nat.ofDigitChars_toDigits]

theorem toInt64?_toInt (i : Int64) : toInt64? i.toInt = some i := by
  have h₁ := i.le_toInt
  have h₂ := i.toInt_lt
  simp only [toInt64?]
  rw [if_pos ⟨h₁, h₂⟩, Int64.ofInt_toInt]

theorem readInt?_intDigits (i : Int) : readInt? (intDigits i) = some i := by
  cases i with
  | ofNat n =>
      have hd : ∀ cs, natDigits n = '-' :: cs → False := by
        intro cs h
        have hm : '-' ∈ Nat.toDigits 10 n := by
          simp only [natDigits] at h
          simp [h]
        have := Nat.isDigit_of_mem_toDigits (by decide) (by decide) hm
        exact absurd this (by decide)
      have hr := readNat?_natDigits n
      simp only [intDigits]
      unfold readInt?
      split
      · exact (hd _ (by assumption)).elim
      · simp [hr]
  | negSucc n => simp [intDigits, readInt?, readNat?_natDigits, Int.negSucc_eq]

theorem readInt64?_intDigits (i : Int64) : readInt64? (intDigits i.toInt) = some i := by
  simp [readInt64?, readInt?_intDigits, toInt64?_toInt]

end PathRules.Numeral
