import PathRules.Numeral

/-!
# Keys and addresses

One step of an address is the position of an element in a sequence or the name of an entry in a
map. Both kinds of container accept both kinds of key: a map compares the text of the key, and a
sequence takes a name that is a numeral as a position.
-/

namespace PathRules

inductive Key where
  | index (i : Nat)
  | name (s : String)
  deriving DecidableEq, Repr, Inhabited

/-- The keys from a root down to a location. -/
abbrev Address := List Key

namespace Key

/-- Positions are counted with 64 bits, so no numeral from two to the power of 64 on is one. -/
def indexBound : Nat := 18446744073709551616

/-- The position that a text spells. Signs and blanks are refused. -/
def readIndex? (s : String) : Option Nat :=
  (Numeral.readNat? s.toList).filter (· < indexBound)

def text : Key → String
  | .index i => Numeral.natText i
  | .name s => s

/-- The position that a key addresses in a sequence. -/
def asIndex? : Key → Option Nat
  | .index i => some i
  | .name s => readIndex? s

/-- The key that a text denotes: numerals address positions. -/
def ofText (s : String) : Key :=
  match readIndex? s with
  | some i => .index i
  | none => .name s

@[simp] theorem text_name (s : String) : (name s).text = s := rfl

@[simp] theorem asIndex?_index (i : Nat) : (index i).asIndex? = some i := rfl

theorem readIndex?_natText {i : Nat} (h : i < indexBound) :
    readIndex? (Numeral.natText i) = some i := by
  simp [readIndex?, Numeral.natText, Numeral.readNat?_natDigits, h]

theorem lt_indexBound_of_readIndex? {s : String} {i : Nat} (h : readIndex? s = some i) :
    i < indexBound := by
  simpa using (Option.filter_eq_some_iff.mp h).2

/-- Only a text that spells a position denotes it. -/
theorem readIndex?_of_ofText {s : String} {i : Nat} (h : ofText s = .index i) :
    readIndex? s = some i := by
  cases hr : readIndex? s with
  | none => simp [ofText, hr] at h
  | some j =>
      simp only [ofText, hr, index.injEq] at h
      rw [h]

end Key

end PathRules
