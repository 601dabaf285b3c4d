import PathRules.Json.Printer

/-!
# The text of a value

Matchers compare and capture text. A scalar has its plain text, so a string stands for itself, and
a container has its JSON text without blanks.
-/

namespace PathRules

/-- Floats as plain text have names for the values that JSON cannot spell. -/
def Scalar.floatStyle : Decimal.Style := ⟨true, "NaN", "inf", "-inf"⟩

def Scalar.spelling : Scalar → String
  | null => "null"
  | bool true => "true"
  | bool false => "false"
  | int i => Numeral.intText i.toInt
  | float x => String.ofList (floatStyle.write x)
  | text s => s

def Value.spelling : Value → String
  | scalar s => s.spelling
  | v => String.ofList (Json.compact v)

end PathRules
