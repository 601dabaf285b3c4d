import PathRules.Text.Blank
import PathRules.Value
import PathRules.Yaml.Printer
import PathRules.Yaml.Reader

/-!
# Values from YAML and back

Maps have text for keys, so the keys of a mapping are spelled: numbers and words as they are
written, and collections by their YAML text. Two keys that are spelled alike become one entry,
which keeps the place of the first and the value of the last. Tags are dropped, and integers that
do not fit into 64 bits with a sign become floats.
-/

namespace PathRules.Yaml

/-- A text without the blanks at its end. -/
def trimEnd (cs : List Char) : List Char :=
  (cs.reverse.dropWhile Text.isBlank).reverse

/-- The text of a key. -/
def Node.keyText : Node → String
  | text s => s
  | seq items => String.ofList (trimEnd (print (seq items)))
  | map es => String.ofList (trimEnd (print (map es)))
  | tagged tag content => String.ofList (trimEnd (print (tagged tag content)))
  | node => String.ofList node.plainText

/-- An integer, or the float nearest to it if it does not fit. -/
def Node.intScalar (i : Int) : Scalar :=
  match Numeral.toInt64? i with
  | some j => .int j
  | none => .float (Binary64.ofInt i)

mutual

def Node.toValue : Node → Value
  | null => .scalar .null
  | bool b => .scalar (.bool b)
  | int i => .scalar (intScalar i)
  | float x => .scalar (.float x)
  | text s => .scalar (.text s)
  | seq items => .seq (toValues items)
  | map es => .map (Entries.ofPairs (toPairs es))
  | tagged _ content => toValue content

def Node.toValues : List Node → List Value
  | [] => []
  | x :: xs => toValue x :: toValues xs

/-- The entries of a mapping with their keys spelled, before equal spellings are merged. -/
def Node.toPairs : List (Node × Node) → List (String × Value)
  | [] => []
  | (k, x) :: es => (keyText k, toValue x) :: toPairs es

end

mutual

def Node.ofValue : Value → Node
  | .scalar .null => null
  | .scalar (.bool b) => bool b
  | .scalar (.int i) => int i.toInt
  | .scalar (.float x) => float x
  | .scalar (.text s) => text s
  | .seq items => seq (ofValues items)
  | .map es => map (ofEntries es)

def Node.ofValues : List Value → List Node
  | [] => []
  | x :: xs => ofValue x :: ofValues xs

def Node.ofEntries : List (String × Value) → List (Node × Node)
  | [] => []
  | (k, x) :: es => (text k, ofValue x) :: ofEntries es

end

/-- The value of a YAML text. -/
def read? (cs : List Char) : Option Value :=
  (Node.read? cs).map Node.toValue

/-- The YAML text of a value. -/
def print (v : Value) : List Char :=
  (Node.ofValue v).print

end PathRules.Yaml
