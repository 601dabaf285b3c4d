/-!
# Flags

A path may end in `//` and letters. The flags apply to every pattern of the path.
-/

namespace PathRules

structure Flags where
  /-- Letters match in either case. -/
  anyCase : Bool := false
  /-- Wildcards match line feeds too. -/
  dotAll : Bool := false
  /-- Blanks in a pattern are ignored. -/
  extended : Bool := false
  /-- Accepted and without effect, apart from not being empty. -/
  fixedEncoding : Bool := false
  deriving DecidableEq, Inhabited

namespace Flags

def isEmpty (f : Flags) : Bool :=
  f == {}

def add? (f : Flags) : Char → Option Flags
  | 'i' => some { f with anyCase := true }
  | 'm' => some { f with dotAll := true }
  | 'x' => some { f with extended := true }
  | 'n' => some { f with fixedEncoding := true }
  | _ => none

/-- The flags that letters name; none if one of them is no flag. -/
def ofLetters? (letters : List Char) : Option Flags :=
  letters.foldlM add? {}

end Flags

end PathRules
