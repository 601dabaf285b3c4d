import PathRules.Numeral
import PathRules.Value

/-!
# Errors of paths and plans

A path that does not compile is an error. A reference of a template that cannot be resolved is a
diagnostic: the destination is still written, with nothing in its place.
-/

namespace PathRules

/-- What is wrong with a path. -/
inductive Fault where
  | unterminatedEscape
  | danglingEquals
  | unclosedGroup
  | unopenedGroup
  | noMapping
  deriving DecidableEq

def Fault.reason : Fault → String
  | unterminatedEscape => "unterminated escape"
  | danglingEquals => "dangling '='"
  | unclosedGroup => "invalid pattern (unclosed group)"
  | unopenedGroup => "invalid pattern (unopened group)"
  | noMapping => "expected FROM>TO"

inductive PathError where
  /-- The path is not in the language; the fragment is where it fails. -/
  | malformed (path fragment : String) (fault : Fault)
  /-- A template refers to a capture that its match does not have. -/
  | captureOutOfRange (template : String) (index available : Nat)
  /-- A template refers to a splat, and the match has none left. -/
  | unknownSplat (template : String)
  /-- A plan was run on a scalar. -/
  | unsupportedRoot (found : Kind)
  deriving DecidableEq

namespace PathError

def message : PathError → String
  | malformed path fragment fault =>
      "Malformed path '" ++ path ++ "': " ++ fault.reason ++ " at '" ++ fragment ++ "'"
  | captureOutOfRange template index available =>
      "Template '" ++ template ++ "' references capture %" ++ Numeral.natText index ++
        " but only " ++ Numeral.natText available ++ " were captured"
  | unknownSplat template =>
      "Template '" ++ template ++ "' expands %% but the match has no unconsumed splat"
  | unsupportedRoot found => "Cannot run a path transaction on a " ++ found.word ++ " root"

/-- Diagnostics degrade a run, and other errors end it. -/
def isDiagnostic : PathError → Bool
  | captureOutOfRange .. | unknownSplat _ => true
  | _ => false

end PathError

end PathRules
