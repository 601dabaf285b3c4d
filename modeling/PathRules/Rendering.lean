import PathRules.Json.Printer
import PathRules.Yaml.Document

/-!
# Output text

A result is written as JSON, on one line or over indented lines, or as YAML. The text always ends
with a line break.
-/

namespace PathRules

inductive OutputFormat where
  | json
  | yaml
  deriving DecidableEq, Inhabited

/-- A text that ends with a line break. -/
def endWithBreak (cs : List Char) : List Char :=
  if cs.getLast? = some '\n' then cs else cs ++ ['\n']

/-- The text of a value. Only JSON has a choice between one line and many. -/
def render (v : Value) (format : OutputFormat) (pretty : Bool) : List Char :=
  endWithBreak <| match format with
    | .json => Json.print pretty v
    | .yaml => Yaml.print v

end PathRules
