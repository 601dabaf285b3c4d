import PathRules.Failure
import PathRules.Json.Reader
import PathRules.Yaml.Document

/-!
# Input formats

A document is JSON, YAML, or lines with one JSON value each, which make a sequence. The name of a
file tells the format by its ending. Without a name the formats are tried: JSON, then lines, then
YAML, and the failure of the last one counts.
-/

namespace PathRules

inductive Format where
  | json
  | yaml
  | jsonLines
  deriving DecidableEq

namespace Format

def hasSuffix (cs : List Char) (suffix : String) : Bool :=
  suffix.toList.isSuffixOf cs

/-- A name without the ending of compressed files. -/
def dropPacked (cs : List Char) : List Char :=
  if hasSuffix cs ".gz" then cs.take (cs.length - 3) else cs

/-- The format that the ending of a file name tells, in letters of either case. -/
def ofName? (name : String) : Option Format :=
  let base := dropPacked (name.toList.map Char.toLower)
  if hasSuffix base ".jsonl" || hasSuffix base ".ndjson" then some jsonLines
  else if hasSuffix base ".json" then some json
  else if hasSuffix base ".yaml" || hasSuffix base ".yml" then some yaml
  else none

/-- The values of lines; `number` counts the lines before, blank ones too. -/
def readLines : Nat → List (List Char) → Except Cause (List Value)
  | _, [] => .ok []
  | number, line :: rest =>
      if line.all Text.isBlank then readLines (number + 1) rest
      else match Json.read? line with
        | none => .error (.invalidLine (number + 1))
        | some v => (readLines (number + 1) rest).map (v :: ·)

/-- The value of a document in the format. -/
def read : Format → List Char → Except Cause Value
  | json, cs => (Json.read? cs).elim (.error .invalidJson) .ok
  | yaml, cs => (Yaml.read? cs).elim (.error .invalidYaml) .ok
  | jsonLines, cs => do
      let items ← readLines 0 (Text.lines cs)
      if items.isEmpty then .error .noLines else .ok (.seq items)

/-- The value of a document in the first format that it is valid in. -/
def detect (cs : List Char) : Except Failure Value :=
  match read json cs with
  | .ok v => .ok v
  | .error _ =>
      match read jsonLines cs with
      | .ok v => .ok v
      | .error _ =>
          (read yaml cs).mapError fun cause =>
            (Failure.ofCause cause).during .detectingFormat

end Format

/-- The value of a document. -/
def readDocument (format : Option Format) (cs : List Char) : Except Failure Value :=
  match format with
  | some f => (f.read cs).mapError Failure.ofCause
  | none => Format.detect cs

end PathRules
