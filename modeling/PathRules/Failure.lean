import PathRules.Path.Error

/-!
# Failures

Reading, running and writing can fail. A failure keeps its cause and, outermost first, the
activities that were under way. The message names the activities and then the cause.
-/

namespace PathRules

inductive Cause where
  | invalidJson
  | invalidYaml
  | invalidLine (number : Nat)
  | noLines
  | tooLarge (size limit : Nat)
  | notText
  | corruptArchive
  | unreadable (file : String)
  /-- The temporary file that is to replace the target cannot be written. -/
  | temporary (packed : Bool)
  | replacing
  | unreadableSettings (file : String)
  | invalidSettings
  | noInput
  | path (error : PathError)
  deriving DecidableEq

def Cause.message : Cause → String
  | invalidJson => "Failed to parse JSON"
  | invalidYaml => "Failed to parse YAML"
  | invalidLine number => "Invalid JSON on line " ++ Numeral.natText number
  | noLines => "No valid JSON found in JSONL content"
  | tooLarge size limit =>
      "Input is " ++ Numeral.natText size ++ " bytes, over the " ++ Numeral.natText limit ++
        " byte limit"
  | notText => "Input is not valid UTF-8"
  | corruptArchive => "Failed to decompress gzipped input - data may be corrupted"
  | unreadable file => "Failed to read " ++ file
  | temporary packed =>
      if packed then "Failed to create temp file" else "Failed to write temp file"
  | replacing => "Failed to rename temp file"
  | unreadableSettings file => "Failed to read config file " ++ file
  | invalidSettings => "Failed to parse config file"
  | noInput => "No input: pass a FILE or pipe a body on stdin"
  | path error => error.message

inductive Activity where
  | detectingFormat
  | loading (file : String)
  | readingInput
  | applyingRules
  | writing (file : String)
  deriving DecidableEq

def Activity.message : Activity → String
  | detectingFormat => "Input is neither valid JSON, JSON Lines nor YAML"
  | loading file => "Failed to load " ++ file
  | readingInput => "Failed to parse stdin"
  | applyingRules => "Failed to apply path rules"
  | writing file => "Failed to write " ++ file

structure Failure where
  activities : List Activity
  cause : Cause
  deriving DecidableEq

namespace Failure

def ofCause (cause : Cause) : Failure := ⟨[], cause⟩

/-- The failure as it is seen from an activity around it. -/
def during (activity : Activity) (f : Failure) : Failure :=
  { f with activities := activity :: f.activities }

/-- The messages, outermost first. -/
def layers (f : Failure) : List String :=
  f.activities.map Activity.message ++ [f.cause.message]

def message (f : Failure) : String :=
  ": ".intercalate f.layers

/-- The outermost message. -/
def headline (f : Failure) : String :=
  match f.activities with
  | [] => f.cause.message
  | activity :: _ => activity.message

end Failure

end PathRules
