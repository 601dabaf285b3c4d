import PathRules.Loading
import PathRules.Rendering
import PathRules.Toml.Reader

/-!
# Settings

Settings are kept in a TOML document. Every setting has a default, so a document may leave out any
of them; what it holds besides is ignored. Settings are written so that reading gives them back.
-/

namespace PathRules

structure Settings where
  format : OutputFormat := .json
  pretty : Bool := true
  /-- Show partly rebuilt sequences as maps. -/
  keepIndices : Bool := false
  logLevel : String := "warn"
  /-- The size of the largest input that is accepted, in bytes. -/
  maxBytes : Nat := 104857600
  only : List String := []
  ignore : List String := []
  deriving DecidableEq, Inhabited

namespace Settings

open Toml

def formatWord : OutputFormat → String
  | .json => "json"
  | .yaml => "yaml"

def formatNamed? (word : String) : Option OutputFormat :=
  if word = "json" then some .json else if word = "yaml" then some .yaml else none

def isEmptyContainer : Item → Bool
  | .array items => items.isEmpty
  | .table _ fields => fields.isEmpty
  | _ => false

/-- A format is a word, or a table with the word as its only key and nothing under it. -/
def readFormat? : Item → Option OutputFormat
  | .text s => formatNamed? s
  | .table _ [(word, item)] => if isEmptyContainer item then formatNamed? word else none
  | _ => none

def readBool? : Item → Option Bool
  | .boolean b => some b
  | _ => none

def readText? : Item → Option String
  | .text s => some s
  | _ => none

def readSize? : Item → Option Nat
  | .integer i => if 0 ≤ i.toInt then some i.toInt.toNat else none
  | _ => none

def readTexts? : Item → Option (List String)
  | .array items => items.mapM readText?
  | _ => none

/-- A setting, or its default where the document leaves it out. -/
def setting? {α : Type} (fields : Fields) (key : String) (read : Item → Option α) (default : α) :
    Option α :=
  match Entries.get? fields key with
  | none => some default
  | some item => read item

/-- The settings in the table of a document. -/
def ofFields? (fields : Fields) : Option Settings := do
  let d : Settings := {}
  return {
    format := ← setting? fields "output_format" readFormat? d.format
    pretty := ← setting? fields "pretty" readBool? d.pretty
    keepIndices := ← setting? fields "preserve_indices" readBool? d.keepIndices
    logLevel := ← setting? fields "log_level" readText? d.logLevel
    maxBytes := ← setting? fields "max_input_bytes" readSize? d.maxBytes
    only := ← setting? fields "only" readTexts? d.only
    ignore := ← setting? fields "ignore" readTexts? d.ignore }

def read? (cs : List Char) : Option Settings :=
  (Toml.read? cs).bind ofFields?

/-- The settings in a file. -/
def load (d : Directory) (name : String) : Except Failure Settings :=
  match (d.read? name).bind decodeUtf8? with
  | none => .error (.ofCause (.unreadableSettings name))
  | some cs =>
      match read? cs with
      | none => .error (.ofCause .invalidSettings)
      | some s => .ok s

/-- The file with the settings of a user, below the home directory. -/
def homeFile : String := ".config/respdiff/config.toml"

/-- The settings of a user. Without a file, or with one that is unsound, the defaults apply. -/
def loadHome (home : Directory) : Settings :=
  match load home homeFile with
  | .ok s => s
  | .error _ => {}

def boolWord (b : Bool) : List Char :=
  if b then "true".toList else "false".toList

/-- A list of texts: one of them stays on the line of its key, more take a line each. -/
def printTexts : List String → List Char
  | [] => ['[', ']']
  | [s] => '[' :: quote s.toList ++ [']']
  | texts =>
      '[' :: texts.flatMap (fun s => "\n    ".toList ++ quote s.toList ++ [',']) ++ ['\n', ']']

def line (key : String) (value : List Char) : List Char :=
  key.toList ++ " = ".toList ++ value ++ ['\n']

/-- The document with the settings. -/
def print (s : Settings) : List Char :=
  line "output_format" (quote (formatWord s.format).toList) ++
  line "pretty" (boolWord s.pretty) ++
  line "preserve_indices" (boolWord s.keepIndices) ++
  line "log_level" (quote s.logLevel.toList) ++
  line "max_input_bytes" (Numeral.natDigits s.maxBytes) ++
  line "only" (printTexts s.only) ++
  line "ignore" (printTexts s.ignore)

/-- Saves the settings in a file, making its folders if needed. A document holds no number that
needs more than 64 bits with a sign. -/
def save? (s : Settings) (d : Directory) (name : String) : Option Directory :=
  if s.maxBytes < Numeral.int64Bound then d.put? name (String.ofList s.print).toUTF8.toList
  else none

end Settings

end PathRules
