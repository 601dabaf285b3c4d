import PathRules.CommandLine.Options
import PathRules.Filter
import PathRules.Saving
import PathRules.Settings

/-!
# Runs of the program

A run reads settings and input, applies the rules, and prints or saves the result. Rules that do
not compile are reported and left out, and the run then ends with a code of its own. References of
templates that cannot be resolved are warnings. Any other failure ends the run.
-/

namespace PathRules.CommandLine

/-- What a run has to work with: the files it may read, those of the home directory, and the
standard input unless it is a terminal. -/
structure Surroundings where
  files : Directory
  home : Directory
  input : Option (List UInt8)

/-- Where a result goes. -/
inductive Delivery where
  | print (text : List Char)
  | save (name : String) (steps : List SaveStep)

/-- A run that has got as far as its result. -/
structure Product where
  messages : List String
  /-- Whether a rule was left out. -/
  incomplete : Bool
  delivery : Delivery

/-- What is seen of a run. -/
structure Outcome where
  code : Nat
  printed : List Char
  messages : List String

def errorLine (message : String) : String := "Error: " ++ message

def warningLine (message : String) : String := "Warning: " ++ message

/-- The end of a run that failed, after some messages. -/
def Outcome.failed (messages : List String) (f : Failure) : Outcome :=
  ⟨1, [], messages ++ [errorLine f.headline]⟩

/-- The rules of the settings and of the options. Those of the settings come first. -/
def rules (s : Settings) (o : Options) : List (Except PathError Rule) :=
  (s.only ++ o.only).map (fun p => .ok (.only p)) ++
  (s.ignore ++ o.ignore).map (fun p => .ok (.ignore p)) ++
  o.moves.map Rule.parseMove ++ o.maps.map Rule.parseMap

def buildFilter (s : Settings) (o : Options) : Filter :=
  (rules s o).foldl Filter.addParsed {}

def loadSettings (o : Options) (w : Surroundings) : Except Failure Settings :=
  match o.settings with
  | some name => Settings.load w.files name
  | none => .ok (Settings.loadHome w.home)

def loadBody (o : Options) (s : Settings) (w : Surroundings) : Except Failure Value :=
  match o.file, w.input with
  | some name, _ => w.files.load name s.maxBytes
  | none, some bytes => loadStream s.maxBytes bytes
  | none, none => .error (.ofCause .noInput)

/-- Delivers a value as the options and the settings ask. -/
def deliver (o : Options) (s : Settings) (v : Value) : Delivery :=
  let format := o.format.getD s.format
  let pretty := s.pretty && !o.compact
  match o.target with
  | some name => .save name (saveSteps name v format pretty)
  | none => .print (render v format pretty)

/-- Applies the rules to a body. -/
def process (o : Options) (s : Settings) (body : Value) : Except Outcome Product :=
  let filter := buildFilter s o
  let rejected := filter.rejected.map fun e => errorLine e.message
  match (filter.apply body (o.keepIndices || s.keepIndices)).1 with
  | .error e => .error (.failed rejected ((Failure.ofCause (.path e)).during .applyingRules))
  | .ok execution =>
      .ok {
        messages := rejected ++ execution.diagnostics.map fun e => warningLine e.message
        incomplete := !rejected.isEmpty
        delivery := deliver o s execution.data }

/-- The result of a run. -/
def prepare (o : Options) (w : Surroundings) : Except Outcome Product :=
  match (do
    let s ← loadSettings o w
    let body ← loadBody o s w
    return (s, body)) with
  | .error f => .error (.failed [] f)
  | .ok (s, body) => process o s body

/-- The end of a run that has delivered its result. -/
def Product.done (p : Product) (printed : List Char) : Outcome :=
  ⟨if p.incomplete then 2 else 0, printed, p.messages⟩

/-- The end of a run whose result was to be saved, given whether that went well. -/
def Product.saved (p : Product) (name : String) : Except Failure Unit → Outcome
  | .ok () => p.done []
  | .error f => .failed p.messages (f.during (.writing name))

/-- Delivers a product, with the files as they are afterwards. -/
def Product.finish (p : Product) (files : Directory) : Outcome × Directory :=
  match p.delivery with
  | .print text => (p.done text, files)
  | .save name steps =>
      let (files, result) := performAll (isPackedName name) files steps
      (p.saved name result, files)

def versionText : String := "respdiff 0.2.1\n"

def usageText : String :=
  "Usage: respdiff [OPTIONS] [FILE]\n\n" ++
  "  -o, --only <PATH>      Keep only what PATH matches (repeatable)\n" ++
  "  -i, --ignore <PATH>    Drop what PATH matches (repeatable)\n" ++
  "  -m, --move <FROM>TO>   Move matches of FROM to the template TO (repeatable)\n" ++
  "  -M, --map <FROM>TO>    Copy matches of FROM to the template TO (repeatable)\n" ++
  "      --keep-indices     Show partially rebuilt sequences as index maps\n" ++
  "  -f, --format <FORMAT>  Output format: json or yaml\n" ++
  "      --compact          Write JSON on one line\n" ++
  "  -w, --write <FILE>     Write the result to a file instead of stdout\n" ++
  "      --config <FILE>    Config file to use\n" ++
  "  -h, --help             Print help\n" ++
  "  -V, --version          Print version\n"

/-- Runs the program on files that are given as a whole. -/
def run (args : List String) (w : Surroundings) : Outcome × Directory :=
  match Request.ofArguments args with
  | .version => (⟨0, versionText.toList, []⟩, w.files)
  | .help => (⟨0, usageText.toList, []⟩, w.files)
  | .misuse => (⟨2, [], [usageText]⟩, w.files)
  | .run o =>
      match prepare o w with
      | .error outcome => (outcome, w.files)
      | .ok product => product.finish w.files

end PathRules.CommandLine
