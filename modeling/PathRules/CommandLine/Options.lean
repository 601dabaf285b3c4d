import PathRules.Rendering

/-!
# Options of the command line

Arguments are read from left to right. An option with a value takes it from the same argument, with
an equals sign or, after a short name, without, or else from the next argument, which must not look
like an option. Short names may stand together after one dash. After `--` every argument is a file.
Lists of rules may be given many times, and everything else once.
-/

namespace PathRules.CommandLine

structure Options where
  only : List String := []
  ignore : List String := []
  moves : List String := []
  maps : List String := []
  keepIndices : Bool := false
  format : Option OutputFormat := none
  compact : Bool := false
  /-- The file that gets the result in place of the standard output. -/
  target : Option String := none
  settings : Option String := none
  /-- The file with the input in place of the standard input. -/
  file : Option String := none
  deriving DecidableEq, Inhabited

/-- What the arguments ask for. -/
inductive Request where
  | run (options : Options)
  | version
  | help
  | misuse
  deriving DecidableEq

/-- Options that take a value. -/
inductive Setting where
  | only
  | ignore
  | move
  | map
  | format
  | write
  | config

inductive Switch where
  | keepIndices
  | compact
  | version
  | help

inductive Name where
  | setting (s : Setting)
  | switch (s : Switch)

def Name.ofWord? : String → Option Name
  | "only" => some (.setting .only)
  | "ignore" => some (.setting .ignore)
  | "move" => some (.setting .move)
  | "map" => some (.setting .map)
  | "format" => some (.setting .format)
  | "write" => some (.setting .write)
  | "config" => some (.setting .config)
  | "keep-indices" => some (.switch .keepIndices)
  | "compact" => some (.switch .compact)
  | "version" => some (.switch .version)
  | "help" => some (.switch .help)
  | _ => none

def Name.ofLetter? : Char → Option Name
  | 'o' => some (.setting .only)
  | 'i' => some (.setting .ignore)
  | 'm' => some (.setting .move)
  | 'M' => some (.setting .map)
  | 'f' => some (.setting .format)
  | 'w' => some (.setting .write)
  | 'V' => some (.switch .version)
  | 'h' => some (.switch .help)
  | _ => none

/-- What is known after some arguments: the options so far, or what ends the reading. -/
abbrev Reading := Except Request Options

namespace Options

/-- The name of a file for an option that has none yet. -/
def fileName (old : Option String) (name : String) : Except Request (Option String) :=
  if old.isSome || name.isEmpty then .error .misuse else .ok (some name)

def formatNamed (old : Option OutputFormat) (word : String) :
    Except Request (Option OutputFormat) :=
  if old.isSome then .error .misuse
  else if word = "json" then .ok (some .json)
  else if word = "yaml" then .ok (some .yaml)
  else .error .misuse

/-- Enters the value of an option. -/
def enter (o : Options) (s : Setting) (value : String) : Reading :=
  match s with
  | .only => .ok { o with only := o.only ++ [value] }
  | .ignore => .ok { o with ignore := o.ignore ++ [value] }
  | .move => .ok { o with moves := o.moves ++ [value] }
  | .map => .ok { o with maps := o.maps ++ [value] }
  | .format => do return { o with format := ← formatNamed o.format value }
  | .write => do return { o with target := ← fileName o.target value }
  | .config => do return { o with settings := ← fileName o.settings value }

def enterFile (o : Options) (name : String) : Reading := do
  return { o with file := ← fileName o.file name }

def turn (o : Options) : Switch → Reading
  | .keepIndices => if o.keepIndices then .error .misuse else .ok { o with keepIndices := true }
  | .compact => if o.compact then .error .misuse else .ok { o with compact := true }
  | .version => .error .version
  | .help => .error .help

end Options

/-- An argument by its looks. -/
inductive Argument where
  /-- Two dashes alone. -/
  | divider
  /-- The name after two dashes, and the value after an equals sign. -/
  | long (name : String) (value : Option String)
  /-- What stands after one dash. -/
  | short (letters : List Char)
  /-- Anything else; a dash alone is a word too. -/
  | word (text : String)

def Argument.ofText (arg : String) : Argument :=
  match arg.toList with
  | ['-', '-'] => divider
  | '-' :: '-' :: cs =>
      let name := String.ofList (cs.takeWhile (· ≠ '='))
      match cs.dropWhile (· ≠ '=') with
      | [] => long name none
      | _ :: value => long name (some (String.ofList value))
  | '-' :: c :: cs => short (c :: cs)
  | _ => word arg

/-- The value behind a short name. An equals sign in front of it is dropped. -/
def attached : List Char → String
  | '=' :: cs => String.ofList cs
  | cs => String.ofList cs

/-- Reads short names that stand together. If the last one still needs its value, it is handed
back. -/
def readLetters (o : Options) : List Char → Except Request (Options × Option Setting)
  | [] => .ok (o, none)
  | c :: cs =>
      match Name.ofLetter? c with
      | none => .error .misuse
      | some (.switch s) => do readLetters (← o.turn s) cs
      | some (.setting s) =>
          if cs.isEmpty then .ok (o, some s)
          else do return (← o.enter s (attached cs), none)

/-- Reads one argument that is not a value. An option that still needs its value is handed back. -/
def readArgument (o : Options) : Argument → Except Request (Options × Option Setting)
  | .divider => .ok (o, none)
  | .word text => do return (← o.enterFile text, none)
  | .short letters => readLetters o letters
  | .long name value =>
      match Name.ofWord? name, value with
      | none, _ => .error .misuse
      | some (.switch s), none => do return (← o.turn s, none)
      | some (.switch _), some _ => .error .misuse
      | some (.setting s), none => .ok (o, some s)
      | some (.setting s), some v => do return (← o.enter s v, none)

/-- Reads arguments. `waiting` is an option that needs the next argument as its value. -/
def readAll (o : Options) (waiting : Option Setting) : List Argument → Reading
  | [] => if waiting.isSome then .error .misuse else .ok o
  | arg :: rest =>
      match waiting, arg with
      | some s, .word text => do readAll (← o.enter s text) none rest
      | some _, _ => .error .misuse
      | none, arg => do
          let (o, waiting) ← readArgument o arg
          readAll o waiting rest

/-- Reads arguments after a divider: files only. -/
def readFiles (o : Options) (names : List String) : Reading :=
  names.foldlM Options.enterFile o

/-- The arguments before a divider, with it, and those after it. -/
def splitDivider : List String → List String × List String
  | [] => ([], [])
  | arg :: rest =>
      if arg = "--" then ([arg], rest)
      else
        let (before, after) := splitDivider rest
        (arg :: before, after)

/-- What the arguments ask for. -/
def Request.ofArguments (args : List String) : Request :=
  let (before, after) := splitDivider args
  match (do readFiles (← readAll {} none (before.map Argument.ofText)) after) with
  | .ok options => .run options
  | .error request => request

end PathRules.CommandLine
