import PathRules.Directory
import PathRules.Failure
import PathRules.Gzip
import PathRules.Rendering

/-!
# Saving results

The text goes to a temporary file next to the target, which then takes the name of the target. So
the target is either as it was or complete. A target whose name ends in `.gz` is compressed.
-/

namespace PathRules

/-- A file name without its last ending. A dot at the very start begins no ending. -/
def withoutEnding (name : List Char) : List Char :=
  match name.reverse.dropWhile (· ≠ '.') with
  | _ :: c :: cs => (c :: cs).reverse
  | _ => name

/-- The name of the temporary file of a target. It stands in the same folder, with an ending of its
own. Idle parts at the end of the target do not count, and a target without a last part that names
a file is its own temporary file. -/
def temporaryName (target : String) : String :=
  match (Directory.parts target).reverse.dropWhile Directory.isIdle with
  | [] => target
  | last :: folders =>
      if last = ".." then target
      else
        let stem := withoutEnding last.toList
        Directory.join (folders.reverse ++ [String.ofList (stem ++ ".tmp".toList)])

def isPackedName (name : String) : Bool :=
  ".gz".toList.isSuffixOf name.toList

/-- The bytes of a result under a name. -/
def savedBytes (name : String) (v : Value) (format : OutputFormat) (pretty : Bool) : List UInt8 :=
  let bytes := (String.ofList (render v format pretty)).toUTF8.toList
  if isPackedName name then Gzip.pack bytes else bytes

/-- A step of saving. -/
inductive SaveStep where
  | write (name : String) (bytes : List UInt8)
  | rename (source target : String)
  deriving DecidableEq

namespace SaveStep

def perform? (d : Directory) : SaveStep → Option Directory
  | write name bytes => d.write? name bytes
  | rename source target => d.rename? source target

/-- Why a step fails, for a target that is compressed or not. -/
def cause (packed : Bool) : SaveStep → Cause
  | write .. => .temporary packed
  | rename .. => .replacing

end SaveStep

/-- The steps that save a result. -/
def saveSteps (name : String) (v : Value) (format : OutputFormat) (pretty : Bool) :
    List SaveStep :=
  let temporary := temporaryName name
  [.write temporary (savedBytes name v format pretty), .rename temporary name]

/-- Carries out steps up to the first that fails. -/
def performAll (packed : Bool) (d : Directory) : List SaveStep → Directory × Except Failure Unit
  | [] => (d, .ok ())
  | step :: rest =>
      match step.perform? d with
      | some d => performAll packed d rest
      | none => (d, .error (.ofCause (step.cause packed)))

/-- Saves a result under a name. -/
def Directory.save (d : Directory) (name : String) (v : Value) (format : OutputFormat)
    (pretty : Bool) : Directory × Except Failure Unit :=
  performAll (isPackedName name) d (saveSteps name v format pretty)

end PathRules
