import PathRules.CommandLine.Session

/-!
# The program

The outer layer: it collects the files and the input that the arguments name, hands them over, and
carries out what comes back.
-/

namespace PathRules.CommandLine

/-- Reads a stream to its end. -/
partial def readStream (stream : IO.FS.Stream) (taken : ByteArray) : IO ByteArray := do
  let chunk ← stream.read 65536
  if chunk.isEmpty then return taken else readStream stream (taken ++ chunk)

/-- The files that can be read, under the names by which they were asked for. -/
def collectFiles (folder : String) (names : List String) : IO Directory := do
  let files ← names.filterMapM fun name => do
    try
      let bytes ← IO.FS.readBinFile (folder ++ name : String)
      return some (name, bytes.toList)
    catch _ => return none
  return Directory.ofFiles files

def readHome : IO Directory := do
  match ← IO.getEnv "HOME" with
  | none => return {}
  | some home => collectFiles (home ++ "/") [Settings.homeFile]

def readInput (o : Options) : IO (Option (List UInt8)) := do
  let stdin ← IO.getStdin
  if o.file.isSome then return some []
  else if ← stdin.isTty then return none
  else return some (← readStream stdin .empty).toList

/-- Carries out a step of saving, and tells whether it went well. -/
def carryOut : SaveStep → IO Bool
  | .write name bytes => do
      try
        IO.FS.writeBinFile name ⟨bytes.toArray⟩
        return true
      catch _ => return false
  | .rename source target => do
      try
        IO.FS.rename source target
        return true
      catch _ => return false

/-- Carries out steps up to the first that fails. -/
def carryOutAll (packed : Bool) : List SaveStep → IO (Except Failure Unit)
  | [] => return .ok ()
  | step :: rest => do
      if ← carryOut step then carryOutAll packed rest
      else return .error (.ofCause (step.cause packed))

def carryThrough (p : Product) : IO Outcome := do
  match p.delivery with
  | .print text => return p.done text
  | .save name steps => return p.saved name (← carryOutAll (isPackedName name) steps)

def runRequest (args : List String) : IO Outcome := do
  match Request.ofArguments args with
  | .run o =>
      let files ← collectFiles "" (o.settings.toList ++ o.file.toList)
      match prepare o ⟨files, ← readHome, ← readInput o⟩ with
      | .error outcome => return outcome
      | .ok product => carryThrough product
  | _ => return (run args ⟨{}, {}, none⟩).1

end PathRules.CommandLine

def main (args : List String) : IO UInt32 := do
  let outcome ← PathRules.CommandLine.runRequest args
  (← IO.getStdout).putStr (String.ofList outcome.printed)
  for message in outcome.messages do
    (← IO.getStderr).putStrLn message
  return UInt32.ofNat outcome.code
