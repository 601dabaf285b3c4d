import PathRules.Path

/-!
# Compiling paths

Segments stand between slashes; one slash at either end is ignored. A segment is a key part, or a
key part and a value part with an equals sign between them. `..` goes to the parent, and `**` makes
the next segment recursive; before `..` it has no meaning, and both are dropped. At the end `**`
selects everything below. After the last `//` there may be letters; if all of them are flags they
belong to no segment. A backslash takes the meaning from each of these characters.
-/

namespace PathRules.Path

/-- Why a path does not compile, and where. -/
structure Failure where
  fragment : List Char
  fault : Fault

/-- The last position at which two slashes stand side by side. -/
def lastDoubleSlash? (ts : List Token) : Option Nat :=
  (List.range (ts.length - 1)).reverse.find? fun i =>
    match ts[i]?, ts[i + 1]? with
    | some a, some b => a.is '/' && b.is '/'
    | _, _ => false

/-- Takes the flags off the end of a path. -/
def splitFlags (ts : List Token) : List Token × Flags :=
  match lastDoubleSlash? ts with
  | none => (ts, {})
  | some i =>
      let suffix := ts.drop (i + 2)
      if suffix.isEmpty || suffix.any Token.escaped then (ts, {})
      else match Flags.ofLetters? (suffix.map Token.char) with
        | some flags => (ts.take i, flags)
        | none => (ts, {})

def dropLeading : List Token → List Token
  | t :: ts => if t.is '/' then ts else t :: ts
  | [] => []

def dropTrailing (ts : List Token) : List Token :=
  match ts.getLast? with
  | some t => if t.is '/' then ts.dropLast else ts
  | none => ts

/-- Drops one slash at each end. -/
def trimSlashes (ts : List Token) : List Token :=
  dropTrailing (dropLeading ts)

/-- The texts between the slashes of a body; an empty body has none. -/
def rawSegments (ts : List Token) : List (List Token) :=
  if ts.isEmpty then [] else ts.splitOnP (·.is '/')

def compilePart (flags : Flags) (part : List Token) : Except Failure Matcher :=
  (Matcher.ofTokens flags part).mapError fun fault => ⟨Token.print part, fault⟩

/-- Compiles a segment that is not reserved. With a value part, `**` is any key at any depth. -/
def compileSegment (flags : Flags) (recursive : Bool) (raw : List Token) :
    Except Failure Segment :=
  match raw.splitOnP (·.is '=') with
  | [key] => do return .step (← compilePart flags key) none recursive
  | [key, value] =>
      if Token.spell key ['*', '*'] then do
        return .step .any (some (← compilePart flags value)) true
      else do
        let k ← compilePart flags key
        return .step k (some (← compilePart flags value)) recursive
  | _ => .error ⟨Token.print raw, .danglingEquals⟩

/-- Compiles segments from left to right. `recursive` tells whether `**` stands just before. -/
def compileSegments (flags : Flags) : Bool → List (List Token) → Except Failure (List Segment)
  | recursive, [] => .ok (if recursive then [.step .any none true] else [])
  | recursive, raw :: rest =>
      if Token.spell raw ['*', '*'] then compileSegments flags true rest
      else if Token.spell raw ['.', '.'] then do
        let segments ← compileSegments flags false rest
        return if recursive then segments else .parent :: segments
      else do
        let segment ← compileSegment flags recursive raw
        return segment :: (← compileSegments flags false rest)

def compileTokens (ts : List Token) : Except Failure (List Segment × Flags) := do
  let (body, flags) := splitFlags ts
  return (← compileSegments flags false (rawSegments (trimSlashes body)), flags)

/-- Compiles a path. Errors name the whole path. -/
def compile (source : String) : Except PathError Path :=
  match Token.scan? source.toList with
  | none => .error (.malformed source "\\" .unterminatedEscape)
  | some ts =>
      match compileTokens ts with
      | .ok (segments, flags) => .ok ⟨source, segments, flags⟩
      | .error failure =>
          .error (.malformed source (String.ofList failure.fragment) failure.fault)

end PathRules.Path
