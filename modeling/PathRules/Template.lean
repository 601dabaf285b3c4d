import PathRules.Match

/-!
# Templates

A template spells the destination of a match. Slashes separate segments, `%` with digits is a
capture, and `%%` is the keys of the most recent splat not used yet, one segment for each key. A
backslash makes the next character literal, and a backslash at the very end stands for itself. A
reference that cannot be resolved leaves nothing and is reported.
-/

namespace PathRules

namespace Template

inductive Piece where
  | text (cs : List Char)
  | capture (n : Nat)
  | splat
  | separator
  deriving DecidableEq

end Template

structure Template where
  source : String
  pieces : List Template.Piece

namespace Template

/-- Numbers of captures too large for 64 bits count as the largest one. -/
def captureBound : Nat := 18446744073709551615

/-- A piece for collected text, if there is any. -/
def flush (collected : List Char) : List Piece :=
  if collected.isEmpty then [] else [.text collected.reverse]

/-- What a reading of a template is inside of. The digits of a capture are collected in reverse. -/
inductive Reading where
  | text
  | escape
  | percent
  | digits (taken : List Char)

/-- A reading of a template: the pieces so far, and the text collected since, both in reverse. -/
structure Scan where
  pieces : List Piece
  collected : List Char
  reading : Reading

namespace Scan

def start : Scan := ⟨[], [], .text⟩

/-- The scan after a piece that is no text. -/
def emit (s : Scan) (p : Piece) : Scan :=
  ⟨p :: (flush s.collected ++ s.pieces), [], .text⟩

def collect (s : Scan) (c : Char) : Scan :=
  { s with collected := c :: s.collected, reading := .text }

def stepText (s : Scan) (c : Char) : Scan :=
  if c = '\\' then { s with reading := .escape }
  else if c = '/' then s.emit .separator
  else if c = '%' then { s with reading := .percent }
  else s.collect c

def endDigits (s : Scan) (taken : List Char) : Scan :=
  s.emit (.capture (min (Nat.ofDigitChars 10 taken.reverse 0) captureBound))

def step (s : Scan) (c : Char) : Scan :=
  match s.reading with
  | .text => s.stepText c
  | .escape => s.collect c
  | .percent =>
      if c = '%' then s.emit .splat
      else if c.isDigit then { s with reading := .digits [c] }
      else (s.collect '%').stepText c
  | .digits taken =>
      if c.isDigit then { s with reading := .digits (c :: taken) }
      else (s.endDigits taken).stepText c

def finish (s : Scan) : List Piece :=
  let s := match s.reading with
    | .text => s
    | .escape => s.collect '\\'
    | .percent => s.collect '%'
    | .digits taken => s.endDigits taken
  (flush s.collected ++ s.pieces).reverse

end Scan

def dropFirstSeparator : List Piece → List Piece
  | .separator :: ps => ps
  | ps => ps

/-- Drops one separator at each end. -/
def trimSeparators (ps : List Piece) : List Piece :=
  let ps := dropFirstSeparator ps
  if ps.getLast? = some .separator then ps.dropLast else ps

/-- Reads a template. Every text is one. -/
def parse (source : String) : Template :=
  ⟨source, trimSeparators (source.toList.foldl Scan.step Scan.start).finish⟩

/-- An expansion under way: the finished segments, the segment being filled, whether that segment
consists only of an empty splat, the splats not used yet, and the diagnostics. -/
structure Filling where
  segments : List String
  current : String
  vacant : Bool
  splats : List Address
  diagnostics : List PathError

namespace Filling

def finishSegment (f : Filling) : Filling :=
  if f.vacant && f.current.isEmpty then { f with vacant := false }
  else { f with segments := f.segments ++ [f.current], current := "", vacant := false }

def append (f : Filling) (s : String) : Filling :=
  { f with current := f.current ++ s }

/-- Opens a segment for one key of a splat and puts the key into it. -/
def openKey (f : Filling) (k : Key) : Filling :=
  { f with segments := f.segments ++ [f.current], current := k.text }

/-- Puts the keys of a splat in. The first key goes to the current segment if that is empty. -/
def putKeys (f : Filling) : Address → Filling
  | [] => { f with vacant := true }
  | k :: ks =>
      let first := if f.current.isEmpty then f.append k.text else f.openKey k
      ks.foldl openKey first

def report (f : Filling) (e : PathError) : Filling :=
  { f with diagnostics := f.diagnostics ++ [e] }

def put (source : String) (found : Match) (f : Filling) : Piece → Filling
  | .text cs => f.append (String.ofList cs)
  | .separator => f.finishSegment
  | .capture n =>
      match found.capture? n with
      | some s => f.append s
      | none => f.report (.captureOutOfRange source n found.captures.length)
  | .splat =>
      match f.splats with
      | [] => f.report (.unknownSplat source)
      | keys :: rest => { f with splats := rest }.putKeys keys

end Filling

/-- The segments that the template spells for a match, and the references left unresolved. -/
def expand (t : Template) (found : Match) : List String × List PathError :=
  if t.pieces.isEmpty then ([], []) else
    let start : Filling := ⟨[], "", false, found.splats.reverse.map Prod.snd, []⟩
    let f := (t.pieces.foldl (Filling.put t.source found) start).finishSegment
    (f.segments, f.diagnostics)

/-- The address that the template spells. -/
def destination (t : Template) (found : Match) : Address × List PathError :=
  let (segments, diagnostics) := t.expand found
  (segments.map Key.ofText, diagnostics)

end Template

end PathRules
