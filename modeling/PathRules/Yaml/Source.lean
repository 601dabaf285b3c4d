/-!
# Positions in a YAML text

Scanning keeps the rest of the text with the line, the column and the number of characters before
it. A line break is a line feed, a carriage return with or without one, or one of three further
characters.
-/

namespace PathRules.Yaml

structure Source where
  rest : List Char
  line : Nat
  column : Nat
  index : Nat

def isBreak (c : Char) : Bool :=
  c == '\n' || c == '\r' || c == '\x85' || c == '\u2028' || c == '\u2029'

/-- Blanks and tabs. -/
def isSpace (c : Char) : Bool :=
  c == ' ' || c == '\t'

/-- Characters of anchors and of the handles of tags. -/
def isWordChar (c : Char) : Bool :=
  c.isAlphanum || c == '_' || c == '-'

namespace Source

def ofText (cs : List Char) : Source := ⟨cs, 0, 0, 0⟩

def peek? (s : Source) (n : Nat) : Option Char :=
  s.rest[n]?

def isAt (s : Source) (n : Nat) (c : Char) : Bool :=
  s.peek? n == some c

def atEnd (s : Source) : Bool :=
  s.rest.isEmpty

def breakAt (s : Source) (n : Nat) : Bool :=
  (s.peek? n).any isBreak

def spaceAt (s : Source) (n : Nat) : Bool :=
  (s.peek? n).any isSpace

/-- Whether the line ends there. -/
def lineEndsAt (s : Source) (n : Nat) : Bool :=
  (s.peek? n).all isBreak

/-- Whether a word ends there: at a blank, a line break, or the end of the text. -/
def wordEndsAt (s : Source) (n : Nat) : Bool :=
  (s.peek? n).all fun c => isSpace c || isBreak c

/-- The source after characters that are no line breaks. -/
def skip (s : Source) (n : Nat) : Source :=
  { s with rest := s.rest.drop n, column := s.column + n, index := s.index + n }

/-- The source after a line break, and the text that the break stands for. -/
def takeBreak (s : Source) : List Char × Source :=
  match s.rest with
  | '\r' :: '\n' :: rest => (['\n'], ⟨rest, s.line + 1, 0, s.index + 2⟩)
  | c :: rest =>
      if isBreak c then
        ([if c == '\u2028' || c == '\u2029' then c else '\n'], ⟨rest, s.line + 1, 0, s.index + 1⟩)
      else ([], s)
  | [] => ([], s)

/-- The characters up to the first that fails a test, and the source after them. The test must not
hold of line breaks. -/
def takeWhile (s : Source) (p : Char → Bool) : List Char × Source :=
  let taken := s.rest.takeWhile p
  (taken, s.skip taken.length)

def skipSpaces (s : Source) : Source :=
  (s.takeWhile isSpace).2

def skipComment (s : Source) : Source :=
  if s.isAt 0 '#' then (s.takeWhile fun c => !isBreak c).2 else s

/-- Whether three equal characters stand at the start of a line, as a word of their own. -/
def isMarker (s : Source) (c : Char) : Bool :=
  s.column == 0 && s.isAt 0 c && s.isAt 1 c && s.isAt 2 c && s.wordEndsAt 3

/-- Whether a document starts or ends here. -/
def atDocumentMarker (s : Source) : Bool :=
  s.isMarker '-' || s.isMarker '.'

/-- What a step of a scan leads to: the next step, or a result. -/
inductive Turn (σ β : Type) where
  | again (next : Source) (state : σ)
  | done (result : β)

/-- Repeats a step up to its result. A step that goes on has to consume something. -/
def scan {σ β : Type} (step : Source → σ → Option (Turn σ β)) (s : Source) (state : σ) : Option β :=
  match step s state with
  | none => none
  | some (.done result) => some result
  | some (.again next state') =>
      if _h : next.rest.length < s.rest.length then scan step next state' else none
termination_by s.rest.length

end Source

end PathRules.Yaml
