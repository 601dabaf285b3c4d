import PathRules.Text.Blank
import PathRules.Path.Error
import PathRules.Path.Flags
import PathRules.Path.Token
import PathRules.Pattern.Regex

/-!
# Glob patterns

In a pattern `*` stands for a run of characters and `?` for one; both capture. Bars separate
alternatives and parentheses capture. Everything else stands for itself. The pattern is put between
an anchor for the start and one for the end, inside a group of its own. Parentheses are paired
after that, so a pattern may close the surrounding group and open another one in its place.
-/

namespace PathRules

/-- One symbol of a pattern. -/
inductive Glyph where
  | char (c : Char)
  | run
  | one
  | bar
  | opening
  | closing
  deriving DecidableEq

def Glyph.ofToken (t : Token) : Glyph :=
  if t.escaped then char t.char
  else match t.char with
    | '*' => run
    | '?' => one
    | '|' => bar
    | '(' => opening
    | ')' => closing
    | c => char c

/-- Piece of an expression before its groups are paired. -/
inductive Piece where
  | atom (r : Regex)
  | bar
  | opening (captures : Bool)
  | closing

/-- Blanks of an extended pattern have no pieces. -/
def Glyph.pieces (flags : Flags) : Glyph → List Piece
  | char c => if flags.extended && Text.isBlank c then [] else [.atom (.letter c flags.anyCase)]
  | run => [.opening true, .atom (.anyRun flags.dotAll), .closing]
  | one => [.opening true, .atom (.anyChar flags.dotAll), .closing]
  | bar => [.bar]
  | opening => [.opening true]
  | closing => [.closing]

/-- A group that is still open: the alternatives that ended, and the items of the one that has
not. The first alternative and the first item come last. -/
structure OpenGroup where
  captures : Bool
  ended : List Regex
  items : List Regex

namespace OpenGroup

def sequence : List Regex → Regex
  | [] => .empty
  | r :: rs => rs.foldl (fun tail item => .seq item tail) r

def alternatives (last : Regex) (ended : List Regex) : Regex :=
  ended.foldl (fun tail r => .alt r tail) last

def add (g : OpenGroup) (r : Regex) : OpenGroup :=
  { g with items := r :: g.items }

def split (g : OpenGroup) : OpenGroup :=
  { g with ended := sequence g.items :: g.ended, items := [] }

def close (g : OpenGroup) : Regex :=
  let r := alternatives (sequence g.items) g.ended
  if g.captures then .group r else r

end OpenGroup

/-- The open groups, the outermost being the expression itself. -/
structure Pairing where
  inner : OpenGroup
  outer : List OpenGroup

namespace Pairing

def start : Pairing := ⟨⟨false, [], []⟩, []⟩

def push (p : Pairing) : Piece → Except Fault Pairing
  | .atom r => .ok { p with inner := p.inner.add r }
  | .bar => .ok { p with inner := p.inner.split }
  | .opening captures => .ok ⟨⟨captures, [], []⟩, p.inner :: p.outer⟩
  | .closing =>
      match p.outer with
      | [] => .error .unopenedGroup
      | g :: gs => .ok ⟨g.add p.inner.close, gs⟩

def finish (p : Pairing) : Except Fault Regex :=
  if p.outer.isEmpty then .ok p.inner.close else .error .unclosedGroup

end Pairing

structure Pattern where
  glyphs : List Glyph
  regex : Regex

namespace Pattern

/-- The pieces of an anchored pattern. -/
def pieces (flags : Flags) (glyphs : List Glyph) : List Piece :=
  [.atom .textStart, .opening false] ++ glyphs.flatMap (Glyph.pieces flags) ++
    [.closing, .atom .textEnd]

def compile (flags : Flags) (tokens : List Token) : Except Fault Pattern := do
  let glyphs := tokens.map Glyph.ofToken
  let pairing ← (pieces flags glyphs).foldlM Pairing.push .start
  return ⟨glyphs, ← pairing.finish⟩

def groups (p : Pattern) : Nat :=
  p.regex.groups

/-- Flags do not count when patterns are compared. -/
def same (p q : Pattern) : Bool :=
  p.glyphs == q.glyphs && p.groups == q.groups

/-- The captures of a match. A pattern without groups captures the matched text. -/
def captures? (p : Pattern) (s : String) : Option (List String) :=
  (p.regex.search s.toList).map fun hit =>
    if p.groups = 0 then [String.ofList hit.whole] else hit.captures

end Pattern

end PathRules
