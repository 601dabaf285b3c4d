import PathRules.Yaml.Folding
import PathRules.Yaml.Token

/-!
# From YAML text to tokens

Indentation opens and closes block collections, so the tokens include marks that the text shows
only by its layout. A key without an indicator is recognised by the colon that follows it: every
place where such a key may start is remembered, and when the colon comes the mark of the key is put
in front of what was read since. Such a key stands on one line and has at most 1024 characters.
-/

namespace PathRules.Yaml

/-- A place where a key without an indicator may have started. A required key must turn out to be
one, because the indentation leaves no other reading. -/
structure KeyStart where
  required : Bool
  /-- The number of tokens before it. -/
  tokens : Nat
  line : Nat
  column : Nat
  index : Nat

structure Layout where
  /-- The tokens so far, the last first, and how many there are. -/
  tokens : List Token
  count : Nat
  /-- The column of the innermost block collection, -1 outside of all, and those around it. -/
  indent : Int
  outer : List Int
  /-- The places of keys, one for the block context and one for each flow collection. -/
  keyStart : Option KeyStart
  outerKeys : List (Option KeyStart)
  keyAllowed : Bool

namespace Layout

def start : Layout := ⟨[], 0, -1, [], none, [], true⟩

/-- Whether a flow collection is open. -/
def inFlow (l : Layout) : Bool :=
  !l.outerKeys.isEmpty

def add (l : Layout) (t : Token) : Layout :=
  { l with tokens := t :: l.tokens, count := l.count + 1 }

/-- Puts a token behind the first `n` tokens. -/
def insert (l : Layout) (n : Nat) (t : Token) : Layout :=
  let later := l.count - n
  { l with tokens := l.tokens.take later ++ t :: l.tokens.drop later, count := l.count + 1 }

/-- Opens a block collection if the column is right of the innermost one. -/
def indentTo (l : Layout) (column : Nat) (n : Nat) (t : Token) : Layout :=
  if !l.inFlow && l.indent < column then
    { l.insert n t with indent := column, outer := l.indent :: l.outer }
  else l

/-- Closes the block collections right of a column. -/
def closeTo (column : Int) : List Int → Layout → Layout
  | [], l => l
  | i :: outer, l =>
      if !l.inFlow && column < l.indent then
        closeTo column outer { l.add .blockEnd with indent := i, outer }
      else l

def dedentTo (l : Layout) (column : Int) : Layout :=
  closeTo column l.outer l

def isStale (s : Source) (k : KeyStart) : Bool :=
  k.line < s.line || k.index + 1024 < s.index

/-- Forgets a place that lies too far back. It must not be required. -/
def forgetStale (s : Source) : Option KeyStart → Option (Option KeyStart)
  | none => some none
  | some k => if isStale s k then if k.required then none else some none else some (some k)

def dropStaleKeys (l : Layout) (s : Source) : Option Layout := do
  return { l with
    keyStart := ← forgetStale s l.keyStart
    outerKeys := ← l.outerKeys.mapM (forgetStale s) }

/-- Gives up the place of the current context, which must not be required. -/
def dropKey (l : Layout) : Option Layout :=
  if l.keyStart.any KeyStart.required then none else some { l with keyStart := none }

/-- Remembers that a key may start here, if one is allowed. -/
def saveKey (l : Layout) (s : Source) : Option Layout :=
  if l.keyAllowed then do
    let l ← l.dropKey
    let required := !l.inFlow && l.indent == (s.column : Int)
    return { l with keyStart := some ⟨required, l.count, s.line, s.column, s.index⟩ }
  else some l

def allowKey (l : Layout) (allowed : Bool) : Layout :=
  { l with keyAllowed := allowed }

/-- Skips blanks, comments and line breaks before a token. A tab may stand only where no key can
start. -/
def gapStep (s : Source) (l : Layout) : Option (Source.Turn Layout (Layout × Source)) :=
  let (_, s₁) := s.takeWhile fun c => c == ' ' || (c == '\t' && (l.inFlow || !l.keyAllowed))
  let s₂ := s₁.skipComment
  if s₂.breakAt 0 then
    some (.again s₂.takeBreak.2 (if l.inFlow then l else l.allowKey true))
  else some (.done (l, s₂))

def takeGap (l : Layout) (s : Source) : Option (Layout × Source) :=
  s.scan gapStep l

/-- A mark of a document or a directive, which closes every block collection. -/
def atMargin (l : Layout) : Option Layout :=
  ((l.dedentTo (-1)).dropKey).map (·.allowKey false)

def openFlow (l : Layout) (s : Source) (t : Token) : Option (Layout × Source) := do
  let l ← l.saveKey s
  let l := { l with keyStart := none, outerKeys := l.keyStart :: l.outerKeys }
  return ((l.allowKey true).add t, s.skip 1)

def closeFlow (l : Layout) (s : Source) (t : Token) : Option (Layout × Source) := do
  let l ← l.dropKey
  let l := match l.outerKeys with
    | [] => l
    | k :: ks => { l with keyStart := k, outerKeys := ks }
  return ((l.allowKey false).add t, s.skip 1)

def flowEntry (l : Layout) (s : Source) : Option (Layout × Source) := do
  return (((← l.dropKey).allowKey true).add .flowEntry, s.skip 1)

def blockEntry (l : Layout) (s : Source) : Option (Layout × Source) := do
  guard (l.inFlow || l.keyAllowed)
  let l ← (l.indentTo s.column l.count .blockSeqStart).dropKey
  return ((l.allowKey true).add .blockEntry, s.skip 1)

def explicitKey (l : Layout) (s : Source) : Option (Layout × Source) := do
  guard (l.inFlow || l.keyAllowed)
  let l ← (l.indentTo s.column l.count .blockMapStart).dropKey
  return ((l.allowKey (!l.inFlow)).add .key, s.skip 1)

/-- A colon. With a key in front of it, the marks of the key and of a mapping that starts with it
are put where the key started. -/
def valueMark (l : Layout) (s : Source) : Option (Layout × Source) := do
  match l.keyStart with
  | some k =>
      let l := (l.insert k.tokens .key).indentTo k.column k.tokens .blockMapStart
      let l := { l with keyStart := none }
      return ((l.allowKey false).add .value, s.skip 1)
  | none =>
      guard (l.inFlow || l.keyAllowed)
      let l := l.indentTo s.column l.count .blockMapStart
      return ((l.allowKey (!l.inFlow)).add .value, s.skip 1)

/-- A token that may be the start of a key. -/
def keyToken (l : Layout) (s : Source) (take : Source → Option (Token × Source)) :
    Option (Layout × Source) := do
  let l ← l.saveKey s
  let (t, s) ← take s
  return ((l.allowKey false).add t, s)

def blockScalar (l : Layout) (s : Source) (literal : Bool) : Option (Layout × Source) := do
  let l ← l.dropKey
  let (text, s) ← Folding.takeBlock literal l.indent (s.skip 1)
  return ((l.allowKey true).add (.scalar text false), s)

def quotedScalar (l : Layout) (s : Source) (single : Bool) : Option (Layout × Source) :=
  l.keyToken s fun s => do
    let (text, s) ← Folding.takeQuoted single (s.skip 1)
    return (.scalar text false, s)

def plainScalar (l : Layout) (s : Source) : Option (Layout × Source) := do
  let l ← l.saveKey s
  let p ← Folding.takePlain l.inFlow (l.indent + 1).toNat s
  return ((l.allowKey p.brokenAtEnd).add (.scalar p.text true), p.after)

/-- Characters that cannot start a plain scalar. -/
def isIndicator (c : Char) : Bool :=
  "-?:,[]\x7b\x7d#&*!|>'\"%@\x60".toList.contains c

def plainStartsAt (l : Layout) (s : Source) (c : Char) : Bool :=
  !(isSpace c || isBreak c || isIndicator c) || (c == '-' && !s.spaceAt 1) ||
    (!l.inFlow && (c == '?' || c == ':') && !s.wordEndsAt 1)

/-- Reads the token that starts with a character. -/
def takeToken (l : Layout) (s : Source) (c : Char) : Option (Layout × Source) :=
  if s.column == 0 && c == '%' then do
    let l ← l.atMargin
    let (t, s) ← Token.takeDirective s
    return (l.add t, s)
  else if s.isMarker '-' then l.atMargin.map fun l => (l.add .documentStart, s.skip 3)
  else if s.isMarker '.' then l.atMargin.map fun l => (l.add .documentEnd, s.skip 3)
  else if c == '[' then l.openFlow s .flowSeqStart
  else if c == '\x7b' then l.openFlow s .flowMapStart
  else if c == ']' then l.closeFlow s .flowSeqEnd
  else if c == '\x7d' then l.closeFlow s .flowMapEnd
  else if c == ',' then l.flowEntry s
  else if c == '-' && s.wordEndsAt 1 then l.blockEntry s
  else if c == '?' && (l.inFlow || s.wordEndsAt 1) then l.explicitKey s
  else if c == ':' && (l.inFlow || s.wordEndsAt 1) then l.valueMark s
  else if c == '*' then l.keyToken s fun s => do
    let (name, s) ← Token.takeName (s.skip 1)
    return (.reference name, s)
  else if c == '&' then l.keyToken s fun s => do
    let (name, s) ← Token.takeName (s.skip 1)
    return (.anchor name, s)
  else if c == '!' then l.keyToken s (Token.takeTag l.inFlow)
  else if c == '|' && !l.inFlow then l.blockScalar s true
  else if c == '>' && !l.inFlow then l.blockScalar s false
  else if c == '\'' then l.quotedScalar s true
  else if c == '"' then l.quotedScalar s false
  else if l.plainStartsAt s c then l.plainScalar s
  else none

/-- At the end every block collection is closed, and no key may be missing its colon. -/
def finish (l : Layout) : Option (List Token) :=
  ((l.dedentTo (-1)).dropKey).map fun l => l.tokens.reverse

def step (s : Source) (l : Layout) : Option (Source.Turn Layout (List Token)) := do
  let (l, s) ← l.takeGap s
  let l ← l.dropStaleKeys s
  match s.rest with
  | [] => return .done (← l.finish)
  | c :: _ =>
      let (l, s) ← (l.dedentTo s.column).takeToken s c
      return .again s l

/-- Characters that may stand in a YAML text. -/
def isAllowed (c : Char) : Bool :=
  let n := c.toNat
  n == 0x09 || n == 0x0A || n == 0x0D || (0x20 ≤ n && n ≤ 0x7E) || n == 0x85 ||
    (0xA0 ≤ n && n ≤ 0xFFFD) || 0x10000 ≤ n

/-- The tokens of a text. A byte order mark at the front is ignored. -/
def tokens? (cs : List Char) : Option (List Token) :=
  let cs := if cs.head? = some '\ufeff' then cs.tail else cs
  if cs.all isAllowed then (Source.ofText cs).scan step start else none

end Layout

end PathRules.Yaml
