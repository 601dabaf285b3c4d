import PathRules.Yaml.Source

/-!
# Scalars of a YAML text

Plain, quoted and block scalars. Lines of a plain or quoted scalar are joined: a single line break
becomes a blank, and of more breaks in a row the first is dropped. Block scalars keep their lines,
or fold them in the same way except next to indented lines.
-/

namespace PathRules.Yaml.Folding

/-- The gap between two words of a scalar: blanks on the line, or the first line break and the
breaks after it. -/
structure Gap where
  blanks : List Char := []
  first : List Char := []
  more : List Char := []
  broken : Bool := false

/-- The text that a gap stands for. -/
def Gap.join (g : Gap) : List Char :=
  if !g.broken then g.blanks
  else if g.first = ['\n'] then if g.more.isEmpty then [' '] else g.more
  else g.first ++ g.more

open Source (Turn)

/-- Adds a blank or a line break to a gap. `tabs` says at which columns a tab may stand after a
break. -/
def gapStep (tabs : Nat → Bool) (s : Source) (g : Gap) : Option (Turn Gap (Gap × Source)) :=
  if s.spaceAt 0 then
    if !g.broken then some (.again (s.skip 1) { g with blanks := g.blanks ++ s.rest.take 1 })
    else if s.isAt 0 '\t' && !tabs s.column then none
    else some (.again (s.skip 1) g)
  else if s.breakAt 0 then
    let (text, s') := s.takeBreak
    if g.broken then some (.again s' { g with more := g.more ++ text })
    else some (.again s' { g with blanks := [], first := text, broken := true })
  else some (.done (g, s))

/-- Reads blanks and line breaks. -/
def takeGap (tabs : Nat → Bool) (s : Source) (g : Gap) : Option (Gap × Source) :=
  s.scan (gapStep tabs) g

/-- Where a plain scalar ends within a line. In a flow collection its indicators end it too. -/
def plainEndsAt (inFlow : Bool) (s : Source) : Bool :=
  s.wordEndsAt 0 || (s.isAt 0 ':' && s.wordEndsAt 1) ||
    (inFlow && (s.peek? 0).any fun c =>
      c == ',' || c == '[' || c == ']' || c == '\x7b' || c == '\x7d')

/-- A colon that stands before an indicator of the flow collection around it. -/
def badColon (inFlow : Bool) (s : Source) : Bool :=
  inFlow && s.isAt 0 ':' && (s.peek? 1).any fun c =>
    c == ',' || c == '?' || c == '[' || c == ']' || c == '\x7b' || c == '\x7d'

def plainWordStep (inFlow : Bool) (s : Source) (taken : List Char) :
    Option (Turn (List Char) (List Char × Source)) :=
  if s.wordEndsAt 0 then some (.done (taken.reverse, s))
  else if badColon inFlow s then none
  else if plainEndsAt inFlow s then some (.done (taken.reverse, s))
  else some (.again (s.skip 1) (s.rest.take 1 ++ taken))

/-- The characters of a plain scalar up to the next gap or the end. -/
def plainWord (inFlow : Bool) (s : Source) : Option (List Char × Source) :=
  s.scan (plainWordStep inFlow) []

/-- A plain scalar. The result tells whether its last gap had a line break, which allows a simple
key to follow. -/
structure Plain where
  text : List Char
  brokenAtEnd : Bool
  after : Source

/-- Reads a word of a plain scalar and the gap after it. The gap before the word counts only if
there is a word. `indent` is the least column of the lines that continue the scalar. -/
def plainStep (inFlow : Bool) (indent : Nat) (s : Source) (state : List Char × Gap) :
    Option (Turn (List Char × Gap) Plain) :=
  let (text, gap) := state
  if s.atDocumentMarker || s.isAt 0 '#' then some (.done ⟨text, gap.broken, s⟩)
  else do
    let (word, s₁) ← plainWord inFlow s
    let text := if word.isEmpty then text else text ++ gap.join ++ word
    let gap := if word.isEmpty then gap else {}
    if s₁.spaceAt 0 || s₁.breakAt 0 then
      let (gap, s₂) ← takeGap (indent ≤ ·) s₁ gap
      if !inFlow && s₂.column < indent then return .done ⟨text, gap.broken, s₂⟩
      else return .again s₂ (text, gap)
    else return .done ⟨text, gap.broken, s₁⟩

def takePlain (inFlow : Bool) (indent : Nat) (s : Source) : Option Plain :=
  s.scan (plainStep inFlow indent) ([], {})

/-- The character that a one-letter escape stands for. -/
def simpleEscape? (c : Char) : Option Char :=
  match c with
  | '0' => some '\x00'
  | 'a' => some '\x07'
  | 'b' => some '\x08'
  | 't' | '\t' => some '\t'
  | 'n' => some '\n'
  | 'v' => some '\x0b'
  | 'f' => some '\x0c'
  | 'r' => some '\r'
  | 'e' => some '\x1b'
  | ' ' => some ' '
  | '"' => some '"'
  | '/' => some '/'
  | '\\' => some '\\'
  | 'N' => some '\x85'
  | '_' => some '\xa0'
  | 'L' => some '\u2028'
  | 'P' => some '\u2029'
  | _ => none

/-- The number of digits of a numeric escape. -/
def escapeDigits? (c : Char) : Option Nat :=
  match c with
  | 'x' => some 2
  | 'u' => some 4
  | 'U' => some 8
  | _ => none

def hexValue? (c : Char) : Option Nat :=
  if c.isDigit then some (c.toNat - '0'.toNat)
  else if 'a' ≤ c ∧ c ≤ 'f' then some (c.toNat - 'a'.toNat + 10)
  else if 'A' ≤ c ∧ c ≤ 'F' then some (c.toNat - 'A'.toNat + 10)
  else none

def hexNumber? (cs : List Char) : Option Nat :=
  cs.foldlM (fun n c => (hexValue? c).map (n * 16 + ·)) 0

/-- The character of an escape, and the source after it. The backslash is still to be read. -/
def takeEscape (s : Source) : Option (Char × Source) := do
  let c ← s.peek? 1
  match simpleEscape? c with
  | some d => return (d, s.skip 2)
  | none =>
      let n ← escapeDigits? c
      let digits := (s.rest.drop 2).take n
      guard (digits.length = n)
      let value ← hexNumber? digits
      guard (value.isValidChar)
      return (Char.ofNat value, s.skip (2 + n))

/-- What ends a run of characters in a quoted scalar. -/
inductive QuotedEnd where
  | quote
  | gap
  | joinedLine

def quotedWordStep (single : Bool) (s : Source) (taken : List Char) :
    Option (Turn (List Char) (List Char × QuotedEnd × Source)) := do
  let c ← s.peek? 0
  if isSpace c || isBreak c then return .done (taken.reverse, .gap, s)
  else if single then
    if c != '\'' then return .again (s.skip 1) (c :: taken)
    else if s.isAt 1 '\'' then return .again (s.skip 2) (c :: taken)
    else return .done (taken.reverse, .quote, s)
  else if c == '"' then return .done (taken.reverse, .quote, s)
  else if c != '\\' then return .again (s.skip 1) (c :: taken)
  else if s.breakAt 1 then return .done (taken.reverse, .joinedLine, (s.skip 1).takeBreak.2)
  else
    let (d, s') ← takeEscape s
    return .again s' (d :: taken)

/-- The characters of a quoted scalar up to the closing quote or the next gap. -/
def quotedWord (single : Bool) (s : Source) : Option (List Char × QuotedEnd × Source) :=
  s.scan (quotedWordStep single) []

/-- Reads a word of a quoted scalar and the gap after it. A line break after a backslash joins the
lines without a blank. -/
def quotedStep (single : Bool) (s : Source) (text : List Char) :
    Option (Turn (List Char) (List Char × Source)) :=
  if s.atDocumentMarker then none
  else do
    let (word, stop, s₁) ← quotedWord single s
    let text := text ++ word
    match stop with
    | .quote => return .done (text, s₁.skip 1)
    | .gap =>
        let (gap, s₂) ← takeGap (fun _ => true) s₁ {}
        return .again s₂ (text ++ gap.join)
    | .joinedLine =>
        let (gap, s₂) ← takeGap (fun _ => true) s₁ { broken := true }
        return .again s₂ (text ++ gap.more)

/-- Reads a quoted scalar after its opening quote. -/
def takeQuoted (single : Bool) (s : Source) : Option (List Char × Source) :=
  s.scan (quotedStep single) []

/-- What happens to the line breaks at the end of a block scalar. -/
inductive Chomp where
  | strip
  | clip
  | keep

/-- The indicators after `|` or `>`: how to chomp, and the indentation if it is given. -/
def takeBlockHeader (s : Source) : Option (Chomp × Nat × Source) := do
  let chomp (s : Source) : Option (Chomp × Source) :=
    if s.isAt 0 '+' then some (.keep, s.skip 1)
    else if s.isAt 0 '-' then some (.strip, s.skip 1)
    else none
  let digit (s : Source) : Option (Option (Nat × Source)) :=
    match s.peek? 0 with
    | some c =>
        if c == '0' then none
        else if c.isDigit then some (some (c.toNat - '0'.toNat, s.skip 1))
        else some none
    | none => some none
  let (chomping, increment, s) ← match chomp s with
    | some (c, s) => do
        match ← digit s with
        | some (n, s) => pure (c, n, s)
        | none => pure (c, 0, s)
    | none => do
        match ← digit s with
        | some (n, s) =>
            match chomp s with
            | some (c, s) => pure (c, n, s)
            | none => pure (.clip, n, s)
        | none => pure (.clip, 0, s)
  let s := s.skipSpaces.skipComment
  guard (s.lineEndsAt 0)
  return (chomping, increment, s.takeBreak.2)

/-- Skips the blanks of an indentation. Indentation zero is not known yet and takes all. -/
def skipIndent (indent : Nat) (s : Source) : Source :=
  let n := (s.rest.takeWhile (· == ' ')).length
  s.skip (if indent = 0 then n else min n (indent - s.column))

def emptyLineStep (indent : Nat) (s : Source) (state : Nat × List Char) :
    Option (Turn (Nat × List Char) (Nat × List Char × Source)) :=
  let (widest, breaks) := state
  let s₁ := skipIndent indent s
  let widest := max widest s₁.column
  if (indent = 0 ∨ s₁.column < indent) ∧ s₁.isAt 0 '\t' then none
  else if s₁.breakAt 0 then
    let (text, s₂) := s₁.takeBreak
    some (.again s₂ (widest, breaks ++ text))
  else some (.done (widest, breaks, s₁))

/-- Reads empty lines and the indentation of the next line. The result is the greatest column that
was seen, the line breaks, and the source. A tab must not stand in an indentation. -/
def takeEmptyLines (indent : Nat) (s : Source) : Option (Nat × List Char × Source) :=
  s.scan (emptyLineStep indent) (0, [])

/-- A block scalar under way: its text, the break after the last line, and the breaks of the empty
lines that follow. -/
structure Block where
  text : List Char
  leading : List Char
  trailing : List Char
  leadingBlank : Bool

/-- The text before the next line of a block scalar. -/
def Block.joined (b : Block) (literal blank : Bool) : List Char :=
  if !literal && b.leading.head? == some '\n' && !b.leadingBlank && !blank then
    b.text ++ (if b.trailing.isEmpty then [' '] else []) ++ b.trailing
  else b.text ++ b.leading ++ b.trailing

def blockLineStep (literal : Bool) (indent : Nat) (s : Source) (b : Block) :
    Option (Turn Block (Block × Source)) :=
  if s.column = indent ∧ !s.atEnd then do
    let blank := s.spaceAt 0
    let (line, s₁) := s.takeWhile fun c => !isBreak c
    let (leading, s₂) := s₁.takeBreak
    let (_, trailing, s₃) ← takeEmptyLines indent s₂
    return .again s₃ ⟨b.joined literal blank ++ line, leading, trailing, blank⟩
  else some (.done (b, s))

/-- Reads a block scalar after its first indicator. `outer` is the indentation of the collection
around it, one less than the least column of its lines. -/
def takeBlock (literal : Bool) (outer : Int) (s : Source) : Option (List Char × Source) := do
  let (chomp, increment, s) ← takeBlockHeader s
  let given := if increment = 0 then 0 else (max outer 0).toNat + increment
  let (widest, trailing, s) ← takeEmptyLines given s
  let indent := if given = 0 then max widest (max (outer + 1) 1).toNat else given
  let (b, s) ← s.scan (blockLineStep literal indent) ⟨[], [], trailing, false⟩
  match chomp with
  | .strip => return (b.text, s)
  | .clip => return (b.text ++ b.leading, s)
  | .keep => return (b.text ++ b.leading ++ b.trailing, s)

end PathRules.Yaml.Folding
