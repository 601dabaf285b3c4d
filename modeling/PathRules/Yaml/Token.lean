import PathRules.Yaml.Source

/-!
# Tokens of YAML

The tokens of anchors, tags and directives are read here, together with the type of all tokens.
-/

namespace PathRules.Yaml

inductive Token where
  | directiveVersion (major minor : Nat)
  | directiveTag (handle tagStart : List Char)
  | documentStart
  | documentEnd
  | blockSeqStart
  | blockMapStart
  | blockEnd
  | flowSeqStart
  | flowSeqEnd
  | flowMapStart
  | flowMapEnd
  | blockEntry
  | flowEntry
  | key
  | value
  | reference (name : List Char)
  | anchor (name : List Char)
  | tag (handle suffix : List Char)
  | scalar (text : List Char) (plain : Bool)
  deriving DecidableEq

namespace Token

/-- Characters that may follow the name of an anchor or an alias, apart from the end of a word. -/
def endsName (c : Char) : Bool :=
  c == '?' || c == ':' || c == ',' || c == ']' || c == '\x7d' || c == '%' || c == '@' || c == '\x60'

/-- The name of an anchor or an alias, after its indicator. -/
def takeName (s : Source) : Option (List Char × Source) :=
  let (name, s) := s.takeWhile isWordChar
  if name.isEmpty || !(s.wordEndsAt 0 || (s.peek? 0).any endsName) then none else some (name, s)

/-- The handle of a tag: an exclamation mark, and if a word and a second mark follow those too. -/
def takeHandle (directive : Bool) (s : Source) : Option (List Char × Source) :=
  if !s.isAt 0 '!' then none else
    let (word, s) := (s.skip 1).takeWhile isWordChar
    if s.isAt 0 '!' then some ('!' :: word ++ ['!'], s.skip 1)
    else if directive && !word.isEmpty then none
    else some ('!' :: word, s)

/-- Characters of the address of a tag, apart from the percent sign. -/
def isTagChar (brackets : Bool) (c : Char) : Bool :=
  isWordChar c || ";/?:@&=+$.!~*'()".toList.contains c ||
    (brackets && (c == ',' || c == '[' || c == ']'))

def hexDigit? (c : Char) : Option Nat :=
  if c.isDigit then some (c.toNat - '0'.toNat)
  else if 'a' ≤ c ∧ c ≤ 'f' then some (c.toNat - 'a'.toNat + 10)
  else if 'A' ≤ c ∧ c ≤ 'F' then some (c.toNat - 'A'.toNat + 10)
  else none

/-- A byte written as a percent sign and two digits. -/
def percentByte? (s : Source) : Option Nat := do
  guard (s.isAt 0 '%')
  return (← hexDigit? (← s.peek? 1)) * 16 + (← hexDigit? (← s.peek? 2))

/-- The number of bytes of a character that starts with a byte. -/
def sequenceLength? (b : Nat) : Option Nat :=
  if b < 0x80 then some 1
  else if 0xC0 ≤ b ∧ b < 0xE0 then some 2
  else if 0xE0 ≤ b ∧ b < 0xF0 then some 3
  else if 0xF0 ≤ b ∧ b < 0xF8 then some 4
  else none

/-- Reads the percent-encoded bytes of one character. -/
def takePercent (s : Source) : Option (List Char × Source) := do
  let n ← sequenceLength? (← percentByte? s)
  let bytes ← (List.range n).mapM fun i => percentByte? (s.skip (3 * i))
  let text ← String.fromUTF8? ⟨(bytes.map UInt8.ofNat).toArray⟩
  return (text.toList, s.skip (3 * n))

def addressStep (brackets : Bool) (s : Source) (taken : List Char) :
    Option (Source.Turn (List Char) (List Char × Source)) :=
  if s.isAt 0 '%' then (takePercent s).map fun (cs, s') => .again s' (taken ++ cs)
  else
    match s.peek? 0 with
    | some c =>
        if isTagChar brackets c then some (.again (s.skip 1) (taken ++ [c]))
        else some (.done (taken, s))
    | none => some (.done (taken, s))

/-- The address of a tag, after text that is known already. -/
def takeAddress (brackets : Bool) (s : Source) (known : List Char) : Option (List Char × Source) :=
  s.scan (addressStep brackets) known

/-- Whether a handle is a named one, or the secondary one. -/
def isNamedHandle (handle : List Char) : Bool :=
  2 ≤ handle.length && handle.getLast? == some '!'

/-- A tag: its handle and the rest of it. A tag that is given as a whole has an empty handle. -/
def takeTag (inFlow : Bool) (s : Source) : Option (Token × Source) := do
  let (t, s) ←
    if s.isAt 1 '<' then do
      let (suffix, s) ← takeAddress true (s.skip 2) []
      guard (!suffix.isEmpty && s.isAt 0 '>')
      pure (Token.tag [] suffix, s.skip 1)
    else do
      let (handle, s) ← takeHandle false s
      if isNamedHandle handle then
        let (suffix, s) ← takeAddress false s []
        guard (!suffix.isEmpty)
        pure (Token.tag handle suffix, s)
      else
        let (suffix, s) ← takeAddress false s handle.tail
        pure (if suffix.isEmpty then Token.tag [] ['!'] else Token.tag ['!'] suffix, s)
  guard (s.wordEndsAt 0 || (inFlow && s.isAt 0 ','))
  return (t, s)

def takeVersionNumber (s : Source) : Option (Nat × Source) :=
  let (digits, s) := s.takeWhile Char.isDigit
  if digits.isEmpty || 9 < digits.length then none
  else some (Nat.ofDigitChars 10 digits 0, s)

/-- A directive with the line it stands on. -/
def takeDirective (s : Source) : Option (Token × Source) := do
  let (name, s) := (s.skip 1).takeWhile isWordChar
  guard (!name.isEmpty && s.wordEndsAt 0)
  let s := s.skipSpaces
  let (t, s) ←
    if name = ['Y', 'A', 'M', 'L'] then do
      let (major, s) ← takeVersionNumber s
      guard (s.isAt 0 '.')
      let (minor, s) ← takeVersionNumber (s.skip 1)
      pure (directiveVersion major minor, s)
    else if name = ['T', 'A', 'G'] then do
      let (handle, s) ← takeHandle true s
      guard (s.spaceAt 0)
      let (tagStart, s) ← takeAddress true s.skipSpaces []
      guard (!tagStart.isEmpty && s.wordEndsAt 0)
      pure (directiveTag handle tagStart, s)
    else none
  let s := s.skipSpaces.skipComment
  guard (s.lineEndsAt 0)
  return (t, s.takeBreak.2)

end Token

end PathRules.Yaml
