import PathRules.Toml.Item
import PathRules.Toml.Moment
import PathRules.Toml.Number
import PathRules.Toml.Quoted

/-!
# Reading TOML

A reader takes something off the front of a text and hands back the rest. Arrays and inline tables
may be nested up to a bound, and so may the parts of a key.
-/

namespace PathRules.Toml

abbrev Reader (α : Type) := List Char → Option (α × List Char)

/-- Containers that may stand inside each other, and parts that a key may have. -/
def nestingBound : Nat := 79

def isKeyChar (c : Char) : Bool :=
  c.isAlphanum || c == '_' || c == '-'

/-- One part of a key. -/
def readPart? : Reader String
  | '"' :: cs => (readBasic? cs).map fun (text, rest) => (String.ofList text, rest)
  | '\'' :: cs => (readLiteral? cs).map fun (text, rest) => (String.ofList text, rest)
  | cs =>
      let word := cs.takeWhile isKeyChar
      if word.isEmpty then none else some (String.ofList word, cs.dropWhile isKeyChar)

/-- The parts of a key, with the blanks around them. -/
def readParts? (cs : List Char) : Option (List String × List Char) := do
  let (part, rest) ← readPart? (skipBlanks cs)
  match skipBlanks rest with
  | '.' :: next =>
      if _h : next.length < cs.length then do
        let (parts, rest) ← readParts? next
        return (part :: parts, rest)
      else none
  | rest => return ([part], rest)
termination_by cs.length

def readKey? (cs : List Char) : Option (List String × List Char) :=
  (readParts? cs).filter fun (parts, _) => parts.length ≤ nestingBound

/-- The text after a character that has to come next. -/
def expect? (c : Char) : List Char → Option (List Char)
  | d :: cs => if c = d then some cs else none
  | [] => none

/-- Characters of numbers, dates and words. -/
def isWordChar (c : Char) : Bool :=
  c.isAlphanum || c == '_' || c == '+' || c == '-' || c == '.' || c == ':'

/-- A word. A date may be followed by a blank and a time. -/
def takeWord (cs : List Char) : List Char × List Char :=
  let word := cs.takeWhile isWordChar
  match cs.dropWhile isWordChar with
  | ' ' :: c :: rest =>
      if isDate word && c.isDigit then
        (word ++ ' ' :: (c :: rest).takeWhile isWordChar, (c :: rest).dropWhile isWordChar)
      else (word, ' ' :: c :: rest)
  | rest => (word, rest)

/-- What a word stands for. -/
def wordItem? (word : List Char) : Option Item :=
  if word = "true".toList then some (.boolean true)
  else if word = "false".toList then some (.boolean false)
  else if isMoment word then some (.moment (String.ofList word))
  else match readFloat? word with
    | some x => some (.float x)
    | none => (readInteger? word).map .integer

/-- The items of an array after its opening bracket. -/
def readItems? (read : Reader Item) (cs : List Char) : Option (List Item × List Char) :=
  (skipIdle? false cs).bind fun start =>
    match start with
    | ']' :: rest => some ([], rest)
    | start => do
        let (item, rest) ← read start
        match ← skipIdle? false rest with
        | ']' :: rest => return ([item], rest)
        | ',' :: next =>
            if _h : next.length < cs.length then do
              let (items, rest) ← readItems? read next
              return (item :: items, rest)
            else none
        | _ => none
termination_by cs.length

/-- A key, an equals sign and a value. -/
def readPair? (read : Reader Item) (cs : List Char) :
    Option ((List String × Item) × List Char) := do
  let (key, rest) ← readKey? cs
  let (item, rest) ← read (skipBlanks (← expect? '=' rest))
  return ((key, item), rest)

/-- Adds a pair to a table. -/
def addPair? (fields : Fields) (key : List String) (item : Item) : Option Fields :=
  key.getLast?.bind fun last => fields.addDotted? true key.dropLast last item

/-- The pairs of an inline table after its opening brace; there is at least one. -/
def readPairs? (read : Reader Item) (fields : Fields) (cs : List Char) :
    Option (Fields × List Char) := do
  let ((key, item), rest) ← readPair? read cs
  let fields ← addPair? fields key item
  match skipBlanks rest with
  | '\x7d' :: rest => return (fields, rest)
  | ',' :: next => if _h : next.length < cs.length then readPairs? read fields next else none
  | _ => none
termination_by cs.length

def readInline? (read : Reader Item) (cs : List Char) : Option (Fields × List Char) :=
  match skipBlanks cs with
  | '\x7d' :: rest => some ([], rest)
  | rest => readPairs? read [] rest

/-- A value. `inner` reads the values inside a container, if there may be one. -/
def readValueWith? (inner : Option (Reader Item)) : Reader Item
  | '[' :: cs => inner.bind fun read =>
      (readItems? read cs).map fun (items, rest) => (.array items, rest)
  | '\x7b' :: cs => inner.bind fun read =>
      (readInline? read cs).map fun (fields, rest) => (.table .inline fields, rest)
  | c :: cs =>
      if c = '"' ∨ c = '\'' then
        (readString? (c :: cs)).map fun (text, rest) => (.text (String.ofList text), rest)
      else
        let (word, rest) := takeWord (c :: cs)
        (wordItem? word).map fun item => (item, rest)
  | [] => none

/-- A value with containers nested up to a depth. -/
def readValue? : Nat → Reader Item
  | 0 => readValueWith? none
  | depth + 1 => readValueWith? (some (readValue? depth))

/-- A document under way: the table of the document, and the path of the last header. -/
structure Document where
  fields : Fields := []
  header : List String := []

namespace Document

/-- Adds a pair to the table of the last header. -/
def addPair? (d : Document) (key : List String) (item : Item) : Option Document :=
  (d.fields.alterAt? (fun fields => Toml.addPair? fields key item) d.header).map fun fields =>
    { d with fields }

/-- Goes on in the table of a header. -/
def startTable? (d : Document) (key : List String) (double : Bool) : Option Document := do
  let last ← key.getLast?
  let start := if double then Fields.openNext? last else Fields.openTable? last
  let fields ← d.fields.alterAt? start key.dropLast
  return ⟨fields, key⟩

end Document

/-- The key of a header, after its opening bracket or brackets. -/
def readHeader? (double : Bool) (cs : List Char) : Option (List String × List Char) := do
  let (key, rest) ← readKey? cs
  let rest ← expect? ']' rest
  return (key, ← if double then expect? ']' rest else some rest)

/-- What stands at the start of a line, and the text after it. -/
def readStatement? (d : Document) (cs : List Char) : Option (Document × List Char) :=
  match cs with
  | '[' :: '[' :: cs => do
      let (key, rest) ← readHeader? true cs
      return (← d.startTable? key true, rest)
  | '[' :: cs => do
      let (key, rest) ← readHeader? false cs
      return (← d.startTable? key false, rest)
  | cs => do
      let ((key, item), rest) ← readPair? (readValue? nestingBound) cs
      return (← d.addPair? key item, rest)

/-- The lines of a document. -/
def readLines? (d : Document) (cs : List Char) : Option Document :=
  (skipIdle? false cs).bind fun start =>
    if start.isEmpty then some d
    else do
      let (d, rest) ← readStatement? d start
      let next ← endLine? rest
      if _h : next.length < cs.length then readLines? d next else none
termination_by cs.length

/-- The table of a document. A mark of the byte order in front is dropped. -/
def read? (cs : List Char) : Option Fields :=
  let cs := if cs.head? = some '\uFEFF' then cs.tail else cs
  (readLines? {} cs).map Document.fields

end PathRules.Toml
