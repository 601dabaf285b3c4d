/-!
# Blanks, comments and line breaks of TOML

Blanks are spaces and tabs. A line ends with a line feed, or with a carriage return and a line
feed. A comment runs to the end of its line and holds no control characters other than tabs.
-/

namespace PathRules.Toml

def isBlank (c : Char) : Bool :=
  c == ' ' || c == '\t'

/-- Characters of comments and of strings: tabs, and everything that is no control character. -/
def isPlain (c : Char) : Bool :=
  c == '\t' || (0x20 ≤ c.toNat && c.toNat != 0x7F)

def skipBlanks (cs : List Char) : List Char :=
  cs.dropWhile isBlank

/-- The text after a line break, if it starts with one. -/
def breakAt? : List Char → Option (List Char)
  | '\n' :: cs => some cs
  | '\r' :: '\n' :: cs => some cs
  | _ => none

/-- The text after a comment, or all of it where there is none. -/
def skipComment : List Char → List Char
  | '#' :: cs => cs.dropWhile isPlain
  | cs => cs

/-- The text after the rest of a line, on which only a comment may stand. -/
def endLine? (cs : List Char) : Option (List Char) :=
  match skipComment (skipBlanks cs) with
  | [] => some []
  | rest => breakAt? rest

/-- The text after blanks, comments and line breaks. The flag tells whether a comment is under way;
it may hold nothing but plain characters. -/
def skipIdle? : Bool → List Char → Option (List Char)
  | _, [] => some []
  | _, '\n' :: cs => skipIdle? false cs
  | _, '\r' :: '\n' :: cs => skipIdle? false cs
  | true, c :: cs => if isPlain c then skipIdle? true cs else none
  | false, c :: cs =>
      if isBlank c then skipIdle? false cs
      else if c == '#' then skipIdle? true cs
      else some (c :: cs)

end PathRules.Toml
