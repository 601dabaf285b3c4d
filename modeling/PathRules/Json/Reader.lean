import PathRules.Json.Number

/-!
# Reading JSON

A text is read one character at a time. The reader collects the characters of a word or of a
string, hands each finished token to the grammar, and the grammar keeps the open containers on a
stack. Reading is strict: there are no comments and no trailing commas, escaped surrogates come in
pairs, control characters in strings are escaped, and containers nest less than 128 deep. Of
entries with equal keys the first gives the place and the last the value.
-/

namespace PathRules.Json

inductive Token where
  | openSeq
  | closeSeq
  | openMap
  | closeMap
  | colon
  | comma
  | scalar (s : Scalar)

/-- A container that is still open. An entry waits for the value of its key. -/
inductive Frame where
  | seq (before : List Value)
  | map (before : Entries Value)
  | entry (before : Entries Value) (key : String)

/-- What the grammar takes next. -/
inductive Want where
  | value
  | firstItem
  | key
  | firstKey
  | colon (key : String)
  | next
  | nothing (result : Value)

structure Grammar where
  frames : List Frame
  want : Want

namespace Grammar

def start : Grammar := ⟨[], .value⟩

/-- Containers nest less deep than this. -/
def depthBound : Nat := 128

/-- Puts a finished value into the innermost open container. -/
def deliver : List Frame → Value → Option Grammar
  | [], v => some ⟨[], .nothing v⟩
  | .seq xs :: fs, v => some ⟨.seq (v :: xs) :: fs, .next⟩
  | .entry es k :: fs, v => some ⟨.map (es.insert k v) :: fs, .next⟩
  | .map _ :: _, _ => none

def openFrame (g : Grammar) (f : Frame) (want : Want) : Option Grammar :=
  if g.frames.length + 1 < depthBound then some ⟨f :: g.frames, want⟩ else none

def close : List Frame → Token → Option Grammar
  | .seq xs :: fs, .closeSeq => deliver fs (.seq xs.reverse)
  | .map es :: fs, .closeMap => deliver fs (.map es)
  | _, _ => none

def takeValue (g : Grammar) : Token → Option Grammar
  | .scalar s => deliver g.frames (.scalar s)
  | .openSeq => g.openFrame (.seq []) .firstItem
  | .openMap => g.openFrame (.map []) .firstKey
  | _ => none

def takeKey (g : Grammar) : Token → Option Grammar
  | .scalar (.text k) => some { g with want := .colon k }
  | _ => none

/-- The grammar after one more token. -/
def push (g : Grammar) (t : Token) : Option Grammar :=
  match g.want with
  | .value => g.takeValue t
  | .firstItem =>
      match t with
      | .closeSeq => close g.frames t
      | _ => g.takeValue t
  | .key => g.takeKey t
  | .firstKey =>
      match t with
      | .closeMap => close g.frames t
      | _ => g.takeKey t
  | .colon k =>
      match t, g.frames with
      | .colon, .map es :: fs => some ⟨.entry es k :: fs, .value⟩
      | _, _ => none
  | .next =>
      match t, g.frames with
      | .comma, .seq _ :: _ => some { g with want := .value }
      | .comma, .map _ :: _ => some { g with want := .key }
      | _, _ => close g.frames t
  | .nothing _ => none

end Grammar

/-- What the reader is inside of. Collected characters are in reverse. -/
inductive Mode where
  | gap
  | word (taken : List Char)
  | text (taken : List Char)
  | escape (taken : List Char)
  | unicode (taken : List Char) (high : Option Nat) (value : Nat) (left : Nat)
  | afterHigh (taken : List Char) (high : Nat)
  | escapeAfterHigh (taken : List Char) (high : Nat)

structure Reader where
  mode : Mode
  grammar : Grammar

namespace Reader

def start : Reader := ⟨.gap, .start⟩

def isSpace (c : Char) : Bool :=
  c == ' ' || c == '\n' || c == '\r' || c == '\t'

/-- Characters of numbers and of the three words. -/
def isWordChar (c : Char) : Bool :=
  c.isAlphanum || c == '+' || c == '-' || c == '.'

/-- The scalar that a word spells. -/
def readWord? (cs : List Char) : Option Scalar :=
  if cs = ['n', 'u', 'l', 'l'] then some .null
  else if cs = ['t', 'r', 'u', 'e'] then some (.bool true)
  else if cs = ['f', 'a', 'l', 's', 'e'] then some (.bool false)
  else readNumber? cs

def push (g : Grammar) (t : Token) : Option Reader :=
  (g.push t).map (⟨.gap, ·⟩)

/-- A character outside of words and strings. -/
def stepGap (g : Grammar) (c : Char) : Option Reader :=
  if isSpace c then some ⟨.gap, g⟩
  else if c = '"' then some ⟨.text [], g⟩
  else if isWordChar c then some ⟨.word [c], g⟩
  else if c = '[' then push g .openSeq
  else if c = ']' then push g .closeSeq
  else if c = '\x7b' then push g .openMap
  else if c = '\x7d' then push g .closeMap
  else if c = ':' then push g .colon
  else if c = ',' then push g .comma
  else none

/-- The grammar after a finished word. -/
def endWord (g : Grammar) (taken : List Char) : Option Grammar := do
  g.push (.scalar (← readWord? taken.reverse))

def hexValue? (c : Char) : Option Nat :=
  if c.isDigit then some (c.toNat - '0'.toNat)
  else if 'a' ≤ c ∧ c ≤ 'f' then some (c.toNat - 'a'.toNat + 10)
  else if 'A' ≤ c ∧ c ≤ 'F' then some (c.toNat - 'A'.toNat + 10)
  else none

/-- The character that a one-letter escape stands for. -/
def simpleEscape? (c : Char) : Option Char :=
  match c with
  | '"' => some '"'
  | '\\' => some '\\'
  | '/' => some '/'
  | 'b' => some '\x08'
  | 'f' => some '\x0c'
  | 'n' => some '\n'
  | 'r' => some '\r'
  | 't' => some '\t'
  | _ => none

/-- The mode after a four-digit escape, alone or as the second of a pair of surrogates. -/
def endUnicode (taken : List Char) (high : Option Nat) (value : Nat) : Option Mode :=
  match high with
  | none =>
      if 0xD800 ≤ value ∧ value < 0xDC00 then some (.afterHigh taken value)
      else if 0xDC00 ≤ value ∧ value < 0xE000 then none
      else some (.text (Char.ofNat value :: taken))
  | some h =>
      if 0xDC00 ≤ value ∧ value < 0xE000 then
        some (.text (Char.ofNat (0x10000 + (h - 0xD800) * 0x400 + (value - 0xDC00)) :: taken))
      else none

/-- The reader after one more character. -/
def step (r : Reader) (c : Char) : Option Reader :=
  match r.mode with
  | .gap => stepGap r.grammar c
  | .word taken =>
      if isWordChar c then some { r with mode := .word (c :: taken) }
      else do stepGap (← endWord r.grammar taken) c
  | .text taken =>
      if c = '"' then push r.grammar (.scalar (.text (String.ofList taken.reverse)))
      else if c = '\\' then some { r with mode := .escape taken }
      else if c.toNat < 0x20 then none
      else some { r with mode := .text (c :: taken) }
  | .escape taken =>
      if c = 'u' then some { r with mode := .unicode taken none 0 4 }
      else (simpleEscape? c).map fun d => { r with mode := .text (d :: taken) }
  | .unicode taken high value left => do
      let value := value * 16 + (← hexValue? c)
      if left = 1 then return { r with mode := ← endUnicode taken high value }
      else return { r with mode := .unicode taken high value (left - 1) }
  | .afterHigh taken high =>
      if c = '\\' then some { r with mode := .escapeAfterHigh taken high } else none
  | .escapeAfterHigh taken high =>
      if c = 'u' then some { r with mode := .unicode taken (some high) 0 4 } else none

def result? (g : Grammar) : Option Value :=
  match g.want with
  | .nothing v => some v
  | _ => none

/-- The value that was read, if the text may end here. -/
def finish (r : Reader) : Option Value :=
  match r.mode with
  | .gap => result? r.grammar
  | .word taken => (endWord r.grammar taken).bind result?
  | _ => none

end Reader

/-- The value that a JSON text spells. -/
def read? (cs : List Char) : Option Value := do
  (← cs.foldlM Reader.step Reader.start).finish

end PathRules.Json
