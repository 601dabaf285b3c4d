import PathRules.Text.CaseFold

/-!
# Regular expressions of glob patterns

The expressions have single characters, runs of any characters, anchors, groups and alternatives,
and nothing else repeats. A match is searched from the first start to the last, and at one start
the first success counts: of two alternatives the left one, and of the runs the longest. Captures
are listed in the order in which their groups open; a group that takes no part captures nothing,
which reads as the empty text.
-/

namespace PathRules

inductive Regex where
  | empty
  | letter (c : Char) (anyCase : Bool)
  | anyChar (newline : Bool)
  | anyRun (newline : Bool)
  | textStart
  | textEnd
  | seq (a b : Regex)
  | alt (a b : Regex)
  | group (a : Regex)
  deriving DecidableEq, Inhabited

namespace Regex

/-- The number of groups that capture. -/
def groups : Regex → Nat
  | seq a b | alt a b => a.groups + b.groups
  | group a => a.groups + 1
  | _ => 0

/-- The captures of an expression that takes no part in a match. -/
def unset (r : Regex) : List String :=
  List.replicate r.groups ""

/-- The characters between a position and a later one, both given by what follows them. -/
def between (start stop : List Char) : List Char :=
  start.take (start.length - stop.length)

variable {β : Type}

/-- Tries the ends of a run, the longest run first. -/
def tryRun (newline : Bool) : List Char → (List Char → Option β) → Option β
  | [], k => k []
  | c :: cs, k =>
      if newline || c != '\n' then
        match tryRun newline cs k with
        | some r => some r
        | none => k (c :: cs)
      else k (c :: cs)

/-- Matches at the position before `cs` in a text of `length` characters. The continuation takes
the captures and what is left of the text, and may refuse them. -/
def tryAt (length : Nat) :
    Regex → List Char → (List String → List Char → Option β) → Option β
  | empty, cs, k => k [] cs
  | letter _ _, [], _ => none
  | letter c anyCase, d :: cs, k =>
      if c == d || (anyCase && Text.sameLetter c d) then k [] cs else none
  | anyChar _, [], _ => none
  | anyChar newline, d :: cs, k => if newline || d != '\n' then k [] cs else none
  | anyRun newline, cs, k => tryRun newline cs (k [])
  | textStart, cs, k => if cs.length = length then k [] cs else none
  | textEnd, cs, k => if cs.isEmpty then k [] cs else none
  | seq a b, cs, k => tryAt length a cs fun xs ds => tryAt length b ds fun ys es => k (xs ++ ys) es
  | alt a b, cs, k =>
      match tryAt length a cs fun xs ds => k (xs ++ b.unset) ds with
      | some r => some r
      | none => tryAt length b cs fun ys ds => k (a.unset ++ ys) ds
  | group a, cs, k =>
      tryAt length a cs fun xs ds => k (String.ofList (between cs ds) :: xs) ds

/-- A match: the matched text and the captures. -/
structure Hit where
  whole : List Char
  captures : List String
  deriving DecidableEq

def searchFrom (r : Regex) (length : Nat) : List Char → Option Hit
  | [] => tryAt length r [] fun xs _ => some ⟨[], xs⟩
  | c :: cs =>
      match tryAt length r (c :: cs) fun xs ds => some ⟨between (c :: cs) ds, xs⟩ with
      | some hit => some hit
      | none => searchFrom r length cs

/-- The first match in a text. -/
def search (r : Regex) (cs : List Char) : Option Hit :=
  r.searchFrom cs.length cs

end Regex

end PathRules
