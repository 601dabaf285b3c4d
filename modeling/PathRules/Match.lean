import PathRules.Path

/-!
# Finding matches

A match is a location with what was captured on the way. The search is a recursion over the
segments of the path: a step continues at each child that matches, and a recursive step does so at
each container it reaches, deeper levels first, recording the keys it walked as a splat.
-/

namespace PathRules

structure Match where
  keys : Address := []
  captures : List String := []
  /-- The keys walked by each recursive segment, with the number of the segment. -/
  splats : List (Nat × Address) := []
  deriving DecidableEq, Inhabited

namespace Match

/-- The capture of a number; the first has number one. -/
def capture? (m : Match) (n : Nat) : Option String :=
  if n = 0 then none else m.captures[n - 1]?

/-- The match of a child reached by a step. -/
def extend (m : Match) (key : Key) (captures : List String) : Match :=
  { m with keys := m.keys ++ [key], captures := m.captures ++ captures }

/-- The match of a node that a recursive segment walked to. -/
def walk (m : Match) (number : Nat) (walked : Address) : Match :=
  { m with keys := m.keys ++ walked, splats := m.splats ++ [(number, walked)] }

/-- The match one level up; the root has none. -/
def up? (m : Match) : Option Match :=
  if m.keys.isEmpty then none else some { m with keys := m.keys.dropLast }

end Match

namespace Path

variable {α : Type} [Tree α]

/-- The captures of a child that a step accepts. -/
def stepCaptures? (key : Matcher) (value : Option Matcher) (length : Option Nat)
    (k : Key) (child : α) : Option (List String) := do
  let captures ← key.matchKey? k length
  match value with
  | none => return captures
  | some m => return captures ++ (← m.matchValue? child)

/-- The children of a node that a step accepts, in order. -/
def hits (key : Matcher) (value : Option Matcher) (node : α) (found : Match) :
    List (Match × α) :=
  (Tree.children node).filterMap fun (k, child) =>
    (stepCaptures? key value (Tree.seqLength? node) k child).map fun captures =>
      (found.extend k captures, child)

/-- All matches of the segments from a node on. `number` is the number of the first segment. -/
def findFrom (root : α) : List Segment → Nat → α → Match → List Match
  | [], _, _, found => [found]
  | .parent :: rest, number, _, found =>
      match found.up? with
      | none => []
      | some up =>
          match Tree.lookup root up.keys with
          | none => []
          | some node => findFrom root rest (number + 1) node up
  | .step key value false :: rest, number, node, found =>
      (hits key value node found).flatMap fun (m, child) => findFrom root rest (number + 1) child m
  | .step key value true :: rest, number, node, found =>
      (Tree.reach node).flatMap fun (walked, n) =>
        (hits key value n (found.walk number walked)).flatMap fun (m, child) =>
          findFrom root rest (number + 1) child m

/-- All matches of a path in a tree. -/
def find (path : Path) (root : α) : List Match :=
  findFrom root path.segments 0 root {}

/-- Matches with the values they found. -/
def findValues (path : Path) (root : α) : List (Match × α) :=
  (path.find root).filterMap fun m => (Tree.lookup root m.keys).map (m, ·)

/-- Whether the path matches in the value, and every match holds the expected value. -/
def allEqual (path : Path) (value expected : Value) : Bool :=
  let found := path.findValues value
  !found.isEmpty && found.all fun (_, v) => v.same expected

end Path

end PathRules
