import PathRules.Yaml.Tree

/-!
# Anchors and aliases

An anchor gets the number of distinct names anchored before it, and an alias stands for the number
that its name has at that place. A name that is anchored again takes a number that another name may
get later; then the later anchor counts for both. An alias may stand inside the node it refers to,
so nodes are looked up by number and not copied.
-/

namespace PathRules.Yaml

/-- A tree whose aliases are numbers. -/
inductive Linked where
  | reference (number : Nat)
  | scalar (tag : Option (List Char)) (text : List Char) (plain : Bool)
  | seq (tag : Option (List Char)) (items : List Linked)
  | map (tag : Option (List Char)) (entries : List (Linked × Linked))
  deriving Inhabited

/-- The anchors met so far: the number of each name, the place of the node that a number stands
for, and the nodes by their places. Places count the anchored nodes in the order of the text. -/
structure Anchors where
  numbers : List (List Char × Nat) := []
  distinct : Nat := 0
  places : List (Nat × Nat) := []
  next : Nat := 0
  nodes : List (Nat × Linked) := []

namespace Anchors

/-- Gives a number to the name of an anchored node that starts here. -/
def define (a : Anchors) (name : List Char) : Anchors :=
  let fresh := (a.numbers.lookup name).isNone
  { a with
    numbers := (name, a.distinct) :: a.numbers
    distinct := if fresh then a.distinct + 1 else a.distinct
    places := (a.distinct, a.next) :: a.places
    next := a.next + 1 }

/-- The node that a number stands for. -/
def node? (a : Anchors) (number : Nat) : Option Linked :=
  (a.places.lookup number).bind fun place => a.nodes.lookup place

end Anchors

namespace Linked

/-- The anchors after the mark of a node, and the place of the node if it is anchored. -/
def enter (marks : Marks) (a : Anchors) : Anchors × Option Nat :=
  match marks.anchor with
  | none => (a, none)
  | some name => (a.define name, some a.next)

/-- Records a node at its place. -/
def leave (place : Option Nat) (t : Linked) (a : Anchors) : Linked × Anchors :=
  match place with
  | none => (t, a)
  | some p => (t, { a with nodes := (p, t) :: a.nodes })

mutual

/-- Replaces the names of aliases by numbers. An alias needs an anchor before it. -/
def ofTree (a : Anchors) : Tree → Option (Linked × Anchors)
  | .reference name => (a.numbers.lookup name).map fun n => (reference n, a)
  | .scalar marks text plain =>
      let (a, place) := enter marks a
      some (leave place (scalar marks.tag text plain) a)
  | .seq marks items => do
      let (a, place) := enter marks a
      let (items, a) ← ofItems a items
      return leave place (seq marks.tag items) a
  | .map marks entries => do
      let (a, place) := enter marks a
      let (entries, a) ← ofEntries a entries
      return leave place (map marks.tag entries) a

def ofItems (a : Anchors) : List Tree → Option (List Linked × Anchors)
  | [] => some ([], a)
  | t :: ts => do
      let (t, a) ← ofTree a t
      let (ts, a) ← ofItems a ts
      return (t :: ts, a)

def ofEntries (a : Anchors) : List (Tree × Tree) → Option (List (Linked × Linked) × Anchors)
  | [] => some ([], a)
  | (k, t) :: ts => do
      let (k, a) ← ofTree a k
      let (t, a) ← ofTree a t
      let (ts, a) ← ofEntries a ts
      return ((k, t) :: ts, a)

end

mutual

/-- The number of marks that the text of a tree consists of: one for a scalar or an alias, and two
for a collection besides its content. -/
def size : Linked → Nat
  | reference _ => 1
  | scalar .. => 1
  | seq _ items => sizeItems items + 2
  | map _ entries => sizeEntries entries + 2

def sizeItems : List Linked → Nat
  | [] => 0
  | t :: ts => size t + sizeItems ts

def sizeEntries : List (Linked × Linked) → Nat
  | [] => 0
  | (k, t) :: ts => size k + size t + sizeEntries ts

end

end Linked

end PathRules.Yaml
