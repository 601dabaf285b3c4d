import PathRules.Yaml.Anchors
import PathRules.Yaml.Layout
import PathRules.Yaml.Node

/-!
# Reading YAML

A text becomes tokens, the tokens a tree, and the tree a value with the aliases replaced by the
nodes they refer to. Collections nest at most 128 deep, which also ends an alias that refers to a
node around it. Aliases are followed at most a hundred times as often as the text has marks.
-/

namespace PathRules.Yaml.Node

/-- Collections nest at most this deep. -/
def depthBound : Nat := 128

/-- A reading that uses up aliases: its state is the number of them that may still be followed. -/
abbrev Read := StateT Nat Option

/-- The node that a tree stands for: the tree itself unless it is an alias. -/
def follow (anchors : Anchors) : Linked → Read Linked
  | .reference n => fun left =>
      if left = 0 then none else (anchors.node? n).map fun t => (t, left - 1)
  | t => pure t

/-- A tag that names a type of its own; its exclamation mark is left out. -/
def localTag? (tag : Option (List Char)) : Option (List Char) :=
  match tag with
  | some ('!' :: name) => some name
  | _ => none

/-- Puts the local tag of a node around its content. The tag must have a name. -/
def withTag (tag : Option (List Char)) (content : Node) : Option Node :=
  match localTag? tag with
  | none => some content
  | some [] => none
  | some name => some (tagged (String.ofList name) content)

/-- The value of a scalar. Under a local tag it has the type of its spelling. -/
def ofLinkedScalar (tag : Option (List Char)) (cs : List Char) (plain : Bool) : Option Node := do
  let coreTag := if (localTag? tag).isSome then none else tag
  withTag tag (← ofScalar? coreTag (String.ofList cs) plain)

/-- Reads the entries of a mapping with a reader for its nodes. A key must not come twice. -/
def entriesWith (read : Linked → Read Node) :
    List (Node × Node) → List (Linked × Linked) → Read (List (Node × Node))
  | taken, [] => pure taken.reverse
  | taken, (k, t) :: ts => do
      let key ← read k
      if taken.any fun e => e.1.same key then failure
      let value ← read t
      entriesWith read ((key, value) :: taken) ts

/-- The value of a tree with a number of levels to spare. -/
def ofLinked (anchors : Anchors) : Nat → Linked → Read Node
  | depth, t => do
      match ← follow anchors t with
      | .reference _ => failure
      | .scalar tag cs plain => (ofLinkedScalar tag cs plain : Option Node)
      | .seq tag items =>
          match depth with
          | 0 => failure
          | depth + 1 =>
              let items ← items.mapM (ofLinked anchors depth)
              (withTag tag (seq items) : Option Node)
      | .map tag entries =>
          match depth with
          | 0 => failure
          | depth + 1 =>
              let entries ← entriesWith (ofLinked anchors depth) [] entries
              (withTag tag (map entries) : Option Node)

/-- The value of a YAML text. -/
def read? (cs : List Char) : Option Node := do
  let tree ← Tree.ofTokens? (← Layout.tokens? cs)
  let (linked, anchors) ← Linked.ofTree {} tree
  let (node, _) ← ofLinked anchors depthBound linked (100 * linked.size)
  return node

end PathRules.Yaml.Node
