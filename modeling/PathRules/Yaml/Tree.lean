import PathRules.Yaml.Token

/-!
# From YAML tokens to trees

The tree of a document still has anchors, aliases and tags in it. The reader takes tokens off the
front of a list. Every call spends one unit of a budget that is larger than any reading of the
tokens needs.
-/

namespace PathRules.Yaml

/-- An anchor and a resolved tag. -/
structure Marks where
  anchor : Option (List Char) := none
  tag : Option (List Char) := none

inductive Tree where
  | reference (name : List Char)
  | scalar (marks : Marks) (text : List Char) (plain : Bool)
  | seq (marks : Marks) (items : List Tree)
  | map (marks : Marks) (entries : List (Tree × Tree))
  deriving Inhabited

namespace Tree

/-- A node that is not there. -/
def missing (marks : Marks) : Tree := scalar marks [] true

/-- The prefixes that handles of tags stand for. -/
abbrev Handles := List (List Char × List Char)

def defaultHandles : Handles :=
  [(['!'], ['!']), (['!', '!'], "tag:yaml.org,2002:".toList)]

def resolveTag (handles : Handles) (handle suffix : List Char) : Option (List Char) :=
  if handle.isEmpty then some suffix else (handles.lookup handle).map (· ++ suffix)

/-- An anchor, at most one and with its name. -/
def takeAnchor : List Token → Option (List Char) × List Token
  | .anchor name :: ts => (some name, ts)
  | ts => (none, ts)

def takeTag (handles : Handles) : List Token → Option (Option (List Char) × List Token)
  | .tag handle suffix :: ts => (resolveTag handles handle suffix).map fun t => (some t, ts)
  | ts => some (none, ts)

/-- An anchor and a tag in either order. -/
def takeMarks (handles : Handles) (ts : List Token) : Option (Marks × List Token) := do
  match takeAnchor ts with
  | (some name, ts) => do
      let (tag, ts) ← takeTag handles ts
      return (⟨some name, tag⟩, ts)
  | (none, ts) => do
      let (tag, ts) ← takeTag handles ts
      match tag with
      | none => return ({}, ts)
      | some _ =>
          let (anchor, ts) := takeAnchor ts
          return (⟨anchor, tag⟩, ts)

/-- Whether the next token is one of a list, or there is none. -/
def nextIn (stops : List Token) : List Token → Bool
  | [] => false
  | t :: _ => stops.contains t

mutual

/-- Reads a node. A block sequence of a mapping may lack an indentation of its own. -/
def takeNode (handles : Handles) (block indentless : Bool) :
    Nat → List Token → Option (Tree × List Token)
  | 0, _ => none
  | _ + 1, .reference name :: ts => some (reference name, ts)
  | fuel + 1, ts => do
      let (marks, ts) ← takeMarks handles ts
      match ts with
      | .scalar text plain :: ts => return (scalar marks text plain, ts)
      | .flowSeqStart :: ts => takeFlowSeq handles marks true [] fuel ts
      | .flowMapStart :: ts => takeFlowMap handles marks true [] fuel ts
      | .blockEntry :: _ =>
          if indentless then takeIndentless handles marks [] fuel ts else missingNode marks ts
      | .blockSeqStart :: rest =>
          if block then takeBlockSeq handles marks [] fuel rest else missingNode marks ts
      | .blockMapStart :: rest =>
          if block then takeBlockMap handles marks [] fuel rest else missingNode marks ts
      | _ => missingNode marks ts

/-- A node without content needs an anchor or a tag. -/
def missingNode (marks : Marks) (ts : List Token) : Option (Tree × List Token) :=
  if marks.anchor.isSome || marks.tag.isSome then some (missing marks, ts) else none

/-- A node, or a missing one if one of the stops follows. -/
def takeOptional (handles : Handles) (block indentless : Bool) (stops : List Token) :
    Nat → List Token → Option (Tree × List Token)
  | 0, _ => none
  | fuel + 1, ts =>
      if nextIn stops ts then some (missing {}, ts)
      else takeNode handles block indentless fuel ts

def takeBlockSeq (handles : Handles) (marks : Marks) (taken : List Tree) :
    Nat → List Token → Option (Tree × List Token)
  | 0, _ => none
  | fuel + 1, .blockEntry :: ts => do
      let (item, ts) ← takeOptional handles true false [.blockEntry, .blockEnd] fuel ts
      takeBlockSeq handles marks (item :: taken) fuel ts
  | _ + 1, .blockEnd :: ts => some (seq marks taken.reverse, ts)
  | _ + 1, _ => none

def takeIndentless (handles : Handles) (marks : Marks) (taken : List Tree) :
    Nat → List Token → Option (Tree × List Token)
  | 0, _ => none
  | fuel + 1, .blockEntry :: ts => do
      let stops := [.blockEntry, .key, .value, .blockEnd]
      let (item, ts) ← takeOptional handles true false stops fuel ts
      takeIndentless handles marks (item :: taken) fuel ts
  | _ + 1, ts => some (seq marks taken.reverse, ts)

def takeBlockMap (handles : Handles) (marks : Marks) (taken : List (Tree × Tree)) :
    Nat → List Token → Option (Tree × List Token)
  | 0, _ => none
  | fuel + 1, .key :: ts => do
      let (key, ts) ← takeOptional handles true true [.key, .value, .blockEnd] fuel ts
      let (value, ts) ← takeBlockValue handles fuel ts
      takeBlockMap handles marks ((key, value) :: taken) fuel ts
  | _ + 1, .blockEnd :: ts => some (map marks taken.reverse, ts)
  | _ + 1, _ => none

def takeBlockValue (handles : Handles) : Nat → List Token → Option (Tree × List Token)
  | 0, _ => none
  | fuel + 1, .value :: ts => takeOptional handles true true [.key, .value, .blockEnd] fuel ts
  | _ + 1, ts => some (missing {}, ts)

def takeFlowSeq (handles : Handles) (marks : Marks) (first : Bool) (taken : List Tree) :
    Nat → List Token → Option (Tree × List Token)
  | 0, _ => none
  | _ + 1, .flowSeqEnd :: ts => some (seq marks taken.reverse, ts)
  | fuel + 1, ts => do
      let ts ← takeSeparator first ts
      match ts with
      | .flowSeqEnd :: ts => return (seq marks taken.reverse, ts)
      | .key :: ts =>
          let (pair, ts) ← takeFlowPair handles fuel ts
          takeFlowSeq handles marks false (pair :: taken) fuel ts
      | ts =>
          let (item, ts) ← takeNode handles false false fuel ts
          takeFlowSeq handles marks false (item :: taken) fuel ts

/-- The comma in front of every entry but the first. -/
def takeSeparator (first : Bool) (ts : List Token) : Option (List Token) :=
  if first then some ts
  else
    match ts with
    | .flowEntry :: ts => some ts
    | _ => none

/-- A mapping of one entry inside a flow sequence. Without a key the next token is passed over. -/
def takeFlowPair (handles : Handles) : Nat → List Token → Option (Tree × List Token)
  | 0, _ => none
  | fuel + 1, ts => do
      let (key, ts) ←
        if nextIn [.value, .flowEntry, .flowSeqEnd] ts then pure (missing {}, ts.tail)
        else takeNode handles false false fuel ts
      let (value, ts) ← takeFlowValue handles [.flowEntry, .flowSeqEnd] fuel ts
      return (map {} [(key, value)], ts)

def takeFlowValue (handles : Handles) (stops : List Token) :
    Nat → List Token → Option (Tree × List Token)
  | 0, _ => none
  | fuel + 1, .value :: ts => takeOptional handles false false stops fuel ts
  | _ + 1, ts => some (missing {}, ts)

def takeFlowMap (handles : Handles) (marks : Marks) (first : Bool) (taken : List (Tree × Tree)) :
    Nat → List Token → Option (Tree × List Token)
  | 0, _ => none
  | _ + 1, .flowMapEnd :: ts => some (map marks taken.reverse, ts)
  | fuel + 1, ts => do
      let ts ← takeSeparator first ts
      match ts with
      | .flowMapEnd :: ts => return (map marks taken.reverse, ts)
      | .key :: ts =>
          let (key, ts) ←
            takeOptional handles false false [.value, .flowEntry, .flowMapEnd] fuel ts
          let (value, ts) ← takeFlowValue handles [.flowEntry, .flowMapEnd] fuel ts
          takeFlowMap handles marks false ((key, value) :: taken) fuel ts
      | ts =>
          let (key, ts) ← takeNode handles false false fuel ts
          takeFlowMap handles marks false ((key, missing {}) :: taken) fuel ts

end

/-- The directives of a document: whether a version was given, and the handles. -/
structure Directives where
  versioned : Bool := false
  handles : Handles := []

/-- Reads directives. There is one version at most, 1.1 or 1.2, and no handle comes twice. -/
def takeDirectives : Directives → List Token → Option (Directives × List Token)
  | d, .directiveVersion major minor :: ts =>
      if d.versioned || major != 1 || (minor != 1 && minor != 2) then none
      else takeDirectives { d with versioned := true } ts
  | d, .directiveTag handle tagStart :: ts =>
      if (d.handles.lookup handle).isSome then none
      else takeDirectives { d with handles := d.handles ++ [(handle, tagStart)] } ts
  | d, ts => some (d, ts)

/-- The content of a document after its start was marked. -/
def takeContent (handles : Handles) (budget : Nat) (ts : List Token) :
    Option (Tree × List Token) :=
  match ts with
  | [] | .documentStart :: _ | .documentEnd :: _ | .directiveVersion .. :: _
  | .directiveTag .. :: _ => some (missing {}, ts)
  | ts => takeNode handles true false budget ts

/-- The first document. Without a mark at its start it has no directives. -/
def takeDocument (ts : List Token) : Option (Tree × List Token) := do
  let budget := 4 * ts.length + 8
  match ts with
  | .documentStart :: _ | .directiveVersion .. :: _ | .directiveTag .. :: _ =>
      let (d, ts) ← takeDirectives {} ts
      match ts with
      | .documentStart :: ts => takeContent (d.handles ++ defaultHandles) budget ts
      | _ => none
  | ts => takeNode defaultHandles true false budget ts

/-- The only document of a text; an empty text has a missing one. -/
def ofTokens? (ts : List Token) : Option Tree :=
  if ts.isEmpty then some (missing {})
  else do
    let (t, rest) ← takeDocument ts
    guard (rest.all (· == .documentEnd))
    return t

end Tree

end PathRules.Yaml
