import PathRules.Node
import PathRules.Path.Compile
import PathRules.Template

/-!
# Plans

A plan holds the paths to select, to delete, to move and to map, and runs them in this order, each
pass on what the one before has left. Selecting copies the matched locations and their ancestors.
Deleting removes matched locations. Moving and mapping write the values found at the matches of a
rule to the destinations that the template spells, and moving takes them from their sources first.
A destination that gets values from several sources becomes the sequence of them.
-/

namespace PathRules

structure Relocation where
  path : Path
  template : Template

structure Plan where
  select : List Path := []
  delete : List Path := []
  move : List Relocation := []
  map : List Relocation := []
  deriving Inhabited

/-- The outcome of a plan, with the references of templates that could not be resolved. -/
structure Execution where
  data : Value
  diagnostics : List PathError

namespace Plan

def isEmpty (p : Plan) : Bool :=
  p.select.isEmpty && p.delete.isEmpty && p.move.isEmpty && p.map.isEmpty

def addSelect (p : Plan) (path : String) : Except PathError Plan := do
  return { p with select := p.select ++ [← Path.compile path] }

def addDelete (p : Plan) (path : String) : Except PathError Plan := do
  return { p with delete := p.delete ++ [← Path.compile path] }

def addMove (p : Plan) (path template : String) : Except PathError Plan := do
  return { p with move := p.move ++ [⟨← Path.compile path, Template.parse template⟩] }

def addMap (p : Plan) (path template : String) : Except PathError Plan := do
  return { p with map := p.map ++ [⟨← Path.compile path, Template.parse template⟩] }

/-- Copies what the paths match into an empty container like the input. -/
def runSelect (input : Node) (paths : List Path) : Node :=
  paths.foldl (fun result path =>
    (path.find input).foldl (fun result m => input.copyInto result m.keys) result)
    input.emptyLike

/-- Removes what a path matches. All matches are found before the first is removed. -/
def deletePath (root : Node) (path : Path) : Node :=
  (path.find root).foldl (fun root m => root.remove m.keys) root

def runDelete (root : Node) (paths : List Path) : Node :=
  paths.foldl deletePath root

/-- The sources already written to each destination. -/
abbrev Assigned := List (Address × List Address)

namespace Assigned

def sources (assigned : Assigned) (dest : Address) : List Address :=
  (assigned.lookup dest).getD []

def add (assigned : Assigned) (dest source : Address) : Assigned :=
  (dest, assigned.sources dest ++ [source]) :: assigned

end Assigned

/-- A value on its way from a source to a destination. -/
structure Transfer where
  source : Address
  dest : Address
  value : Node

/-- The node at a destination after the given number of writes to it. The first write replaces
what is there, the second makes a pair, and later ones append to a sequence. -/
def merge (writes : Nat) (value slot : Node) : Node :=
  if writes = 1 then value
  else match slot with
    | .seq items => if 2 < writes then .seq (items ++ [value]) else .seq [slot, value]
    | _ => .seq [slot, value]

/-- A pass under way. -/
structure Relocating where
  root : Node
  assigned : Assigned
  diagnostics : List PathError

namespace Relocating

/-- Writes a value, unless the destination already has the one from this source. -/
def assign (r : Relocating) (t : Transfer) : Relocating :=
  if t.source ∈ r.assigned.sources t.dest then r else
    let assigned := r.assigned.add t.dest t.source
    { r with
      assigned
      root := r.root.alterAt (merge (assigned.sources t.dest).length t.value) t.dest }

/-- The transfers of a rule. Matches with an empty destination have none. -/
def transfers (root : Node) (rule : Relocation) (found : List Match) : List Transfer :=
  found.filterMap fun m =>
    let dest := (rule.template.destination m).1
    if dest.isEmpty then none
    else (Tree.lookup root m.keys).map fun value => ⟨m.keys, dest, value⟩

/-- Runs one rule. -/
def apply (removeSources : Bool) (r : Relocating) (rule : Relocation) : Relocating :=
  let found := rule.path.find r.root
  let pending := transfers r.root rule found
  let root := if removeSources then pending.foldl (fun root t => root.remove t.source) r.root
    else r.root
  let diagnostics := r.diagnostics ++ found.flatMap fun m => (rule.template.destination m).2
  pending.foldl assign { r with root, diagnostics }

end Relocating

/-- Runs the rules of a pass from left to right. -/
def relocate (removeSources : Bool) (root : Node) (rules : List Relocation) :
    Node × List PathError :=
  let r := rules.foldl (Relocating.apply removeSources) ⟨root, [], []⟩
  (r.root, r.diagnostics)

/-- The working tree after the select pass. Without paths everything is kept. -/
def selected (p : Plan) (root : Node) : Node :=
  if p.select.isEmpty then root else runSelect root p.select

/-- Runs the passes on a working tree. -/
def runOn (p : Plan) (root : Node) : Node × List PathError :=
  let root := runDelete (p.selected root) p.delete
  let (root, moved) := relocate true root p.move
  let (root, mapped) := relocate false root p.map
  (root, moved ++ mapped)

/-- Runs a plan on a value, which must not be a scalar. -/
def execute (p : Plan) (body : Value) (keepIndices : Bool) : Except PathError Execution :=
  if body.isContainer then
    let (root, diagnostics) := p.runOn (.ofValue body)
    .ok ⟨root.toValue keepIndices, diagnostics⟩
  else .error (.unsupportedRoot body.kind)

end Plan

end PathRules
