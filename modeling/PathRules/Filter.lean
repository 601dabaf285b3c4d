import PathRules.Plan

/-!
# Filters

A filter is a batch of rules given as text. A rule whose path does not compile is set aside with
its error, and the other rules still apply. Applying a filter uses its rules up.
-/

namespace PathRules

/-- A rule as it is given. -/
inductive Rule where
  | only (path : String)
  | ignore (path : String)
  | move (source target : String)
  | map (source target : String)
  deriving DecidableEq

namespace Rule

/-- Splits at the first `>` that is not escaped. The escapes stay in the text. -/
def splitMapping? : Bool → List Char → Option (List Char × List Char)
  | _, [] => none
  | escaped, c :: cs =>
      if c = '\\' ∧ escaped = false then
        (splitMapping? true cs).map fun (source, target) => (c :: source, target)
      else if c = '>' ∧ escaped = false then some ([], cs)
      else (splitMapping? false cs).map fun (source, target) => (c :: source, target)

def parseMapping (mapping : String) : Except PathError (String × String) :=
  match splitMapping? false mapping.toList with
  | some (source, target) => .ok (String.ofList source, String.ofList target)
  | none => .error (.malformed mapping mapping .noMapping)

def parseMove (mapping : String) : Except PathError Rule := do
  let (source, target) ← parseMapping mapping
  return move source target

def parseMap (mapping : String) : Except PathError Rule := do
  let (source, target) ← parseMapping mapping
  return map source target

/-- The path that the rule matches with. -/
def path : Rule → String
  | only p | ignore p => p
  | move source _ | map source _ => source

/-- Compiles the rule into a plan. -/
def addTo (rule : Rule) (plan : Plan) : Except PathError Plan :=
  match rule with
  | only p => plan.addSelect p
  | ignore p => plan.addDelete p
  | move source target => plan.addMove source target
  | map source target => plan.addMap source target

end Rule

structure Filter where
  plan : Plan := {}
  /-- The errors of the rules that were set aside, in the order in which they came. -/
  rejected : List PathError := []

namespace Filter

def isEmpty (f : Filter) : Bool :=
  f.plan.isEmpty

/-- Sets a rule aside that failed before it came here. -/
def reject (f : Filter) (e : PathError) : Filter :=
  { f with rejected := f.rejected ++ [e] }

def add (f : Filter) (rule : Rule) : Filter :=
  match rule.addTo f.plan with
  | .ok plan => { f with plan }
  | .error e => f.reject e

/-- Whether a rule would be added rather than set aside. -/
def accepts (f : Filter) (rule : Rule) : Bool :=
  (rule.addTo f.plan).isOk

/-- Adds a rule that was read from text, or sets it aside. -/
def addParsed (f : Filter) : Except PathError Rule → Filter
  | .ok rule => f.add rule
  | .error e => f.reject e

def ofRules (rules : List Rule) : Filter :=
  rules.foldl add {}

/-- Runs the rules, and the filter without them. -/
def apply (f : Filter) (body : Value) (keepIndices : Bool) :
    Except PathError Execution × Filter :=
  (f.plan.execute body keepIndices, { f with plan := {} })

end Filter

end PathRules
