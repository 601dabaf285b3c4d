import PathRules.CommandLine.Session
import PathRules.Proofs.WorkingTreeReading

/-!
# Rejected rules

A filter is filled call by call: a rule is added, or an error of a rule that could not even be read
is set aside. Two lists say what it holds then: the errors of the calls that failed, and the rules
of the others. The rules only matter through the passes of the plan: a pass gets the paths of the
rules of its kind, in the order of these rules among each other. So a call that fails leaves the
plan as it was, and rules of different kinds may change places. The program fills one filter from
its settings and arguments; apart from the messages and the exit code, a rule that was rejected does
not show in a run.
-/

namespace PathRules

/-- The kind of a rule: the pass that it belongs to. -/
inductive Rule.Pass where
  | select
  | delete
  | move
  | map
  deriving DecidableEq

namespace Rule

def pass : Rule → Pass
  | only _ => .select
  | ignore _ => .delete
  | move .. => .move
  | map .. => .map

/-- The template of a rule; selecting and deleting need none. -/
def target : Rule → String
  | only _ | ignore _ => ""
  | move _ target | map _ target => target

/-- The compiled path and the template of a rule. -/
def compiled? (rule : Rule) : Option Relocation :=
  (Path.compile rule.path).toOption.map fun path => ⟨path, Template.parse rule.target⟩

end Rule

/-- The plan of rules, pass by pass. -/
def Plan.arranged (rules : List Rule) : Plan :=
  let compiled pass := (rules.filter fun rule => rule.pass = pass).filterMap Rule.compiled?
  { select := (compiled .select).map Relocation.path
    delete := (compiled .delete).map Relocation.path
    move := compiled .move
    map := compiled .map }

namespace Rule

variable {rule : Rule} {path : Path}

/-- The plan with one more rule, whose path is compiled. -/
def extend (rule : Rule) (plan : Plan) (path : Path) : Plan :=
  match rule with
  | only _ => { plan with select := plan.select ++ [path] }
  | ignore _ => { plan with delete := plan.delete ++ [path] }
  | move _ target => { plan with move := plan.move ++ [⟨path, Template.parse target⟩] }
  | map _ target => { plan with map := plan.map ++ [⟨path, Template.parse target⟩] }

theorem addTo_eq (rule : Rule) (plan : Plan) :
    rule.addTo plan = (Path.compile rule.path).map (rule.extend plan) := by
  cases rule <;> rfl

theorem extend_arranged (h : Path.compile rule.path = .ok path) (rules : List Rule) :
    rule.extend (Plan.arranged rules) path = Plan.arranged (rules ++ [rule]) := by
  have hcompiled : rule.compiled? = some ⟨path, Template.parse rule.target⟩ := by
    rw [compiled?, h]
    rfl
  cases rule <;> simp [extend, Plan.arranged, pass, target, hcompiled, List.filter_append]

end Rule

namespace Filter

/-- A call that fills a filter: a rule to add, or an error to set aside. -/
abbrev Call := Except PathError Rule

namespace Call

/-- The error that a call is set aside with: the one it brings, or the one its path compiles to. -/
def error? : Call → Option PathError
  | .error e => some e
  | .ok rule =>
      match Path.compile rule.path with
      | .error e => some e
      | .ok _ => none

/-- The rule of a call that is not set aside. -/
def kept? : Call → Option Rule
  | .error _ => none
  | .ok rule =>
      match Path.compile rule.path with
      | .error _ => none
      | .ok _ => some rule

end Call

def ofCalls (calls : List Call) : Filter :=
  calls.foldl addParsed {}

/-- The rules that are left of some calls. -/
def kept (calls : List Call) : List Rule :=
  calls.filterMap Call.kept?

/-- One more call sets its error aside or adds its rule behind the others. -/
theorem addParsed_arranged (rules : List Rule) (errors : List PathError) (call : Call) :
    addParsed ⟨Plan.arranged rules, errors⟩ call =
      ⟨Plan.arranged (rules ++ call.kept?.toList), errors ++ call.error?.toList⟩ := by
  cases call with
  | error e => simp [addParsed, reject, Call.kept?, Call.error?]
  | ok rule =>
      cases hcompile : Path.compile rule.path with
      | error e =>
          have hadd : rule.addTo (Plan.arranged rules) = .error e := by
            rw [Rule.addTo_eq, hcompile]
            rfl
          simp [addParsed, add, hadd, reject, Call.kept?, Call.error?, hcompile]
      | ok path =>
          have hadd : rule.addTo (Plan.arranged rules) = .ok (Plan.arranged (rules ++ [rule])) := by
            rw [Rule.addTo_eq, hcompile, ← Rule.extend_arranged hcompile]
            rfl
          simp [addParsed, add, hadd, Call.kept?, Call.error?, hcompile]

theorem foldl_addParsed (calls : List Call) (rules : List Rule) (errors : List PathError) :
    calls.foldl addParsed ⟨Plan.arranged rules, errors⟩ =
      ⟨Plan.arranged (rules ++ kept calls), errors ++ calls.filterMap Call.error?⟩ := by
  induction calls generalizing rules errors with
  | nil => simp [kept]
  | cons call calls ih =>
      have hkept : kept (call :: calls) = call.kept?.toList ++ kept calls := by
        cases hcall : call.kept? <;> simp [kept, hcall]
      have herrors : (call :: calls).filterMap Call.error? =
          call.error?.toList ++ calls.filterMap Call.error? := by
        cases hcall : call.error? <;> simp [hcall]
      rw [List.foldl_cons, addParsed_arranged, ih, hkept, herrors, List.append_assoc,
        List.append_assoc]

/-- What a filter holds after some calls. -/
theorem ofCalls_eq (calls : List Call) :
    ofCalls calls = ⟨Plan.arranged (kept calls), calls.filterMap Call.error?⟩ :=
  foldl_addParsed calls [] []

theorem kept?_of_mem_kept {calls : List Call} {rule : Rule} (h : rule ∈ kept calls) :
    Call.kept? (.ok rule) = some rule := by
  obtain ⟨call, -, hcall⟩ := List.mem_filterMap.mp h
  cases call with
  | error e => cases hcall
  | ok rule' =>
      have heq : rule' = rule := by
        unfold Call.kept? at hcall
        dsimp only at hcall
        split at hcall <;> cases hcall
        rfl
      rwa [heq] at hcall

/-- The rules that are left are all added when they come alone. -/
theorem plan_ofRules_kept (calls : List Call) :
    (ofRules (kept calls)).plan = (ofCalls calls).plan := by
  have hcalls : ofRules (kept calls) = ofCalls ((kept calls).map .ok) := by
    rw [ofRules, ofCalls, List.foldl_map]
    rfl
  have hkept : kept ((kept calls).map .ok) = kept calls := by
    conv_lhs => rw [kept, List.filterMap_map]
    conv_rhs => rw [← List.filterMap_some (l := kept calls)]
    exact List.filterMap_congr fun rule hrule => kept?_of_mem_kept hrule
  rw [hcalls, ofCalls_eq, ofCalls_eq, hkept]

/-- Rules of different kinds may be given in any order. -/
theorem plan_ofCalls_congr {calls calls' : List Call}
    (h : ∀ pass, (kept calls).filter (fun rule => rule.pass = pass) =
      (kept calls').filter fun rule => rule.pass = pass) :
    (ofCalls calls).plan = (ofCalls calls').plan := by
  simp only [ofCalls_eq, Plan.arranged, h]

/-- A filter without rules gives bodies back. -/
theorem apply_apply (f : Filter) (body other : Value) (keepIndices keepIndices' : Bool)
    (hother : other.isContainer) :
    ((f.apply body keepIndices).2.apply other keepIndices').1 = .ok ⟨other, []⟩ := by
  have hrun : Plan.runOn {} (.ofValue other) = (.ofValue other, []) :=
    Plan.runOn_silent rfl fun path hpath => absurd hpath List.not_mem_nil
  simp only [apply, Plan.execute, hother, if_true, hrun, Node.toValue_ofValue]

end Filter

namespace CommandLine

open PathRules.Filter (Call ofCalls ofRules kept)

/-- What is seen of a run that got through: an error for each rule that was rejected, a code that
tells whether there was one, and what was printed. -/
def reported (calls : List Call) (execution : Execution) (printed : List Char) : Outcome :=
  let errors := calls.filterMap Call.error?
  ⟨if errors = [] then 0 else 2, printed,
    errors.map (fun e => errorLine e.message) ++
      execution.diagnostics.map fun e => warningLine e.message⟩

variable {args : List String} {w : Surroundings} {o : Options} {s : Settings} {body : Value}
  {execution : Execution}

/-- A run that has read everything goes on with the rules that are left. -/
theorem prepare_eq (hsettings : loadSettings o w = .ok s) (hbody : loadBody o s w = .ok body)
    (hexecution : ((ofRules (kept (rules s o))).apply body (o.keepIndices || s.keepIndices)).1 =
      .ok execution) :
    ∃ p, prepare o w = .ok p ∧ p.delivery = deliver o s execution.data ∧
      ∀ printed, p.done printed = reported (rules s o) execution printed := by
  have hread : prepare o w = process o s body := by
    simp [prepare, hsettings, hbody, bind, Except.bind, pure, Except.pure]
  have hrejected : (buildFilter s o).rejected = (rules s o).filterMap Call.error? :=
    congrArg Filter.rejected (Filter.ofCalls_eq (rules s o))
  have happly : ((buildFilter s o).apply body (o.keepIndices || s.keepIndices)).1 =
      .ok execution := by
    rw [← hexecution, Filter.apply, Filter.apply, Filter.plan_ofRules_kept]
    rfl
  let errors := (rules s o).filterMap Call.error?
  refine ⟨{
    messages := (reported (rules s o) execution []).messages
    incomplete := !errors.isEmpty
    delivery := deliver o s execution.data }, ?_, rfl, ?_⟩
  · rw [hread]
    simp only [process, happly, hrejected, List.isEmpty_map]
    rfl
  · intro printed
    have hcode : (if !errors.isEmpty then 2 else 0) = if errors = [] then 0 else 2 := by
      cases errors <;> rfl
    rw [Product.done, hcode]
    rfl

theorem run_eq (hargs : Request.ofArguments args = .run o)
    (hsettings : loadSettings o w = .ok s) (hbody : loadBody o s w = .ok body)
    (hexecution : ((ofRules (kept (rules s o))).apply body (o.keepIndices || s.keepIndices)).1 =
      .ok execution) :
    (o.target = none → run args w = (reported (rules s o) execution
      (render execution.data (o.format.getD s.format) (s.pretty && !o.compact)), w.files)) ∧
    ∀ name files, o.target = some name →
      w.files.save name execution.data (o.format.getD s.format) (s.pretty && !o.compact) =
        (files, .ok ()) →
      run args w = (reported (rules s o) execution [], files) := by
  obtain ⟨p, hp, hdelivery, hdone⟩ := prepare_eq hsettings hbody hexecution
  have hrun : run args w = p.finish w.files := by
    simp only [run, hargs, hp]
  constructor
  · intro htarget
    have hprint : p.delivery =
        .print (render execution.data (o.format.getD s.format) (s.pretty && !o.compact)) := by
      simp only [hdelivery, deliver, htarget]
    rw [hrun, Product.finish, hprint]
    simp only [hdone]
  · intro name files htarget hsave
    have hsteps : p.delivery = .save name
        (saveSteps name execution.data (o.format.getD s.format) (s.pretty && !o.compact)) := by
      simp only [hdelivery, deliver, htarget]
    rw [Directory.save] at hsave
    rw [hrun, Product.finish, hsteps]
    simp only [hsave, Product.saved, hdone]

end CommandLine

namespace Filter

/-- A rule that is rejected leaves nothing but its error. A filter lists the errors in the order of
the calls; it does what the other rules do, whatever stands between rules of different kinds; and
once applied it has no rules, with the errors still there. A run of the program that gets through
prints or saves what the other rules make of its input, and its code is two if a rule was
rejected. -/
theorem rejected_aside :
    (∀ calls, (ofCalls calls).rejected = calls.filterMap Call.error?) ∧
    (∀ calls body keepIndices, ((ofCalls calls).apply body keepIndices).1 =
      ((ofRules (kept calls)).apply body keepIndices).1) ∧
    (∀ calls calls', (∀ pass, (kept calls).filter (fun rule => rule.pass = pass) =
        (kept calls').filter fun rule => rule.pass = pass) →
      ∀ body keepIndices, ((ofCalls calls).apply body keepIndices).1 =
        ((ofCalls calls').apply body keepIndices).1) ∧
    (∀ (f : Filter) body keepIndices,
      (f.apply body keepIndices).2.isEmpty ∧ (f.apply body keepIndices).2.rejected = f.rejected ∧
      ∀ (other : Value) keepIndices', other.isContainer →
        ((f.apply body keepIndices).2.apply other keepIndices').1 = .ok ⟨other, []⟩) ∧
    ∀ args w o s body execution, CommandLine.Request.ofArguments args = .run o →
      CommandLine.loadSettings o w = .ok s → CommandLine.loadBody o s w = .ok body →
      ((ofRules (kept (CommandLine.rules s o))).apply body (o.keepIndices || s.keepIndices)).1 =
        .ok execution →
      (o.target = none → CommandLine.run args w =
        (CommandLine.reported (CommandLine.rules s o) execution
          (render execution.data (o.format.getD s.format) (s.pretty && !o.compact)), w.files)) ∧
      ∀ name files, o.target = some name →
        w.files.save name execution.data (o.format.getD s.format) (s.pretty && !o.compact) =
          (files, .ok ()) →
        CommandLine.run args w =
          (CommandLine.reported (CommandLine.rules s o) execution [], files) := by
  refine ⟨?_, ?_, ?_, ?_, ?_⟩
  · intro calls
    rw [ofCalls_eq]
  · intro calls body keepIndices
    rw [apply, apply, plan_ofRules_kept]
  · intro calls calls' h body keepIndices
    rw [apply, apply, plan_ofCalls_congr h]
  · intro f body keepIndices
    exact ⟨rfl, rfl, fun other keepIndices' => f.apply_apply body other keepIndices keepIndices'⟩
  · intro args w o s body execution hargs hsettings hbody hexecution
    exact CommandLine.run_eq hargs hsettings hbody hexecution

/-- A rule whose group is not closed, and one that is fine. -/
def unclosedOptions : CommandLine.Options :=
  { only := ["a("], ignore := ["b"] }

def twoEntries : Value :=
  .map [("a", .scalar (.int 1)), ("b", .scalar (.int 2))]

/-- The text of the entries in the standard input, and no files. -/
def pipedEntries : CommandLine.Surroundings :=
  ⟨{}, {}, some [123, 34, 97, 34, 58, 49, 44, 34, 98, 34, 58, 50, 125]⟩

def unclosedMessage : String :=
  "Error: Malformed path 'a(': invalid pattern (unclosed group) at 'a('"

theorem rejected_aside_unclosed :
    (ofCalls [.ok (.only "a("), .ok (.ignore "b"),
        .error (.malformed "c" "c" .noMapping)]).rejected =
      [.malformed "a(" "a(" .unclosedGroup, .malformed "c" "c" .noMapping] ∧
    ((ofCalls [.ok (.only "a"), .ok (.ignore "b")]).apply twoEntries false).1 =
      ((ofCalls [.ok (.ignore "b"), .ok (.only "a")]).apply twoEntries false).1 ∧
    (((ofRules [.ignore "b"]).apply .null false).2.apply twoEntries false).1 =
      .ok ⟨twoEntries, []⟩ ∧
    CommandLine.run ["-o", "a(", "-i", "b"] pipedEntries =
      (⟨2, "\x7b\n  \"a\": 1\n\x7d\n".toList, [unclosedMessage]⟩, {}) ∧
    CommandLine.run ["-o", "a(", "-i", "b", "-w", "out"] pipedEntries =
      (⟨2, [], [unclosedMessage]⟩,
        (Directory.save {} "out" (.map [("a", .scalar (.int 1))]) .json true).1) := by
  obtain ⟨hrejected, -, hcongr, hagain, hrun⟩ := rejected_aside
  refine ⟨(hrejected _).trans rfl, ?_, ?_, ?_, ?_⟩
  · exact hcongr _ _ (fun pass => by cases pass <;> rfl) twoEntries false
  · exact (hagain _ .null false).2.2 twoEntries false rfl
  · exact ((hrun ["-o", "a(", "-i", "b"] pipedEntries unclosedOptions {} twoEntries
      ⟨.map [("a", .scalar (.int 1))], []⟩ (by decide) rfl rfl rfl).1 rfl).trans rfl
  · exact ((hrun ["-o", "a(", "-i", "b", "-w", "out"] pipedEntries
      { unclosedOptions with target := some "out" } {} twoEntries
      ⟨.map [("a", .scalar (.int 1))], []⟩ (by decide) rfl rfl rfl).2 "out" _ rfl
        (Prod.ext rfl rfl)).trans rfl

end Filter

end PathRules
