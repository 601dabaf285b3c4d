import PathRules.Proofs.MatchStrides

/-!
# Reading the body and the working tree

A plan runs on a working tree that is made from the body, and a caller looks for the matches of a
path in the body itself. Both trees are read alike, so both searches end with the same matches. A
path that finds nothing changes nothing, and as long as nothing was changed the working tree is
still the one made from the body: a plan without selects all of whose paths find nothing there gives
the body back. For the same reason the first path that a plan follows needs no search: the plan
could be given what a caller is told that the path finds.
-/

namespace PathRules

/-- What a caller is told of a path lacks none of its matches. -/
theorem Path.map_fst_findValues {body : Value} (hbody : body.WellFormed) (path : Path) :
    (path.findValues body).map Prod.fst = path.find body :=
  map_fst_findValues_of_faithful hbody.faithful path

namespace Plan

section Silent

variable {root : Node} {r : Relocating}

theorem runDelete_silent {paths : List Path} (h : ∀ path ∈ paths, path.find root = []) :
    runDelete root paths = root := by
  induction paths with
  | nil => rfl
  | cons path paths ih =>
      obtain ⟨hpath, hpaths⟩ := List.forall_mem_cons.mp h
      have hstep : deletePath root path = root := by rw [deletePath, hpath, List.foldl_nil]
      rw [runDelete, List.foldl_cons, hstep]
      exact ih hpaths

theorem Relocating.apply_silent (removeSources : Bool) {rule : Relocation}
    (h : rule.path.find r.root = []) : r.apply removeSources rule = r := by
  simp [apply, h, transfers]

theorem relocate_silent (removeSources : Bool) {rules : List Relocation}
    (h : ∀ rule ∈ rules, rule.path.find root = []) :
    relocate removeSources root rules = (root, []) := by
  have hrules : rules.foldl (Relocating.apply removeSources) ⟨root, [], []⟩ = ⟨root, [], []⟩ := by
    induction rules with
    | nil => rfl
    | cons rule rules ih =>
        obtain ⟨hrule, hrules⟩ := List.forall_mem_cons.mp h
        rw [List.foldl_cons, Relocating.apply_silent removeSources hrule]
        exact ih hrules
  rw [relocate, hrules]

end Silent

/-- The paths of a plan that change what they match. -/
def changing (p : Plan) : List Path :=
  p.delete ++ (p.move ++ p.map).map Relocation.path

theorem runOn_silent {p : Plan} {root : Node} (hselect : p.select = [])
    (h : ∀ path ∈ p.changing, path.find root = []) : p.runOn root = (root, []) := by
  have hdelete : runDelete (p.selected root) p.delete = root := by
    rw [selected, hselect]
    exact runDelete_silent fun path hpath => h path (List.mem_append_left _ hpath)
  have hrules : ∀ rule ∈ p.move ++ p.map, rule.path.find root = [] := fun rule hrule =>
    h rule.path (List.mem_append_right _ (List.mem_map_of_mem hrule))
  have hmove : relocate true root p.move = (root, []) :=
    relocate_silent true fun rule hrule => hrules rule (List.mem_append_left _ hrule)
  have hmap : relocate false root p.map = (root, []) :=
    relocate_silent false fun rule hrule => hrules rule (List.mem_append_right _ hrule)
  simp only [runOn, hdelete, hmove, hmap, List.append_nil]

/-- What is found by a path, with the values. -/
abbrev Found := List (Match × Value)

namespace Found

variable (found : Found)

/-- Copies what was found. -/
def copy (input result : Node) : Node :=
  found.foldl (fun result f => input.copyInto result f.1.keys) result

/-- Removes what was found. -/
def delete (root : Node) : Node :=
  found.foldl (fun root f => root.remove f.1.keys) root

/-- The transfers of what was found, with the values that were found. -/
def transfers (rule : Relocation) : List Transfer :=
  found.filterMap fun (m, v) =>
    let dest := (rule.template.destination m).1
    if dest.isEmpty then none else some ⟨m.keys, dest, .ofValue v⟩

/-- Runs a rule on what was found for its path. -/
def relocate (removeSources : Bool) (root : Node) (rule : Relocation) : Relocating :=
  let pending := found.transfers rule
  let root := if removeSources then pending.foldl (fun root t => root.remove t.source) root
    else root
  pending.foldl Relocating.assign
    ⟨root, [], found.flatMap fun f => (rule.template.destination f.1).2⟩

end Found

/-- A run in which the first path of the first pass that has one is not searched: the plan gets
what a caller is told that the path finds in the body. -/
def runTold (p : Plan) (body : Value) : Node × List PathError :=
  let root := Node.ofValue body
  match p with
  | ⟨path :: paths, delete, move, map⟩ =>
      let copied := Found.copy (path.findValues body) root root.emptyLike
      let kept := paths.foldl (fun result path =>
        (path.find root).foldl (fun result m => root.copyInto result m.keys) result) copied
      runOn ⟨[], delete, move, map⟩ kept
  | ⟨[], path :: paths, move, map⟩ =>
      runOn ⟨[], paths, move, map⟩ (Found.delete (path.findValues body) root)
  | ⟨[], [], rule :: rules, map⟩ =>
      let r := rules.foldl (Relocating.apply true)
        (Found.relocate (rule.path.findValues body) true root rule)
      let (root, mapped) := relocate false r.root map
      (root, r.diagnostics ++ mapped)
  | ⟨[], [], [], rule :: rules⟩ =>
      let r := rules.foldl (Relocating.apply false)
        (Found.relocate (rule.path.findValues body) false root rule)
      (r.root, r.diagnostics)
  | ⟨[], [], [], []⟩ => (root, [])

theorem transfers_find (body : Value) (rule : Relocation) :
    Relocating.transfers (.ofValue body) rule (rule.path.find body) =
      Found.transfers (rule.path.findValues body) rule := by
  rw [Relocating.transfers, Found.transfers, Path.findValues, List.filterMap_filterMap]
  refine List.filterMap_congr fun m _ => ?_
  rw [Node.lookup_ofValue]
  cases Tree.lookup body m.keys <;> simp

theorem apply_find {body : Value} (hbody : body.WellFormed) (removeSources : Bool)
    (rule : Relocation) :
    Relocating.apply removeSources ⟨.ofValue body, [], []⟩ rule =
      Found.relocate (rule.path.findValues body) removeSources (.ofValue body) rule := by
  have hreports : (rule.path.find body).flatMap (fun m => (rule.template.destination m).2) =
      (rule.path.findValues body).flatMap fun f => (rule.template.destination f.1).2 := by
    rw [← Path.map_fst_findValues hbody, List.flatMap_map]
  simp only [Relocating.apply, Path.find_ofValue, transfers_find, hreports, List.nil_append,
    Found.relocate]

theorem runOn_eq_runTold {body : Value} (hbody : body.WellFormed) (p : Plan) :
    p.runOn (.ofValue body) = p.runTold body := by
  match p with
  | ⟨path :: paths, delete, move, map⟩ =>
      have hcopy : ∀ result : Node,
          (path.find (Node.ofValue body)).foldl
              (fun result m => (Node.ofValue body).copyInto result m.keys) result =
            Found.copy (path.findValues body) (.ofValue body) result := by
        intro result
        rw [Path.find_ofValue, ← Path.map_fst_findValues hbody, List.foldl_map]
        rfl
      simp only [runOn, selected, runSelect, List.foldl_cons, hcopy]
      rfl
  | ⟨[], path :: paths, move, map⟩ =>
      have hdelete : deletePath (.ofValue body) path =
          Found.delete (path.findValues body) (.ofValue body) := by
        rw [deletePath, Path.find_ofValue, ← Path.map_fst_findValues hbody, List.foldl_map]
        rfl
      rw [runTold, ← hdelete]
      rfl
  | ⟨[], [], rule :: rules, map⟩ =>
      rw [runTold, ← apply_find hbody]
      rfl
  | ⟨[], [], [], rule :: rules⟩ =>
      rw [runTold, ← apply_find hbody]
      rfl
  | ⟨[], [], [], []⟩ => rfl

/-- The working tree of a body turns back into the body, and paths find the same in both. So a plan
without selects whose paths find nothing gives the body back, and any plan can be told what its
first path finds in the body. -/
theorem execute_reading (body : Value) :
    (∀ keepIndices, (Node.ofValue body).toValue keepIndices = body) ∧
      (∀ path : Path, path.find (Node.ofValue body) = path.find body) ∧
      (∀ (p : Plan) keepIndices, body.isContainer → p.select = [] →
        (∀ path ∈ p.changing, path.find body = []) →
          p.execute body keepIndices = .ok ⟨body, []⟩) ∧
      (body.WellFormed →
        (∀ path : Path, (path.findValues body).map Prod.fst = path.find body) ∧
          ∀ (p : Plan) keepIndices, body.isContainer →
            p.execute body keepIndices =
              .ok ⟨(p.runTold body).1.toValue keepIndices, (p.runTold body).2⟩) := by
  refine ⟨fun keepIndices => Node.toValue_ofValue keepIndices body,
    fun path => path.find_ofValue body, ?_, fun hbody => ⟨Path.map_fst_findValues hbody, ?_⟩⟩
  · intro p keepIndices hcontainer hselect hsilent
    have hrun : p.runOn (.ofValue body) = (.ofValue body, []) :=
      runOn_silent hselect fun path hpath => (path.find_ofValue body).trans (hsilent path hpath)
    simp only [execute, hcontainer, if_true, hrun, Node.toValue_ofValue]
  · intro p keepIndices hcontainer
    rw [execute, if_pos hcontainer, runOn_eq_runTold hbody]

/-- A list inside of a map inside of a map. -/
def nestedList : Value :=
  .map [("a", .map [("b", .seq [.scalar (.int 1), .scalar (.int 2)])])]

/-- Any entry, with the text of its value. -/
def anyEntry : Path :=
  ⟨"*=*", [.step .any (some .any) false], {}⟩

def missingEntry : Path :=
  ⟨"z", [.step (.literal "z") none false], {}⟩

/-- Gives every entry a copy under the text of its value. -/
def textsAsNames : Plan :=
  { map := [⟨anyEntry, Template.parse "%2"⟩] }

theorem execute_reading_nestedList :
    nestedList.WellFormed ∧ (Node.ofValue nestedList).toValue true = nestedList ∧
      anyEntry.find (Node.ofValue nestedList) =
        [⟨[.name "a"], ["a", "\x7b\"b\":[1,2]\x7d"], []⟩] ∧
      Plan.execute { delete := [missingEntry] } nestedList false = .ok ⟨nestedList, []⟩ ∧
      textsAsNames.execute nestedList false =
        .ok ⟨.map [
          ("a", .map [("b", .seq [.scalar (.int 1), .scalar (.int 2)])]),
          ("\x7b\"b\":[1,2]\x7d", .map [("b", .seq [.scalar (.int 1), .scalar (.int 2)])])],
          []⟩ := by
  have hbody : nestedList.WellFormed := by simp [nestedList, Entries.keys]
  obtain ⟨hback, hfind, hsilent, htold⟩ := execute_reading nestedList
  have hmissing : missingEntry.find nestedList = [] := rfl
  refine ⟨hbody, hback true, (hfind anyEntry).trans rfl, ?_, ?_⟩
  · exact hsilent _ false rfl rfl (by simpa [changing] using hmissing)
  · exact ((htold hbody).2 textsAsNames false rfl).trans rfl

end Plan

end PathRules
