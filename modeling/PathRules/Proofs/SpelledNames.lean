import PathRules.Proofs.FoundPlaces
import PathRules.Proofs.MoveAsMap
import PathRules.Proofs.PrintedPaths

/-!
# Names that are spelled out

Names that are escaped and joined by slashes are a path of literal steps, and a template that spells
one key for each name. The path leads to the node at the place with these names and to no other,
since siblings differ in their texts. The key of a template is a position if the name is a numeral,
and a position is found under its numeral. So what the template writes, the path finds, unless the
name has leading zeros that its position does not have.
-/

namespace PathRules

/-- The names with every character escaped and slashes between them. -/
def escapeNames (names : List String) : String :=
  "/".intercalate (names.map Token.escapeText)

theorem toList_escapeNames_singleton (s : String) :
    (escapeNames [s]).toList = s.toList.flatMap fun c => ['\\', c] := by
  simp [escapeNames, Token.escapeText]

theorem toList_escapeNames_cons_cons (s s' : String) (names : List String) :
    (escapeNames (s :: s' :: names)).toList =
      (s.toList.flatMap fun c => ['\\', c]) ++ '/' :: (escapeNames (s' :: names)).toList := by
  simp [escapeNames, String.toList_intercalate, Token.escapeText]

namespace Path

section Names

variable {names : List String}

def literalStep (s : String) : Segment :=
  .step (.literal s) none false

/-- Names that are spelled out are matched one after the other. -/
theorem compile_escapeNames (hnames : ∀ s ∈ names, s ≠ "") :
    Path.compile (escapeNames names) =
      .ok ⟨escapeNames names, names.map literalStep, {}⟩ := by
  have hprint : print (names.map literalStep) = escapeNames names := by
    simp [print, escapeNames, literalStep, Segment.print, Matcher.print, Function.comp_def]
  have hprintable : ∀ segment ∈ names.map literalStep, segment.Printable := by
    simpa [literalStep, Segment.Printable, Matcher.Printable] using hnames
  exact compile_eq_of_print hprint hprintable

end Names

section Literals

variable {node c v : Node} {names : List String}

/-- Only one child has the text of a literal step. -/
theorem hits_literal {k : Key} (hnode : node.WellFormed) (hmem : (k, c) ∈ node.children)
    (found : Match) : hits (.literal k.text) none node found = [(found.extend k [], c)] := by
  have hother : ∀ p ∈ node.children, p.1.text ≠ k.text →
      ((stepCaptures? (.literal k.text) none node.seqLength? p.1 p.2).map fun captures =>
        (found.extend p.1 captures, p.2)).toList = [] := by
    intro p _ hne
    simp [stepCaptures?, Matcher.matchKey?, Matcher.matchText?, Ne.symm hne]
  have honly := flatMap_eq_of_nodup_map hnode.nodup_texts hmem hother
  rw [hits, List.filterMap_eq_flatMap_toList]
  refine honly.trans ?_
  simp [stepCaptures?, Matcher.matchKey?, Matcher.matchText?]

theorem findFrom_place (root : Node) (hnode : node.WellFormed) {a : Address}
    (ha : Tree.At node a v) (number : Nat) (found : Match) :
    findFrom root (a.place.map literalStep) number node found =
      [{ found with keys := found.keys ++ a }] := by
  induction ha generalizing number found with
  | root node => simp [findFrom]
  | @child node c v k rest hmem _ ih =>
      rw [Address.place_cons, List.map_cons, literalStep, findFrom, hits_literal hnode hmem,
        List.flatMap_singleton]
      refine (ih (hnode.of_mem_children hmem) (number + 1) (found.extend k [])).trans ?_
      simp [Match.extend]

variable {data x : Value} {a : Address}

theorem findValues_place (path : Path) (hdata : data.WellFormed)
    (ha : Tree.At (Node.ofValue data) a (.ofValue x))
    (hpath : path.segments = a.place.map literalStep) :
    path.find data = [⟨a, [], []⟩] ∧ path.findValues data = [(⟨a, [], []⟩, x)] := by
  have hroot := Node.wellFormed_ofValue hdata
  have hone : path.find data = [⟨a, [], []⟩] := by
    rw [← find_ofValue, find, hpath, findFrom_place _ hroot ha]
    rfl
  have hlookup : Tree.lookup data a = some x := by
    have hsame := ha.lookup_eq hroot
    rw [Node.lookup_ofValue] at hsame
    obtain ⟨y, hy, heq⟩ := Option.map_eq_some_iff.mp hsame
    rw [hy, ← Node.toValue_ofValue true y, heq, Node.toValue_ofValue]
  refine ⟨hone, ?_⟩
  rw [findValues, hone]
  simp [hlookup]

/-- A path of literal steps finds the one node at the place that it spells. -/
theorem findValues_literals (path : Path) (hdata : data.WellFormed)
    (hpath : path.segments = names.map literalStep) (hseek : data.seek names = some x) :
    ∃ a : Address, a.place = names ∧ path.find data = [⟨a, [], []⟩] ∧
      path.findValues data = [(⟨a, [], []⟩, x)] := by
  have hnode : (Node.ofValue data).seek names = some (.ofValue x) := by
    rw [Node.seek_ofValue_eq_map, hseek, Option.map_some]
  obtain ⟨a, ha, rfl⟩ := Node.exists_at_of_seek (Node.wellFormed_ofValue hdata) hnode
  exact ⟨a, rfl, findValues_place path hdata ha hpath⟩

/-- The texts of its keys are a path to every location that has no empty names on the way. -/
theorem findValues_escapeNames (hdata : data.WellFormed) (ha : Tree.At data a x)
    (hnames : ∀ s, Key.name s ∈ a → s ≠ "") :
    ∃ path, Path.compile (escapeNames a.place) = .ok path ∧ path.flags = {} ∧
      path.find data = [⟨a, [], []⟩] ∧ path.findValues data = [(⟨a, [], []⟩, x)] := by
  have htexts : ∀ s ∈ a.place, s ≠ "" := by
    intro s hs
    obtain ⟨k, hk, rfl⟩ := List.mem_map.mp hs
    cases k with
    | name s => exact hnames s hk
    | index i => exact Numeral.natText_ne_empty i
  exact ⟨_, compile_escapeNames htexts, rfl, findValues_place _ hdata ha.ofValue rfl⟩

/-- Names that spell a recursive segment, a range and a part with separators. -/
def misleadingNames : Value :=
  .map [("**", .seq [.scalar .null, .map [("0..1", .map [("../=*//i", .scalar (.int 1))])]])]

theorem findValues_escapeNames_misleading :
    misleadingNames.WellFormed ∧
      Tree.At misleadingNames [.name "**", .index 1, .name "0..1", .name "../=*//i"]
        (.scalar (.int 1)) ∧
      (∀ s, Key.name s ∈ [Key.name "**", .index 1, .name "0..1", .name "../=*//i"] → s ≠ "") ∧
      ∃ path, Path.compile "\\*\\*/\\1/\\0\\.\\.\\1/\\.\\.\\/\\=\\*\\/\\/\\i" = .ok path ∧
        path.flags = {} ∧
        path.findValues misleadingNames =
          [(⟨[.name "**", .index 1, .name "0..1", .name "../=*//i"], [], []⟩,
            .scalar (.int 1))] := by
  have hdata : misleadingNames.WellFormed := by simp [misleadingNames, Entries.keys]
  have hat : Tree.At misleadingNames [.name "**", .index 1, .name "0..1", .name "../=*//i"]
      (.scalar (.int 1)) := by
    refine .child List.mem_cons_self (.child (List.mem_cons_self) ?_)
    exact .child List.mem_cons_self (.child List.mem_cons_self (.root _))
  have hnames : ∀ s, Key.name s ∈ [Key.name "**", .index 1, .name "0..1", .name "../=*//i"] →
      s ≠ "" := by
    simp
  have htext : escapeNames (Address.place [.name "**", .index 1, .name "0..1", .name "../=*//i"]) =
      "\\*\\*/\\1/\\0\\.\\.\\1/\\.\\.\\/\\=\\*\\/\\/\\i" := by
    decide
  obtain ⟨path, hcompile, hflags, -, hfound⟩ := findValues_escapeNames hdata hat hnames
  rw [htext] at hcompile
  exact ⟨hdata, hat, hnames, path, hcompile, hflags, hfound⟩

end Literals

end Path

namespace Template

def spelled (names : List String) : List Piece :=
  [.separator].intercalate (names.map fun s => [.text s.toList])

theorem spelled_singleton (s : String) : spelled [s] = [.text s.toList] :=
  List.intercalate_singleton

theorem spelled_cons_cons (s s' : String) (names : List String) :
    spelled (s :: s' :: names) = .text s.toList :: .separator :: spelled (s' :: names) := by
  simp [spelled, List.intercalate_cons_cons]

variable {names : List String}

theorem finish_escapeNames (hne : names ≠ []) (hnames : ∀ s ∈ names, s ≠ "") (ps : List Piece) :
    ((escapeNames names).toList.foldl Scan.step ⟨ps, [], .text⟩).finish =
      ps.reverse ++ spelled names := by
  induction names generalizing ps with
  | nil => exact absurd rfl hne
  | cons s names ih =>
      obtain ⟨hs, hrest⟩ := List.forall_mem_cons.mp hnames
      have hcs : s.toList ≠ [] := by simpa using hs
      cases names with
      | nil =>
          rw [toList_escapeNames_singleton, foldl_step_escape _ _ rfl, spelled_singleton]
          simp [Scan.finish, flush, hcs]
      | cons s' names =>
          have hslash : Scan.step ⟨ps, s.toList.reverse ++ [], .text⟩ '/' =
              ⟨.separator :: .text s.toList :: ps, [], .text⟩ := by
            simp [Scan.step, Scan.stepText, Scan.emit, flush, hcs]
          rw [toList_escapeNames_cons_cons, List.foldl_append, foldl_step_escape _ _ rfl,
            List.foldl_cons, hslash, ih (by simp) hrest, spelled_cons_cons]
          simp

theorem spelled_ne_nil (s : String) (names : List String) : spelled (s :: names) ≠ [] := by
  cases names with
  | nil => simp [spelled_singleton]
  | cons s' names => simp [spelled_cons_cons]

theorem getLast?_spelled (names : List String) :
    (spelled names).getLast? ≠ some .separator := by
  induction names with
  | nil => simp [spelled]
  | cons s names ih =>
      cases names with
      | nil => simp [spelled_singleton]
      | cons s' names =>
          have hne := spelled_ne_nil s' names
          rwa [spelled_cons_cons, List.getLast?_cons_of_ne_nil (by simp),
            List.getLast?_cons_of_ne_nil hne]

theorem trimSeparators_spelled (names : List String) :
    trimSeparators (spelled names) = spelled names := by
  have hfirst : dropFirstSeparator (spelled names) = spelled names := by
    match names with
    | [] => rfl
    | [s] => rfl
    | s :: s' :: names =>
        rw [spelled_cons_cons]
        rfl
  simp only [trimSeparators, hfirst, if_neg (getLast?_spelled names)]

/-- Names that are spelled out are the segments of the template, each with its text. -/
theorem parse_escapeNames (hne : names ≠ []) (hnames : ∀ s ∈ names, s ≠ "") :
    Template.parse (escapeNames names) = ⟨escapeNames names, spelled names⟩ := by
  have hfinish : ((escapeNames names).toList.foldl Scan.step Scan.start).finish = spelled names :=
    finish_escapeNames hne hnames []
  rw [Template.parse, hfinish, trimSeparators_spelled]

theorem segments_spelled (hne : names ≠ []) (source : String) (found : Match) {f : Filling}
    (hf : f.vacant = false) (hcurrent : f.current = "") :
    ((spelled names).foldl (Filling.put source found) f).finishSegment =
      { f with segments := f.segments ++ names } := by
  induction names generalizing f with
  | nil => exact absurd rfl hne
  | cons s names ih =>
      obtain ⟨segments, current, vacant, splats, diagnostics⟩ := f
      cases hf
      cases hcurrent
      cases names with
      | nil => simp [spelled_singleton, Filling.put, Filling.append, Filling.finishSegment]
      | cons s' names =>
          rw [spelled_cons_cons, List.foldl_cons, List.foldl_cons, ih (by simp)]
          · simp [Filling.put, Filling.append, Filling.finishSegment]
          · rfl
          · rfl

theorem destination_escapeNames (hne : names ≠ []) (hnames : ∀ s ∈ names, s ≠ "")
    (found : Match) :
    (Template.parse (escapeNames names)).destination found = (names.map Key.ofText, []) := by
  obtain ⟨s, rest, rfl⟩ := List.exists_cons_of_ne_nil hne
  rw [parse_escapeNames hne hnames]
  simp only [destination, expand, List.isEmpty_iff, if_neg (spelled_ne_nil s rest)]
  rw [segments_spelled hne _ found (f := ⟨[], "", false, _, []⟩) rfl rfl]
  rfl

end Template

namespace Plan

section Spelled

variable {body v : Value} {path : Path} {m : Match} {names : List String}

theorem place_map_ofText (hnames : ∀ s ∈ names, (Key.name s).Plain) :
    Address.place (names.map Key.ofText) = names := by
  induction names with
  | nil => rfl
  | cons s names ih =>
      obtain ⟨hs, hrest⟩ := List.forall_mem_cons.mp hnames
      rw [List.map_cons, Address.place_cons, hs.text_ofText, ih hrest]

/-- A single match that is mapped to a list of names is found at their place. -/
theorem exists_execute_map_seek (hbody : body.WellFormed) (hc : body.isContainer)
    (hfind : path.find body = [m]) (hv : Tree.lookup body m.keys = some v) (hne : names ≠ [])
    (hnames : ∀ s ∈ names, s ≠ "" ∧ (Key.name s).Plain) :
    ∃ data, Plan.execute { map := [⟨path, Template.parse (escapeNames names)⟩] } body true =
        .ok ⟨data, []⟩ ∧ data.WellFormed ∧ data.seek names = some v := by
  let rule : Relocation := ⟨path, Template.parse (escapeNames names)⟩
  let d := names.map Key.ofText
  have hdest : (Template.parse (escapeNames names)).destination m = (d, []) :=
    Template.destination_escapeNames hne (fun s hs => (hnames s hs).1) m
  have hd : d ≠ [] := by simpa [d] using hne
  have hdestinations : rule.destinations body = [d] := by
    simp [Relocation.destinations, rule, hfind, hdest, hd]
  have hsources : rule.sources body d = [m.keys] := by
    simp [Relocation.sources, rule, hfind, hdest, List.eraseDups_cons]
  have hdiagnostics : ((rule.path.find body).flatMap fun m => (rule.template.destination m).2) =
      [] := by
    simp [rule, hfind, hdest]
  have hrun := execute_map hc rule true
  simp only [hdiagnostics] at hrun
  have hplaced := placed_transfers hbody (by simp [hdestinations] : ∀ a ∈ rule.destinations body,
    ∀ b ∈ rule.destinations body, a = b ∨ ¬ Place.Touches a.place b.place) []
  obtain ⟨vs, hvs, -, hseek⟩ :=
    hplaced.lookup_destination hbody (hdestinations ▸ List.mem_singleton_self d)
  have hvalues : vs = [v] := by
    rw [hsources, List.map_singleton, hv, ← List.map_singleton] at hvs
    exact (List.map_injective_iff.mpr (Option.some_injective Value) hvs).symm
  rw [hvalues, Value.gather, place_map_ofText fun s hs => (hnames s hs).2] at hseek
  exact ⟨_, hrun, hplaced.wellFormed.toValue true, hseek⟩

/-- No position of the destination is the greatest one, so the length of a sequence that reaches it
is counted with 64 bits too. -/
theorem succ_lt_indexBound_of_destination (hne : names ≠ [])
    (hnames : ∀ s ∈ names, s ≠ "" ∧ s ≠ "18446744073709551615" ∧ (Key.name s).Plain) {i : Nat}
    (hmem : Key.index i ∈ ((Template.parse (escapeNames names)).destination m).1) :
    i + 1 < Key.indexBound := by
  rw [Template.destination_escapeNames hne fun s hs => (hnames s hs).1] at hmem
  obtain ⟨s, hs, hi⟩ := List.mem_map.mp hmem
  obtain ⟨-, hgreatest, hplain⟩ := hnames s hs
  have hread := Key.readIndex?_of_ofText hi
  have hlt : i < Key.indexBound := Key.lt_indexBound_of_readIndex? hread
  have hother : i ≠ 18446744073709551615 := by
    rintro rfl
    exact hgreatest (hplain _ hread)
  simp only [Key.indexBound] at hlt ⊢
  omega

/-- A single match that is mapped to a list of names is what these names lead to afterwards. The
greatest position is left out, since a sequence that reaches it has one element more than 64 bits
count. -/
theorem execute_map_findValues (hbody : body.WellFormed) (hc : body.isContainer)
    (hfind : path.find body = [m]) (hv : Tree.lookup body m.keys = some v) (hne : names ≠ [])
    (hnames : ∀ s ∈ names, s ≠ "" ∧ s ≠ "18446744073709551615" ∧ (Key.name s).Plain) :
    ∃ q data found, Path.compile (escapeNames names) = .ok q ∧
      Plan.execute { map := [⟨path, Template.parse (escapeNames names)⟩] } body true =
        .ok ⟨data, []⟩ ∧
      q.find data = [found] ∧ q.findValues data = [(found, v)] ∧ found.keys.place = names ∧
      ∀ i, Key.index i ∈ ((Template.parse (escapeNames names)).destination m).1 →
        i + 1 < Key.indexBound := by
  have hspelled : ∀ s ∈ names, s ≠ "" ∧ (Key.name s).Plain :=
    fun s hs => ⟨(hnames s hs).1, (hnames s hs).2.2⟩
  obtain ⟨data, hrun, hdata, hseek⟩ := exists_execute_map_seek hbody hc hfind hv hne hspelled
  have hcompile := Path.compile_escapeNames fun s hs => (hnames s hs).1
  obtain ⟨a, hplace, hone, hfound⟩ := Path.findValues_literals
    ⟨escapeNames names, names.map Path.literalStep, {}⟩ hdata rfl hseek
  exact ⟨_, data, _, hcompile, hrun, hone, hfound, hplace,
    fun _ hmem => succ_lt_indexBound_of_destination hne hnames hmem⟩

end Spelled

def oneA : Value :=
  .map [("a", .scalar (.int 1))]

def pathA : Path :=
  ⟨"a", [Path.literalStep "a"], {}⟩

/-- A name with a slash and a name that is a position. -/
theorem execute_map_findValues_slashThree :
    oneA.WellFormed ∧ oneA.isContainer ∧ pathA.find oneA = [⟨[.name "a"], [], []⟩] ∧
      Tree.lookup oneA [.name "a"] = some (.scalar (.int 1)) ∧
      escapeNames ["x/y", "3"] = "\\x\\/\\y/\\3" ∧ ["x/y", "3"] ≠ [] ∧
      (∀ s ∈ ["x/y", "3"], s ≠ "" ∧ s ≠ "18446744073709551615" ∧ (Key.name s).Plain) ∧
      ∃ q data found, Path.compile "\\x\\/\\y/\\3" = .ok q ∧
        Plan.execute { map := [⟨pathA, Template.parse "\\x\\/\\y/\\3"⟩] } oneA true =
          .ok ⟨data, []⟩ ∧
        q.findValues data = [(found, .scalar (.int 1))] ∧ found.keys.place = ["x/y", "3"] := by
  have hbody : oneA.WellFormed := by simp [oneA, Entries.keys]
  have hfind : pathA.find oneA = [⟨[.name "a"], [], []⟩] := by rfl
  have hvalue : Tree.lookup oneA [.name "a"] = some (.scalar (.int 1)) := by rfl
  have hescape : escapeNames ["x/y", "3"] = "\\x\\/\\y/\\3" := by decide
  have hnames : ∀ s ∈ ["x/y", "3"],
      s ≠ "" ∧ s ≠ "18446744073709551615" ∧ (Key.name s).Plain := by
    decide
  obtain ⟨q, data, found, hcompile, hrun, -, hfound, hplace, -⟩ :=
    execute_map_findValues hbody rfl hfind hvalue (by simp) hnames
  rw [hescape] at hcompile hrun
  exact ⟨hbody, rfl, hfind, hvalue, hescape, by simp, hnames, q, data, found, hcompile, hrun,
    hfound, hplace⟩

/-- A name with leading zeros is written to the position that it denotes, as another numeral is,
and the path that spells the name finds nothing there. -/
theorem execute_map_leadingZeros :
    escapeNames ["007"] = "\\0\\0\\7" ∧ escapeNames ["7"] = "\\7" ∧
      pathA.find oneA = [⟨[.name "a"], [], []⟩] ∧
      ∃ q data, Path.compile "\\0\\0\\7" = .ok q ∧
        Plan.execute { map := [⟨pathA, Template.parse "\\0\\0\\7"⟩] } oneA true =
          .ok ⟨data, []⟩ ∧
        Plan.execute { map := [⟨pathA, Template.parse "\\7"⟩] } oneA true = .ok ⟨data, []⟩ ∧
        q.find data = [] := by
  refine ⟨by decide, by decide, by rfl, _, _, by rfl, by rfl, by rfl, by rfl⟩

end Plan

end PathRules
