import Mathlib.Data.List.Basic
import PathRules.Proofs.MoveAsMap

/-!
# What a match is made of

The search keeps the node of a match beside its keys, so the address of a match always leads to a
node of the tree, and `..` always finds the node above. Along a path without `..` a match is put
together from strides. A stride belongs to one segment: it may walk down first, if the segment is
recursive, and then takes one key that the segment accepts. The keys, the captures and the splats
of the match are those of its strides, one after the other.
-/

namespace PathRules

theorem Match.splats_of_up? {m up : Match} (h : m.up? = some up) : up.splats = m.splats := by
  simp only [up?] at h
  split at h
  · cases h
  · cases h
    rfl

/-- What one segment adds to a match: the keys that it walked over, if it is recursive, the key that
it took, and what its matchers captured from the key and from the value. -/
structure Stride where
  splat : Option Address
  key : Key
  keyCaptures : List String
  valueCaptures : List String

namespace Stride

def walked (s : Stride) : Address :=
  s.splat.getD []

def keys (s : Stride) : Address :=
  s.walked ++ [s.key]

def captures (s : Stride) : List String :=
  s.keyCaptures ++ s.valueCaptures

/-- The splats of strides, the first of which belongs to the segment with the given number. -/
def splats (number : Nat) (strides : List Stride) : List (Nat × Address) :=
  (strides.zipIdx number).filterMap fun (s, i) => s.splat.map (i, ·)

theorem splats_cons (number : Nat) (s : Stride) (strides : List Stride) :
    splats number (s :: strides) =
      (s.splat.map (number, ·)).toList ++ splats (number + 1) strides := by
  cases h : s.splat <;> simp [splats, h]

end Stride

namespace Segment

def isRecursive : Segment → Bool
  | parent => false
  | step _ _ recursive => recursive

/-- The segment takes the stride from an address of the tree. Only a recursive segment has walked;
the key matcher accepts the key with the length of the node that it belongs to, and the value
matcher accepts the child. -/
def Takes {α : Type} [Tree α] (root : α) (start : Address) : Segment → Stride → Prop
  | parent, _ => False
  | step key value recursive, s =>
      s.splat.isSome = recursive ∧ ∃ node child,
        Tree.lookup root (start ++ s.walked) = some node ∧
        Tree.lookup root (start ++ s.keys) = some child ∧
        key.matchKey? s.key (Tree.seqLength? node) = some s.keyCaptures ∧
        (value.elim (some []) fun m => m.matchValue? child) = some s.valueCaptures

end Segment

namespace Path

variable {α : Type} [Tree α] {root node : α}

/-- The segments take the strides, each from the address to which the one before has come. -/
def Follows (root : α) : Address → List Segment → List Stride → Prop
  | _, [], [] => True
  | start, segment :: rest, s :: strides =>
      segment.Takes root start s ∧ Follows root (start ++ s.keys) rest strides
  | _, _, _ => False

/-- The numbers of the recursive segments in increasing order. -/
def recursiveNumbers (path : Path) : List Nat :=
  path.segments.findIdxs Segment.isRecursive

/-- The path to the nodes just above the ones of another path. -/
def up (path : Path) : Path :=
  { path with segments := path.segments ++ [.parent] }

section Resolving

/-- At a location below the root of a faithful tree, one level up is a location again. -/
theorem findFrom_parent (hroot : Tree.Faithful root) {number : Nat} {found : Match}
    (hnode : Tree.At root found.keys node) :
    findFrom root [.parent] number node found = found.up?.toList := by
  rw [findFrom]
  cases hup : found.up? with
  | none => rfl
  | some up =>
      obtain ⟨n, hn⟩ := hnode.exists_dropLast
      rw [← Match.keys_of_up? hup] at hn
      simp [hroot hn, findFrom]

theorem findFrom_append_parent (hroot : Tree.Faithful root) (segments : List Segment)
    {number : Nat} {found : Match} (hnode : Tree.At root found.keys node) :
    findFrom root (segments ++ [.parent]) number node found =
      (findFrom root segments number node found).filterMap Match.up? := by
  induction segments generalizing number node found with
  | nil =>
      rw [List.nil_append, findFrom_parent hroot hnode, findFrom]
      cases hup : found.up? <;> simp [hup]
  | cons segment rest ih =>
      cases segment with
      | parent =>
          simp only [List.cons_append, findFrom]
          cases hup : found.up? with
          | none => rfl
          | some up =>
              obtain ⟨n, hn⟩ := hnode.exists_dropLast
              rw [← Match.keys_of_up? hup] at hn
              simp only [hroot hn]
              exact ih hn
      | step key value recursive =>
          cases recursive with
          | false =>
              simp only [List.cons_append, findFrom, List.filterMap_flatMap]
              apply List.flatMap_congr
              rintro ⟨m, c⟩ hhit
              exact ih (at_of_mem_hits hnode hhit)
          | true =>
              simp only [List.cons_append, findFrom, List.filterMap_flatMap]
              apply List.flatMap_congr
              rintro ⟨w, n⟩ hreach
              apply List.flatMap_congr
              rintro ⟨m, c⟩ hhit
              have hn : Tree.At root (found.walk number w).keys n :=
                hnode.append (at_of_mem_reach hreach)
              exact ih (at_of_mem_hits hn hhit)

theorem find_up (hroot : Tree.Faithful root) (path : Path) :
    path.up.find root = (path.find root).filterMap Match.up? :=
  findFrom_append_parent hroot path.segments (Tree.At.root root)

theorem isSome_lookup_of_mem_find (hroot : Tree.Faithful root) {path : Path} {m : Match}
    (hm : m ∈ path.find root) : (Tree.lookup root m.keys).isSome := by
  obtain ⟨n, hn⟩ := at_of_mem_findFrom hroot (Tree.At.root root) hm
  rw [hroot hn]
  rfl

end Resolving

section Tags

theorem tags_of_mem_findFrom {segments : List Segment} {number : Nat} {found m : Match}
    (hm : m ∈ findFrom root segments number node found) :
    m.splats.map Prod.fst =
      found.splats.map Prod.fst ++ segments.findIdxs Segment.isRecursive number := by
  induction segments generalizing number node found with
  | nil =>
      rw [findFrom, List.mem_singleton] at hm
      rw [hm, List.findIdxs_nil, List.append_nil]
  | cons segment rest ih =>
      rw [List.findIdxs_cons]
      cases segment with
      | parent =>
          simp only [findFrom] at hm
          split at hm
          · cases hm
          · rename_i up hup
            split at hm
            · cases hm
            · rw [ih hm, Match.splats_of_up? hup]
              rfl
      | step key value recursive =>
          cases recursive with
          | false =>
              obtain ⟨⟨m', c⟩, hhit, hm⟩ := List.mem_flatMap.mp hm
              obtain ⟨k, captures, -, -, rfl⟩ := mem_hits.mp hhit
              rw [ih hm]
              rfl
          | true =>
              obtain ⟨⟨w, n⟩, -, hm⟩ := List.mem_flatMap.mp hm
              obtain ⟨⟨m', c⟩, hhit, hm⟩ := List.mem_flatMap.mp hm
              obtain ⟨k, captures, -, -, rfl⟩ := mem_hits.mp hhit
              rw [ih hm]
              simp [Match.extend, Match.walk, Segment.isRecursive]

end Tags

section Strides

variable {key : Matcher} {value : Option Matcher} {c : α} {k : Key} {captures : List String}

theorem exists_of_stepCaptures? {length : Option Nat}
    (h : stepCaptures? key value length k c = some captures) :
    ∃ xs ys, captures = xs ++ ys ∧ key.matchKey? k length = some xs ∧
      (value.elim (some []) fun m => m.matchValue? c) = some ys := by
  obtain ⟨xs, hxs, h⟩ := Option.bind_eq_some_iff.mp h
  cases value with
  | none =>
      cases h
      exact ⟨captures, [], by simp, hxs, rfl⟩
  | some m =>
      obtain ⟨ys, hys, h⟩ := Option.bind_eq_some_iff.mp h
      cases h
      exact ⟨xs, ys, rfl, hxs, hys⟩

/-- A child that a step accepts after a walk is a stride of the segment. -/
theorem exists_takes (hroot : Tree.Faithful root) (start : Address) (splat : Option Address)
    (hnode : Tree.At root (start ++ splat.getD []) node) (hc : (k, c) ∈ Tree.children node)
    (hcaptures : stepCaptures? key value (Tree.seqLength? node) k c = some captures) :
    ∃ s : Stride, s.splat = splat ∧ s.key = k ∧ s.captures = captures ∧
      Segment.Takes root start (.step key value splat.isSome) s := by
  obtain ⟨xs, ys, rfl, hxs, hys⟩ := exists_of_stepCaptures? hcaptures
  have hchild : Tree.At root (start ++ (splat.getD [] ++ [k])) c := by
    rw [← List.append_assoc]
    exact hnode.append (Tree.At.child hc (Tree.At.root c))
  exact ⟨⟨splat, k, xs, ys⟩, rfl, rfl, rfl, rfl, node, c, hroot hnode, hroot hchild, hxs, hys⟩

/-- A match is made from an earlier one by strides of the segments. -/
structure Made (root : α) (segments : List Segment) (number : Nat) (found m : Match)
    (strides : List Stride) : Prop where
  follows : Follows root found.keys segments strides
  keys : m.keys = found.keys ++ strides.flatMap Stride.keys
  captures : m.captures = found.captures ++ strides.flatMap Stride.captures
  splats : m.splats = found.splats ++ Stride.splats number strides

theorem made_nil (root : α) (number : Nat) (found : Match) : Made root [] number found found [] :=
  ⟨trivial, by simp, by simp, by simp [Stride.splats]⟩

/-- The stride of a hit goes before those that lead on from the child. -/
theorem Made.cons {segment : Segment} {rest : List Segment} {number : Nat} {found m : Match}
    {s : Stride} {strides : List Stride} (hs : segment.Takes root found.keys s)
    (h : Made root rest (number + 1)
      ⟨found.keys ++ s.keys, found.captures ++ s.captures,
        found.splats ++ (s.splat.map (number, ·)).toList⟩ m strides) :
    Made root (segment :: rest) number found m (s :: strides) where
  follows := ⟨hs, h.follows⟩
  keys := by rw [h.keys, List.append_assoc, List.flatMap_cons]
  captures := by rw [h.captures, List.append_assoc, List.flatMap_cons]
  splats := by rw [h.splats, List.append_assoc, Stride.splats_cons]

theorem exists_made {segments : List Segment} (hroot : Tree.Faithful root)
    (hp : ∀ segment ∈ segments, ∃ key value recursive, segment = .step key value recursive)
    {number : Nat} {found m : Match} (hnode : Tree.At root found.keys node)
    (hm : m ∈ findFrom root segments number node found) :
    ∃ strides, Made root segments number found m strides := by
  induction segments generalizing number node found with
  | nil =>
      rw [findFrom, List.mem_singleton] at hm
      exact ⟨[], hm ▸ made_nil root number found⟩
  | cons segment rest ih =>
      obtain ⟨⟨key, value, recursive, rfl⟩, hrest⟩ := List.forall_mem_cons.mp hp
      cases recursive with
      | false =>
          obtain ⟨⟨m', c⟩, hhit, hm⟩ := List.mem_flatMap.mp hm
          obtain ⟨strides, hmade⟩ := ih hrest (at_of_mem_hits hnode hhit) hm
          obtain ⟨k, captures, hc, hcaptures, rfl⟩ := mem_hits.mp hhit
          obtain ⟨s, hsplat, hkey, rfl, hs⟩ :=
            exists_takes hroot found.keys none (by simpa using hnode) hc hcaptures
          refine ⟨s :: strides, Made.cons hs ?_⟩
          simpa [Match.extend, Stride.keys, Stride.walked, hsplat, hkey] using hmade
      | true =>
          obtain ⟨⟨w, n⟩, hreach, hm⟩ := List.mem_flatMap.mp hm
          obtain ⟨⟨m', c⟩, hhit, hm⟩ := List.mem_flatMap.mp hm
          have hn : Tree.At root (found.keys ++ w) n := hnode.append (at_of_mem_reach hreach)
          obtain ⟨strides, hmade⟩ := ih hrest (at_of_mem_hits hn hhit) hm
          obtain ⟨k, captures, hc, hcaptures, rfl⟩ := mem_hits.mp hhit
          obtain ⟨s, hsplat, hkey, rfl, hs⟩ :=
            exists_takes hroot found.keys (some w) (by simpa using hn) hc hcaptures
          refine ⟨s :: strides, Made.cons hs ?_⟩
          simpa [Match.extend, Match.walk, Stride.keys, Stride.walked, hsplat, hkey] using hmade

end Strides

/-- The matches that a path finds in a tree are well formed. -/
structure FindsSound (path : Path) (root : α) : Prop where
  resolves : ∀ m ∈ path.find root, (Tree.lookup root m.keys).isSome
  /-- Looking up the values drops no match. -/
  values : (path.findValues root).map Prod.fst = path.find root
  /-- A `..` drops the matches at the root and no others. -/
  goesUp : path.up.find root = (path.find root).filterMap Match.up?
  tags : ∀ m ∈ path.find root, m.splats.map Prod.fst = path.recursiveNumbers
  strides : path.ParentFree → ∀ m ∈ path.find root, ∃ strides,
    Follows root [] path.segments strides ∧
      m.keys = strides.flatMap Stride.keys ∧
      m.captures = strides.flatMap Stride.captures ∧
      m.splats = Stride.splats 0 strides

theorem map_fst_findValues_of_faithful (hroot : Tree.Faithful root) (path : Path) :
    (path.findValues root).map Prod.fst = path.find root := by
  have hall : ∀ m ∈ path.find root,
      ((Tree.lookup root m.keys).map (m, ·)).map Prod.fst = some m := by
    intro m hm
    obtain ⟨n, hn⟩ := Option.isSome_iff_exists.mp (isSome_lookup_of_mem_find hroot hm)
    rw [hn]
    rfl
  rw [findValues, List.map_filterMap, List.filterMap_congr hall, List.filterMap_some]

theorem findsSound (hroot : Tree.Faithful root) (path : Path) : path.FindsSound root where
  resolves := fun _ => isSome_lookup_of_mem_find hroot
  values := map_fst_findValues_of_faithful hroot path
  goesUp := find_up hroot path
  tags := by
    intro m hm
    simpa [recursiveNumbers] using tags_of_mem_findFrom hm
  strides := by
    intro hpath m hm
    obtain ⟨strides, hmade⟩ := exists_made hroot hpath (Tree.At.root root) hm
    exact ⟨strides, hmade.follows, hmade.keys, hmade.captures, hmade.splats⟩

/-- In values and in working trees every match is well formed, and a rule that moves or maps takes
up every match but those without a destination. -/
theorem find_sound (path : Path) :
    (∀ v : Value, v.WellFormed → path.FindsSound v) ∧
      ∀ t : Node, t.WellFormed → path.FindsSound t ∧
        ∀ template : Template,
          (Plan.Relocating.transfers t ⟨path, template⟩ (path.find t)).map Plan.Transfer.source =
            ((path.find t).filter fun m => (template.destination m).1 ≠ []).map Match.keys := by
  refine ⟨fun v hv => findsSound hv.faithful path, fun t ht => ⟨findsSound ht.faithful path, ?_⟩⟩
  intro template
  exact Plan.map_source_transfers fun m => isSome_lookup_of_mem_find ht.faithful

/-- A list whose second element was removed. -/
def gapped : Node :=
  .map [("a", .sparse ⟨3, [(0, .scalar (.int 7)), (2, .map [("k", .scalar (.int 1))])]⟩)]

/-- The entries under a name at any depth, with the texts of their values. -/
def entriesOfK : Path :=
  ⟨"**/k=*", [.step (.literal "k") (some .any) true], {}⟩

theorem find_sound_gapped :
    gapped.WellFormed ∧ entriesOfK.ParentFree ∧
      entriesOfK.find gapped =
        [⟨[.name "a", .index 2, .name "k"], ["1"], [(0, [.name "a", .index 2])]⟩] ∧
      (Tree.lookup gapped [.name "a", .index 2, .name "k"]).isSome ∧
      entriesOfK.up.find gapped =
        [⟨[.name "a", .index 2], ["1"], [(0, [.name "a", .index 2])]⟩] ∧
      entriesOfK.recursiveNumbers = [0] ∧
      ∃ strides, Follows gapped [] entriesOfK.segments strides ∧
        strides.flatMap Stride.keys = [.name "a", .index 2, .name "k"] ∧
        strides.flatMap Stride.captures = ["1"] ∧
        Stride.splats 0 strides = [(0, [.name "a", .index 2])] := by
  have hone : (Node.map [("k", .scalar (.int 1))]).WellFormed :=
    .map (List.nodup_singleton _) (by simpa using Node.WellFormed.scalar _)
  have hlist : (Node.sparse
      ⟨3, [(0, .scalar (.int 7)), (2, .map [("k", .scalar (.int 1))])]⟩).WellFormed :=
    .sparse ⟨by simp, by simp⟩ (by simpa using ⟨Node.WellFormed.scalar _, hone⟩)
  have hwf : gapped.WellFormed := .map (List.nodup_singleton _) (by simpa using hlist)
  have hpath : entriesOfK.ParentFree := by simp [ParentFree, entriesOfK]
  have hfind : entriesOfK.find gapped =
      [⟨[.name "a", .index 2, .name "k"], ["1"], [(0, [.name "a", .index 2])]⟩] := by cbv
  obtain ⟨hsound, -⟩ := (find_sound entriesOfK).2 gapped hwf
  have hm : (⟨[.name "a", .index 2, .name "k"], ["1"], [(0, [.name "a", .index 2])]⟩ : Match) ∈
      entriesOfK.find gapped := by rw [hfind]; exact List.mem_singleton_self _
  have hup := hsound.goesUp
  rw [hfind] at hup
  obtain ⟨strides, hfollows, hkeys, hcaptures, hsplats⟩ := hsound.strides hpath _ hm
  exact ⟨hwf, hpath, hfind, hsound.resolves _ hm, hup, (hsound.tags _ hm).symm, strides, hfollows,
    hkeys.symm, hcaptures.symm, hsplats.symm⟩

end Path

end PathRules
