import PathRules.Match
import PathRules.Proofs.CursorOrder
import PathRules.Proofs.TreePlaces

/-!
# Where matches are

A value and its working tree are searched alike, with the same matches in the same order. Every
match in a well-formed tree is at a location of the tree, also after `..`, which resolves the
shortened address from the root. For a path without `..` the locations found do not depend on the
captures collected on the way: a path leads from a node to an address if its segments accept the
keys of the address one after the other.
-/

namespace PathRules

namespace Value

/-- Induction over the elements of a sequence and the values of a map. -/
theorem induction {P : Value → Prop} (scalar : ∀ s, P (scalar s))
    (seq : ∀ items, (∀ x ∈ items, P x) → P (seq items))
    (map : ∀ es, (∀ e ∈ es, P e.2) → P (map es)) (v : Value) : P v := by
  match v with
  | .scalar s => exact scalar s
  | .seq items => exact seq items fun x _ => induction scalar seq map x
  | .map es => exact map es fun e _ => induction scalar seq map e.2
termination_by v.height
decreasing_by
  · have := height_le_of_mem_items (by assumption : x ∈ items)
    simp only [height]
    omega
  · have := height_le_of_mem_entries (k := e.1) (x := e.2) (by assumption : e ∈ es)
    simp only [height]
    omega

end Value

namespace Node

theorem toItems_eq_map (keepIndices : Bool) (items : List Node) :
    toItems keepIndices items = items.map (toValue keepIndices) := by
  induction items with
  | nil => rfl
  | cons x items ih => simp [toItems, ih]

theorem toCompact_eq_map (keepIndices : Bool) (items : List (Nat × Node)) :
    toCompact keepIndices items = items.map fun p => p.2.toValue keepIndices := by
  induction items with
  | nil => rfl
  | cons p items ih => simp [toCompact, ih]

theorem toNamed_eq_map (keepIndices : Bool) (items : List (Nat × Node)) :
    toNamed keepIndices items =
      (Sparse.named items).map fun e => (e.1, e.2.toValue keepIndices) := by
  induction items with
  | nil => rfl
  | cons p items ih => simpa [toNamed, Sparse.named] using ih

theorem toEntries_eq_map (keepIndices : Bool) (es : Entries Node) :
    toEntries keepIndices es = es.map fun e => (e.1, e.2.toValue keepIndices) := by
  induction es with
  | nil => rfl
  | cons e es ih => simp [toEntries, ih]

theorem toValue_ofValue (keepIndices : Bool) (v : Value) :
    (ofValue v).toValue keepIndices = v := by
  induction v using Value.induction with
  | scalar s => rfl
  | seq items ih =>
      rw [ofValue, toValue, toItems_eq_map, ofItems_eq_map, List.map_map]
      congr 1
      exact (List.map_congr_left ih).trans (List.map_id items)
  | map es ih =>
      rw [ofValue, toValue, toEntries_eq_map, ofEntries_eq_map, List.map_map]
      congr 1
      have hid : es.map (fun e => (e.1, (ofValue e.2).toValue keepIndices)) = es.map id :=
        List.map_congr_left fun e he => by simp [ih e he]
      exact hid.trans (List.map_id es)

theorem seqLength?_ofValue (v : Value) : (ofValue v).seqLength? = v.seqLength? := by
  cases v <;> simp [ofValue, seqLength?, Value.seqLength?, ofItems_eq_map]

theorem isContainer_ofValue (v : Value) : (ofValue v).isContainer = v.isContainer := by
  cases v <;> rfl

theorem spelling_ofValue (v : Value) : (ofValue v).spelling = v.spelling := by
  cases v with
  | scalar s => rfl
  | seq items => exact congrArg Value.spelling (toValue_ofValue false (.seq items))
  | map es => exact congrArg Value.spelling (toValue_ofValue false (.map es))

theorem children_ofValue (v : Value) :
    (ofValue v).children = v.children.map fun p => (p.1, ofValue p.2) := by
  cases v with
  | scalar s => rfl
  | seq items =>
      simp [ofValue, children, Value.children, Value.countDown, ofItems_eq_map, List.zipIdx_map]
  | map es => simp [ofValue, children, Value.children, ofEntries_eq_map]

theorem child?_ofValue (v : Value) (k : Key) :
    (ofValue v).child? k = (v.child? k).map ofValue := by
  cases v with
  | scalar s => rfl
  | seq items =>
      simp only [ofValue, child?, Value.child?, ofItems_eq_map]
      cases k.asIndex? with
      | none => rfl
      | some i => simp
  | map es =>
      simp only [ofValue, child?, Value.child?, ofEntries_eq_map]
      exact Entries.get?_map ofValue es k.text

theorem lookup_ofValue (v : Value) (a : Address) :
    Tree.lookup (ofValue v) a = (Tree.lookup v a).map ofValue := by
  induction a generalizing v with
  | nil => rfl
  | cons k a ih =>
      have hc : Tree.child? (ofValue v) k = (Tree.child? v k).map ofValue := child?_ofValue v k
      rw [Tree.lookup_cons, Tree.lookup_cons, hc]
      cases Tree.child? v k with
      | none => rfl
      | some c => exact ih c

theorem reach_ofValue (v : Value) :
    Tree.reach (ofValue v) = (Tree.reach v).map fun p => (p.1, ofValue p.2) := by
  induction v using Tree.induction with
  | step v ih =>
      have hch : Tree.children (ofValue v) =
          (Tree.children v).map fun p => (p.1, ofValue p.2) := children_ofValue v
      rw [Tree.reach_eq, Tree.reach_eq v, hch, List.flatMap_map, List.map_append, List.map_flatMap]
      congr 1
      apply List.flatMap_congr
      rintro ⟨k, c⟩ hmem
      have hc : Tree.isContainer (ofValue c) = Tree.isContainer c := isContainer_ofValue c
      by_cases hcont : Tree.isContainer c
      · simp [hc, hcont, ih k c hmem]
      · simp [hc, hcont]

end Node

theorem Tree.At.ofValue {v x : Value} {a : Address} (h : Tree.At v a x) :
    Tree.At (Node.ofValue v) a (Node.ofValue x) := by
  induction h with
  | root v => exact Tree.At.root _
  | @child v c x k rest hmem _ ih =>
      refine Tree.At.child ?_ ih
      have hchildren : Tree.children (Node.ofValue v) =
          (Tree.children v).map fun p => (p.1, Node.ofValue p.2) := Node.children_ofValue v
      rw [hchildren]
      exact List.mem_map.mpr ⟨(k, c), hmem, rfl⟩

theorem Value.WellFormed.faithful {v : Value} (hv : v.WellFormed) : Tree.Faithful v := by
  intro a x h
  have hlookup : Tree.lookup (Node.ofValue v) a = some (Node.ofValue x) :=
    (Node.wellFormed_ofValue hv).faithful h.ofValue
  rw [Node.lookup_ofValue] at hlookup
  obtain ⟨y, hy, hsame⟩ := Option.map_eq_some_iff.mp hlookup
  rw [hy, ← Node.toValue_ofValue false y, hsame, Node.toValue_ofValue]

theorem Match.keys_of_up? {m up : Match} (h : m.up? = some up) : up.keys = m.keys.dropLast := by
  simp only [Match.up?] at h
  split at h
  · cases h
  · cases h
    rfl

namespace Path

theorem stepCaptures?_ofValue (key : Matcher) (value : Option Matcher) (length : Option Nat)
    (k : Key) (c : Value) :
    stepCaptures? key value length k (Node.ofValue c) = stepCaptures? key value length k c := by
  have hs : Tree.spelling (Node.ofValue c) = Tree.spelling c := Node.spelling_ofValue c
  have hc : Tree.isContainer (Node.ofValue c) = Tree.isContainer c := Node.isContainer_ofValue c
  have hm : ∀ m : Matcher, m.matchValue? (Node.ofValue c) = m.matchValue? c := by
    intro m
    cases m <;> simp [Matcher.matchValue?, hs, hc]
  cases value <;> simp [stepCaptures?, hm]

theorem hits_ofValue (key : Matcher) (value : Option Matcher) (v : Value) (found : Match) :
    hits key value (Node.ofValue v) found =
      (hits key value v found).map fun p => (p.1, Node.ofValue p.2) := by
  have hch : Tree.children (Node.ofValue v) =
      (Tree.children v).map fun p => (p.1, Node.ofValue p.2) := Node.children_ofValue v
  have hlen : Tree.seqLength? (Node.ofValue v) = Tree.seqLength? v := Node.seqLength?_ofValue v
  rw [hits, hits, hch, hlen, List.filterMap_map, List.map_filterMap]
  congr 1
  funext p
  simp only [Function.comp_apply, stepCaptures?_ofValue, Option.map_map]
  rfl

theorem findFrom_ofValue (root : Value) (segments : List Segment) (number : Nat) (v : Value)
    (found : Match) :
    findFrom (Node.ofValue root) segments number (Node.ofValue v) found =
      findFrom root segments number v found := by
  induction segments generalizing number v found with
  | nil => rfl
  | cons segment rest ih =>
      match segment with
      | .parent =>
          simp only [findFrom, Node.lookup_ofValue]
          cases found.up? with
          | none => rfl
          | some up =>
              cases hl : Tree.lookup root up.keys with
              | none => simp [hl]
              | some n => simp [hl, ih]
      | .step key value false => simp [findFrom, hits_ofValue, List.flatMap_map, ih]
      | .step key value true =>
          simp [findFrom, Node.reach_ofValue, hits_ofValue, List.flatMap_map, ih]

theorem find_ofValue (path : Path) (v : Value) : path.find (Node.ofValue v) = path.find v :=
  findFrom_ofValue v path.segments 0 v {}

theorem mem_hits {α : Type} [Tree α] {key : Matcher} {value : Option Matcher} {node c : α}
    {found m : Match} :
    (m, c) ∈ hits key value node found ↔ ∃ k captures, (k, c) ∈ Tree.children node ∧
      stepCaptures? key value (Tree.seqLength? node) k c = some captures ∧
      m = found.extend k captures := by
  simp only [hits, List.mem_filterMap, Prod.exists, Option.map_eq_some_iff, Prod.mk.injEq]
  constructor
  · rintro ⟨k, c', hmem, captures, hs, rfl, rfl⟩
    exact ⟨k, captures, hmem, hs, rfl⟩
  · rintro ⟨k, captures, hmem, hs, rfl⟩
    exact ⟨k, c, hmem, captures, hs, rfl, rfl⟩

theorem mem_reach_iff {α : Type} [Tree α] {node n : α} {w : Address} :
    (w, n) ∈ Tree.reach node ↔ (w = [] ∧ n = node) ∨ ∃ k c rest, w = k :: rest ∧
      (k, c) ∈ Tree.children node ∧ Tree.isContainer c ∧ (rest, n) ∈ Tree.reach c := by
  rw [Tree.reach_eq]
  simp only [List.mem_append, List.mem_flatMap, List.mem_singleton, Prod.mk.injEq, Prod.exists]
  constructor
  · rintro (⟨k, c, hmem, hw⟩ | h)
    · by_cases hc : Tree.isContainer c
      · simp only [hc, if_true, List.mem_map, Prod.mk.injEq, Prod.exists] at hw
        obtain ⟨rest, n', hr, rfl, rfl⟩ := hw
        exact Or.inr ⟨k, c, rest, rfl, hmem, hc, hr⟩
      · simp [hc] at hw
    · exact Or.inl h
  · rintro (h | ⟨k, c, rest, rfl, hmem, hc, hr⟩)
    · exact Or.inr h
    · refine Or.inl ⟨k, c, hmem, ?_⟩
      simp only [hc, if_true, List.mem_map, Prod.mk.injEq, Prod.exists]
      exact ⟨rest, n, hr, rfl, rfl⟩

theorem at_of_mem_reach {α : Type} [Tree α] {node n : α} {w : Address}
    (h : (w, n) ∈ Tree.reach node) : Tree.At node w n := by
  induction w generalizing node with
  | nil =>
      rcases mem_reach_iff.mp h with ⟨-, rfl⟩ | ⟨k, c, rest, hw, -⟩
      · exact Tree.At.root n
      · cases hw
  | cons k w ih =>
      rcases mem_reach_iff.mp h with ⟨hw, -⟩ | ⟨k', c, rest, hw, hmem, -, hr⟩
      · cases hw
      · cases hw
        exact Tree.At.child hmem (ih hr)

theorem at_of_mem_hits {α : Type} [Tree α] {root n c : α} {key : Matcher} {value : Option Matcher}
    {found m : Match} (hn : Tree.At root found.keys n) (hm : (m, c) ∈ hits key value n found) :
    Tree.At root m.keys c := by
  obtain ⟨k, captures, hc, -, rfl⟩ := mem_hits.mp hm
  exact hn.append (Tree.At.child hc (Tree.At.root c))

/-- Searching from a location of a faithful tree finds locations of the tree. -/
theorem at_of_mem_findFrom {α : Type} [Tree α] {root node : α} (hroot : Tree.Faithful root)
    {segments : List Segment} {number : Nat} {found m : Match} (hnode : Tree.At root found.keys node)
    (hm : m ∈ findFrom root segments number node found) : ∃ n, Tree.At root m.keys n := by
  induction segments generalizing number node found with
  | nil =>
      rw [findFrom, List.mem_singleton] at hm
      subst hm
      exact ⟨node, hnode⟩
  | cons segment rest ih =>
      cases segment with
      | parent =>
          simp only [findFrom] at hm
          cases hup : found.up? with
          | none => simp [hup] at hm
          | some up =>
              cases hl : Tree.lookup root up.keys with
              | none => simp [hup, hl] at hm
              | some n =>
                  simp only [hup, hl] at hm
                  obtain ⟨n', hn'⟩ := hnode.exists_dropLast
                  rw [← Match.keys_of_up? hup] at hn'
                  have heq : n' = n := Option.some.inj ((hroot hn').symm.trans hl)
                  exact ih (heq ▸ hn') hm
      | step key value recursive =>
          cases recursive with
          | false =>
              obtain ⟨⟨m', c⟩, hhit, hm⟩ := List.mem_flatMap.mp hm
              exact ih (at_of_mem_hits hnode hhit) hm
          | true =>
              obtain ⟨⟨w, n⟩, hreach, hm⟩ := List.mem_flatMap.mp hm
              obtain ⟨⟨m', c⟩, hhit, hm⟩ := List.mem_flatMap.mp hm
              have hn : Tree.At root (found.walk number w).keys n :=
                hnode.append (at_of_mem_reach hreach)
              exact ih (at_of_mem_hits hn hhit) hm

theorem at_of_mem_find {root : Node} (hroot : root.WellFormed) {path : Path} {m : Match}
    (hm : m ∈ path.find root) : ∃ n, Tree.At root m.keys n :=
  at_of_mem_findFrom hroot.faithful (Tree.At.root root) hm

/-- Whether segments without `..` accept the keys of an address below a node, one after the other.
A recursive segment may pass over any number of keys that lead to containers. -/
inductive Leads {α : Type} [Tree α] : List Segment → α → Address → Prop
  | done (node : α) : Leads [] node []
  | step {key : Matcher} {value : Option Matcher} {recursive : Bool} {rest : List Segment}
      {node c : α} {k : Key} {a : Address} (hmem : (k, c) ∈ Tree.children node)
      (haccept : (stepCaptures? key value (Tree.seqLength? node) k c).isSome)
      (hrest : Leads rest c a) : Leads (.step key value recursive :: rest) node (k :: a)
  | descend {key : Matcher} {value : Option Matcher} {rest : List Segment} {node c : α} {k : Key}
      {a : Address} (hmem : (k, c) ∈ Tree.children node) (hcont : Tree.isContainer c)
      (hrest : Leads (.step key value true :: rest) c a) :
      Leads (.step key value true :: rest) node (k :: a)

/-- A path that never goes back up. -/
def ParentFree (path : Path) : Prop :=
  ∀ segment ∈ path.segments, ∃ key value recursive, segment = .step key value recursive

section Leads

variable {α : Type} [Tree α]

/-- Whether a step accepts a child, and the rest of the segments leads on from there. -/
def LeadsOn (key : Matcher) (value : Option Matcher) (rest : List Segment) (node : α)
    (a : Address) : Prop :=
  ∃ k c b, (k, c) ∈ Tree.children node ∧
    (stepCaptures? key value (Tree.seqLength? node) k c).isSome ∧ Leads rest c b ∧ a = k :: b

variable {key : Matcher} {value : Option Matcher} {rest : List Segment} {root node : α}

theorem leads_step_iff {a : Address} :
    Leads (.step key value false :: rest) node a ↔ LeadsOn key value rest node a := by
  constructor
  · intro h
    cases h with
    | step hmem haccept hrest => exact ⟨_, _, _, hmem, haccept, hrest, rfl⟩
  · rintro ⟨k, c, b, hmem, haccept, hrest, rfl⟩
    exact Leads.step hmem haccept hrest

theorem leads_recursive_iff {a : Address} :
    Leads (.step key value true :: rest) node a ↔
      ∃ w n b, (w, n) ∈ Tree.reach node ∧ LeadsOn key value rest n b ∧ a = w ++ b := by
  constructor
  · intro h
    generalize hs : Segment.step key value true :: rest = segments at h
    induction h with
    | done => cases hs
    | step hmem haccept hrest =>
        cases hs
        exact ⟨[], _, _, mem_reach_iff.mpr (Or.inl ⟨rfl, rfl⟩),
          ⟨_, _, _, hmem, haccept, hrest, rfl⟩, rfl⟩
    | descend hmem hcont _ ih =>
        obtain ⟨w, n, b, hreach, hon, rfl⟩ := ih hs
        exact ⟨_ :: w, n, b, mem_reach_iff.mpr (Or.inr ⟨_, _, w, rfl, hmem, hcont, hreach⟩),
          hon, rfl⟩
  · rintro ⟨w, n, b, hreach, hon, rfl⟩
    induction w generalizing node with
    | nil =>
        rcases mem_reach_iff.mp hreach with ⟨-, rfl⟩ | ⟨k, c, w, hw, -⟩
        · obtain ⟨k, c, b, hmem, haccept, hrest, rfl⟩ := hon
          exact Leads.step hmem haccept hrest
        · cases hw
    | cons k w ih =>
        rcases mem_reach_iff.mp hreach with ⟨hw, -⟩ | ⟨k', c, w', hw, hmem, hcont, hreach⟩
        · cases hw
        · cases hw
          exact Leads.descend hmem hcont (ih hreach)

theorem mem_flatMap_hits_iff {number : Nat} {found : Match} {a : Address}
    (ih : ∀ c m, a ∈ (findFrom root rest number c m).map Match.keys ↔
      ∃ b, a = m.keys ++ b ∧ Leads rest c b) :
    a ∈ ((hits key value node found).flatMap fun (m, c) =>
        findFrom root rest number c m).map Match.keys ↔
      ∃ b, a = found.keys ++ b ∧ LeadsOn key value rest node b := by
  rw [List.map_flatMap, List.mem_flatMap]
  constructor
  · rintro ⟨⟨m, c⟩, hhit, ha⟩
    obtain ⟨k, captures, hmem, hs, rfl⟩ := mem_hits.mp hhit
    obtain ⟨b, rfl, hrest⟩ := (ih c _).mp ha
    exact ⟨k :: b, by simp [Match.extend], k, c, b, hmem, by simp [hs], hrest, rfl⟩
  · rintro ⟨b, rfl, k, c, b, hmem, haccept, hrest, rfl⟩
    obtain ⟨captures, hs⟩ := Option.isSome_iff_exists.mp haccept
    refine ⟨(found.extend k captures, c), mem_hits.mpr ⟨k, captures, hmem, hs, rfl⟩, ?_⟩
    exact (ih c _).mpr ⟨b, by simp [Match.extend], hrest⟩

/-- The addresses that segments without `..` find are those they lead to. -/
theorem mem_keys_findFrom_iff {segments : List Segment}
    (hp : ∀ segment ∈ segments, ∃ key value recursive, segment = .step key value recursive)
    {number : Nat} {found : Match} {a : Address} :
    a ∈ (findFrom root segments number node found).map Match.keys ↔
      ∃ b, a = found.keys ++ b ∧ Leads segments node b := by
  induction segments generalizing number node found a with
  | nil =>
      simp only [findFrom, List.map_cons, List.map_nil, List.mem_singleton]
      constructor
      · rintro rfl
        exact ⟨[], by simp, Leads.done node⟩
      · rintro ⟨b, rfl, h⟩
        cases h
        simp
  | cons segment rest ih =>
      obtain ⟨key, value, recursive, rfl⟩ := hp segment List.mem_cons_self
      have hrest : ∀ c m, a ∈ (findFrom root rest (number + 1) c m).map Match.keys ↔
          ∃ b, a = m.keys ++ b ∧ Leads rest c b :=
        fun c m => ih fun s hs => hp s (List.mem_cons_of_mem _ hs)
      cases recursive with
      | false =>
          simp only [findFrom, leads_step_iff]
          exact mem_flatMap_hits_iff hrest
      | true =>
          simp only [findFrom, leads_recursive_iff, List.map_flatMap, List.mem_flatMap]
          constructor
          · rintro ⟨⟨w, n⟩, hreach, ha⟩
            rw [← List.mem_flatMap, ← List.map_flatMap] at ha
            obtain ⟨b, rfl, hon⟩ := (mem_flatMap_hits_iff hrest).mp ha
            exact ⟨w ++ b, by simp [Match.walk], w, n, b, hreach, hon, rfl⟩
          · rintro ⟨_, rfl, w, n, b, hreach, hon, rfl⟩
            refine ⟨(w, n), hreach, ?_⟩
            rw [← List.mem_flatMap, ← List.map_flatMap]
            exact (mem_flatMap_hits_iff hrest).mpr ⟨b, by simp [Match.walk], hon⟩

theorem mem_keys_find_iff {path : Path} (hp : path.ParentFree) {a : Address} :
    a ∈ (path.find root).map Match.keys ↔ Leads path.segments root a := by
  rw [find, mem_keys_findFrom_iff hp]
  simp

end Leads

end Path

end PathRules
