import PathRules.Proofs.DeleteRepetition
import PathRules.Proofs.EntryOrder
import PathRules.Proofs.Shuffles

/-!
# The order of matches in akin trees

The trail of a match is the list of keys that the search has stepped to on the way, those from which
`..` went back up included. Matches are found in the order of their trails: where two trails part at
the elements of a sequence, or one ends, the tree decides which match comes first, and where they
part at the entries of a map the order of the entries does. So akin trees have the same matches but
for swaps of matches whose trails fork at a map. This takes that no text of a container is captured.
-/

namespace PathRules

/-- Two addresses fork if they part at the entries of a map. -/
def Address.forks : Address → Address → Bool
  | .name s :: a, .name s' :: b => if s = s' then forks a b else true
  | .index i :: a, .index j :: b => i == j && forks a b
  | _, _ => false

@[simp] theorem Address.forks_append (w a b : Address) : forks (w ++ a) (w ++ b) = forks a b := by
  induction w with
  | nil => rfl
  | cons k w ih => cases k <;> simp [forks, ih]

theorem Address.forks_symm {a b : Address} (h : forks a b) : forks b a := by
  induction a generalizing b with
  | nil => cases h
  | cons k a ih =>
      cases b with
      | nil => cases k <;> cases h
      | cons k' b =>
          cases k with
          | index i =>
              cases k' with
              | name s => cases h
              | index j =>
                  simp only [forks, Bool.and_eq_true, beq_iff_eq] at h ⊢
                  exact ⟨h.1.symm, ih h.2⟩
          | name s =>
              cases k' with
              | index j => cases h
              | name s' =>
                  by_cases hs : s = s'
                  · subst hs
                    simp only [forks, if_true] at h ⊢
                    exact ih h
                  · simp [forks, Ne.symm hs]

namespace Node

variable {t u : Node} {β : Type}

theorem exists_positions_children {n : Nat} (ht : t.WellFormed) (hn : t.shape = .seq n) :
    ∃ ps : List (Nat × Node), (ps.Pairwise fun a b => a.1 < b.1) ∧
      t.entries = Sparse.named ps ∧ t.children = ps.reverse.map fun p => (.index p.1, p.2) := by
  cases ht with
  | scalar s => cases hn
  | @seq items hx =>
      exact ⟨_, (Sparse.sound_ofList items).ascending, rfl, children_seq items⟩
  | @sparse s hs hx => exact ⟨_, hs.ascending, rfl, children_sparse s⟩
  | map hes hx => cases hn

/-- Akin trees have children under the same keys, and but for maps in the same order. -/
theorem Akin.keys_children (h : Akin t u) (ht : t.WellFormed) (hu : u.WellFormed) :
    (t.children.map Prod.fst).Perm (u.children.map Prod.fst) ∧
      (t.shape ≠ .map → t.children.map Prod.fst = u.children.map Prod.fst) := by
  have hget := h.isSome_get?
  have hshape := h.shape_eq
  cases hs : t.shape with
  | scalar s =>
      cases t <;> cases hs
      cases u <;> cases hshape
      exact ⟨List.Perm.refl _, fun _ => rfl⟩
  | map =>
      cases t <;> cases hs
      cases u <;> cases hshape
      refine ⟨?_, fun hne => absurd rfl hne⟩
      have hkeys := (keys_entries_perm ht hu hget).map Key.name
      simpa [children_map, entries, Entries.keys, Function.comp_def] using hkeys
  | seq n =>
      obtain ⟨ps, hps, hentries, hchildren⟩ := exists_positions_children ht hs
      obtain ⟨qs, hqs, hentries', hchildren'⟩ :=
        exists_positions_children hu (hshape.symm.trans hs)
      rw [hentries, hentries'] at hget
      have hpositions := Sparse.map_fst_eq_of_named hps hqs hget
      have hkeys : t.children.map Prod.fst = u.children.map Prod.fst := by
        have hindex : ∀ rs : List (Nat × Node), (rs.reverse.map fun p => (Key.index p.1, p.2)).map
            Prod.fst = ((rs.map Prod.fst).map Key.index).reverse := by
          intro rs
          simp
        rw [hchildren, hchildren', hindex, hindex, hpositions]
      exact ⟨hkeys ▸ List.Perm.refl _, fun _ => hkeys⟩

theorem WellFormed.nodup_keys_children (ht : t.WellFormed) : (t.children.map Prod.fst).Nodup := by
  have htexts := ht.nodup_texts
  have hmap : t.children.map (fun p => p.1.text) = (t.children.map Prod.fst).map Key.text := by
    rw [List.map_map]
    rfl
  rw [hmap] at htexts
  exact htexts.of_map

theorem exists_name_of_mem_children {k : Key} {c : Node} (ht : t.WellFormed) (hmap : t.shape = .map)
    (hc : (k, c) ∈ t.children) : ∃ s, k = .name s := by
  have hlists := ((mem_children_iff ht).mp hc).1
  rw [hmap] at hlists
  cases k with
  | index i => cases hlists
  | name s => exact ⟨s, rfl⟩

/-- Blocks for the children of akin trees: the two lists are shuffles of each other if the blocks
are, and if the blocks of different entries of a map are free of each other. -/
theorem Akin.shuffle_children {free : β → β → Prop} {F G : Key → Node → List β} (h : Akin t u)
    (ht : t.WellFormed) (hu : u.WellFormed)
    (hblock : ∀ k c c', (k, c) ∈ t.children → (k, c') ∈ u.children →
      Shuffle free (F k c) (G k c'))
    (hfree : ∀ s c s' c', (.name s, c) ∈ t.children → (.name s', c') ∈ t.children → s ≠ s' →
      ∀ x ∈ F (.name s) c, ∀ y ∈ F (.name s') c', free x y) :
    Shuffle free (t.children.flatMap fun p => F p.1 p.2)
      (u.children.flatMap fun p => G p.1 p.2) := by
  let at? := fun (F : Key → Node → List β) (t : Node) k => (t.child? k).elim [] (F k)
  have hkeyed : ∀ (F : Key → Node → List β) (t : Node), t.WellFormed →
      t.children.flatMap (fun p => F p.1 p.2) = (t.children.map Prod.fst).flatMap (at? F t) := by
    intro F t ht
    rw [List.flatMap_map]
    apply List.flatMap_congr
    rintro ⟨k, c⟩ hmem
    simp [at?, child?_of_mem_children ht hmem]
  rw [hkeyed F t ht, hkeyed G u hu]
  obtain ⟨hperm, hsame⟩ := h.keys_children ht hu
  have hordered : Shuffle free ((t.children.map Prod.fst).flatMap (at? F t))
      ((u.children.map Prod.fst).flatMap (at? F t)) := by
    by_cases hmap : t.shape = .map
    · apply Shuffle.flatMap_of_perm hperm ht.nodup_keys_children
      intro k hk k' hk' hne x hx y hy
      obtain ⟨⟨k, c⟩, hc, rfl⟩ := List.mem_map.mp hk
      obtain ⟨⟨k', c'⟩, hc', rfl⟩ := List.mem_map.mp hk'
      obtain ⟨s, rfl⟩ := exists_name_of_mem_children ht hmap hc
      obtain ⟨s', rfl⟩ := exists_name_of_mem_children ht hmap hc'
      simp only [at?, child?_of_mem_children ht hc, child?_of_mem_children ht hc',
        Option.elim_some] at hx hy
      exact hfree s c s' c' hc hc' (fun h => hne (congrArg Key.name h)) x hx y hy
    · rw [hsame hmap]
      exact Shuffle.refl _
  refine hordered.trans (Shuffle.flatMap_congr ?_)
  intro k hk
  obtain ⟨⟨_, c'⟩, hc', rfl⟩ := List.mem_map.mp hk
  obtain ⟨c, hc, -⟩ := h.symm.mem_children hu ht hc'
  simp only [at?, child?_of_mem_children ht hc, child?_of_mem_children hu hc', Option.elim_some]
  exact hblock _ c c' hc hc'

end Node

/-- A match with the keys that the search has stepped to on the way. -/
structure Trail where
  steps : Address
  found : Match

def Trail.after (a : Address) (trail : Trail) : Trail :=
  { trail with steps := a ++ trail.steps }

@[simp] theorem Trail.after_after (a b : Address) (trail : Trail) :
    (trail.after b).after a = trail.after (a ++ b) := by
  simp [after]

theorem Trail.forks_after (a : Address) (x y : Trail) :
    Address.forks (x.after a).steps (y.after a).steps = Address.forks x.steps y.steps :=
  Address.forks_append a x.steps y.steps

namespace Path

section Trails

variable (key : Matcher) (value : Option Matcher) (next : Node → Match → List Trail)

/-- The trails of a step to one of the children of a node with a length. -/
def trailsTo (length : Option Nat) (found : Match) (k : Key) (c : Node) : List Trail :=
  match stepCaptures? key value length k c with
  | none => []
  | some captures => (next c (found.extend k captures)).map (Trail.after [k])

/-- The trails of a step to the children of a node. -/
def trailsOn (node : Node) (found : Match) : List Trail :=
  (Tree.children node).flatMap fun p =>
    trailsTo key value next (Tree.seqLength? node) found p.1 p.2

/-- The trails of a recursive step from a node to which it has walked. -/
def trailsBelow (number : Nat) (walked : Address) (node : Node) (found : Match) : List Trail :=
  (Tree.reach node).flatMap fun (w, n) =>
    (trailsOn key value next n (found.walk number (walked ++ w))).map (Trail.after w)

/-- The trails of a recursive step through a child of a node to which it has walked. -/
def trailsInto (number : Nat) (walked : Address) (found : Match) (k : Key) (c : Node) :
    List Trail :=
  if Tree.isContainer c then
    (trailsBelow key value next number (walked ++ [k]) c found).map (Trail.after [k])
  else []

end Trails

def trailsFrom (root : Node) : List Segment → Nat → Node → Match → List Trail
  | [], _, _, found => [⟨[], found⟩]
  | .parent :: rest, number, _, found =>
      match found.up? with
      | none => []
      | some up =>
          match Tree.lookup root up.keys with
          | none => []
          | some node => trailsFrom root rest (number + 1) node up
  | .step key value false :: rest, number, node, found =>
      trailsOn key value (trailsFrom root rest (number + 1)) node found
  | .step key value true :: rest, number, node, found =>
      trailsBelow key value (trailsFrom root rest (number + 1)) number [] node found

/-- All matches of a path with their trails. -/
def trails (path : Path) (root : Node) : List Trail :=
  trailsFrom root path.segments 0 root {}

section Found

variable {key : Matcher} {value : Option Matcher} {root : Node}

theorem map_found_trailsOn {next : Node → Match → List Trail} {find : Node → Match → List Match}
    (h : ∀ c m, (next c m).map Trail.found = find c m) (node : Node) (found : Match) :
    (trailsOn key value next node found).map Trail.found =
      (hits key value node found).flatMap fun (m, c) => find c m := by
  rw [trailsOn, hits, List.map_flatMap, List.filterMap_eq_flatMap_toList, List.flatMap_assoc]
  apply List.flatMap_congr
  rintro ⟨k, c⟩ -
  cases hs : stepCaptures? key value (Tree.seqLength? node) k c with
  | none => simp [trailsTo, hs]
  | some captures => simp [trailsTo, hs, ← h, Function.comp_def, Trail.after]

/-- The trails are those of the matches, in their order. -/
theorem map_found_trailsFrom (segments : List Segment) (number : Nat) (node : Node)
    (found : Match) : (trailsFrom root segments number node found).map Trail.found =
      findFrom root segments number node found := by
  induction segments generalizing number node found with
  | nil => rfl
  | cons segment rest ih =>
      match segment with
      | .parent =>
          simp only [trailsFrom, findFrom]
          cases found.up? with
          | none => rfl
          | some up =>
              cases hl : Tree.lookup root up.keys with
              | none => simp [hl]
              | some n => simpa [hl] using ih (number + 1) n up
      | .step key value false =>
          exact map_found_trailsOn (ih (number + 1)) node found
      | .step key value true =>
          simp only [trailsFrom, findFrom, trailsBelow, List.map_flatMap, List.map_map]
          apply List.flatMap_congr
          rintro ⟨w, n⟩ -
          exact map_found_trailsOn (ih (number + 1)) n (found.walk number w)

theorem map_found_trails (path : Path) (root : Node) :
    (path.trails root).map Trail.found = path.find root :=
  map_found_trailsFrom path.segments 0 root {}

end Found

section Order

variable {root root' node node' c c' : Node} {key : Matcher} {value : Option Matcher}
  {rest segments : List Segment} {number : Nat} {found : Match} {k : Key} {trail : Trail}
  {next next' : Node → Match → List Trail} {free : Trail → Trail → Prop}

theorem mem_trailsTo {length : Option Nat} :
    trail ∈ trailsTo key value next length found k c ↔ ∃ captures,
      stepCaptures? key value length k c = some captures ∧
        ∃ t ∈ next c (found.extend k captures), t.after [k] = trail := by
  cases hs : stepCaptures? key value length k c <;> simp [trailsTo, hs]

theorem mem_trailsOn : trail ∈ trailsOn key value next node found ↔
    ∃ k c, (k, c) ∈ Tree.children node ∧
      trail ∈ trailsTo key value next (Tree.seqLength? node) found k c := by
  simp [trailsOn]

theorem stepCaptures?_akin {length : Option Nat} (h : Node.Akin c c')
    (hscalar : ∀ captures, stepCaptures? key value length k c = some captures →
      value = some .any → c.isContainer = false) :
    stepCaptures? key value length k c' = stepCaptures? key value length k c := by
  cases hc : c.isContainer with
  | false =>
      have hform := h.form_eq
      cases c with
      | scalar s =>
          cases c' <;> cases hform
          rfl
      | seq items => cases hc
      | sparse s => cases hc
      | map es => cases hc
  | true =>
      have hcont : Tree.isContainer c = true := hc
      have hcont' : Tree.isContainer c' = true :=
        (Node.isContainer_eq_of_shape_eq h.shape_eq).symm.trans hc
      cases value with
      | none => rfl
      | some m =>
          cases hk : key.matchKey? k length with
          | none => simp [stepCaptures?, hk]
          | some captures =>
              cases m with
              | any =>
                  have hstep : stepCaptures? key (some .any) length k c =
                      some (captures ++ [Tree.spelling c]) := by
                    simp [stepCaptures?, hk, Matcher.matchValue?]
                  rw [hscalar _ hstep rfl] at hc
                  cases hc
              | literal s => simp [stepCaptures?, hk, Matcher.matchValue?, hcont, hcont']
              | pattern p => simp [stepCaptures?, hk, Matcher.matchValue?, hcont, hcont']
              | range a b i => simp [stepCaptures?, hk, Matcher.matchValue?, hcont, hcont']

theorem shuffle_trailsOn (h : Node.Akin node node') (hwf : node.WellFormed)
    (hwf' : node'.WellFormed)
    (hscalar : ∀ k c captures, (k, c) ∈ Tree.children node →
      stepCaptures? key value (Tree.seqLength? node) k c = some captures →
      value = some .any → c.isContainer = false)
    (hnext : ∀ k c c' captures, (k, c) ∈ Tree.children node → (k, c') ∈ Tree.children node' →
      stepCaptures? key value (Tree.seqLength? node) k c = some captures →
      ∀ free : Trail → Trail → Prop,
        (∀ x ∈ next c (found.extend k captures), ∀ y ∈ next c (found.extend k captures),
          Address.forks x.steps y.steps → free x y) →
        Shuffle free (next c (found.extend k captures)) (next' c' (found.extend k captures)))
    (hfree : ∀ x ∈ trailsOn key value next node found, ∀ y ∈ trailsOn key value next node found,
      Address.forks x.steps y.steps → free x y) :
    Shuffle free (trailsOn key value next node found) (trailsOn key value next' node' found) := by
  have hlength : Tree.seqLength? node' = Tree.seqLength? node :=
    Node.seqLength?_eq_of_shape_eq h.shape_eq.symm
  rw [trailsOn, trailsOn, hlength]
  apply h.shuffle_children hwf hwf'
  · intro k c c' hc hc'
    have hsame := stepCaptures?_akin (h.of_mem_children hwf hwf' hc hc')
      fun captures hs => hscalar k c captures hc hs
    simp only [trailsTo]
    rw [hsame]
    cases hs : stepCaptures? key value (Tree.seqLength? node) k c with
    | none => exact Shuffle.refl _
    | some captures =>
        refine Shuffle.map (hnext k c c' captures hc hc' hs
          (fun x y => free (x.after [k]) (y.after [k])) ?_) fun _ _ _ _ hxy => hxy
        intro x hx y hy hforks
        have hmem : ∀ z ∈ next c (found.extend k captures),
            z.after [k] ∈ trailsOn key value next node found := fun z hz =>
          mem_trailsOn.mpr ⟨k, c, hc, mem_trailsTo.mpr ⟨captures, hs, z, hz, rfl⟩⟩
        exact hfree _ (hmem x hx) _ (hmem y hy) (by rwa [Trail.forks_after])
  · intro s c s' c' hc hc' hne x hx y hy
    obtain ⟨-, -, x, -, rfl⟩ := mem_trailsTo.mp hx
    obtain ⟨-, -, y, -, rfl⟩ := mem_trailsTo.mp hy
    exact hfree _ (mem_trailsOn.mpr ⟨_, c, hc, hx⟩) _ (mem_trailsOn.mpr ⟨_, c', hc', hy⟩)
      (by simp [Trail.after, Address.forks, hne])

theorem mem_trailsInto {walked : Address} :
    trail ∈ trailsInto key value next number walked found k c ↔ Tree.isContainer c ∧
      ∃ t ∈ trailsBelow key value next number (walked ++ [k]) c found, t.after [k] = trail := by
  by_cases hc : Tree.isContainer c <;> simp [trailsInto, hc]

theorem trailsBelow_eq (key : Matcher) (value : Option Matcher)
    (next : Node → Match → List Trail) (number : Nat) (walked : Address) (node : Node)
    (found : Match) :
    trailsBelow key value next number walked node found =
      ((Tree.children node).flatMap fun p =>
        trailsInto key value next number walked found p.1 p.2) ++
      trailsOn key value next node (found.walk number walked) := by
  rw [trailsBelow, Tree.reach_eq, List.flatMap_append, List.flatMap_assoc]
  congr 1
  · apply List.flatMap_congr
    rintro ⟨k, c⟩ -
    by_cases hc : Tree.isContainer c
    · simp [trailsInto, hc, trailsBelow, List.flatMap_map, List.map_flatMap, Function.comp_def]
    · simp [trailsInto, hc]
  · have hnil : Trail.after [] = id := rfl
    simp [hnil]

/-- The trails below a node are shuffled if those of the step are at every node that it reaches. -/
theorem shuffle_trailsBelow {walked : Address} (h : Node.Akin node node') (hwf : node.WellFormed)
    (hwf' : node'.WellFormed)
    (hon : ∀ w n n', (w, n) ∈ Tree.reach node → Tree.At node' w n' →
      ∀ free : Trail → Trail → Prop,
        (∀ x ∈ trailsOn key value next n (found.walk number (walked ++ w)),
          ∀ y ∈ trailsOn key value next n (found.walk number (walked ++ w)),
          Address.forks x.steps y.steps → free x y) →
        Shuffle free (trailsOn key value next n (found.walk number (walked ++ w)))
          (trailsOn key value next' n' (found.walk number (walked ++ w))))
    (hfree : ∀ x ∈ trailsBelow key value next number walked node found,
      ∀ y ∈ trailsBelow key value next number walked node found,
      Address.forks x.steps y.steps → free x y) :
    Shuffle free (trailsBelow key value next number walked node found)
      (trailsBelow key value next' number walked node' found) := by
  induction node using Tree.induction generalizing node' walked free with
  | step node ih =>
      rw [trailsBelow_eq key value next number walked node found] at hfree ⊢
      rw [trailsBelow_eq key value next' number walked node' found]
      apply Shuffle.append
      · have hinto : ∀ {k c x}, (k, c) ∈ Tree.children node →
            x ∈ trailsInto key value next number walked found k c →
            x ∈ ((Tree.children node).flatMap fun p =>
              trailsInto key value next number walked found p.1 p.2) ++
              trailsOn key value next node (found.walk number walked) := fun hc hx =>
          List.mem_append_left _ (List.mem_flatMap.mpr ⟨_, hc, hx⟩)
        apply h.shuffle_children hwf hwf'
        · intro k c c' hc hc'
          have hcc := h.of_mem_children hwf hwf' hc hc'
          have hsame : Tree.isContainer c' = Tree.isContainer c :=
            Node.isContainer_eq_of_shape_eq hcc.shape_eq.symm
          by_cases hcont : Tree.isContainer c
          · rw [trailsInto, trailsInto, hsame, if_pos hcont, if_pos hcont]
            suffices hbelow : Shuffle (fun x y => free (x.after [k]) (y.after [k]))
                (trailsBelow key value next number (walked ++ [k]) c found)
                (trailsBelow key value next' number (walked ++ [k]) c' found) from
              hbelow.map fun _ _ _ _ hxy => hxy
            apply ih k c hc hcc (hwf.of_mem_children hc) (hwf'.of_mem_children hc')
            · intro w n n' hn hn'
              have hbelow := hon (k :: w) n n'
                (mem_reach_iff.mpr (Or.inr ⟨k, c, w, rfl, hc, hcont, hn⟩)) (Tree.At.child hc' hn')
              rwa [List.append_cons] at hbelow
            · intro x hx y hy hforks
              exact hfree _ (hinto hc (mem_trailsInto.mpr ⟨hcont, x, hx, rfl⟩)) _
                (hinto hc (mem_trailsInto.mpr ⟨hcont, y, hy, rfl⟩)) (by rwa [Trail.forks_after])
          · rw [trailsInto, trailsInto, hsame, if_neg hcont, if_neg hcont]
            exact Shuffle.refl _
        · intro s c s' c' hc hc' hne x hx y hy
          obtain ⟨-, x, -, rfl⟩ := mem_trailsInto.mp hx
          obtain ⟨-, y, -, rfl⟩ := mem_trailsInto.mp hy
          exact hfree _ (hinto hc hx) _ (hinto hc' hy) (by simp [Trail.after, Address.forks, hne])
      · have hroot := hon [] node node' (mem_reach_iff.mpr (Or.inl ⟨rfl, rfl⟩))
          (Tree.At.root node')
        rw [List.append_nil] at hroot
        exact hroot free fun x hx y hy =>
          hfree x (List.mem_append_right _ hx) y (List.mem_append_right _ hy)

/-- Every value that a segment captures the text of, without asking for more than a value, is a
scalar. -/
def ReadsScalarsFrom (root : Node) (segments : List Segment) (number : Nat) (node : Node)
    (found : Match) : Prop :=
  ∀ before key recursive after, segments = before ++ .step key (some .any) recursive :: after →
    ∀ m ∈ findFrom root (before ++ [.step key (some .any) recursive]) number node found,
      ∀ n, Tree.lookup root m.keys = some n → n.isContainer = false

/-- No text of a container is captured on the way to a match of the path. -/
def ReadsScalars (path : Path) (root : Node) : Prop :=
  ReadsScalarsFrom root path.segments 0 root {}

/-- What holds of the scalars read by all the segments holds of those read by the first and by the
rest, at every match of the first. -/
theorem ReadsScalarsFrom.tail {segment : Segment} {m : Match} {n : Node}
    (h : ReadsScalarsFrom root (segment :: rest) number node found)
    (hfirst : ∀ segments, ∀ m' ∈ findFrom root segments (number + 1) n m,
      m' ∈ findFrom root (segment :: segments) number node found) :
    ReadsScalarsFrom root rest (number + 1) n m := by
  intro before key recursive after hrest m' hm'
  exact h (segment :: before) key recursive after (by rw [hrest]; rfl) m' (hfirst _ m' hm')

theorem shuffle_trailsFrom (hroot : Node.Akin root root') (hwf : root.WellFormed)
    (hwf' : root'.WellFormed) (hnode : Tree.At root found.keys node)
    (hnode' : Tree.At root' found.keys node')
    (hreads : ReadsScalarsFrom root segments number node found)
    (hfree : ∀ x ∈ trailsFrom root segments number node found,
      ∀ y ∈ trailsFrom root segments number node found,
      Address.forks x.steps y.steps → free x y) :
    Shuffle free (trailsFrom root segments number node found)
      (trailsFrom root' segments number node' found) := by
  -- Along the segments, with the two searches always at the same address.
  induction segments generalizing number node node' found free with
  | nil => exact Shuffle.refl _
  | cons segment rest ih =>
      have hstep : ∀ {n n' : Node} {key value m}, Tree.At root m.keys n → Tree.At root' m.keys n' →
          (∀ k c captures, (k, c) ∈ Tree.children n →
            stepCaptures? key value (Tree.seqLength? n) k c = some captures →
            ReadsScalarsFrom root rest (number + 1) c (m.extend k captures) ∧
              (value = some .any → c.isContainer = false)) →
          ∀ free : Trail → Trail → Prop,
          (∀ x ∈ trailsOn key value (trailsFrom root rest (number + 1)) n m,
            ∀ y ∈ trailsOn key value (trailsFrom root rest (number + 1)) n m,
            Address.forks x.steps y.steps → free x y) →
          Shuffle free (trailsOn key value (trailsFrom root rest (number + 1)) n m)
            (trailsOn key value (trailsFrom root' rest (number + 1)) n' m) := by
        intro n n' key value m hn hn' hread free hfree
        apply shuffle_trailsOn (hroot.of_at hwf hwf' hn hn') (hn.wellFormed hwf)
          (hn'.wellFormed hwf')
        · exact fun k c captures hc hs => (hread k c captures hc hs).2
        · intro k c c' captures hc hc' hs free hfree
          exact ih (hn.append (Tree.At.child hc (Tree.At.root c)))
            (hn'.append (Tree.At.child hc' (Tree.At.root c'))) (hread k c captures hc hs).1 hfree
        · exact hfree
      match segment with
      | .parent =>
          simp only [trailsFrom] at hfree ⊢
          cases hup : found.up? with
          | none => exact Shuffle.refl _
          | some up =>
              obtain ⟨n, hn⟩ := hnode.exists_dropLast
              obtain ⟨n', hn'⟩ := hnode'.exists_dropLast
              rw [← Match.keys_of_up? hup] at hn hn'
              simp only [hup, hn.lookup_eq hwf, hn'.lookup_eq hwf'] at hfree ⊢
              refine ih hn hn' (hreads.tail fun segments m' hm' => ?_) hfree
              simpa only [findFrom, hup, hn.lookup_eq hwf] using hm'
      | .step key value false =>
          refine hstep hnode hnode' (fun k c captures hc hs => ?_) free hfree
          have hhit : (found.extend k captures, c) ∈ hits key value node found :=
            mem_hits.mpr ⟨k, captures, hc, hs, rfl⟩
          refine ⟨hreads.tail fun segments m' hm' => ?_, ?_⟩
          · exact List.mem_flatMap.mpr ⟨_, hhit, hm'⟩
          · rintro rfl
            refine hreads [] key false rest rfl (found.extend k captures) ?_ c ?_
            · exact List.mem_flatMap.mpr ⟨_, hhit, List.mem_singleton_self _⟩
            · exact (at_of_mem_hits hnode hhit).lookup_eq hwf
      | .step key value true =>
          refine shuffle_trailsBelow (hroot.of_at hwf hwf' hnode hnode') (hnode.wellFormed hwf)
            (hnode'.wellFormed hwf') ?_ hfree
          intro w n n' hw hn' free hfree
          have hn : Tree.At root (found.walk number w).keys n :=
            hnode.append (at_of_mem_reach hw)
          refine hstep hn (hnode'.append hn') (fun k c captures hc hs => ?_) free hfree
          have hhit : ((found.walk number w).extend k captures, c) ∈
              hits key value n (found.walk number w) := mem_hits.mpr ⟨k, captures, hc, hs, rfl⟩
          refine ⟨hreads.tail fun segments m' hm' => ?_, ?_⟩
          · exact List.mem_flatMap.mpr ⟨(w, n), hw, List.mem_flatMap.mpr ⟨_, hhit, hm'⟩⟩
          · rintro rfl
            refine hreads [] key true rest rfl ((found.walk number w).extend k captures) ?_ c ?_
            · exact List.mem_flatMap.mpr ⟨(w, n), hw,
                List.mem_flatMap.mpr ⟨_, hhit, List.mem_singleton_self _⟩⟩
            · exact (at_of_mem_hits hn hhit).lookup_eq hwf

/-- Akin trees have the same matches, up to swaps of matches whose trails fork at a map. -/
theorem shuffle_trails {path : Path} (h : Node.Akin root root') (hwf : root.WellFormed)
    (hwf' : root'.WellFormed) (hreads : path.ReadsScalars root)
    (hfree : ∀ x ∈ path.trails root, ∀ y ∈ path.trails root,
      Address.forks x.steps y.steps → free x y) :
    Shuffle free (path.trails root) (path.trails root') :=
  shuffle_trailsFrom h hwf hwf' (Tree.At.root root) (Tree.At.root root') hreads hfree

end Order

end Path

/-- Whether a part accepts some texts only. -/
def Matcher.narrows : Matcher → Bool
  | any => false
  | _ => true

/-- The segment without a part that accepts any value. -/
def Segment.blind : Segment → Segment
  | .parent => .parent
  | .step key value recursive => .step key (value.filter Matcher.narrows) recursive

/-- Where a trail goes, apart from what is captured on the way. -/
def Trail.course (trail : Trail) : Address × Address :=
  (trail.steps, trail.found.keys)

theorem Trail.map_course_after (a : Address) (trails : List Trail) :
    (trails.map (after a)).map course = (trails.map course).map fun p => (a ++ p.1, p.2) := by
  simp [after, course]

namespace Path

/-- The path that makes the same steps and captures no text of a container. -/
def blind (path : Path) : Path :=
  { path with segments := path.segments.map Segment.blind }

theorem readsScalars_of_not_mem {path : Path}
    (h : ∀ key recursive, .step key (some .any) recursive ∉ path.segments) (root : Node) :
    path.ReadsScalars root := by
  intro before key recursive after hsegments
  exact absurd (by rw [hsegments]; simp) (h key recursive)

theorem readsScalars_blind (path : Path) (root : Node) : path.blind.ReadsScalars root := by
  apply readsScalars_of_not_mem
  intro key recursive hmem
  obtain ⟨segment, -, hblind⟩ := List.mem_map.mp hmem
  cases segment with
  | parent => cases hblind
  | step key' value recursive' =>
      simp only [Segment.blind, Segment.step.injEq, Option.filter_eq_some_iff] at hblind
      cases hblind.2.1.2

section Courses

variable {root : Node} {key : Matcher} {value value' : Option Matcher}
  {next next' : Node → Match → List Trail} {found found' : Match}

theorem map_course_trailsOn (hkeys : found.keys = found'.keys)
    (haccept : ∀ length k (c : Node), (stepCaptures? key value length k c).isSome =
      (stepCaptures? key value' length k c).isSome)
    (hnext : ∀ c m m', m.keys = m'.keys →
      (next c m).map Trail.course = (next' c m').map Trail.course) (node : Node) :
    (trailsOn key value next node found).map Trail.course =
      (trailsOn key value' next' node found').map Trail.course := by
  rw [trailsOn, trailsOn, List.map_flatMap, List.map_flatMap]
  apply List.flatMap_congr
  rintro ⟨k, c⟩ -
  have hsome := haccept (Tree.seqLength? node) k c
  cases hs : stepCaptures? key value (Tree.seqLength? node) k c with
  | none =>
      rw [hs] at hsome
      cases hs' : stepCaptures? key value' (Tree.seqLength? node) k c with
      | none => simp [trailsTo, hs, hs']
      | some captures' =>
          rw [hs'] at hsome
          cases hsome
  | some captures =>
      rw [hs] at hsome
      obtain ⟨captures', hs'⟩ := Option.isSome_iff_exists.mp hsome.symm
      have hcourses := hnext c (found.extend k captures) (found'.extend k captures')
        (by simp [Match.extend, hkeys])
      simp only [trailsTo, hs, hs', Trail.map_course_after, hcourses]

theorem isSome_stepCaptures?_filter (value : Option Matcher) (length : Option Nat) (k : Key)
    (c : Node) : (stepCaptures? key (value.filter Matcher.narrows) length k c).isSome =
      (stepCaptures? key value length k c).isSome := by
  match value with
  | none => rfl
  | some (.literal s) => rfl
  | some (.pattern p) => rfl
  | some (.range a b i) => rfl
  | some .any =>
      have hnone : (some Matcher.any).filter Matcher.narrows = none := rfl
      rw [hnone]
      cases hk : key.matchKey? k length <;> simp [stepCaptures?, hk, Matcher.matchValue?]

theorem map_course_trailsFrom_blind (segments : List Segment) (number : Nat) (node : Node)
    (hkeys : found.keys = found'.keys) :
    (trailsFrom root (segments.map Segment.blind) number node found).map Trail.course =
      (trailsFrom root segments number node found').map Trail.course := by
  induction segments generalizing number node found found' with
  | nil => simp [trailsFrom, Trail.course, hkeys]
  | cons segment rest ih =>
      match segment with
      | .parent =>
          simp only [List.map_cons, Segment.blind, trailsFrom]
          cases hup : found.up? with
          | none =>
              cases hup' : found'.up? with
              | none => rfl
              | some up' =>
                  obtain ⟨up, hsome, -⟩ := Match.exists_up? hkeys hup'
                  rw [hup] at hsome
                  cases hsome
          | some up =>
              obtain ⟨up', hup', hsame⟩ := Match.exists_up? hkeys.symm hup
              simp only [hup', hsame]
              cases Tree.lookup root up.keys with
              | none => rfl
              | some n => exact ih (number + 1) n hsame.symm
      | .step key value false =>
          exact map_course_trailsOn hkeys (isSome_stepCaptures?_filter value)
            (fun c m m' hm => ih (number + 1) c hm) node
      | .step key value true =>
          simp only [List.map_cons, Segment.blind, trailsFrom, trailsBelow, List.map_flatMap]
          apply List.flatMap_congr
          rintro ⟨w, n⟩ -
          rw [Trail.map_course_after, Trail.map_course_after]
          congr 1
          exact map_course_trailsOn (by simp [Match.walk, hkeys])
            (isSome_stepCaptures?_filter value) (fun c m m' hm => ih (number + 1) c hm) n

/-- Without the captures the path has the same trails. -/
theorem map_course_trails_blind (path : Path) (root : Node) :
    (path.blind.trails root).map Trail.course = (path.trails root).map Trail.course :=
  map_course_trailsFrom_blind path.segments 0 root rfl

end Courses

/-- Of two matches whose trails fork at a map none is strictly below the other. -/
def Steady (path : Path) (root : Node) : Prop :=
  ∀ x ∈ path.trails root, ∀ y ∈ path.trails root, Address.forks x.steps y.steps →
    x.found.keys <+: y.found.keys → x.found.keys = y.found.keys

/-- The locations that a steady path finds in akin trees, up to swaps of locations of which none is
strictly below the other. -/
theorem shuffle_keys_find {path : Path} {root root' : Node} (h : Node.Akin root root')
    (hwf : root.WellFormed) (hwf' : root'.WellFormed) (hpath : path.Steady root) :
    Shuffle (fun a b => (a <+: b → a = b) ∧ (b <+: a → b = a))
      ((path.find root).map Match.keys) ((path.find root').map Match.keys) := by
  have hkeys : ∀ t : Node, (path.find t).map Match.keys =
      ((path.blind.trails t).map Trail.course).map Prod.snd := by
    intro t
    rw [map_course_trails_blind, ← map_found_trails, List.map_map, List.map_map]
    rfl
  rw [hkeys, hkeys]
  let apart : Address × Address → Address × Address → Prop := fun p q =>
    (p.2 <+: q.2 → p.2 = q.2) ∧ (q.2 <+: p.2 → q.2 = p.2)
  have hapart : ∀ x ∈ path.blind.trails root, ∀ y ∈ path.blind.trails root,
      Address.forks x.steps y.steps → apart x.course y.course := by
    intro x hx y hy hforks
    have hmem : ∀ z ∈ path.blind.trails root, ∃ z' ∈ path.trails root, z'.course = z.course := by
      intro z hz
      have hcourse := List.mem_map_of_mem (f := Trail.course) hz
      rw [map_course_trails_blind] at hcourse
      exact List.mem_map.mp hcourse
    obtain ⟨x', hx', hcx⟩ := hmem x hx
    obtain ⟨y', hy', hcy⟩ := hmem y hy
    have hsteps : Address.forks x'.steps y'.steps := by
      have hx := congrArg Prod.fst hcx
      have hy := congrArg Prod.fst hcy
      simp only [Trail.course] at hx hy
      rwa [hx, hy]
    rw [← hcx, ← hcy]
    exact ⟨hpath x' hx' y' hy' hsteps, hpath y' hy' x' hx' (Address.forks_symm hsteps)⟩
  have htrails : Shuffle (fun x y => apart x.course y.course) (path.blind.trails root)
      (path.blind.trails root') := shuffle_trails h hwf hwf' (readsScalars_blind path root) hapart
  exact (htrails.map fun _ _ _ _ hxy => hxy).map fun _ _ _ _ hxy => hxy

theorem keys_of_mem_trailsFrom {root node : Node} {segments : List Segment} {number : Nat}
    {found : Match} {trail : Trail}
    (hp : ∀ segment ∈ segments, ∃ key value recursive, segment = .step key value recursive)
    (h : trail ∈ trailsFrom root segments number node found) :
    trail.found.keys = found.keys ++ trail.steps := by
  induction segments generalizing number node found trail with
  | nil =>
      rw [trailsFrom, List.mem_singleton] at h
      simp [h]
  | cons segment rest ih =>
      obtain ⟨⟨key, value, recursive, rfl⟩, hrest⟩ := List.forall_mem_cons.mp hp
      have hon : ∀ {n : Node} {m : Match} {x : Trail},
          x ∈ trailsOn key value (trailsFrom root rest (number + 1)) n m →
          x.found.keys = m.keys ++ x.steps := by
        intro n m x hx
        obtain ⟨k, c, -, hx⟩ := mem_trailsOn.mp hx
        obtain ⟨captures, -, y, hy, rfl⟩ := mem_trailsTo.mp hx
        have hkeys := ih hrest hy
        simpa [Trail.after, Match.extend] using hkeys
      cases recursive with
      | false => exact hon h
      | true =>
          obtain ⟨⟨w, n⟩, -, h⟩ := List.mem_flatMap.mp h
          obtain ⟨x, hx, rfl⟩ := List.mem_map.mp h
          have hkeys := hon hx
          simpa [Trail.after, Match.walk] using hkeys

/-- The trail of a match is its address if the path never goes back up, so a path without `..` is
steady in every tree. -/
theorem ParentFree.steady {path : Path} (hpath : path.ParentFree) (root : Node) :
    path.Steady root := by
  intro x hx y hy hforks hprefix
  obtain ⟨rest, hrest⟩ := hprefix
  have hsteps : x.steps ++ rest = y.steps := by
    rw [keys_of_mem_trailsFrom hpath hx, keys_of_mem_trailsFrom hpath hy] at hrest
    simpa using hrest
  have hnot := Address.forks_append x.steps [] rest
  rw [List.append_nil, hsteps, hforks] at hnot
  cases hnot

end Path

end PathRules
