import PathRules.Proofs.DeletePositions

/-!
# Repeating a delete

Removing locations brings no new match to light, not even for a path that goes back up: what is
left is a part of the tree, and every step taken through a part can be taken through the tree, to
the same address. So a path finds nothing after its own delete but the root, which stays where it
is, and a repetition of the delete changes nothing.
-/

namespace PathRules

namespace Node

variable {K : Place → Prop} {src t n n' : Node}

theorem Part.exists_at {a : Address} (h : Part K src t) (hsrc : src.WellFormed)
    (ht : t.WellFormed) (ha : Tree.At t a n) : ∃ K' n', Tree.At src a n' ∧ Part K' n' n := by
  induction ha generalizing K src with
  | root t => exact ⟨K, src, Tree.At.root src, h⟩
  | child hmem _ ih =>
      obtain ⟨c, hc, hpart⟩ := h.mem_children hsrc ht hmem
      obtain ⟨K', n', hn', hbelow⟩ := ih hpart (hsrc.of_mem_children hc) (ht.of_mem_children hmem)
      exact ⟨K', n', Tree.At.child hc hn', hbelow⟩

theorem Part.of_at {a : Address} (h : Part K src t) (hsrc : src.WellFormed) (ht : t.WellFormed)
    (ha : Tree.At t a n) (ha' : Tree.At src a n') : ∃ K', Part K' n' n := by
  obtain ⟨K', n'', hn'', hpart⟩ := h.exists_at hsrc ht ha
  have hsame : n'' = n' :=
    Option.some.inj ((hn''.lookup_eq hsrc).symm.trans (ha'.lookup_eq hsrc))
  exact ⟨K', hsame ▸ hpart⟩

theorem Part.mem_reach {w : Address} (h : Part K src t) (hsrc : src.WellFormed)
    (ht : t.WellFormed) (hw : (w, n) ∈ Tree.reach t) : ∃ n', (w, n') ∈ Tree.reach src := by
  induction w generalizing K src t with
  | nil => exact ⟨src, Path.mem_reach_iff.mpr (Or.inl ⟨rfl, rfl⟩)⟩
  | cons k w ih =>
      rcases Path.mem_reach_iff.mp hw with ⟨hnil, -⟩ | ⟨_, c', _, hcons, hmem, hcont, hreach⟩
      · cases hnil
      · cases hcons
        obtain ⟨c, hc, hpart⟩ := h.mem_children hsrc ht hmem
        have hsame : Tree.isContainer c' = Tree.isContainer c :=
          isContainer_eq_of_shape_eq hpart.shape_eq
        obtain ⟨n', hn'⟩ := ih hpart (hsrc.of_mem_children hc) (ht.of_mem_children hmem) hreach
        exact ⟨n', Path.mem_reach_iff.mpr (Or.inr ⟨k, c, w, rfl, hc, hsame ▸ hcont, hn'⟩)⟩

end Node

namespace Match

theorem exists_up? {m m' up : Match} (hkeys : m'.keys = m.keys) (hup : m.up? = some up) :
    ∃ up', m'.up? = some up' ∧ up'.keys = up.keys := by
  have hup' := keys_of_up? hup
  simp only [up?] at hup
  split at hup
  · cases hup
  · rename_i hne
    exact ⟨{ m' with keys := m'.keys.dropLast }, by rw [up?, hkeys, if_neg hne],
      by rw [hup', ← hkeys]⟩

end Match

namespace Path

variable {K : Place → Prop} {src t node node' : Node}

theorem exists_hit_of_part {key : Matcher} {value : Option Matcher} {c : Node}
    {found found' m : Match} (h : node'.Part K node) (hnode' : node'.WellFormed)
    (hnode : node.WellFormed) (hkeys : found'.keys = found.keys)
    (hm : (m, c) ∈ hits key value node found) :
    ∃ m' c', (m', c') ∈ hits key value node' found' ∧ m'.keys = m.keys := by
  obtain ⟨k, captures, hmem, hs, rfl⟩ := mem_hits.mp hm
  obtain ⟨c', hc', hpart⟩ := h.mem_children hnode' hnode hmem
  have hlen : Tree.seqLength? node = Tree.seqLength? node' :=
    Node.seqLength?_eq_of_shape_eq h.shape_eq
  have haccept : (stepCaptures? key value (Tree.seqLength? node') k c').isSome := by
    rw [← hlen, ← isSome_stepCaptures?_congr hpart.shape_eq, hs]
    rfl
  obtain ⟨captures', hs'⟩ := Option.isSome_iff_exists.mp haccept
  exact ⟨_, c', mem_hits.mpr ⟨k, captures', hc', hs', rfl⟩, by simp [Match.extend, hkeys]⟩

/-- What segments find in a part of a tree they find in the tree, also on ways that go back up. -/
theorem mem_keys_findFrom_of_part {segments : List Segment} {number number' : Nat}
    {found found' : Match} {a : Address} (h : src.Part K t) (hsrc : src.WellFormed)
    (ht : t.WellFormed) (hnode : Tree.At t found.keys node)
    (hnode' : Tree.At src found'.keys node') (hkeys : found'.keys = found.keys)
    (ha : a ∈ (findFrom t segments number node found).map Match.keys) :
    a ∈ (findFrom src segments number' node' found').map Match.keys := by
  -- Along the segments, with the two searches always at the same address.
  induction segments generalizing number number' node node' found found' with
  | nil => simpa [findFrom, hkeys] using ha
  | cons segment rest ih =>
      obtain ⟨K', hpart⟩ := h.of_at hsrc ht hnode (hkeys ▸ hnode')
      have hwf := hnode.wellFormed ht
      have hwf' := hnode'.wellFormed hsrc
      cases segment with
      | parent =>
          simp only [findFrom] at ha ⊢
          cases hup : found.up? with
          | none => simp [hup] at ha
          | some up =>
              cases hl : Tree.lookup t up.keys with
              | none => simp [hup, hl] at ha
              | some n =>
                  simp only [hup, hl] at ha
                  obtain ⟨up', hup', hsame⟩ := Match.exists_up? hkeys hup
                  obtain ⟨n₀, hn₀⟩ := hnode.exists_dropLast
                  rw [← Match.keys_of_up? hup] at hn₀
                  cases (hn₀.lookup_eq ht).symm.trans hl
                  obtain ⟨-, n', hn', -⟩ := h.exists_at hsrc ht hn₀
                  rw [← hsame] at hn'
                  simp only [hup', hn'.lookup_eq hsrc]
                  exact ih hn₀ hn' hsame ha
      | step key value recursive =>
          cases recursive with
          | false =>
              simp only [findFrom, List.map_flatMap, List.mem_flatMap] at ha ⊢
              obtain ⟨⟨m, c⟩, hhit, ha⟩ := ha
              obtain ⟨m', c', hhit', hsame⟩ := exists_hit_of_part hpart hwf' hwf hkeys hhit
              exact ⟨(m', c'), hhit', ih (at_of_mem_hits hnode hhit) (at_of_mem_hits hnode' hhit')
                hsame ha⟩
          | true =>
              simp only [findFrom, List.map_flatMap, List.mem_flatMap] at ha ⊢
              obtain ⟨⟨w, n⟩, hreach, ⟨m, c⟩, hhit, ha⟩ := ha
              obtain ⟨n', hreach'⟩ := hpart.mem_reach hwf' hwf hreach
              have hn : Tree.At t (found.walk number w).keys n :=
                hnode.append (at_of_mem_reach hreach)
              have hn' : Tree.At src (found'.walk number' w).keys n' :=
                hnode'.append (at_of_mem_reach hreach')
              have hwalk : (found'.walk number' w).keys = (found.walk number w).keys := by
                simp [Match.walk, hkeys]
              obtain ⟨K'', hpart'⟩ := h.of_at hsrc ht hn (hwalk ▸ hn')
              obtain ⟨m', c', hhit', hsame⟩ := exists_hit_of_part hpart' (hn'.wellFormed hsrc)
                (hn.wellFormed ht) hwalk hhit
              exact ⟨(w, n'), hreach', (m', c'), hhit', ih (at_of_mem_hits hn hhit)
                (at_of_mem_hits hn' hhit') hsame ha⟩

theorem mem_keys_find_of_part {path : Path} {a : Address} (h : src.Part K t)
    (hsrc : src.WellFormed) (ht : t.WellFormed) (ha : a ∈ (path.find t).map Match.keys) :
    a ∈ (path.find src).map Match.keys :=
  mem_keys_findFrom_of_part h hsrc ht (Tree.At.root t) (Tree.At.root src) rfl ha

end Path

namespace Plan

variable {t : Node} {q : Path}

theorem deletePath_eq_foldl_remove (t : Node) (q : Path) :
    deletePath t q = ((q.find t).map Match.keys).foldl Node.remove t := by
  rw [List.foldl_map, deletePath]

theorem wellFormed_deletePath (ht : t.WellFormed) (q : Path) : (deletePath t q).WellFormed := by
  rw [deletePath_eq_foldl_remove]
  exact ht.foldl_remove (readsAlong_of_mem_find Node.part_self ht)

theorem wellFormed_runDelete (ht : t.WellFormed) (qs : List Path) :
    (runDelete t qs).WellFormed := by
  induction qs generalizing t with
  | nil => exact ht
  | cons q qs ih => exact ih (wellFormed_deletePath ht q)

theorem keys_eq_nil_of_mem_find_deletePath (ht : t.WellFormed) {m : Match}
    (hm : m ∈ q.find (deletePath t q)) : m.keys = [] := by
  have hwf := wellFormed_deletePath ht q
  have hpart := Node.part_self.foldl_remove ht (readsAlong_of_mem_find (q := q) Node.part_self ht)
  rw [← deletePath_eq_foldl_remove] at hpart
  by_contra hne
  have hfound := Path.mem_keys_find_of_part hpart ht hwf (List.mem_map_of_mem hm)
  obtain ⟨n, hn⟩ := Path.at_of_mem_find hwf hm
  have hview : (deletePath t q).view m.keys.place = some n.shape := by
    rw [Node.view, hn.seek_eq hwf]
    rfl
  obtain ⟨⟨-, hremoved⟩, -⟩ := (hpart _ _).mp hview
  exact hremoved _ hfound hne List.prefix_rfl

theorem foldl_remove_root {found : List Match} (hfound : ∀ m ∈ found, m.keys = []) (t : Node) :
    found.foldl (fun root m => root.remove m.keys) t = t := by
  induction found with
  | nil => rfl
  | cons m found ih =>
      obtain ⟨hm, hrest⟩ := List.forall_mem_cons.mp hfound
      rw [List.foldl_cons, hm, Node.remove_nil]
      exact ih hrest

theorem deletePath_deletePath (ht : t.WellFormed) (q : Path) :
    deletePath (deletePath t q) q = deletePath t q :=
  foldl_remove_root (fun _ hm => keys_eq_nil_of_mem_find_deletePath ht hm) _

/-- Once a path was deleted it finds at most the root, and deleting it once more right away makes no
difference to the plan. -/
theorem execute_delete_again {body : Value} (hbody : body.WellFormed) (p : Plan)
    (before after : List Path) (q : Path) :
    (∀ m ∈ q.find (runDelete (p.selected (.ofValue body)) (before ++ [q])), m.keys = []) ∧
    ∀ keepIndices,
      Plan.execute { p with delete := before ++ q :: q :: after } body keepIndices =
        Plan.execute { p with delete := before ++ q :: after } body keepIndices := by
  obtain ⟨K, -, hwf⟩ := part_selected hbody p
  have hbefore := wellFormed_runDelete hwf before
  constructor
  · intro m hm
    rw [runDelete, List.foldl_append] at hm
    exact keys_eq_nil_of_mem_find_deletePath hbefore hm
  · intro keepIndices
    have hrun : runDelete (p.selected (.ofValue body)) (before ++ q :: q :: after) =
        runDelete (p.selected (.ofValue body)) (before ++ q :: after) := by
      simp only [runDelete, List.foldl_append, List.foldl_cons]
      exact congrArg (after.foldl deletePath) (deletePath_deletePath hbefore q)
    have hselected : ∀ deletes, Plan.selected { p with delete := deletes } (.ofValue body) =
        p.selected (.ofValue body) := fun _ => rfl
    simp only [execute, runOn, hselected, hrun]

/-- The root and one of its children have an entry `a`. -/
def twoHolders : Value :=
  .map [("a", .scalar (.int 1)), ("b", .map [("a", .scalar (.int 2))])]

/-- Everything that has an entry `a`. -/
def holdersOfA : Path :=
  ⟨"**/a/..", [.step (.literal "a") none true, .parent], {}⟩

theorem execute_delete_again_holders :
    twoHolders.WellFormed ∧
      (holdersOfA.find twoHolders).map Match.keys = [[.name "b"], []] ∧
      (∀ m ∈ holdersOfA.find (runDelete (.ofValue twoHolders) [holdersOfA]), m.keys = []) ∧
      Plan.execute { delete := [holdersOfA, holdersOfA] } twoHolders false =
        .ok ⟨.map [("a", .scalar (.int 1))], []⟩ := by
  have hbody : twoHolders.WellFormed := by simp [twoHolders, Entries.keys]
  have hfound : (holdersOfA.find twoHolders).map Match.keys = [[.name "b"], []] := by cbv
  have honce : Plan.execute { delete := [holdersOfA] } twoHolders false =
      .ok ⟨.map [("a", .scalar (.int 1))], []⟩ := by cbv
  obtain ⟨hroot, hagain⟩ := execute_delete_again hbody {} [] [] holdersOfA
  exact ⟨hbody, hfound, hroot, (hagain false).trans honce⟩

end Plan

end PathRules
