import PathRules.Proofs.SelectShape
import PathRules.Proofs.ValuePlaces

/-!
# Selecting and searching again

A copy below a match opens it again, but then the match is copied once more after it. So in the
end every match holds what it holds in the body, sequences included, while the sequences above the
matches have become maps from positions. Searching looks at the texts of keys and at scalars only,
which both trees have in common, and so it finds the same places equally often.
-/

namespace PathRules

namespace Node

variable {K : Place → Prop} {src t : Node}

theorem leaf?_eq_of_shape_eq {t u : Node} (h : t.shape = u.shape) : t.leaf? = u.leaf? := by
  cases t <;> cases u <;> simp_all [shape, leaf?]

theorem leaf?_ofValue_toValue (t : Node) : (ofValue (t.toValue true)).leaf? = t.leaf? := by
  cases t <;> rfl

theorem Part.covers (h : Part K src t) : Covers src (ofValue (t.toValue true)) := by
  intro p n hn
  rw [seek_ofValue_eq_map, seek_toValue, Option.map_map] at hn
  obtain ⟨u, hu, rfl⟩ := Option.map_eq_some_iff.mp hn
  have hview := (h p u.shape).mp (by rw [view, hu]; rfl)
  obtain ⟨n', hn', hshape⟩ := Option.map_eq_some_iff.mp hview.2
  exact ⟨n', hn', (leaf?_eq_of_shape_eq hshape).trans (leaf?_ofValue_toValue u).symm⟩

/-- The value of a sequence that is not plain is a map from positions. -/
theorem exists_map_of_ne_seq {u : Node} {n : Nat} (hu : u.WellFormed) (hn : u.shape = .seq n)
    (hne : ∀ items, u ≠ seq items) :
    ∃ es : Entries Value, u.toValue true = .map es ∧ ∀ s ∈ es.keys, ∃ i < n, s = Numeral.natText i := by
  cases hu with
  | scalar s => cases hn
  | @seq items hx => exact absurd rfl (hne items)
  | map hes hx => cases hn
  | @sparse s hs hx =>
      cases hn
      refine ⟨_, rfl, ?_⟩
      intro key hkey
      rw [toNamed_eq_map, Entries.keys_map] at hkey
      obtain ⟨c, hc⟩ := Entries.mem_keys_iff.mp hkey
      obtain ⟨i, rfl, hi⟩ := Sparse.mem_named.mp (Entries.mem_of_get? hc)
      exact ⟨i, hs.lt_span _ hi, rfl⟩

end Node

namespace Path

/-- The values that a path finds, with their places. -/
def located (path : Path) (v : Value) : List (Place × Value) :=
  (path.findValues v).map fun f => (f.1.keys.place, f.2)

theorem lookup_of_mem_find {path : Path} {v : Value} {m : Match} (hv : v.WellFormed)
    (hm : m ∈ path.find v) : Tree.lookup v m.keys = v.seek m.keys.place := by
  have hwf := Node.wellFormed_ofValue hv
  rw [← find_ofValue] at hm
  obtain ⟨n, hn⟩ := at_of_mem_find hwf hm
  have hlookup := hn.lookup_eq hwf
  rw [Node.lookup_ofValue] at hlookup
  obtain ⟨x, hx, rfl⟩ := Option.map_eq_some_iff.mp hlookup
  rw [hx, Node.seek_ofValue, hn.seek_eq hwf, Option.map_some, Node.toValue_ofValue]

theorem located_eq (path : Path) {v : Value} (hv : v.WellFormed) :
    path.located v = (Plan.places [path] v).filterMap fun q => (v.seek q).map (q, ·) := by
  rw [located, findValues, Plan.places, List.flatMap_singleton, List.map_filterMap,
    List.filterMap_map]
  apply List.filterMap_congr
  intro m hm
  rw [lookup_of_mem_find hv hm, Option.map_map]
  rfl

theorem perm_placesFrom {src t : Node} (hsrc : src.WellFormed) (ht : t.WellFormed)
    (h : src.Covers t) {segments : List Segment}
    (hall : ∀ q ∈ placesFrom segments src, (t.seek q).isSome) :
    (placesFrom segments t).Perm (placesFrom segments src) := by
  rw [List.perm_iff_count]
  intro q
  rw [count_placesFrom_of_covers hsrc ht h]
  split
  · rfl
  · rename_i hnone
    exact (List.count_eq_zero.mpr (mt (hall q) hnone)).symm

end Path

namespace Plan

variable {body : Value} {path : Path}

theorem seek_runSelect_of_mem_places (hbody : body.WellFormed) (hpath : path.Forward) {q : Place}
    (hq : q ∈ places [path] body) :
    (runSelect (.ofValue body) [path]).seek q = (Node.ofValue body).seek q := by
  have hshape := seek_runSelect hbody [path] q
  rwa [if_pos (endsWhole_places hbody hpath.parentFree ⟨q, hq, List.prefix_rfl⟩)] at hshape

theorem ne_seq_of_runSelect (hbody : body.WellFormed) {p : Place} {u : Node}
    (hp : ∀ q ∈ places [path] body, ¬ q <+: p)
    (hu : (runSelect (.ofValue body) [path]).seek p = some u) : ∀ items, u ≠ .seq items := by
  have hshape := seek_runSelect hbody [path] p
  have hopen : ¬ Place.endsWhole (places [path] body) p = true := by
    intro hwhole
    obtain ⟨q, hq, hqp⟩ := Place.exists_of_endsWhole hwhole
    exact hp q hq hqp
  rw [if_neg hopen] at hshape
  exact hshape u hu

theorem seek_toValue_runSelect (hbody : body.WellFormed) (hpath : path.Forward) {q : Place}
    (hq : q ∈ places [path] body) :
    ((runSelect (.ofValue body) [path]).toValue true).seek q = body.seek q := by
  rw [Node.seek_toValue, seek_runSelect_of_mem_places hbody hpath hq, ← Node.seek_ofValue]

theorem places_eq_placesFrom (hpath : path.Forward) (v : Value) :
    places [path] v = Path.placesFrom path.segments (.ofValue v) := by
  rw [places, List.flatMap_singleton, ← Path.find_ofValue, Path.map_place_find hpath]

/-- The places are found equally often, since the body covers what was selected, and each of them
holds the same value. -/
theorem perm_located_runSelect (hbody : body.WellFormed) (hpath : path.Forward) :
    (path.located ((runSelect (.ofValue body) [path]).toValue true)).Perm (path.located body) := by
  have hsrc := Node.wellFormed_ofValue hbody
  obtain ⟨hpart, hwf⟩ := part_runSelect hsrc [path]
  have hdata := hwf.toValue true
  have hall : ∀ q ∈ Path.placesFrom path.segments (.ofValue body),
      ((Node.ofValue ((runSelect (.ofValue body) [path]).toValue true)).seek q).isSome := by
    intro q hq
    rw [← places_eq_placesFrom hpath] at hq
    obtain ⟨m, hm, rfl⟩ := mem_places_singleton.mp hq
    obtain ⟨n, hn⟩ := Path.at_of_mem_find hsrc hm
    rw [Node.seek_ofValue_eq_map, seek_toValue_runSelect hbody hpath hq, Node.seek_ofValue,
      hn.seek_eq hsrc]
    rfl
  have hperm := Path.perm_placesFrom hsrc (Node.wellFormed_ofValue hdata) hpart.covers hall
  rw [← places_eq_placesFrom hpath, ← places_eq_placesFrom hpath] at hperm
  rw [Path.located_eq path hdata, Path.located_eq path hbody]
  refine (hperm.filterMap _).trans (List.Perm.of_eq (List.filterMap_congr fun q hq => ?_))
  rw [seek_toValue_runSelect hbody hpath hq]

theorem exists_map_runSelect (hbody : body.WellFormed) {p : Place} {items : List Value}
    (hp : body.seek p = some (.seq items)) (habove : ∃ q ∈ places [path] body, p <+: q)
    (hbelow : ∀ q ∈ places [path] body, ¬ q <+: p) :
    ∃ es : Entries Value,
      ((runSelect (.ofValue body) [path]).toValue true).seek p = some (.map es) ∧
        ∀ s ∈ es.keys, ∃ i < items.length, s = Numeral.natText i := by
  obtain ⟨hpart, hwf⟩ := part_runSelect (Node.wellFormed_ofValue hbody) [path]
  obtain ⟨q, hq, hway⟩ := habove
  obtain ⟨m, hm, rfl⟩ := mem_places_singleton.mp hq
  have hshape : (Node.ofValue body).view p = some (.seq items.length) := by
    rw [Node.view, Node.seek_ofValue_eq_map, hp]
    simp [Node.ofValue, Node.shape, Node.ofItems_eq_map]
  have hview := (hpart p _).mpr
    ⟨Or.inr ⟨m, by rwa [List.flatMap_singleton], Or.inr hway⟩, hshape⟩
  obtain ⟨u, hu, hn⟩ := Option.map_eq_some_iff.mp hview
  obtain ⟨es, hes, hkeys⟩ := Node.exists_map_of_ne_seq (hwf.seek hu) hn
    (ne_seq_of_runSelect hbody hbelow hu)
  refine ⟨es, ?_, hkeys⟩
  rw [Node.seek_toValue, hu, Option.map_some, hes]

/-- Searching what was selected finds what the path finds in the body. The sequences strictly above
the matches have become maps from positions. -/
theorem execute_select_located (hbody : body.WellFormed) (hc : body.isContainer)
    (hpath : path.Forward) :
    ∃ data, Plan.execute { select := [path] } body true = .ok ⟨data, []⟩ ∧
      (path.located data).Perm (path.located body) ∧
      (∀ q ∈ places [path] body, data.seek q = body.seek q) ∧
      ∀ p items, body.seek p = some (.seq items) → (∃ q ∈ places [path] body, p <+: q) →
        (∀ q ∈ places [path] body, ¬ q <+: p) →
        ∃ es : Entries Value, data.seek p = some (.map es) ∧
          ∀ s ∈ es.keys, ∃ i < items.length, s = Numeral.natText i := by
  refine ⟨_, execute_select hc (List.cons_ne_nil path []) true, ?_, ?_, ?_⟩
  · exact perm_located_runSelect hbody hpath
  · intro q hq
    exact seek_toValue_runSelect hbody hpath hq
  · intro p items hp habove hbelow
    exact exists_map_runSelect hbody hp habove hbelow

/-- An `a` inside another, in the second element of a sequence. -/
def nestedA : Value :=
  .map [("rows", .seq [.scalar (.int 7),
    .map [("a", .seq [.map [("a", .seq [.scalar (.int 1)])]])]])]

def everyA : Path :=
  ⟨"**/a", [.step (.literal "a") none true], {}⟩

theorem execute_select_located_nested :
    nestedA.WellFormed ∧ nestedA.isContainer ∧ everyA.Forward ∧
      places [everyA] nestedA = [["rows", "1", "a", "0", "a"], ["rows", "1", "a"]] ∧
      ∃ data, Plan.execute { select := [everyA] } nestedA true = .ok ⟨data, []⟩ ∧
        (everyA.located data).Perm [
          (["rows", "1", "a", "0", "a"], .seq [.scalar (.int 1)]),
          (["rows", "1", "a"], .seq [.map [("a", .seq [.scalar (.int 1)])]])] ∧
        ∃ es, data.seek ["rows"] = some (.map es) := by
  have hbody : nestedA.WellFormed := by simp [nestedA, Entries.keys]
  have hpath : everyA.Forward := by simp [Path.Forward, everyA, Segment.Forward, Matcher.CountsUp]
  have hplaces : places [everyA] nestedA = [["rows", "1", "a", "0", "a"], ["rows", "1", "a"]] := by
    decide +kernel
  have hlocated : everyA.located nestedA = [
      (["rows", "1", "a", "0", "a"], .seq [.scalar (.int 1)]),
      (["rows", "1", "a"], .seq [.map [("a", .seq [.scalar (.int 1)])]])] := by
    with_unfolding_all rfl
  obtain ⟨data, hrun, hperm, -, hmaps⟩ := execute_select_located hbody rfl hpath
  rw [hplaces] at hmaps
  obtain ⟨es, hes, -⟩ := hmaps ["rows"] _ rfl (by decide) (by decide)
  rw [hlocated] at hperm
  exact ⟨hbody, rfl, hpath, hplaces, data, hrun, hperm, es, hes⟩

end Plan

end PathRules
