import PathRules.Proofs.PassState

/-!
# Moving is mapping and removing the sources

A move takes the values from their sources before it writes the first of them. If no source is at,
below or above a destination, then every write commutes with the removal of the sources, which
stay where they are while the map writes. So the removals may as well come last.
-/

namespace PathRules

namespace Relocation

/-- The addresses from which the matches in a body go somewhere, in the order of the matches. -/
def origins (rule : Relocation) (body : Value) : List Address :=
  ((rule.path.find body).filter fun m => (rule.template.destination m).1 ≠ []).map Match.keys

end Relocation

namespace Plan

namespace Relocating

/-- The pass with some addresses taken out of its tree. -/
def without (r : Relocating) (as : List Address) : Relocating :=
  { r with root := as.foldl Node.remove r.root }

end Relocating

section Without

variable {body : Value} {r : Relocating} {t : Transfer} {as : List Address}

theorem Transfer.Sound.wellFormed_value (ht : t.Sound body) : t.value.WellFormed := by
  obtain ⟨v, hv, -, hvalue⟩ := ht.value
  rw [hvalue]
  exact hv

theorem wellFormed_assign (hr : r.root.WellFormed) (ht : t.Sound body) :
    (r.assign t).root.WellFormed :=
  Relocating.wellFormed_root_assign hr ht.plain ht.wellFormed_value

theorem holds_assign {a : Address} (hr : r.root.WellFormed) (ht : t.Sound body)
    (ha : r.root.Holds a) (hp : ¬ Place.Touches t.dest.place a.place) :
    (r.assign t).root.Holds a := by
  by_cases hs : t.source ∈ r.assigned.sources t.dest
  · rwa [Relocating.assign, if_pos hs]
  · rw [root_assign hs]
    exact ha.alterAt hr ht.plain hp

theorem assign_without (hr : r.root.WellFormed) (ht : t.Sound body)
    (has : ∀ a ∈ as, r.root.Holds a) (hp : ∀ a ∈ as, ¬ Place.Touches t.dest.place a.place) :
    (r.without as).assign t = (r.assign t).without as := by
  have hholds : ∀ a ∈ as, (r.assign t).root.Holds a := fun a ha =>
    holds_assign hr ht (has a ha) (hp a ha)
  by_cases hs : t.source ∈ r.assigned.sources t.dest
  · simp [Relocating.assign, Relocating.without, hs]
  · rw [root_assign hs] at hholds
    have hcomm := Node.foldl_remove_alterAt hr ht.plain
      (fun u hu => wellFormed_merge ((r.assigned.sources t.dest).length + 1)
        ht.wellFormed_value hu)
      (fun a ha => (has a ha).readsAlong) (fun a ha => (hholds a ha).readsAlong) hp
    simp [Relocating.assign, Relocating.without, hs, sources_add, hcomm]

theorem foldl_assign_without {ts : List Transfer} (hr : r.root.WellFormed)
    (hts : ∀ t ∈ ts, t.Sound body) (has : ∀ a ∈ as, r.root.Holds a)
    (hp : ∀ t ∈ ts, ∀ a ∈ as, ¬ Place.Touches t.dest.place a.place) :
    ts.foldl Relocating.assign (r.without as) = (ts.foldl Relocating.assign r).without as := by
  induction ts generalizing r with
  | nil => rfl
  | cons t ts ih =>
      obtain ⟨ht, hts⟩ := List.forall_mem_cons.mp hts
      obtain ⟨hpt, hp⟩ := List.forall_mem_cons.mp hp
      rw [List.foldl_cons, List.foldl_cons, assign_without hr ht has hpt]
      exact ih (wellFormed_assign hr ht) hts
        (fun a ha => holds_assign hr ht (has a ha) (hpt a ha)) hp

end Without

theorem map_source_transfers {root : Node} {rule : Relocation} {found : List Match}
    (hfound : ∀ m ∈ found, (Tree.lookup root m.keys).isSome) :
    (Relocating.transfers root rule found).map Transfer.source =
      (found.filter fun m => (rule.template.destination m).1 ≠ []).map Match.keys := by
  induction found with
  | nil => rfl
  | cons m found ih =>
      obtain ⟨hm, hrest⟩ := List.forall_mem_cons.mp hfound
      obtain ⟨value, hvalue⟩ := Option.isSome_iff_exists.mp hm
      have ih := ih hrest
      simp only [Relocating.transfers, List.isEmpty_iff] at ih ⊢
      by_cases hempty : (rule.template.destination m).1 = []
      · simp [hempty, ih]
      · simp [hempty, hvalue, ih]

theorem map_source_transfers_find {body : Value} (hbody : body.WellFormed) (rule : Relocation) :
    (Relocating.transfers (.ofValue body) rule (rule.path.find body)).map Transfer.source =
      rule.origins body :=
  map_source_transfers (isSome_lookup_of_mem_find hbody)

theorem holds_origins {body : Value} (hbody : body.WellFormed) (rule : Relocation) :
    ∀ a ∈ rule.origins body, (Node.ofValue body).Holds a := by
  intro a ha
  obtain ⟨m, hm, rfl⟩ := List.mem_map.mp ha
  have hfound := List.mem_of_mem_filter hm
  rw [← Path.find_ofValue] at hfound
  have hsrc := Node.wellFormed_ofValue hbody
  obtain ⟨n, hn⟩ := Path.at_of_mem_find hsrc hfound
  exact Node.Holds.of_at hsrc hn

/-- The pass of a single rule before the first write. -/
def Relocating.start (body : Value) (rule : Relocation) : Relocating :=
  ⟨.ofValue body, [], (rule.path.find body).flatMap fun m => (rule.template.destination m).2⟩

theorem relocate_map (body : Value) (rule : Relocation) :
    relocate false (.ofValue body) [rule] =
      (((Relocating.transfers (.ofValue body) rule (rule.path.find body)).foldl Relocating.assign
        (.start body rule)).root, (Relocating.start body rule).diagnostics) := by
  simp [relocate, Relocating.apply, Path.find_ofValue, Relocating.start, diagnostics_foldl_assign]

theorem relocate_move {body : Value} (hbody : body.WellFormed) (rule : Relocation) :
    relocate true (.ofValue body) [rule] =
      (((Relocating.transfers (.ofValue body) rule (rule.path.find body)).foldl Relocating.assign
        ((Relocating.start body rule).without (rule.origins body))).root,
        (Relocating.start body rule).diagnostics) := by
  simp [relocate, Relocating.apply, Path.find_ofValue, Relocating.start, Relocating.without,
    ← map_source_transfers_find hbody, List.foldl_map, diagnostics_foldl_assign]

theorem execute_single_map {body : Value} (hc : body.isContainer) (rule : Relocation)
    (keepIndices : Bool) :
    Plan.execute { map := [rule] } body keepIndices =
      .ok ⟨(relocate false (.ofValue body) [rule]).1.toValue keepIndices,
        (relocate false (.ofValue body) [rule]).2⟩ := by
  simp [execute, hc, runOn, selected, runDelete, relocate]

theorem execute_single_move {body : Value} (hc : body.isContainer) (rule : Relocation)
    (keepIndices : Bool) :
    Plan.execute { move := [rule] } body keepIndices =
      .ok ⟨(relocate true (.ofValue body) [rule]).1.toValue keepIndices,
        (relocate true (.ofValue body) [rule]).2⟩ := by
  simp [execute, hc, runOn, selected, runDelete, relocate]

theorem relocate_move_eq_map_without {body : Value} (hbody : body.WellFormed) (rule : Relocation)
    (hapart : ∀ a ∈ rule.origins body, ∀ d ∈ rule.destinations body,
      ¬ Place.Touches d.place a.place) :
    relocate true (.ofValue body) [rule] =
      ((rule.origins body).foldl Node.remove (relocate false (.ofValue body) [rule]).1,
        (relocate false (.ofValue body) [rule]).2) := by
  have hroot : (Relocating.start body rule).root.WellFormed := Node.wellFormed_ofValue hbody
  have hcomm := foldl_assign_without hroot (fun t ht => sound_transfers hbody ht)
    (holds_origins hbody rule) (fun t ht a ha => hapart a ha _ (dest_mem_destinations hbody ht))
  rw [relocate_move hbody, relocate_map, hcomm]
  rfl

/-- A single move whose sources and destinations do not touch each other is the map of the same
rule with its sources removed: it leaves the same tree, hence the same data in either form, and the
same diagnostics. -/
theorem execute_move_eq_map_without {body : Value} (hbody : body.WellFormed)
    (hc : body.isContainer) (rule : Relocation)
    (hapart : ∀ a ∈ rule.origins body, ∀ d ∈ rule.destinations body,
      ¬ Place.Touches d.place a.place) :
    ∃ tree diagnostics,
      relocate false (.ofValue body) [rule] = (tree, diagnostics) ∧
      relocate true (.ofValue body) [rule] =
        ((rule.origins body).foldl Node.remove tree, diagnostics) ∧
      ∀ keepIndices,
        Plan.execute { map := [rule] } body keepIndices =
          .ok ⟨tree.toValue keepIndices, diagnostics⟩ ∧
        Plan.execute { move := [rule] } body keepIndices =
          .ok ⟨((rule.origins body).foldl Node.remove tree).toValue keepIndices, diagnostics⟩ := by
  have hmove := relocate_move_eq_map_without hbody rule hapart
  refine ⟨(relocate false (.ofValue body) [rule]).1, (relocate false (.ofValue body) [rule]).2,
    rfl, hmove, ?_⟩
  intro keepIndices
  refine ⟨execute_single_map hc rule keepIndices, ?_⟩
  rw [execute_single_move hc, hmove]

def threeNumbers : Value :=
  .map [("items", .seq [.scalar (.int 1), .scalar (.int 2), .scalar (.int 3)])]

/-- Gathers two elements of a sequence under a name beside them, which makes the sequence a map. -/
def firstTwo : Relocation :=
  ⟨⟨"items/0..1", [.step (.literal "items") none false, .step (.range 0 1 true) none false], {}⟩,
    .parse "items/first"⟩

theorem execute_move_eq_map_without_firstTwo :
    threeNumbers.WellFormed ∧ threeNumbers.isContainer ∧
      (∀ a ∈ firstTwo.origins threeNumbers, ∀ d ∈ firstTwo.destinations threeNumbers,
        ¬ Place.Touches d.place a.place) ∧
      Plan.execute { move := [firstTwo] } threeNumbers false =
        .ok ⟨.map [("items", .map [("2", .scalar (.int 3)),
          ("first", .seq [.scalar (.int 2), .scalar (.int 1)])])], []⟩ := by
  have hbody : threeNumbers.WellFormed := by simp [threeNumbers, Entries.keys]
  have horigins : firstTwo.origins threeNumbers =
      [[.name "items", .index 1], [.name "items", .index 0]] := by rfl
  have hdest : firstTwo.destinations threeNumbers =
      [[.name "items", .name "first"], [.name "items", .name "first"]] := by rfl
  have hapart : ∀ a ∈ firstTwo.origins threeNumbers, ∀ d ∈ firstTwo.destinations threeNumbers,
      ¬ Place.Touches d.place a.place := by
    rw [horigins, hdest]
    simp [Place.Touches, Numeral.natText, Numeral.natDigits, Nat.toDigits]
    decide
  obtain ⟨tree, diagnostics, hmap, -, hrun⟩ :=
    execute_move_eq_map_without hbody rfl firstTwo hapart
  refine ⟨hbody, rfl, hapart, ?_⟩
  rw [(hrun false).2, horigins]
  cases hmap
  rfl

end Plan

end PathRules
