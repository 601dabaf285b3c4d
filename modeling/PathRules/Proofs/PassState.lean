import PathRules.Proofs.MapPlacement
import PathRules.Proofs.WriteRemoval

/-!
# The state of a pass

A rule is run in two parts. Its transfers are read off the tree that the rules before it have left,
and a move takes their sources out; then the transfers are written one after the other. The tree
stays well-formed all the way, whatever the rules are.
-/

namespace PathRules.Plan

namespace Transfer

/-- The transfer takes a node of the tree to an address whose keys spell themselves. -/
structure From (root : Node) (t : Transfer) : Prop where
  plain : t.dest.Plain
  holds : root.Holds t.source
  lookup_eq : Tree.lookup root t.source = some t.value
  seek_eq : root.seek t.source.place = some t.value

theorem From.wellFormed {root : Node} {t : Transfer} (ht : t.From root) (hroot : root.WellFormed) :
    t.value.WellFormed :=
  hroot.seek ht.seek_eq

end Transfer

namespace Relocating

/-- The transfers of a rule that is next. -/
def pending (r : Relocating) (rule : Relocation) : List Transfer :=
  transfers r.root rule (rule.path.find r.root)

/-- The pass before the first write of a rule. -/
def opening (removeSources : Bool) (r : Relocating) (rule : Relocation) : Relocating :=
  { r with
    root := if removeSources then
        ((r.pending rule).map Transfer.source).foldl Node.remove r.root
      else r.root
    diagnostics := r.diagnostics ++
      (rule.path.find r.root).flatMap fun m => (rule.template.destination m).2 }

variable {r : Relocating} {t : Transfer} {rule : Relocation}

theorem apply_eq (removeSources : Bool) (r : Relocating) (rule : Relocation) :
    r.apply removeSources rule = (r.pending rule).foldl assign (r.opening removeSources rule) := by
  simp only [apply, opening, pending, List.foldl_map]

theorem from_of_mem_pending (hr : r.root.WellFormed) (ht : t ∈ r.pending rule) :
    t.From r.root := by
  obtain ⟨m, hm, -, hsource, hdest, hvalue⟩ := mem_transfers.mp ht
  obtain ⟨n, hn⟩ := Path.at_of_mem_find hr hm
  rw [hn.lookup_eq hr, Option.some.injEq] at hvalue
  subst hvalue
  constructor
  · rw [hdest]
    exact rule.template.plain_destination m
  · rw [hsource]
    exact Node.Holds.of_at hr hn
  · rw [hsource]
    exact hn.lookup_eq hr
  · rw [hsource]
    exact hn.seek_eq hr

theorem wellFormed_opening (removeSources : Bool) (hr : r.root.WellFormed) (rule : Relocation) :
    (r.opening removeSources rule).root.WellFormed := by
  cases removeSources with
  | false => exact hr
  | true =>
      apply hr.foldl_remove
      intro a ha
      obtain ⟨t, ht, rfl⟩ := List.mem_map.mp ha
      exact (from_of_mem_pending hr ht).holds.readsAlong

theorem wellFormed_root_assign (hr : r.root.WellFormed) (hd : t.dest.Plain)
    (hv : t.value.WellFormed) : (r.assign t).root.WellFormed := by
  by_cases hs : t.source ∈ r.assigned.sources t.dest
  · rwa [assign, if_pos hs]
  · rw [root_assign hs]
    exact hr.alterAt hd fun u hu => wellFormed_merge _ hv hu

theorem wellFormed_foldl_assign {ts : List Transfer} (hr : r.root.WellFormed)
    (hts : ∀ t ∈ ts, t.dest.Plain ∧ t.value.WellFormed) :
    (ts.foldl assign r).root.WellFormed := by
  induction ts generalizing r with
  | nil => exact hr
  | cons t ts ih =>
      obtain ⟨ht, hts⟩ := List.forall_mem_cons.mp hts
      exact ih (wellFormed_root_assign hr ht.1 ht.2) hts

theorem wellFormed_apply (removeSources : Bool) (hr : r.root.WellFormed) (rule : Relocation) :
    (r.apply removeSources rule).root.WellFormed := by
  rw [apply_eq]
  apply wellFormed_foldl_assign (wellFormed_opening removeSources hr rule)
  intro t ht
  have hfrom := from_of_mem_pending hr ht
  exact ⟨hfrom.plain, hfrom.wellFormed hr⟩

theorem wellFormed_foldl_apply (removeSources : Bool) (hr : r.root.WellFormed)
    (rules : List Relocation) : (rules.foldl (apply removeSources) r).root.WellFormed := by
  induction rules generalizing r with
  | nil => exact hr
  | cons rule rules ih => exact ih (wellFormed_apply removeSources hr rule)

end Relocating

end PathRules.Plan
