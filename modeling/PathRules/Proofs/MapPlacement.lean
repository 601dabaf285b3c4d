import Mathlib.Data.Option.Basic
import PathRules.Plan
import PathRules.Proofs.ValuePlaces

/-!
# Mapping puts values where templates say

While the transfers of a rule run, every destination reached so far holds the values of its
sources, and places that no destination touches are as in the body. One transfer keeps this if its
destination touches no other: it writes a first value, makes a pair, or appends, according to the
sources that the destination has had. A source that the destination has had is passed over.
-/

namespace PathRules

/-- What a destination holds: a single value stands for itself. -/
def Value.gather : List Value → Value
  | [v] => v
  | vs => seq vs

namespace Relocation

/-- The addresses to which the matches in a body go. -/
def destinations (rule : Relocation) (body : Value) : List Address :=
  ((rule.path.find body).map fun m => (rule.template.destination m).1).filter (· ≠ [])

/-- The addresses of the matches that go to a destination, in the order of the matches and each
once. -/
def sources (rule : Relocation) (body : Value) (d : Address) : List Address :=
  (((rule.path.find body).filter fun m => (rule.template.destination m).1 = d).map
    Match.keys).eraseDups

end Relocation

theorem Template.plain_destination (template : Template) (m : Match) :
    (template.destination m).1.Plain := by
  intro k hk
  obtain ⟨s, -, rfl⟩ := List.mem_map.mp hk
  exact Key.plain_ofText s

namespace Plan

/-- The n-th write to a destination that holds the values of the writes before. -/
theorem merge_gather {vs : List Value} {slot : Node} (v : Value)
    (hslot : vs ≠ [] → slot = .ofValue (.gather vs)) :
    merge (vs.length + 1) (.ofValue v) slot = .ofValue (.gather (vs ++ [v])) := by
  match vs with
  | [] => rfl
  | [u] =>
      rw [hslot (by simp)]
      cases u <;> rfl
  | u :: w :: ws =>
      rw [hslot (by simp)]
      simp [merge, Value.gather, Node.ofValue, Node.ofItems_eq_map]

theorem wellFormed_merge {value slot : Node} (writes : Nat) (hvalue : value.WellFormed)
    (hslot : slot.WellFormed) : (merge writes value slot).WellFormed := by
  have hpair : (Node.seq [slot, value]).WellFormed := by
    apply Node.WellFormed.seq
    intro x hx
    rcases List.mem_pair.mp hx with rfl | rfl
    · exact hslot
    · exact hvalue
  simp only [merge]
  split
  · exact hvalue
  · cases hslot with
    | scalar s => exact hpair
    | sparse hs hx => exact hpair
    | map hes hx => exact hpair
    | @seq items hx =>
        simp only
        split
        · apply Node.WellFormed.seq
          intro x hmem
          rcases List.mem_append.mp hmem with hmem | hmem
          · exact hx x hmem
          · rw [List.mem_singleton.mp hmem]
            exact hvalue
        · exact hpair

theorem sources_add (assigned : Assigned) (dest source d : Address) :
    (assigned.add dest source).sources d =
      if d = dest then assigned.sources dest ++ [source] else assigned.sources d := by
  simp only [Assigned.add, Assigned.sources, List.lookup_cons]
  by_cases hd : d = dest
  · simp [hd]
  · simp [hd, beq_false_of_ne hd]

namespace Transfer

/-- The sources of the transfers to a destination, each once. -/
def sourcesTo (ts : List Transfer) (d : Address) : List Address :=
  ((ts.filter fun t => t.dest = d).map source).eraseDups

theorem mem_sourcesTo {ts : List Transfer} {d s : Address} :
    s ∈ sourcesTo ts d ↔ ∃ t ∈ ts, t.dest = d ∧ t.source = s := by
  simp [sourcesTo, and_assoc]

theorem sourcesTo_concat (ts : List Transfer) (t : Transfer) (d : Address) :
    sourcesTo (ts ++ [t]) d =
      if t.dest = d ∧ t.source ∉ sourcesTo ts d then sourcesTo ts d ++ [t.source]
      else sourcesTo ts d := by
  by_cases hd : t.dest = d
  · have hsingle : [t.source].eraseDups = [t.source] := rfl
    simp only [sourcesTo, List.filter_append, List.map_append, List.eraseDups_append, hd,
      List.mem_eraseDups]
    by_cases hs : t.source ∈ (ts.filter fun t => t.dest = d).map source
    · simp [hd, hs, List.removeAll]
    · simp [hd, hs, List.removeAll, hsingle]
  · simp [sourcesTo, hd]

theorem sourcesTo_concat_of_mem {ts : List Transfer} {t : Transfer}
    (hs : t.source ∈ sourcesTo ts t.dest) (d : Address) :
    sourcesTo (ts ++ [t]) d = sourcesTo ts d := by
  rw [sourcesTo_concat, if_neg]
  rintro ⟨rfl, hn⟩
  exact hn hs

theorem sourcesTo_concat_of_not_mem {ts : List Transfer} {t : Transfer}
    (hs : t.source ∉ sourcesTo ts t.dest) (d : Address) :
    sourcesTo (ts ++ [t]) d =
      if d = t.dest then sourcesTo ts t.dest ++ [t.source] else sourcesTo ts d := by
  rw [sourcesTo_concat]
  by_cases hd : d = t.dest
  · subst hd
    rw [if_pos ⟨rfl, hs⟩, if_pos rfl]
  · rw [if_neg fun h => hd h.1.symm, if_neg hd]

/-- The transfer takes a value of the body to an address whose keys spell themselves. -/
structure Sound (body : Value) (t : Transfer) : Prop where
  plain : t.dest.Plain
  value : ∃ v : Value, (Node.ofValue v).WellFormed ∧ Tree.lookup body t.source = some v ∧
    t.value = .ofValue v

end Transfer

/-- What holds of no transfers, and is kept by one more transfer of a rule, holds of all of them. -/
theorem Relocating.foldl_assign_induction {P : List Transfer → Relocating → Prop}
    {ts : List Transfer} {r : Relocating} (h : P [] r)
    (hstep : ∀ done t r', (∀ u ∈ done, u ∈ ts) → t ∈ ts → P done r' →
      P (done ++ [t]) (r'.assign t)) : P ts (ts.foldl Relocating.assign r) := by
  suffices hall : ∀ done rest r', ts = done ++ rest → P done r' →
      P ts (rest.foldl Relocating.assign r') from hall [] ts r rfl h
  intro done rest
  induction rest generalizing done with
  | nil =>
      rintro r' rfl h
      rwa [List.append_nil]
  | cons t rest ih =>
      intro r' hts h
      have hdone : ∀ u ∈ done, u ∈ ts := fun u hu => hts ▸ List.mem_append_left _ hu
      have ht : t ∈ ts := hts ▸ List.mem_append_right _ List.mem_cons_self
      exact ih (done ++ [t]) _ (by rw [hts, List.append_cons]) (hstep done t r' hdone ht h)

/-- The state of the pass after some transfers: destinations hold what came to them, and other
places are as in the body. -/
structure Placed (body : Value) (done : List Transfer) (r : Relocating) : Prop where
  wellFormed : r.root.WellFormed
  sources : ∀ d, r.assigned.sources d = Transfer.sourcesTo done d
  written : ∀ t ∈ done, ∃ vs : List Value,
    (Transfer.sourcesTo done t.dest).map (Tree.lookup body) = vs.map some ∧
      Tree.lookup r.root t.dest = some (.ofValue (.gather vs))
  elsewhere : ∀ p, (∀ t ∈ done, ¬ Place.Touches t.dest.place p) →
    r.root.seek p = (Node.ofValue body).seek p

section Placed

variable {body : Value} {done : List Transfer} {r : Relocating} {t : Transfer}

/-- A source that the destination has had changes nothing. -/
theorem Placed.assign_again (h : Placed body done r)
    (hs : t.source ∈ r.assigned.sources t.dest) : Placed body (done ++ [t]) (r.assign t) := by
  have hassign : r.assign t = r := by rw [Relocating.assign, if_pos hs]
  rw [h.sources] at hs
  rw [hassign]
  refine ⟨h.wellFormed, ?_, ?_, ?_⟩
  · intro d
    rw [h.sources, Transfer.sourcesTo_concat_of_mem hs]
  · intro u hu
    rw [Transfer.sourcesTo_concat_of_mem hs]
    rcases List.mem_append.mp hu with hu | hu
    · exact h.written u hu
    · rw [List.mem_singleton.mp hu]
      obtain ⟨w, hw, hdest, -⟩ := Transfer.mem_sourcesTo.mp hs
      rw [← hdest]
      exact h.written w hw
  · intro p hp
    exact h.elsewhere p fun u hu => hp u (List.mem_append_left _ hu)

theorem Placed.slot (h : Placed body done r) (ht : t.Sound body) :
    ∃ vs : List Value, (Transfer.sourcesTo done t.dest).map (Tree.lookup body) = vs.map some ∧
      (vs ≠ [] → (r.root.seek t.dest.place).getD .null = .ofValue (.gather vs)) := by
  cases hs : Transfer.sourcesTo done t.dest with
  | nil => exact ⟨[], rfl, fun hne => absurd rfl hne⟩
  | cons s ss =>
      have hmem : s ∈ Transfer.sourcesTo done t.dest := by simp [hs]
      obtain ⟨u, hu, hdest, -⟩ := Transfer.mem_sourcesTo.mp hmem
      obtain ⟨vs, hvs, hlookup⟩ := h.written u hu
      rw [hdest] at hvs hlookup
      rw [← hs]
      refine ⟨vs, hvs, fun _ => ?_⟩
      rw [Node.seek_of_lookup ht.plain hlookup, Option.getD_some]

theorem root_assign (hs : t.source ∉ r.assigned.sources t.dest) :
    (r.assign t).root =
      r.root.alterAt (merge ((r.assigned.sources t.dest).length + 1) t.value) t.dest := by
  rw [Relocating.assign, if_neg hs]
  simp [sources_add]

theorem sources_assign (hs : t.source ∉ r.assigned.sources t.dest) (d : Address) :
    (r.assign t).assigned.sources d =
      if d = t.dest then r.assigned.sources t.dest ++ [t.source] else r.assigned.sources d := by
  rw [Relocating.assign, if_neg hs]
  exact sources_add _ _ _ _

/-- A write to a destination adds its value to those that the destination holds. -/
theorem Placed.assign_new (h : Placed body done r) (ht : t.Sound body)
    (hdone : ∀ u ∈ done, u.Sound body)
    (hapart : ∀ u ∈ done, u.dest = t.dest ∨ ¬ Place.Touches t.dest.place u.dest.place)
    (hs : t.source ∉ r.assigned.sources t.dest) : Placed body (done ++ [t]) (r.assign t) := by
  obtain ⟨v, hv, hlookup, hvalue⟩ := ht.value
  obtain ⟨vs, hvs, hslot⟩ := h.slot ht
  have hlength : (r.assigned.sources t.dest).length = vs.length := by
    have := congrArg List.length hvs
    rwa [List.length_map, List.length_map, ← h.sources] at this
  have hroot := root_assign hs
  rw [hlength, hvalue] at hroot
  have hnew := Transfer.sourcesTo_concat_of_not_mem (h.sources _ ▸ hs)
  refine ⟨?_, ?_, ?_, ?_⟩
  · rw [hroot]
    exact h.wellFormed.alterAt ht.plain fun u hu =>
      wellFormed_merge _ hv hu
  · intro d
    rw [sources_assign hs, hnew, h.sources, h.sources]
  · intro u hu
    rw [hnew, hroot]
    -- Only the destination of `t` gains a value; the others are apart from it.
    by_cases hd : u.dest = t.dest
    · rw [hd, if_pos rfl]
      refine ⟨vs ++ [v], ?_, ?_⟩
      · rw [List.map_append, List.map_append, hvs, List.map_singleton, hlookup,
          List.map_singleton]
      · rw [Node.lookup_alterAt h.wellFormed ht.plain, merge_gather v hslot]
    · have hmem : u ∈ done := by
        rcases List.mem_append.mp hu with hu | hu
        · exact hu
        · exact absurd (by rw [List.mem_singleton.mp hu]) hd
      rw [if_neg hd]
      obtain ⟨ws, hws, hx⟩ := h.written u hmem
      refine ⟨ws, hws, ?_⟩
      exact Node.lookup_alterAt_of_not_touches h.wellFormed ht.plain (hdone u hmem).plain hx
        ((hapart u hmem).resolve_left hd)
  · intro p hp
    rw [hroot, Node.seek_alterAt_of_not_touches h.wellFormed ht.plain
      (hp t (List.mem_append_right _ List.mem_cons_self))]
    exact h.elsewhere p fun u hu => hp u (List.mem_append_left _ hu)

theorem Placed.foldl_assign {ts : List Transfer} (h : Placed body [] r)
    (hts : ∀ t ∈ ts, t.Sound body)
    (hapart : ∀ u ∈ ts, ∀ t ∈ ts, u.dest = t.dest ∨ ¬ Place.Touches t.dest.place u.dest.place) :
    Placed body ts (ts.foldl Relocating.assign r) := by
  refine Relocating.foldl_assign_induction h fun done t r hdone ht h => ?_
  by_cases hs : t.source ∈ r.assigned.sources t.dest
  · exact h.assign_again hs
  · exact h.assign_new (hts t ht) (fun u hu => hts u (hdone u hu))
      (fun u hu => hapart u (hdone u hu) t ht) hs

end Placed

section Transfers

variable {root : Node} {body : Value} {rule : Relocation} {found : List Match}

theorem mem_transfers {t : Transfer} :
    t ∈ Relocating.transfers root rule found ↔ ∃ m ∈ found,
      (rule.template.destination m).1 ≠ [] ∧ t.source = m.keys ∧
        t.dest = (rule.template.destination m).1 ∧ Tree.lookup root m.keys = some t.value := by
  simp only [Relocating.transfers, List.mem_filterMap]
  constructor
  · rintro ⟨m, hm, h⟩
    split at h
    · cases h
    · rename_i hne
      obtain ⟨value, hvalue, rfl⟩ := Option.map_eq_some_iff.mp h
      exact ⟨m, hm, by simpa using hne, rfl, rfl, hvalue⟩
  · rintro ⟨m, hm, hne, hsource, hdest, hvalue⟩
    obtain ⟨source, dest, value⟩ := t
    simp only at hsource hdest hvalue
    subst hsource hdest
    exact ⟨m, hm, by simp [hne, hvalue]⟩

/-- Every match whose destination has a segment is transferred, in the order of the matches. -/
theorem sources_transfers (hfound : ∀ m ∈ found, (Tree.lookup root m.keys).isSome) {d : Address}
    (hd : d ≠ []) :
    ((Relocating.transfers root rule found).filter fun t => t.dest = d).map Transfer.source =
      (found.filter fun m => (rule.template.destination m).1 = d).map Match.keys := by
  induction found with
  | nil => rfl
  | cons m found ih =>
      obtain ⟨hm, hrest⟩ := List.forall_mem_cons.mp hfound
      obtain ⟨value, hvalue⟩ := Option.isSome_iff_exists.mp hm
      have ih := ih hrest
      simp only [Relocating.transfers, List.isEmpty_iff] at ih ⊢
      by_cases hempty : (rule.template.destination m).1 = []
      · simp [hempty, Ne.symm hd, ih]
      · by_cases hto : (rule.template.destination m).1 = d
        · simp [hvalue, hto, hd, ih]
        · simp [hempty, hvalue, hto, ih]

theorem exists_lookup_of_mem_find (hbody : body.WellFormed) {path : Path} {m : Match}
    (hm : m ∈ path.find body) :
    ∃ v : Value, Tree.lookup body m.keys = some v ∧ (Node.ofValue v).WellFormed := by
  rw [← Path.find_ofValue] at hm
  have hsrc := Node.wellFormed_ofValue hbody
  obtain ⟨n, hn⟩ := Path.at_of_mem_find hsrc hm
  have hlookup := hn.lookup_eq hsrc
  rw [Node.lookup_ofValue] at hlookup
  obtain ⟨v, hv, rfl⟩ := Option.map_eq_some_iff.mp hlookup
  exact ⟨v, hv, hn.wellFormed hsrc⟩

theorem isSome_lookup_of_mem_find (hbody : body.WellFormed) {path : Path} :
    ∀ m ∈ path.find body, (Tree.lookup (Node.ofValue body) m.keys).isSome := by
  intro m hm
  obtain ⟨v, hv, -⟩ := exists_lookup_of_mem_find hbody hm
  rw [Node.lookup_ofValue, hv]
  rfl

theorem sound_transfers (hbody : body.WellFormed) {t : Transfer}
    (ht : t ∈ Relocating.transfers (.ofValue body) rule (rule.path.find body)) : t.Sound body := by
  obtain ⟨m, hm, -, hsource, hdest, hvalue⟩ := mem_transfers.mp ht
  obtain ⟨v, hv, hwf⟩ := exists_lookup_of_mem_find hbody hm
  rw [Node.lookup_ofValue, hv] at hvalue
  constructor
  · rw [hdest]
    exact rule.template.plain_destination m
  · exact ⟨v, hwf, hsource ▸ hv, (Option.some.inj hvalue).symm⟩

theorem sourcesTo_transfers (hbody : body.WellFormed) {d : Address} (hd : d ≠ []) :
    Transfer.sourcesTo (Relocating.transfers (.ofValue body) rule (rule.path.find body)) d =
      rule.sources body d := by
  rw [Transfer.sourcesTo, sources_transfers (isSome_lookup_of_mem_find hbody) hd]
  rfl

theorem mem_destinations (hbody : body.WellFormed) {d : Address} :
    d ∈ rule.destinations body ↔ d ≠ [] ∧
      ∃ t ∈ Relocating.transfers (.ofValue body) rule (rule.path.find body), t.dest = d := by
  simp only [Relocation.destinations, List.mem_filter, List.mem_map, decide_eq_true_eq, ne_eq]
  constructor
  · rintro ⟨⟨m, hm, rfl⟩, hne⟩
    obtain ⟨v, hv, -⟩ := exists_lookup_of_mem_find hbody hm
    refine ⟨hne, ⟨m.keys, _, .ofValue v⟩, mem_transfers.mpr ⟨m, hm, hne, rfl, rfl, ?_⟩, rfl⟩
    rw [Node.lookup_ofValue, hv]
    rfl
  · rintro ⟨hne, t, ht, rfl⟩
    obtain ⟨m, hm, -, -, hdest, -⟩ := mem_transfers.mp ht
    exact ⟨⟨m, hm, hdest.symm⟩, hne⟩

theorem dest_mem_destinations (hbody : body.WellFormed) {t : Transfer}
    (ht : t ∈ Relocating.transfers (.ofValue body) rule (rule.path.find body)) :
    t.dest ∈ rule.destinations body := by
  obtain ⟨m, -, hne, -, hdest, -⟩ := mem_transfers.mp ht
  exact (mem_destinations hbody).mpr ⟨hdest ▸ hne, t, ht, rfl⟩

end Transfers

theorem diagnostics_foldl_assign (ts : List Transfer) (r : Relocating) :
    (ts.foldl Relocating.assign r).diagnostics = r.diagnostics := by
  induction ts generalizing r with
  | nil => rfl
  | cons t ts ih =>
      rw [List.foldl_cons, ih, Relocating.assign]
      split <;> rfl

theorem execute_map {body : Value} (hc : body.isContainer) (rule : Relocation)
    (keepIndices : Bool) :
    let diagnostics := (rule.path.find body).flatMap fun m => (rule.template.destination m).2
    Plan.execute { map := [rule] } body keepIndices =
      .ok ⟨((Relocating.transfers (.ofValue body) rule (rule.path.find body)).foldl
        Relocating.assign ⟨.ofValue body, [], diagnostics⟩).root.toValue keepIndices,
        diagnostics⟩ := by
  simp [execute, hc, runOn, selected, runDelete, relocate, Relocating.apply, Path.find_ofValue,
    diagnostics_foldl_assign]

theorem placed_start {body : Value} (hbody : body.WellFormed) (diagnostics : List PathError) :
    Placed body [] ⟨.ofValue body, [], diagnostics⟩ where
  wellFormed := Node.wellFormed_ofValue hbody
  sources _ := rfl
  written := by simp
  elsewhere _ _ := rfl

theorem placed_transfers {body : Value} (hbody : body.WellFormed) {rule : Relocation}
    (hapart : ∀ d ∈ rule.destinations body, ∀ d' ∈ rule.destinations body,
      d = d' ∨ ¬ Place.Touches d.place d'.place) (diagnostics : List PathError) :
    Placed body (Relocating.transfers (.ofValue body) rule (rule.path.find body))
      ((Relocating.transfers (.ofValue body) rule (rule.path.find body)).foldl
        Relocating.assign ⟨.ofValue body, [], diagnostics⟩) := by
  apply (placed_start hbody diagnostics).foldl_assign fun t ht => sound_transfers hbody ht
  intro u hu t ht
  exact (hapart _ (dest_mem_destinations hbody ht) _ (dest_mem_destinations hbody hu)).imp_left
    Eq.symm

namespace Placed

variable {body : Value} {rule : Relocation} {r : Relocating}

theorem lookup_destination (hbody : body.WellFormed)
    (h : Placed body (Relocating.transfers (.ofValue body) rule (rule.path.find body)) r)
    {d : Address} (hd : d ∈ rule.destinations body) :
    ∃ vs : List Value, (rule.sources body d).map (Tree.lookup body) = vs.map some ∧
      Tree.lookup (r.root.toValue true) d = some (.gather vs) ∧
        (r.root.toValue true).seek d.place = some (.gather vs) := by
  obtain ⟨hne, t, ht, rfl⟩ := (mem_destinations hbody).mp hd
  have hplain := (sound_transfers hbody ht).plain
  obtain ⟨vs, hvs, hx⟩ := h.written t ht
  rw [sourcesTo_transfers hbody hne] at hvs
  refine ⟨vs, hvs, ?_, ?_⟩
  · rw [Node.lookup_toValue hplain hx, Node.toValue_ofValue]
  · rw [Node.seek_toValue, Node.seek_of_lookup hplain hx, Option.map_some, Node.toValue_ofValue]

theorem seek_elsewhere (hbody : body.WellFormed)
    (h : Placed body (Relocating.transfers (.ofValue body) rule (rule.path.find body)) r)
    {p : Place} (hp : ∀ d ∈ rule.destinations body, ¬ Place.Touches d.place p) :
    (r.root.toValue true).seek p = body.seek p := by
  rw [Node.seek_toValue, h.elsewhere p fun t ht => hp _ (dest_mem_destinations hbody ht),
    ← Node.seek_ofValue]

end Placed

theorem eq_of_seek_scalar {v w : Value} {s : Scalar} {p q : Place}
    (hp : v.seek p = some (.scalar s)) (hq : v.seek q = some w) (hpq : p <+: q) : p = q := by
  apply Node.eq_of_seek_scalar (t := .ofValue v) (s := s) (n := .ofValue w) _ _ hpq
  · rw [Node.seek_ofValue_eq_map, hp]
    rfl
  · rw [Node.seek_ofValue_eq_map, hq]
    rfl

/-- A single mapping rule whose destinations do not touch each other puts the values of the sources
at the destinations, and leaves every other place as it is. -/
theorem execute_map_placed {body : Value} (hbody : body.WellFormed) (hc : body.isContainer)
    (rule : Relocation) (hapart : ∀ d ∈ rule.destinations body, ∀ d' ∈ rule.destinations body,
      d = d' ∨ ¬ Place.Touches d.place d'.place) :
    ∃ data, Plan.execute { map := [rule] } body true =
        .ok ⟨data, (rule.path.find body).flatMap fun m => (rule.template.destination m).2⟩ ∧
      (∀ d ∈ rule.destinations body, ∃ vs : List Value,
        (rule.sources body d).map (Tree.lookup body) = vs.map some ∧
          Tree.lookup data d = some (.gather vs)) ∧
      (∀ p, (∀ d ∈ rule.destinations body, ¬ Place.Touches d.place p) →
        data.seek p = body.seek p) ∧
      ∀ p s, data.seek p = some (.scalar s) →
        ((∀ d ∈ rule.destinations body, ¬ Place.Touches d.place p) ∧
          body.seek p = some (.scalar s)) ∨
        ∃ d ∈ rule.destinations body, d.place <+: p := by
  have hplaced := placed_transfers hbody hapart
    ((rule.path.find body).flatMap fun m => (rule.template.destination m).2)
  refine ⟨_, execute_map hc rule true, ?_, ?_, ?_⟩
  · intro d hd
    obtain ⟨vs, hvs, hlookup, -⟩ := hplaced.lookup_destination hbody hd
    exact ⟨vs, hvs, hlookup⟩
  · intro p hp
    exact hplaced.seek_elsewhere hbody hp
  · intro p s hs
    by_cases hp : ∀ d ∈ rule.destinations body, ¬ Place.Touches d.place p
    · rw [hplaced.seek_elsewhere hbody hp] at hs
      exact Or.inl ⟨hp, hs⟩
    · simp only [not_forall, not_not] at hp
      obtain ⟨d, hd, htouch⟩ := hp
      refine Or.inr ⟨d, hd, ?_⟩
      rcases htouch with h | h
      · exact h
      · -- A scalar above a destination is at the destination itself.
        obtain ⟨vs, -, -, hseek⟩ := hplaced.lookup_destination hbody hd
        have hsame : p = d.place := eq_of_seek_scalar hs hseek h
        subst hsame
        exact List.prefix_rfl

/-- Two rows with the columns `x` and `y`, the second without `y`. -/
def rows : Value :=
  .map [("a", .map [("x", .scalar (.int 1)), ("y", .scalar (.int 2))]),
    ("b", .map [("x", .scalar (.int 3))])]

/-- Every column of all rows under its name. -/
def columnsOfRows : Relocation :=
  ⟨⟨"*/*", [.step .any none false, .step .any none false], {}⟩, .parse "all/%2"⟩

theorem execute_map_placed_columns :
    rows.WellFormed ∧ rows.isContainer ∧
      columnsOfRows.destinations rows =
        [[.name "all", .name "x"], [.name "all", .name "y"], [.name "all", .name "x"]] ∧
      (∀ d ∈ columnsOfRows.destinations rows, ∀ d' ∈ columnsOfRows.destinations rows,
        d = d' ∨ ¬ Place.Touches d.place d'.place) ∧
      ∃ data, Plan.execute { map := [columnsOfRows] } rows true = .ok ⟨data, []⟩ ∧
        Tree.lookup data [.name "all", .name "x"] =
          some (.seq [.scalar (.int 1), .scalar (.int 3)]) ∧
        Tree.lookup data [.name "all", .name "y"] = some (.scalar (.int 2)) ∧
        data.seek ["a"] = rows.seek ["a"] := by
  have hrows : rows.WellFormed := by simp [rows, Entries.keys]
  have hdest : columnsOfRows.destinations rows =
      [[.name "all", .name "x"], [.name "all", .name "y"], [.name "all", .name "x"]] := by rfl
  have hapart : ∀ d ∈ columnsOfRows.destinations rows, ∀ d' ∈ columnsOfRows.destinations rows,
      d = d' ∨ ¬ Place.Touches d.place d'.place := by
    rw [hdest]
    simp [Place.Touches]
  obtain ⟨data, hrun, hput, hkeep, -⟩ := execute_map_placed hrows rfl columnsOfRows hapart
  refine ⟨hrows, rfl, hdest, hapart, data, hrun, ?_, ?_, ?_⟩
  · have hvalues : (columnsOfRows.sources rows [.name "all", .name "x"]).map (Tree.lookup rows) =
        [.scalar (.int 1), .scalar (.int 3)].map some := by rfl
    obtain ⟨vs, hvs, hx⟩ := hput [.name "all", .name "x"] (by simp [hdest])
    cases List.map_injective_iff.mpr (Option.some_injective Value) (hvalues.symm.trans hvs)
    exact hx
  · have hvalues : (columnsOfRows.sources rows [.name "all", .name "y"]).map (Tree.lookup rows) =
        [.scalar (.int 2)].map some := by rfl
    obtain ⟨vs, hvs, hx⟩ := hput [.name "all", .name "y"] (by simp [hdest])
    cases List.map_injective_iff.mpr (Option.some_injective Value) (hvalues.symm.trans hvs)
    exact hx
  · apply hkeep
    rw [hdest]
    simp [Place.Touches]

end Plan

end PathRules
