import Mathlib.Data.List.Induction
import PathRules.Proofs.MatchOrder
import PathRules.Proofs.SelectRestriction
import PathRules.Proofs.WriteRemoval

/-!
# The last copy that reaches a place

A copy leaves what it copied as it is in the body, and opens the sequences above. So what a place
shows after a select pass is decided by the last match that touches it: if that one is at or above
the place, then the place holds what it holds in the body, and otherwise there is no plain sequence
at it. A path without `..` lists every match after those below it, so for its matches the last one
is at or above a place if any of them is.
-/

namespace PathRules

namespace Place

/-- Whether the last of the places that touch `q` is at or above it. -/
def endsWhole (places : List Place) (q : Place) : Bool :=
  (places.filter fun p => p.isPrefixOf q || q.isPrefixOf p).getLast?.any (·.isPrefixOf q)

variable {places places' : List Place} {p q : Place}

theorem endsWhole_append (places places' : List Place) (q : Place) :
    endsWhole (places ++ places') q =
      if touches places' q then endsWhole places' q else endsWhole places q := by
  rw [endsWhole, List.filter_append, List.getLast?_append]
  by_cases h : touches places' q
  · obtain ⟨p, hp, htouch⟩ := List.any_eq_true.mp h
    have hne : (places'.filter fun p => p.isPrefixOf q || q.isPrefixOf p) ≠ [] :=
      List.ne_nil_of_mem (List.mem_filter.mpr ⟨hp, htouch⟩)
    rw [if_pos h, endsWhole, List.getLast?_eq_some_getLast hne]
    rfl
  · have hnone : (places'.filter fun p => p.isPrefixOf q || q.isPrefixOf p) = [] := by
      rw [List.filter_eq_nil_iff]
      intro p hp htouch
      exact h (List.any_eq_true.mpr ⟨p, hp, htouch⟩)
    rw [if_neg h, hnone]
    rfl

theorem endsWhole_singleton (p q : Place) : endsWhole [p] q = p.isPrefixOf q := by
  cases hp : p.isPrefixOf q <;> cases hq : q.isPrefixOf p <;> simp [endsWhole, hp, hq]

theorem endsWhole_cons (p : Place) (places : List Place) (q : Place) :
    endsWhole (p :: places) q =
      if touches places q then endsWhole places q else p.isPrefixOf q := by
  rw [← List.singleton_append, endsWhole_append, endsWhole_singleton]

/-- Only a match at or above the place ends whole. -/
theorem exists_of_endsWhole (h : endsWhole places q = true) : ∃ p ∈ places, p <+: q := by
  obtain ⟨p, hlast, hp⟩ := (Option.any_eq_true _ _).mp h
  exact ⟨p, (List.mem_filter.mp (List.mem_of_getLast? hlast)).1, List.isPrefixOf_iff_prefix.mp hp⟩

/-- If no place is strictly below, then any at or above decides. -/
theorem endsWhole_of_not_below (hp : p ∈ places) (hpq : p <+: q)
    (h : ∀ p' ∈ places, q <+: p' → p' = q) : endsWhole places q = true := by
  have hmem : p ∈ places.filter fun p => p.isPrefixOf q || q.isPrefixOf p := by
    simp [hp, List.isPrefixOf_iff_prefix.mpr hpq]
  have hlast := List.getLast?_eq_some_getLast (List.ne_nil_of_mem hmem)
  obtain ⟨hlater, htouch⟩ := List.mem_filter.mp (List.mem_of_getLast? hlast)
  rw [endsWhole, hlast, Option.any_some]
  rcases Bool.or_eq_true_iff.mp htouch with habove | hbelow
  · exact habove
  · rw [h _ hlater (List.isPrefixOf_iff_prefix.mp hbelow)]
    exact List.isPrefixOf_iff_prefix.mpr List.prefix_rfl

end Place

namespace Node

variable {K : Place → Prop} {src t : Node}

theorem ne_seq_of_form_written {k : Key} {form : Form} (h : t.form = form.written k)
    (items : List Node) : t ≠ seq items := by
  rintro rfl
  have hopen := Form.opened_written k form
  rw [← h] at hopen
  cases hopen

theorem seek_eq_none_of_entries_eq_nil {p : Place} (h : t.entries = []) (hp : p ≠ []) :
    t.seek p = none := by
  cases p with
  | nil => exact absurd rfl hp
  | cons s p => simp [h, Entries.get?]

/-- A copy changes the child under the first key of its address, and goes on with the child that is
there or an empty one. -/
theorem Part.exists_slot {k : Key} {c : Node} (h : Part K src t) (hsrc : src.WellFormed)
    (ht : t.WellFormed) (hmem : (k, c) ∈ src.children) (rest : Address) :
    ∃ slot : Node, (rest ≠ [] → slot = (t.entries.get? k.text).getD c.emptyLike) ∧
      ∀ s, (Node.copyInto src t (k :: rest)).entries.get? s =
        if k.text = s then some (Node.copyInto c slot rest) else t.entries.get? s := by
  obtain ⟨fresh, hfresh, hcopy⟩ := copyInto_cons t rest (child?_of_mem_children hsrc hmem)
  refine ⟨(t.entries.get? k.text).getD fresh, fun hrest => by rw [hfresh hrest], ?_⟩
  rw [hcopy]
  exact get?_entries_alter ht (h.admits hsrc hmem) fresh _

variable {a : Address} {n : Node} {q : Place}

/-- A copy shows the source at and below its address. -/
theorem Part.seek_copyInto (hsrc : src.WellFormed) (ha : Tree.At src a n) (h : Part K src t)
    (ht : t.WellFormed) (hq : a.place <+: q) :
    (Node.copyInto src t a).seek q = src.seek q := by
  induction ha generalizing K t q with
  | root src => rfl
  | @child src c n k rest hmem _ ih =>
      cases q with
      | nil => exact absurd (List.prefix_nil.mp hq) (by simp)
      | cons s q =>
          obtain ⟨rfl, hbelow⟩ := List.cons_prefix_cons.mp hq
          have hget := ((mem_children_iff hsrc).mp hmem).2
          obtain ⟨slot, hslot, hchild⟩ := h.exists_slot hsrc ht hmem rest
          rw [seek_cons, seek_cons, hchild, if_pos rfl, hget, Option.bind_some, Option.bind_some]
          by_cases hrest : rest = []
          · subst hrest
            rfl
          · obtain ⟨hpart, hwf⟩ := h.slot ht hget
            rw [← hslot hrest] at hpart hwf
            exact ih (hsrc.of_mem_children hmem) hpart hwf hbelow

theorem Part.seek_copyInto_of_not_touches (hsrc : src.WellFormed) (ha : Tree.At src a n)
    (h : Part K src t) (ht : t.WellFormed) (hq : ¬ Place.Touches a.place q) :
    (Node.copyInto src t a).seek q = t.seek q := by
  induction ha generalizing K t q with
  | root src => exact absurd (Or.inl List.nil_prefix) hq
  | @child src c n k rest hmem _ ih =>
      cases q with
      | nil => exact absurd (Or.inr List.nil_prefix) hq
      | cons s q =>
          obtain ⟨slot, hslot, hchild⟩ := h.exists_slot hsrc ht hmem rest
          rw [seek_cons, seek_cons, hchild]
          by_cases hs : k.text = s
          · subst hs
            have hbelow : ¬ Place.Touches (Address.place rest) q := fun htouch =>
              hq (Place.touches_cons_cons.mpr ⟨rfl, htouch⟩)
            have hrest : rest ≠ [] := by
              rintro rfl
              exact hbelow (Or.inl List.nil_prefix)
            obtain ⟨hpart, hwf⟩ := h.slot ht ((mem_children_iff hsrc).mp hmem).2
            rw [← hslot hrest] at hpart hwf
            rw [if_pos rfl, Option.bind_some,
              ih (hsrc.of_mem_children hmem) hpart hwf hbelow, hslot hrest]
            cases hc : t.entries.get? k.text with
            | some c' => rfl
            | none =>
                have hne : q ≠ [] := by
                  rintro rfl
                  exact hbelow (Or.inr List.nil_prefix)
                rw [Option.getD_none, seek_eq_none_of_entries_eq_nil (entries_emptyLike c) hne]
                rfl
          · rw [if_neg hs]

/-- A copy opens the sequences above its address. -/
theorem Part.ne_seq_of_copyInto {u : Node} (hsrc : src.WellFormed) (ha : Tree.At src a n)
    (h : Part K src t) (ht : t.WellFormed) (hq : q <+: a.place) (hne : q ≠ a.place)
    (hu : (Node.copyInto src t a).seek q = some u) (items : List Node) : u ≠ seq items := by
  induction ha generalizing K t q with
  | root src => exact absurd (List.prefix_nil.mp hq) hne
  | @child src c n k rest hmem _ ih =>
      cases q with
      | nil =>
          cases hu
          obtain ⟨fresh, -, hcopy⟩ := copyInto_cons t rest (child?_of_mem_children hsrc hmem)
          rw [hcopy]
          exact ne_seq_of_form_written (form_alter t k fresh _) items
      | cons s q =>
          obtain ⟨rfl, habove⟩ := List.cons_prefix_cons.mp hq
          have hbelow : q ≠ Address.place rest := by
            rintro rfl
            exact hne rfl
          have hrest : rest ≠ [] := by
            rintro rfl
            exact hbelow (List.prefix_nil.mp habove)
          obtain ⟨slot, hslot, hchild⟩ := h.exists_slot hsrc ht hmem rest
          obtain ⟨hpart, hwf⟩ := h.slot ht ((mem_children_iff hsrc).mp hmem).2
          rw [← hslot hrest] at hpart hwf
          rw [seek_cons, hchild, if_pos rfl, Option.bind_some] at hu
          exact ih (hsrc.of_mem_children hmem) hpart hwf habove hbelow hu

variable {found : List Match}

/-- The last copy that touches a place decides what is there: what the source has if it is at or
above the place, and else no plain sequence. -/
theorem seek_foldl_copyInto (hsrc : src.WellFormed)
    (hfound : ∀ m ∈ found, ∃ n, Tree.At src m.keys n) (h : Part K src t) (ht : t.WellFormed)
    (hstart : ∀ u, t.seek q = some u → ∀ items, u ≠ seq items) :
    let result := found.foldl (fun result m => src.copyInto result m.keys) t
    if Place.endsWhole (found.map fun m => m.keys.place) q then result.seek q = src.seek q
    else ∀ u, result.seek q = some u → ∀ items, u ≠ seq items := by
  -- From the end: either the last copy touches the place, or it does not count.
  induction found using List.reverseRecOn with
  | nil => exact hstart
  | append_singleton found m ih =>
      obtain ⟨hfound, hm⟩ := List.forall_mem_append.mp hfound
      obtain ⟨n, hn⟩ := hm m (List.mem_singleton_self m)
      obtain ⟨hpart, hwf⟩ := part_foldl hsrc hfound h ht
      have ih := ih hfound
      simp only [List.foldl_append, List.foldl_cons, List.foldl_nil, List.map_append, List.map_cons,
        List.map_nil, Place.endsWhole_append, Place.endsWhole_singleton] at ih ⊢
      by_cases htouch : Place.Touches m.keys.place q
      · rw [if_pos (Place.touches_eq_true_iff.mpr ⟨_, List.mem_singleton_self _, htouch⟩)]
        by_cases habove : m.keys.place <+: q
        · rw [if_pos (List.isPrefixOf_iff_prefix.mpr habove)]
          exact hpart.seek_copyInto hsrc hn hwf habove
        · rw [if_neg (mt List.isPrefixOf_iff_prefix.mp habove)]
          intro u hu
          refine hpart.ne_seq_of_copyInto hsrc hn hwf (htouch.resolve_left habove) ?_ hu
          rintro rfl
          exact habove List.prefix_rfl
      · have hno : ¬ Place.touches [m.keys.place] q = true := by
          rw [Place.touches_eq_true_iff]
          simpa using htouch
        rw [if_neg hno, hpart.seek_copyInto_of_not_touches hsrc hn hwf htouch]
        exact ih

end Node

namespace Path

/-- Of the matches of a path without `..` that touch a place, the last one is at or above it if any
of them is. -/
theorem endsWhole_map_place {P : Address → Prop} {root : Node} {l : List Address} {q : Place}
    (hroot : root.WellFormed) (hat : ∀ a ∈ l, P a ∧ ∃ n, Tree.At root a n) (h : Settled P l)
    (hq : ∃ a ∈ l, a.place <+: q) : Place.endsWhole (l.map Address.place) q = true := by
  induction l with
  | nil =>
      obtain ⟨a, ha, -⟩ := hq
      cases ha
  | cons b l ih =>
      obtain ⟨⟨hb, n, hn⟩, hrest⟩ := List.forall_mem_cons.mp hat
      rw [List.map_cons, Place.endsWhole_cons]
      split
      · rename_i htouch
        apply ih hrest h.2
        obtain ⟨a, ha, haq⟩ := hq
        rcases List.mem_cons.mp ha with rfl | ha
        · obtain ⟨p, hp, hpq⟩ := Place.touches_eq_true_iff.mp htouch
          obtain ⟨x, hx, rfl⟩ := List.mem_map.mp hp
          rcases hpq with hpq | hqp
          · exact ⟨x, hx, hpq⟩
          · obtain ⟨-, n', hn'⟩ := hrest x hx
            have hway := hn.isPrefix_of_place hroot hn' (haq.trans hqp)
            exact ⟨a, h.2.mem hx hb hway, haq⟩
        · exact ⟨a, ha, haq⟩
      · rename_i hno
        obtain ⟨a, ha, haq⟩ := hq
        rcases List.mem_cons.mp ha with rfl | ha
        · exact List.isPrefixOf_iff_prefix.mpr haq
        · exact absurd (Place.touches_eq_true_iff.mpr ⟨_, List.mem_map_of_mem ha, Or.inl haq⟩) hno

theorem endsWhole_find {path : Path} (hpath : path.ParentFree) {root : Node}
    (hroot : root.WellFormed) {q : Place} (hq : ∃ m ∈ path.find root, m.keys.place <+: q) :
    Place.endsWhole ((path.find root).map fun m => m.keys.place) q = true := by
  have hplaces : (path.find root).map (fun m => m.keys.place) =
      ((path.find root).map Match.keys).map Address.place := by
    rw [List.map_map]
    rfl
  have hsettled := settled_routes hpath hroot
  rw [← map_keys_find hpath] at hsettled
  rw [hplaces]
  refine endsWhole_map_place hroot ?_ hsettled ?_
  · intro a ha
    obtain ⟨m, hm, rfl⟩ := List.mem_map.mp ha
    exact ⟨(mem_keys_find_iff hpath).mp ha, at_of_mem_find hroot hm⟩
  · obtain ⟨m, hm, hmq⟩ := hq
    exact ⟨m.keys, List.mem_map_of_mem hm, hmq⟩

end Path

namespace Plan

variable {body : Value} {path : Path} {paths : List Path} {q : Place}

theorem places_eq_map (paths : List Path) (body : Value) :
    places paths body =
      (paths.flatMap fun path => path.find (Node.ofValue body)).map fun m => m.keys.place := by
  simp only [places, Path.find_ofValue, List.map_flatMap]

theorem mem_places_singleton :
    q ∈ places [path] body ↔ ∃ m ∈ path.find (Node.ofValue body), m.keys.place = q := by
  simp [places, Path.find_ofValue]

/-- What a place holds after a select pass. -/
theorem seek_runSelect (hbody : body.WellFormed) (paths : List Path) (q : Place) :
    if Place.endsWhole (places paths body) q then
      (runSelect (.ofValue body) paths).seek q = (Node.ofValue body).seek q
    else ∀ u, (runSelect (.ofValue body) paths).seek q = some u → ∀ items, u ≠ .seq items := by
  have hsrc := Node.wellFormed_ofValue hbody
  have hfound : ∀ m ∈ paths.flatMap fun path => path.find (Node.ofValue body),
      ∃ n, Tree.At (Node.ofValue body) m.keys n := by
    intro m hm
    obtain ⟨path, -, hm⟩ := List.mem_flatMap.mp hm
    exact Path.at_of_mem_find hsrc hm
  rw [places_eq_map, runSelect_eq_foldl]
  apply Node.seek_foldl_copyInto hsrc hfound (Node.part_emptyLike _) (Node.wellFormed_emptyLike _)
  intro u hu items
  cases q with
  | nil =>
      cases hu
      cases body <;> simp [Node.ofValue, Node.emptyLike]
  | cons s q => simp [Node.entries_emptyLike, Entries.get?] at hu

theorem endsWhole_places (hbody : body.WellFormed) (hpath : path.ParentFree)
    (hq : ∃ p ∈ places [path] body, p <+: q) :
    Place.endsWhole (places [path] body) q = true := by
  rw [places_eq_map, List.flatMap_singleton]
  apply Path.endsWhole_find hpath (Node.wellFormed_ofValue hbody)
  obtain ⟨p, hp, hpq⟩ := hq
  obtain ⟨m, hm, rfl⟩ := mem_places_singleton.mp hp
  exact ⟨m, hm, hpq⟩

end Plan

end PathRules
