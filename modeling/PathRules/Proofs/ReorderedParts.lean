import PathRules.Proofs.DeleteRepetition
import PathRules.Proofs.TrailOrder

/-!
# Selecting and deleting in another order of entries

Bodies that are equal up to the order of entries have the same matches up to their order. Selecting
and deleting then leave trees with the same view, since a view depends on the set of matches alone.
Whether a selected sequence stays a sequence depends on the last match that touches it, so the trees
are akin if no two matches are swapped of which one is strictly below the other.
-/

namespace PathRules

namespace Node

variable {t u : Node}

theorem part_of_view_eq (h : t.view = u.view) : Part (fun _ => True) t u := by
  intro p x
  rw [h, true_and]

theorem form_eq_of_shape_eq (h : t.shape = u.shape) (ht : ∀ items, t ≠ seq items)
    (hu : ∀ items, u ≠ seq items) : t.form = u.form := by
  cases t with
  | scalar s =>
      cases u <;> cases h
      rfl
  | seq items => exact absurd rfl (ht items)
  | sparse s =>
      cases u with
      | sparse s' => exact congrArg Form.sparse (Shape.seq.inj h)
      | seq items => exact absurd rfl (hu items)
      | scalar s => cases h
      | map es => cases h
  | map es =>
      cases u <;> cases h
      rfl

end Node

theorem Path.mem_keys_find_congr {t u : Node} (h : t.view = u.view) (ht : t.WellFormed)
    (hu : u.WellFormed) (path : Path) (a : Address) :
    a ∈ (path.find t).map Match.keys ↔ a ∈ (path.find u).map Match.keys :=
  ⟨mem_keys_find_of_part (Node.part_of_view_eq h.symm) hu ht,
    mem_keys_find_of_part (Node.part_of_view_eq h) ht hu⟩

namespace Place

variable {p p' q : Place} {ps ps' : List Place}

/-- Only where one of two places is at or above a place and the other strictly below it, the order
of the two decides. -/
theorem endsWhole_pair_comm (h : p <+: p' → p = p') (h' : p' <+: p → p' = p) :
    endsWhole [p, p'] q = endsWhole [p', p] q := by
  have hpair : ∀ s s' : Place, endsWhole [s, s'] q = true ↔
      if Touches s' q then s' <+: q else s <+: q := by
    intro s s'
    have htouch : touches [s'] q = true ↔ Touches s' q := by simp [touches_eq_true_iff]
    rw [endsWhole_cons, endsWhole_singleton]
    by_cases hs : Touches s' q
    · rw [if_pos (htouch.mpr hs), if_pos hs, List.isPrefixOf_iff_prefix]
    · rw [if_neg (mt htouch.mp hs), if_neg hs, List.isPrefixOf_iff_prefix]
  rw [Bool.eq_iff_iff, hpair, hpair]
  by_cases hp : Touches p q
  · by_cases hp' : Touches p' q
    · rw [if_pos hp, if_pos hp']
      constructor
      · intro habove'
        rcases hp with habove | hbelow
        · exact habove
        · rwa [← h' (habove'.trans hbelow)]
      · intro habove
        rcases hp' with habove' | hbelow'
        · exact habove'
        · rwa [← h (habove.trans hbelow')]
    · rw [if_pos hp, if_neg hp']
  · by_cases hp' : Touches p' q
    · rw [if_neg hp, if_pos hp']
    · rw [if_neg hp, if_neg hp']
      exact ⟨fun habove => absurd (Or.inl habove) hp, fun habove' => absurd (Or.inl habove') hp'⟩

/-- Swaps of places of which none is strictly below the other change nothing. -/
theorem endsWhole_shuffle (q : Place)
    (h : Shuffle (fun p p' => (p <+: p' → p = p') ∧ (p' <+: p → p' = p)) ps ps') :
    endsWhole ps q = endsWhole ps' q := by
  induction h with
  | refl ps => rfl
  | @swap p p' hapart ps =>
      have hsplit : ∀ s s' : Place, endsWhole (s :: s' :: ps) q =
          if touches ps q then endsWhole ps q else endsWhole [s, s'] q :=
        fun s s' => endsWhole_append [s, s'] ps q
      rw [hsplit, hsplit, endsWhole_pair_comm hapart.1 hapart.2]
  | cons p h ih =>
      rw [endsWhole_cons, endsWhole_cons, ih, touches_congr fun p => h.perm.mem_iff]
  | trans _ _ ih ih' => exact ih.trans ih'

end Place

namespace Plan

section Selecting

variable {v w : Value} {paths : List Path}

theorem mem_places_alike (hv : v.WellFormed) (hw : w.WellFormed) (h : v.Alike w)
    (paths : List Path) (q : Place) : q ∈ places paths v ↔ q ∈ places paths w := by
  have hview : (Node.ofValue v).view = (Node.ofValue w).view := funext (Node.akin_ofValue h).view_eq
  have hfound : ∀ (path : Path) (x : Value), (∃ m ∈ path.find x, m.keys.place = q) ↔
      ∃ a ∈ (path.find (Node.ofValue x)).map Match.keys, a.place = q := by
    intro path x
    simp [Path.find_ofValue]
  simp only [places, List.mem_flatMap, List.mem_map, hfound,
    Path.mem_keys_find_congr hview (Node.wellFormed_ofValue hv) (Node.wellFormed_ofValue hw)]

theorem view_runSelect_alike (hv : v.WellFormed) (hw : w.WellFormed) (h : v.Alike w)
    (paths : List Path) :
    (runSelect (.ofValue v) paths).view = (runSelect (.ofValue w) paths).view := by
  have hsame := mem_places_alike hv hw h paths
  simp only [places_eq_map, List.mem_map] at hsame
  have htouch : ∀ x : Value, ∀ p, (∃ m ∈ paths.flatMap fun path => path.find (Node.ofValue x),
      Place.Touches m.keys.place p) ↔ ∃ q, (∃ m ∈ paths.flatMap fun path =>
        path.find (Node.ofValue x), m.keys.place = q) ∧ Place.Touches q p := by
    intro x p
    simp
  funext p
  apply Option.ext
  intro x
  rw [(part_runSelect (Node.wellFormed_ofValue hv) paths).1 p x,
    (part_runSelect (Node.wellFormed_ofValue hw) paths).1 p x, (Node.akin_ofValue h).view_eq]
  simp only [htouch, hsame]

theorem endsWhole_places_alike (hv : v.WellFormed) (hw : w.WellFormed) (h : v.Alike w)
    (hpaths : ∀ path ∈ paths, path.Steady (.ofValue v)) (q : Place) :
    Place.endsWhole (places paths v) q = Place.endsWhole (places paths w) q := by
  induction paths with
  | nil => rfl
  | cons path paths ih =>
      obtain ⟨hpath, hpaths⟩ := List.forall_mem_cons.mp hpaths
      have hone : Place.endsWhole (places [path] v) q = Place.endsWhole (places [path] w) q := by
        have hplaces : ∀ x : Value, places [path] x =
            ((path.find (Node.ofValue x)).map Match.keys).map Address.place := by
          intro x
          simp [places_eq_map]
        have hwf := Node.wellFormed_ofValue hv
        have hkeys := Path.shuffle_keys_find (Node.akin_ofValue h) hwf
          (Node.wellFormed_ofValue hw) hpath
        rw [hplaces, hplaces]
        apply Place.endsWhole_shuffle
        refine hkeys.map fun a ha b hb hapart => ?_
        obtain ⟨m, hm, rfl⟩ := List.mem_map.mp ha
        obtain ⟨m', hm', rfl⟩ := List.mem_map.mp hb
        obtain ⟨n, hn⟩ := Path.at_of_mem_find hwf hm
        obtain ⟨n', hn'⟩ := Path.at_of_mem_find hwf hm'
        constructor
        · intro hprefix
          exact congrArg Address.place (hapart.1 (hn.isPrefix_of_place hwf hn' hprefix))
        · intro hprefix
          exact congrArg Address.place (hapart.2 (hn'.isPrefix_of_place hwf hn hprefix))
      rw [places_cons path paths v, places_cons path paths w, Place.endsWhole_append,
        Place.endsWhole_append, hone, ih hpaths,
        Place.touches_congr (mem_places_alike hv hw h paths)]

/-- Selecting by steady paths leaves akin trees. -/
theorem akin_runSelect (hv : v.WellFormed) (hw : w.WellFormed) (h : v.Alike w)
    (hpaths : ∀ path ∈ paths, path.Steady (.ofValue v)) :
    (runSelect (.ofValue v) paths).Akin (runSelect (.ofValue w) paths) := by
  intro q
  have hview := congrFun (view_runSelect_alike hv hw h paths) q
  have hseek := seek_runSelect hv paths q
  have hseek' := seek_runSelect hw paths q
  rw [← endsWhole_places_alike hv hw h hpaths] at hseek'
  split at hseek
  · rename_i hends
    rw [if_pos hends] at hseek'
    rw [hseek, hseek']
    exact Node.akin_ofValue h q
  · rename_i hends
    rw [if_neg hends] at hseek'
    rw [Node.view, Node.view] at hview
    cases hx : (runSelect (.ofValue v) paths).seek q with
    | none =>
        rw [hx] at hview
        rw [Option.map_eq_none_iff.mp hview.symm]
    | some x =>
        rw [hx] at hview
        obtain ⟨y, hy, hshape⟩ := Option.map_eq_some_iff.mp hview.symm
        rw [hy]
        exact congrArg some (Node.form_eq_of_shape_eq hshape.symm (hseek x hx) (hseek' y hy))

end Selecting

section Deleting

variable {t u : Node}

theorem view_deletePath (h : t.view = u.view) (ht : t.WellFormed) (hu : u.WellFormed) (q : Path) :
    (deletePath t q).view = (deletePath u q).view := by
  funext p
  apply Option.ext
  intro x
  rw [deletePath_eq_foldl_remove, deletePath_eq_foldl_remove,
    Node.view_foldl_remove ht (readsAlong_of_mem_find Node.part_self ht),
    Node.view_foldl_remove hu (readsAlong_of_mem_find Node.part_self hu), h]
  simp only [Path.mem_keys_find_congr h ht hu]

theorem view_runDelete (h : t.view = u.view) (ht : t.WellFormed) (hu : u.WellFormed)
    (qs : List Path) : (runDelete t qs).view = (runDelete u qs).view := by
  induction qs generalizing t u with
  | nil => exact h
  | cons q qs ih =>
      exact ih (view_deletePath h ht hu q) (wellFormed_deletePath ht q) (wellFormed_deletePath hu q)

theorem foldl_remove_of_mem_iff {as bs : List Address} (ht : t.WellFormed)
    (has : ∀ a ∈ as, t.ReadsAlong a) (hsame : ∀ a, a ∈ as ↔ a ∈ bs) :
    as.foldl Node.remove t = bs.foldl Node.remove t := by
  apply Node.foldl_remove_congr ht has fun b hb => has b ((hsame b).mpr hb)
  intro p _ _
  simp only [List.mem_map, hsame]

theorem akin_deletePath (h : t.Akin u) (ht : t.WellFormed) (hu : u.WellFormed) (q : Path) :
    (deletePath t q).Akin (deletePath u q) := by
  have hreads := readsAlong_of_mem_find (q := q) Node.part_self ht
  have hsame := Path.mem_keys_find_congr (funext h.view_eq) ht hu q
  rw [deletePath_eq_foldl_remove, deletePath_eq_foldl_remove,
    ← foldl_remove_of_mem_iff hu (fun a ha => h.readsAlong (hreads a ha)) hsame]
  exact h.foldl_remove ht hu hreads

theorem akin_runDelete (h : t.Akin u) (ht : t.WellFormed) (hu : u.WellFormed) (qs : List Path) :
    (runDelete t qs).Akin (runDelete u qs) := by
  induction qs generalizing t u with
  | nil => exact h
  | cons q qs ih =>
      exact ih (akin_deletePath h ht hu q) (wellFormed_deletePath ht q) (wellFormed_deletePath hu q)

end Deleting

end Plan

end PathRules
