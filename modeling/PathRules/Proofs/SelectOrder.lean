import PathRules.Proofs.SelectShape
import PathRules.Proofs.ValuePlaces

/-!
# The order of select rules

With its indices kept, what was selected is the restriction of the body in which a sequence is still
a sequence if the last match that touches it is at or above it, and a map from positions otherwise.
So the order of the rules shows exactly if one rule leaves a sequence whole that another one opens.
A match without `..` on the way leaves its sequences whole, unless a later rule matches inside of
them.
-/

namespace PathRules

namespace Value

theorem Alike.refl (v : Value) : v.Alike v := by
  induction v using Value.induction with
  | scalar s => exact Alike.scalar s
  | seq items ih =>
      apply Alike.seq rfl
      intro i x y hx hy
      rw [hx] at hy
      cases hy
      exact ih x (List.mem_of_getElem? hx)
  | map es ih =>
      apply Alike.map (List.Perm.refl _)
      intro k x y hx hy
      rw [hx] at hy
      cases hy
      exact ih (k, x) (Entries.mem_of_get? hx)

theorem Alike.get?_entries {v w x : Value} {s : String} (h : v.Alike w)
    (hx : v.entries.get? s = some x) : ∃ y, w.entries.get? s = some y ∧ x.Alike y := by
  cases h with
  | scalar s => cases hx
  | @seq xs ys hlength h =>
      obtain ⟨i, rfl, hi⟩ := Sparse.mem_named.mp (Entries.mem_of_get? hx)
      have hi := Sparse.mem_ofList.mp hi
      have hlt : i < ys.length := hlength ▸ (List.getElem?_eq_some_iff.mp hi).1
      have hy : ys[i]? = some ys[i] := List.getElem?_eq_getElem hlt
      exact ⟨ys[i], by rw [entries, Sparse.get?_named, Sparse.find?_ofList, hy], h i x _ hi hy⟩
  | @map es fs hkeys h =>
      have hs := hkeys.mem_iff.mp (Entries.mem_keys_iff.mpr ⟨x, hx⟩)
      obtain ⟨y, hy⟩ := Entries.mem_keys_iff.mp hs
      exact ⟨y, hy, h s x y hx hy⟩

theorem Alike.seek {v w x : Value} {q : Place} (h : v.Alike w) (hx : v.seek q = some x) :
    ∃ y, w.seek q = some y ∧ x.Alike y := by
  induction q generalizing v w with
  | nil =>
      cases hx
      exact ⟨w, rfl, h⟩
  | cons s q ih =>
      obtain ⟨c, hc, hx⟩ := Option.bind_eq_some_iff.mp hx
      obtain ⟨c', hc', hchild⟩ := h.get?_entries hc
      obtain ⟨y, hy, hxy⟩ := ih hchild hx
      exact ⟨y, by rw [seek_cons, hc']; exact hy, hxy⟩

mutual

/-- The part of a value at the places that pass a test. A sequence stays as it is where it is
whole, and becomes a map from positions elsewhere. -/
def arrange (keep whole : Place → Bool) : Value → Value
  | scalar s => scalar s
  | seq items => if whole [] then seq items else map (arrangeItems keep whole 0 items)
  | map es => map (arrangeEntries keep whole es)

/-- The elements from a position on, under their numerals. -/
def arrangeItems (keep whole : Place → Bool) (i : Nat) : List Value → Entries Value
  | [] => []
  | x :: xs =>
      let s := Numeral.natText i
      if keep [s] then
        (s, arrange (fun p => keep (s :: p)) (fun p => whole (s :: p)) x) ::
          arrangeItems keep whole (i + 1) xs
      else arrangeItems keep whole (i + 1) xs

def arrangeEntries (keep whole : Place → Bool) : Entries Value → Entries Value
  | [] => []
  | (k, x) :: es =>
      if keep [k] then
        (k, arrange (fun p => keep (k :: p)) (fun p => whole (k :: p)) x) ::
          arrangeEntries keep whole es
      else arrangeEntries keep whole es

end

variable {keep whole : Place → Bool}

theorem arrangeItems_eq (items : List Value) :
    arrangeItems keep whole 0 items = arrangeEntries keep whole (entries (seq items)) := by
  have hfrom : ∀ i, arrangeItems keep whole i items =
      arrangeEntries keep whole ((items.zipIdx i).map fun p => (Numeral.natText p.2, p.1)) := by
    induction items with
    | nil => intro i; rfl
    | cons x items ih =>
        intro i
        by_cases hkeep : keep [Numeral.natText i] <;>
          simp [arrangeItems, arrangeEntries, hkeep, ih]
  rw [hfrom, entries, Sparse.named, Sparse.ofList, List.map_map]
  rfl

theorem arrangeEntries_eq_map (es : Entries Value) :
    arrangeEntries keep whole es = (es.filter fun e => keep [e.1]).map fun e =>
      (e.1, e.2.arrange (fun p => keep (e.1 :: p)) fun p => whole (e.1 :: p)) := by
  induction es with
  | nil => rfl
  | cons e es ih =>
      obtain ⟨k, x⟩ := e
      by_cases hkeep : keep [k] <;> simp [arrangeEntries, hkeep, ih]

theorem WellFormed.nodup_keys_entries {v : Value} (hv : v.WellFormed) : v.entries.keys.Nodup := by
  have hkeys := (Node.wellFormed_ofValue hv).nodup_keys_entries
  rwa [Node.entries_ofValue, Entries.keys_map] at hkeys

end Value

namespace Node

variable {K : Place → Prop} {t : Node} {v : Value} {keep whole : Place → Bool}

theorem toValue_of_ne_seq (hc : t.isContainer) (hne : ∀ items, t ≠ seq items) :
    t.toValue true = .map (t.entries.map fun e => (e.1, e.2.toValue true)) := by
  cases t with
  | scalar s => cases hc
  | seq items => exact absurd rfl (hne items)
  | sparse s => simp [toValue, toNamed_eq_map, entries]
  | map es => simp [toValue, toEntries_eq_map, entries]

/-- A part of a value has the entries that pass the test. -/
theorem Part.keys_entries_perm (h : Part K (ofValue v) t) (hv : v.WellFormed) (ht : t.WellFormed)
    (hK : ∀ s p, K (s :: p) ↔ keep (s :: p) = true) :
    t.entries.keys.Perm (v.entries.keys.filter fun s => keep [s]) := by
  rw [List.perm_ext_iff_of_nodup ht.nodup_keys_entries (hv.nodup_keys_entries.filter _)]
  intro s
  have hget : (ofValue v).entries.get? s = (v.entries.get? s).map ofValue := by
    rw [entries_ofValue]
    exact Entries.get?_map ofValue v.entries s
  rw [List.mem_filter, Entries.mem_keys_iff, Entries.mem_keys_iff]
  constructor
  · rintro ⟨c, hc⟩
    obtain ⟨c₀, hc₀, hpart⟩ := h.child hc
    rw [hget] at hc₀
    obtain ⟨x, hx, -⟩ := Option.map_eq_some_iff.mp hc₀
    exact ⟨⟨x, hx⟩, (hK s []).mp hpart.root⟩
  · rintro ⟨⟨x, hx⟩, hkeep⟩
    exact h.exists_child (by rw [hget, hx]; rfl) ((hK s []).mpr hkeep)

/-- An open part of a value is what is kept of the value, if every entry is. -/
theorem Part.alike_arrangeEntries (h : Part K (ofValue v) t) (hv : v.WellFormed) (ht : t.WellFormed)
    (hK : ∀ s p, K (s :: p) ↔ keep (s :: p) = true)
    (hbelow : ∀ s x c, v.entries.get? s = some x → t.entries.get? s = some c →
      Part (fun p => K (s :: p)) (ofValue x) c →
      (c.toValue true).Alike (x.arrange (fun p => keep (s :: p)) fun p => whole (s :: p))) :
    (Value.map (t.entries.map fun e => (e.1, e.2.toValue true))).Alike
      (.map (Value.arrangeEntries keep whole v.entries)) := by
  rw [Value.arrangeEntries_eq_map]
  apply Value.Alike.map
  · have hkeys : Entries.keys ((v.entries.filter fun e => keep [e.1]).map fun e =>
        (e.1, e.2.arrange (fun p => keep (e.1 :: p)) fun p => whole (e.1 :: p))) =
        v.entries.keys.filter fun s => keep [s] := by
      simp [Entries.keys, List.filter_map, Function.comp_def]
    rw [Entries.keys_map, hkeys]
    exact h.keys_entries_perm hv ht hK
  · intro s x y hx hy
    rw [Entries.get?_map] at hx
    obtain ⟨c, hc, rfl⟩ := Option.map_eq_some_iff.mp hx
    obtain ⟨⟨k, z⟩, hz, heq⟩ := List.mem_map.mp (Entries.mem_of_get? hy)
    cases heq
    have hget := Entries.get?_of_mem hv.nodup_keys_entries (List.mem_of_mem_filter hz)
    obtain ⟨c₀, hc₀, hpart⟩ := h.child hc
    rw [entries_ofValue] at hc₀
    rw [(Entries.get?_map ofValue v.entries k).trans (by rw [hget, Option.map_some])] at hc₀
    cases hc₀
    exact hbelow k z c hget hc hpart

/-- A part of a value whose sequences are whole or open as the test tells. -/
theorem Part.alike_arrange (hv : v.WellFormed) (h : Part K (ofValue v) t) (ht : t.WellFormed)
    (hK : ∀ s p, K (s :: p) ↔ keep (s :: p) = true)
    (hshape : ∀ q items u, v.seek q = some (.seq items) → t.seek q = some u →
      if whole q then u = ofValue (.seq items) else ∀ items', u ≠ seq items') :
    (t.toValue true).Alike (v.arrange keep whole) := by
  induction hv generalizing K keep whole t with
  | scalar s =>
      have hroot := h.shape_eq
      cases t with
      | scalar s' =>
          cases hroot
          exact Value.Alike.scalar s
      | seq items => cases hroot
      | sparse s' => cases hroot
      | map es => cases hroot
  | @seq items hitems ih =>
      have hroot := hshape [] items t rfl rfl
      by_cases hwhole : whole [] = true
      · rw [if_pos hwhole] at hroot
        rw [hroot, toValue_ofValue, Value.arrange, if_pos hwhole]
        exact Value.Alike.refl _
      · rw [if_neg hwhole] at hroot
        have hcont : t.isContainer := isContainer_eq_of_shape_eq h.shape_eq
        rw [toValue_of_ne_seq hcont hroot, Value.arrange, if_neg hwhole, Value.arrangeItems_eq]
        apply h.alike_arrangeEntries (Value.WellFormed.seq hitems) ht hK
        intro s x c hx hc hpart
        obtain ⟨i, rfl, hi⟩ := Sparse.mem_named.mp (Entries.mem_of_get? hx)
        refine ih x (List.mem_of_getElem? (Sparse.mem_ofList.mp hi)) hpart (ht.get? hc)
          (fun s p => hK _ (s :: p)) ?_
        intro q items' u hq hu
        exact hshape (_ :: q) items' u (by rw [Value.seek_cons, hx]; exact hq)
          (by rw [seek_cons, hc]; exact hu)
  | @map es hes hentries ih =>
      have hcont : t.isContainer := isContainer_eq_of_shape_eq h.shape_eq
      have hmap : ∀ items, t ≠ seq items := by
        rintro items rfl
        cases h.shape_eq
      rw [toValue_of_ne_seq hcont hmap, Value.arrange]
      apply h.alike_arrangeEntries (Value.WellFormed.map hes hentries) ht hK
      intro s x c hx hc hpart
      refine ih (s, x) (Entries.mem_of_get? hx) hpart (ht.get? hc) (fun s p => hK _ (s :: p)) ?_
      intro q items' u hq hu
      exact hshape (s :: q) items' u (by rw [Value.seek_cons, hx]; exact hq)
        (by rw [seek_cons, hc]; exact hu)

end Node

namespace Plan

variable {body : Value} {path : Path} {paths : List Path} {q : Place}

theorem endsWhole_eq_false_of_not_touches {ps : List Place} (h : ¬ Place.touches ps q = true) :
    Place.endsWhole ps q = false := by
  rw [Bool.eq_false_iff]
  intro hwhole
  obtain ⟨p, hp, hpq⟩ := Place.exists_of_endsWhole hwhole
  exact h (Place.touches_eq_true_iff.mpr ⟨p, hp, Or.inl hpq⟩)

theorem places_cons (path : Path) (paths : List Path) (body : Value) :
    places (path :: paths) body = places [path] body ++ places paths body := by
  simp [places]

theorem places_append (ps qs : List Path) (body : Value) :
    places (ps ++ qs) body = places ps body ++ places qs body := by
  simp [places]

theorem alike_runSelect_arrange (hbody : body.WellFormed) (paths : List Path)
    (whole : Place → Bool)
    (hwhole : ∀ q items, body.seek q = some (.seq items) →
      whole q = Place.endsWhole (places paths body) q) :
    ((runSelect (.ofValue body) paths).toValue true).Alike
      (body.arrange (Place.touches (places paths body)) whole) := by
  obtain ⟨hpart, hwf⟩ := part_runSelect (Node.wellFormed_ofValue hbody) paths
  apply hpart.alike_arrange hbody hwf
  · intro s p
    rw [places_eq_map, Place.touches_eq_true_iff]
    simp
  · intro q items u hq hu
    have hseek := seek_runSelect hbody paths q
    rw [hwhole q items hq]
    split at hseek
    · rename_i hends
      rw [if_pos hends]
      rw [hu, Node.seek_ofValue_eq_map, hq] at hseek
      exact Option.some.inj hseek
    · rename_i hends
      rw [if_neg hends]
      exact hseek u hu

/-- No sequence of the body that one of the paths touches last at or above it is touched last inside
by another one. -/
def Concordant (paths : List Path) (body : Value) : Prop :=
  ∀ q items, body.seek q = some (.seq items) → ∀ path ∈ paths, ∀ path' ∈ paths,
    Place.touches (places [path] body) q → Place.touches (places [path'] body) q →
    Place.endsWhole (places [path] body) q = Place.endsWhole (places [path'] body) q

theorem endsWhole_places_of_forall {ends : Bool}
    (h : ∀ path ∈ paths, Place.touches (places [path] body) q →
      Place.endsWhole (places [path] body) q = ends)
    (htouch : Place.touches (places paths body) q = true) :
    Place.endsWhole (places paths body) q = ends := by
  induction paths with
  | nil => cases htouch
  | cons path paths ih =>
      obtain ⟨hpath, hpaths⟩ := List.forall_mem_cons.mp h
      rw [places_cons, Place.endsWhole_append]
      by_cases hlater : Place.touches (places paths body) q
      · rw [if_pos hlater]
        exact ih hpaths hlater
      · rw [if_neg hlater]
        apply hpath
        rw [places_cons, Place.touches_eq_true_iff] at htouch
        obtain ⟨p, hp, hpq⟩ := htouch
        rcases List.mem_append.mp hp with hp | hp
        · exact Place.touches_eq_true_iff.mpr ⟨p, hp, hpq⟩
        · exact absurd (Place.touches_eq_true_iff.mpr ⟨p, hp, hpq⟩) hlater

theorem Concordant.endsWhole_eq {paths' : List Path} (h : Concordant paths body)
    (hperm : paths'.Perm paths) {items : List Value} (hq : body.seek q = some (.seq items)) :
    Place.endsWhole (places paths' body) q = Place.endsWhole (places paths body) q := by
  by_cases htouch : ∃ path ∈ paths, Place.touches (places [path] body) q
  · obtain ⟨path, hpath, hone⟩ := htouch
    have hends : ∀ ps : List Path, ps.Perm paths →
        Place.endsWhole (places ps body) q = Place.endsWhole (places [path] body) q := by
      intro ps hps
      apply endsWhole_places_of_forall
      · intro path' hpath' hother
        exact h q items hq path' (hps.mem_iff.mp hpath') path hpath hother hone
      · obtain ⟨p, hp, hpq⟩ := Place.touches_eq_true_iff.mp hone
        refine Place.touches_eq_true_iff.mpr ⟨p, ?_, hpq⟩
        obtain ⟨path', hpath', hmem⟩ := List.mem_flatMap.mp hp
        rw [List.mem_singleton.mp hpath'] at hmem
        exact List.mem_flatMap.mpr ⟨path, hps.mem_iff.mpr hpath, hmem⟩
    rw [hends paths' hperm, hends paths (List.Perm.refl _)]
  · have hnone : ∀ ps : List Path, ps.Perm paths → Place.endsWhole (places ps body) q = false := by
      intro ps hps
      apply endsWhole_eq_false_of_not_touches
      rw [Place.touches_eq_true_iff]
      rintro ⟨p, hp, hpq⟩
      obtain ⟨path, hpath, hmem⟩ := List.mem_flatMap.mp hp
      refine htouch ⟨path, hps.mem_iff.mp hpath, Place.touches_eq_true_iff.mpr ⟨p, ?_, hpq⟩⟩
      exact List.mem_flatMap.mpr ⟨path, List.mem_singleton_self _, hmem⟩
    rw [hnone paths' hperm, hnone paths (List.Perm.refl _)]

/-- In the data a sequence of the body is still a sequence if it ends whole, and only then. -/
theorem seek_toValue_eq_seq_iff (hbody : body.WellFormed) {items : List Value}
    (hq : body.seek q = some (.seq items)) :
    (∃ items', ((runSelect (.ofValue body) paths).toValue true).seek q = some (.seq items')) ↔
      Place.endsWhole (places paths body) q = true := by
  have hseek := seek_runSelect hbody paths q
  rw [Node.seek_toValue]
  split at hseek
  · rename_i hends
    rw [hseek, Node.seek_ofValue_eq_map, hq]
    simp [hends, Node.toValue_ofValue]
  · rename_i hends
    refine ⟨?_, fun h => absurd h hends⟩
    rintro ⟨items', hdata⟩
    obtain ⟨u, hu, hvalue⟩ := Option.map_eq_some_iff.mp hdata
    cases u with
    | scalar s => cases hvalue
    | seq xs => exact absurd rfl (hseek _ hu xs)
    | sparse s => cases hvalue
    | map es => cases hvalue

theorem concordant_of_alike (hbody : body.WellFormed)
    (h : ∀ ps qs : List Path, ps.Perm paths → qs.Perm paths →
      ((runSelect (.ofValue body) ps).toValue true).Alike
        ((runSelect (.ofValue body) qs).toValue true)) : Concordant paths body := by
  intro q items hq path hpath path' hpath' htouch htouch'
  -- Each of the two paths has the last word in some order of the paths.
  have hlast : ∀ path ∈ paths, ∃ ps : List Path, (ps ++ [path]).Perm paths := by
    intro path hpath
    obtain ⟨before, after, rfl⟩ := List.append_of_mem hpath
    exact ⟨before ++ after,
      (List.perm_append_singleton path (before ++ after)).trans List.perm_middle.symm⟩
  have hends : ∀ (ps : List Path) path, Place.touches (places [path] body) q →
      Place.endsWhole (places (ps ++ [path]) body) q = Place.endsWhole (places [path] body) q := by
    intro ps path htouch
    rw [places_append, Place.endsWhole_append, if_pos htouch]
  obtain ⟨ps, hps⟩ := hlast path hpath
  obtain ⟨ps', hps'⟩ := hlast path' hpath'
  have hseq : ∀ {v w : Value}, v.Alike w → (∃ xs, v.seek q = some (.seq xs)) →
      ∃ ys, w.seek q = some (.seq ys) := by
    rintro v w hvw ⟨xs, hxs⟩
    obtain ⟨y, hy, hxy⟩ := hvw.seek hxs
    cases hxy with
    | seq _ _ => exact ⟨_, hy⟩
  rw [← hends ps path htouch, ← hends ps' path' htouch', Bool.eq_iff_iff,
    ← seek_toValue_eq_seq_iff hbody hq, ← seek_toValue_eq_seq_iff hbody hq]
  exact ⟨hseq (h _ _ hps hps'), hseq (h _ _ hps' hps)⟩

theorem endsWhole_of_later {before after : List Path} (hbody : body.WellFormed)
    (hpath : path.ParentFree) (hq : ∃ p ∈ places [path] body, p <+: q)
    (hafter : ∀ p ∈ places after body, q <+: p → p = q) :
    Place.endsWhole (places (before ++ path :: after) body) q = true := by
  rw [places_append, places_cons, Place.endsWhole_append, Place.endsWhole_append]
  by_cases hlater : Place.touches (places after body) q
  · obtain ⟨p, hp, hpq⟩ := Place.touches_eq_true_iff.mp hlater
    have habove : p <+: q := by
      rcases hpq with hpq | hqp
      · exact hpq
      · exact (hafter p hp hqp).symm ▸ List.prefix_rfl
    have hboth : Place.touches (places [path] body ++ places after body) q = true :=
      Place.touches_eq_true_iff.mpr ⟨p, List.mem_append_right _ hp, Or.inl habove⟩
    rw [if_pos hboth, if_pos hlater]
    exact Place.endsWhole_of_not_below hp habove hafter
  · obtain ⟨p, hp, hpq⟩ := hq
    have hboth : Place.touches (places [path] body ++ places after body) q = true :=
      Place.touches_eq_true_iff.mpr ⟨p, List.mem_append_left _ hp, Or.inl hpq⟩
    rw [if_pos hboth, if_neg hlater]
    exact endsWhole_places hbody hpath ⟨p, hp, hpq⟩

/-- What selecting leaves with its indices kept: which sequences are still sequences, when the order
of the paths does not show, and what the matches of a path without `..` hold. -/
theorem execute_select_arranged (hbody : body.WellFormed) (hc : body.isContainer)
    (hne : paths ≠ []) :
    ∃ data, Plan.execute { select := paths } body true = .ok ⟨data, []⟩ ∧
      data.Alike (body.arrange (Place.touches (places paths body))
        (Place.endsWhole (places paths body))) ∧
      ((∀ paths', paths'.Perm paths → ∃ data',
          Plan.execute { select := paths' } body true = .ok ⟨data', []⟩ ∧ data'.Alike data) ↔
        Concordant paths body) ∧
      ∀ before path after, paths = before ++ path :: after → path.ParentFree →
        ∀ q, (∃ p ∈ places [path] body, p <+: q) →
          (∀ p ∈ places after body, q <+: p → p = q) → data.seek q = body.seek q := by
  have hrun : ∀ ps : List Path, ps.Perm paths → Plan.execute { select := ps } body true =
      .ok ⟨(runSelect (.ofValue body) ps).toValue true, []⟩ := fun ps hps =>
    execute_select hc (fun hnil => hne (List.perm_nil.mp (hnil ▸ hps.symm))) true
  have harranged := alike_runSelect_arrange hbody paths _ fun _ _ _ => rfl
  refine ⟨_, hrun paths (List.Perm.refl _), harranged, ⟨?_, ?_⟩, ?_⟩
  · intro hshow
    have hsame : ∀ ps : List Path, ps.Perm paths →
        ((runSelect (.ofValue body) ps).toValue true).Alike
          ((runSelect (.ofValue body) paths).toValue true) := by
      intro ps hps
      obtain ⟨data', hdata', halike⟩ := hshow ps hps
      rw [hrun ps hps] at hdata'
      cases hdata'
      exact halike
    exact concordant_of_alike hbody fun ps qs hps hqs => (hsame ps hps).trans (hsame qs hqs).symm
  · intro hconcordant paths' hperm
    refine ⟨_, hrun paths' hperm, ?_⟩
    have hplaces : ∀ p, p ∈ places paths' body ↔ p ∈ places paths body := by
      intro p
      simp only [places, List.mem_flatMap, hperm.mem_iff]
    have hother := alike_runSelect_arrange hbody paths' (Place.endsWhole (places paths body))
      fun q items hq => (hconcordant.endsWhole_eq hperm hq).symm
    rw [Place.touches_congr hplaces] at hother
    exact hother.trans harranged.symm
  · rintro before path after rfl hpath q hq hafter
    have hseek := seek_runSelect hbody (before ++ path :: after) q
    rw [if_pos (endsWhole_of_later hbody hpath hq hafter)] at hseek
    rw [Node.seek_toValue, hseek, ← Node.seek_ofValue]

/-- Two sequences of two elements. -/
def twoPairs : Value :=
  .map [("a", .seq [.scalar (.int 1), .scalar (.int 2)]),
    ("b", .seq [.scalar (.int 3), .scalar (.int 4)])]

def allOfA : Path :=
  ⟨"a", [.step (.literal "a") none false], {}⟩

def firstOfA : Path :=
  ⟨"a/0", [.step (.literal "a") none false, .step (.literal "0") none false], {}⟩

/-- The last element of `b`. -/
def lastOfB : Path :=
  ⟨"b/-1..-1", [.step (.literal "b") none false, .step (.range (-1) (-1) true) none false], {}⟩

theorem execute_select_arranged_lastOfB :
    twoPairs.WellFormed ∧ twoPairs.isContainer ∧ [firstOfA, allOfA, lastOfB] ≠ [] ∧
      places [firstOfA, allOfA, lastOfB] twoPairs = [["a", "0"], ["a"], ["b", "1"]] ∧
      allOfA.ParentFree ∧
      ∃ data, Plan.execute { select := [firstOfA, allOfA, lastOfB] } twoPairs true =
          .ok ⟨data, []⟩ ∧
        data.Alike (.map [("a", .seq [.scalar (.int 1), .scalar (.int 2)]),
          ("b", .map [("1", .scalar (.int 4))])]) ∧
        data.seek ["a"] = some (.seq [.scalar (.int 1), .scalar (.int 2)]) := by
  have hbody : twoPairs.WellFormed := by simp [twoPairs, Entries.keys]
  have hplaces : places [firstOfA, allOfA, lastOfB] twoPairs = [["a", "0"], ["a"], ["b", "1"]] := by
    rfl
  have hpath : allOfA.ParentFree := by simp [Path.ParentFree, allOfA]
  obtain ⟨data, hrun, halike, -, hwhole⟩ := execute_select_arranged hbody rfl
    (List.cons_ne_nil firstOfA [allOfA, lastOfB])
  rw [hplaces] at halike
  have hseek := hwhole [firstOfA] allOfA [lastOfB] rfl hpath ["a"] (by decide) (by decide)
  exact ⟨hbody, rfl, List.cons_ne_nil _ _, hplaces, hpath, data, hrun, halike, hseek⟩

/-- A sequence that is matched as a whole becomes a map from positions if an element of it is
matched later, and stays a sequence if it is matched before. -/
theorem execute_select_wholeThenFirst :
    places [allOfA, firstOfA] twoPairs = [["a"], ["a", "0"]] ∧
      [firstOfA, allOfA].Perm [allOfA, firstOfA] ∧
      Plan.execute { select := [allOfA, firstOfA] } twoPairs true =
        .ok ⟨.map [("a", .map [("0", .scalar (.int 1)), ("1", .scalar (.int 2))])], []⟩ ∧
      Plan.execute { select := [firstOfA, allOfA] } twoPairs true =
        .ok ⟨.map [("a", .seq [.scalar (.int 1), .scalar (.int 2)])], []⟩ ∧
      ¬ (Value.map [("a", .map [("0", .scalar (.int 1)), ("1", .scalar (.int 2))])]).Alike
        (.map [("a", .seq [.scalar (.int 1), .scalar (.int 2)])]) := by
  refine ⟨by rfl, List.Perm.swap _ _ _, by rfl, by rfl, ?_⟩
  intro halike
  obtain ⟨y, hy, hxy⟩ := halike.seek (q := ["a"]) rfl
  cases hy
  cases hxy

end Plan

end PathRules
