import PathRules.Proofs.PassState
import PathRules.Proofs.ReorderedParts

/-!
# Bodies with their entries in another order

The same plan runs on two bodies that are equal up to the order of entries. A rule of a move or map
pass leaves akin trees if the order of entries decides nothing of what it writes: matches whose
trails fork at a map do not compete for a destination, and no text of a container is captured. The
transfers of the two runs are then shuffles of each other, and writes that do not touch commute.
-/

namespace PathRules

namespace Plan

section Writing

/-- Akin values for the same slot, or for akin ones. -/
theorem akin_merge {value value' slot slot' : Node} (writes : Nat) (hvalue : value.Akin value')
    (hslot : slot.Akin slot') : (merge writes value slot).Akin (merge writes value' slot') := by
  have hpair : (Node.seq [slot, value]).Akin (.seq [slot', value']) :=
    Node.akin_seq (.cons hslot (.cons hvalue .nil))
  have hform := hslot.form_eq
  by_cases hfirst : writes = 1
  · simp only [merge, if_pos hfirst]
    exact hvalue
  · simp only [merge, if_neg hfirst]
    cases slot with
    | seq items =>
        cases slot' with
        | seq items' =>
            by_cases hlater : 2 < writes
            · simp only [if_pos hlater]
              exact Node.akin_seq
                (List.rel_append (Node.forall₂_of_akin_seq hslot) (.cons hvalue .nil))
            · simp only [if_neg hlater]
              exact hpair
        | scalar s => cases hform
        | sparse s => cases hform
        | map es => cases hform
    | scalar s =>
        cases slot' <;> cases hform
        exact hpair
    | sparse s =>
        cases slot' with
        | sparse s' => exact hpair
        | scalar s' => cases hform
        | seq items => cases hform
        | map es => cases hform
    | map es =>
        cases slot' <;> cases hform
        exact hpair

namespace Transfer

/-- Transfers of akin nodes from the same source to the same destination. -/
structure Akin (t t' : Transfer) : Prop where
  source : t.source = t'.source
  dest : t.dest = t'.dest
  value : t.value.Akin t'.value

theorem Akin.refl (t : Transfer) : t.Akin t :=
  ⟨rfl, rfl, Node.Akin.refl t.value⟩

/-- A transfer of a well-formed node to an address that the texts of its keys denote. -/
structure Fit (t : Transfer) : Prop where
  denoted : t.dest.Denoted
  wellFormed : t.value.WellFormed

/-- Two transfers that can be written in either order. -/
def Free (t t' : Transfer) : Prop :=
  t = t' ∨ ¬ Place.Touches t.dest.place t'.dest.place

end Transfer

namespace Relocating

/-- Two passes under way with akin trees, the same sources of each destination and the same
diagnostics in some order. -/
structure Akin (r r' : Relocating) : Prop where
  root : r.root.Akin r'.root
  left : r.root.WellFormed
  right : r'.root.WellFormed
  sources : ∀ d, r.assigned.sources d = r'.assigned.sources d
  diagnostics : r.diagnostics.Perm r'.diagnostics

variable {r r' r'' : Relocating} {t t' : Transfer}

theorem Akin.symm (h : r.Akin r') : r'.Akin r :=
  ⟨h.root.symm, h.right, h.left, fun d => (h.sources d).symm, h.diagnostics.symm⟩

theorem Akin.trans (h : r.Akin r') (h' : r'.Akin r'') : r.Akin r'' :=
  ⟨h.root.trans h'.root, h.left, h'.right, fun d => (h.sources d).trans (h'.sources d),
    h.diagnostics.trans h'.diagnostics⟩

theorem Akin.refl_right (h : r.Akin r') : r'.Akin r' :=
  h.symm.trans h

theorem diagnostics_assign (r : Relocating) (t : Transfer) :
    (r.assign t).diagnostics = r.diagnostics := by
  rw [assign]
  split <;> rfl

theorem assign_of_mem (hs : t.source ∈ r.assigned.sources t.dest) : r.assign t = r := by
  rw [assign, if_pos hs]

theorem Akin.assign (h : r.Akin r') (ht : t.Fit) (ht' : t'.Fit) (htt : t.Akin t') :
    (r.assign t).Akin (r'.assign t') := by
  have hplain := ht.denoted.plain
  have hsources := h.sources t.dest
  by_cases hs : t.source ∈ r.assigned.sources t.dest
  · have hs' : t'.source ∈ r'.assigned.sources t'.dest := by
      rwa [← htt.source, ← htt.dest, ← hsources]
    rwa [assign_of_mem hs, assign_of_mem hs']
  · have hs' : t'.source ∉ r'.assigned.sources t'.dest := by
      rwa [← htt.source, ← htt.dest, ← hsources]
    refine ⟨?_, ?_, ?_, ?_, ?_⟩
    · rw [root_assign hs, root_assign hs', ← htt.dest, ← hsources]
      exact h.root.alterAt h.left h.right hplain fun _ _ _ _ hslot => akin_merge _ htt.value hslot
    · exact wellFormed_root_assign h.left hplain ht.wellFormed
    · exact wellFormed_root_assign h.right ht'.denoted.plain ht'.wellFormed
    · intro d
      rw [sources_assign hs, sources_assign hs', ← htt.source, ← htt.dest, hsources, h.sources]
    · rw [diagnostics_assign, diagnostics_assign]
      exact h.diagnostics

/-- Two transfers to destinations that do not touch can be written in either order. -/
theorem assign_assign (hr : r.root.WellFormed) (ht : t.Fit) (ht' : t'.Fit)
    (hapart : ¬ Place.Touches t.dest.place t'.dest.place) :
    ((r.assign t).assign t').Akin ((r.assign t').assign t) := by
  have hne : t.dest ≠ t'.dest := by
    intro heq
    rw [heq] at hapart
    exact hapart (Or.inl List.prefix_rfl)
  have hwf := wellFormed_root_assign hr ht.denoted.plain ht.wellFormed
  have hwf' := wellFormed_root_assign hr ht'.denoted.plain ht'.wellFormed
  have hself : ∀ {q : Relocating}, q.root.WellFormed → q.Akin q := fun hq =>
    ⟨Node.Akin.refl _, hq, hq, fun _ => rfl, List.Perm.refl _⟩
  by_cases hs : t.source ∈ r.assigned.sources t.dest
  · have hs₂ : t.source ∈ (r.assign t').assigned.sources t.dest := by
      by_cases hs' : t'.source ∈ r.assigned.sources t'.dest
      · rwa [assign_of_mem hs']
      · rwa [sources_assign hs', if_neg hne]
    rw [assign_of_mem hs, assign_of_mem hs₂]
    exact hself hwf'
  · by_cases hs' : t'.source ∈ r.assigned.sources t'.dest
    · have hs₂ : t'.source ∈ (r.assign t).assigned.sources t'.dest := by
        rwa [sources_assign hs, if_neg hne.symm]
      rw [assign_of_mem hs', assign_of_mem hs₂]
      exact hself hwf
    · have hs₂ : t'.source ∉ (r.assign t).assigned.sources t'.dest := by
        rwa [sources_assign hs, if_neg hne.symm]
      have hs₃ : t.source ∉ (r.assign t').assigned.sources t.dest := by
        rwa [sources_assign hs', if_neg hne]
      refine ⟨?_, ?_, ?_, ?_, ?_⟩
      · rw [root_assign hs₂, root_assign hs₃, root_assign hs, root_assign hs', sources_assign hs,
          sources_assign hs', if_neg hne, if_neg hne.symm]
        apply Node.alterAt_alterAt hr ht'.denoted ht.denoted
        · exact fun u hu => wellFormed_merge _ ht'.wellFormed hu
        · exact fun u hu => wellFormed_merge _ ht.wellFormed hu
        · exact fun htouch => hapart htouch.symm
      · exact wellFormed_root_assign hwf ht'.denoted.plain ht'.wellFormed
      · exact wellFormed_root_assign hwf' ht.denoted.plain ht.wellFormed
      · intro d
        rw [sources_assign hs₂, sources_assign hs₃, sources_assign hs, sources_assign hs',
          sources_assign hs', sources_assign hs]
        by_cases hd : d = t.dest
        · subst hd
          simp [hne]
        · by_cases hd' : d = t'.dest
          · subst hd'
            simp [hne.symm]
          · simp [hd, hd']
      · simp only [diagnostics_assign]
        exact List.Perm.refl _

/-- Two lists of transfers that are shuffles of each other leave akin states. -/
theorem Akin.foldl_assign_shuffle {ts us : List Transfer} (h : r.Akin r')
    (hts : ∀ t ∈ ts, t.Fit) (hshuffle : Shuffle Transfer.Free ts us) :
    (ts.foldl Relocating.assign r).Akin (us.foldl Relocating.assign r') := by
  refine hshuffle.foldl (R := Akin) (fun _ _ h => h.refl_right) (fun _ _ _ h h' => h.trans h')
    ?_ ?_ h
  · intro r r' h t ht
    exact h.assign (hts t ht) (hts t ht) (.refl t)
  · intro r r' h t ht t' ht' hfree
    have hboth := (h.assign (hts t ht) (hts t ht) (.refl t)).assign (hts t' ht') (hts t' ht')
      (.refl t')
    rcases hfree with rfl | hapart
    · exact hboth
    · exact hboth.trans (assign_assign h.right (hts t ht) (hts t' ht') hapart)

theorem Akin.foldl_assign {ts us : List Transfer} (h : r.Akin r')
    (hts : ∀ t ∈ ts, t.Fit) (hus : ∀ t ∈ us, t.Fit) (hsame : List.Forall₂ Transfer.Akin ts us) :
    (ts.foldl Relocating.assign r).Akin (us.foldl Relocating.assign r') := by
  induction hsame generalizing r r' with
  | nil => exact h
  | cons htt _ ih =>
      obtain ⟨ht, hts⟩ := List.forall_mem_cons.mp hts
      obtain ⟨hu, hus⟩ := List.forall_mem_cons.mp hus
      exact ih (h.assign ht hu htt) hts hus

end Relocating

end Writing

end Plan

namespace Relocation

/-- Two matches of different locations, or with different destinations, of which one destination is
at or below the other. A match without a destination does not compete. -/
def Compete (rule : Relocation) (m m' : Match) : Prop :=
  let d := (rule.template.destination m).1
  let d' := (rule.template.destination m').1
  d ≠ [] ∧ d' ≠ [] ∧ Place.Touches d.place d'.place ∧ ¬ (m.keys = m'.keys ∧ d = d')

instance (rule : Relocation) (m m' : Match) : Decidable (rule.Compete m m') :=
  inferInstanceAs (Decidable (_ ∧ _ ∧ _ ∧ ¬ _))

/-- The order of entries decides nothing of what the rule writes. -/
structure Steady (rule : Relocation) (root : Node) : Prop where
  reads : rule.path.ReadsScalars root
  apart : ∀ x ∈ rule.path.trails root, ∀ y ∈ rule.path.trails root,
    Address.forks x.steps y.steps → ¬ rule.Compete x.found y.found

end Relocation

namespace Plan

namespace Relocating

variable {root u : Node} {rule : Relocation} {r r' : Relocating}

/-- The transfer of a match. -/
def transferOf? (root : Node) (rule : Relocation) (m : Match) : Option Transfer :=
  let dest := (rule.template.destination m).1
  if dest.isEmpty then none
  else (Tree.lookup root m.keys).map fun value => ⟨m.keys, dest, value⟩

theorem transferOf?_eq_some_iff {m : Match} {t : Transfer} :
    transferOf? root rule m = some t ↔ (rule.template.destination m).1 ≠ [] ∧ t.source = m.keys ∧
      t.dest = (rule.template.destination m).1 ∧ Tree.lookup root m.keys = some t.value := by
  have hone := @mem_transfers root rule [m] t
  have hsingle : transfers root rule [m] = [m].filterMap (transferOf? root rule) := rfl
  simpa [hsingle, List.mem_filterMap] using hone

theorem pending_eq (r : Relocating) (rule : Relocation) :
    r.pending rule =
      (rule.path.trails r.root).filterMap fun x => transferOf? r.root rule x.found := by
  rw [pending, ← Path.map_found_trails]
  exact List.filterMap_map

theorem fit_of_transferOf? {m : Match} {n : Node} {t : Transfer} (hroot : root.WellFormed)
    (hn : Tree.At root m.keys n) (ht : transferOf? root rule m = some t) : t.Fit := by
  obtain ⟨-, -, hdest, hvalue⟩ := transferOf?_eq_some_iff.mp ht
  rw [hn.lookup_eq hroot, Option.some.injEq] at hvalue
  refine ⟨?_, hvalue ▸ hn.wellFormed hroot⟩
  rw [hdest]
  intro k hk
  obtain ⟨s, -, rfl⟩ := List.mem_map.mp hk
  exact Key.denoted_ofText s

theorem at_of_mem_trails (hroot : root.WellFormed) {path : Path} {x : Trail}
    (hx : x ∈ path.trails root) : ∃ n, Tree.At root x.found.keys n := by
  have hfound : x.found ∈ path.find root := by
    rw [← Path.map_found_trails]
    exact List.mem_map_of_mem hx
  exact Path.at_of_mem_find hroot hfound

theorem free_of_not_compete {m m' : Match} {t t' : Transfer} (h : ¬ rule.Compete m m')
    (ht : transferOf? root rule m = some t) (ht' : transferOf? root rule m' = some t') :
    t.Free t' := by
  obtain ⟨hne, hsource, hdest, hvalue⟩ := transferOf?_eq_some_iff.mp ht
  obtain ⟨hne', hsource', hdest', hvalue'⟩ := transferOf?_eq_some_iff.mp ht'
  by_cases htouch : Place.Touches t.dest.place t'.dest.place
  · rw [hdest, hdest'] at htouch
    have hsame : m.keys = m'.keys ∧ _ := not_not.mp fun hdiffer => h ⟨hne, hne', htouch, hdiffer⟩
    left
    rw [hsame.1, hvalue', Option.some.injEq] at hvalue
    obtain ⟨source, dest, value⟩ := t
    obtain ⟨source', dest', value'⟩ := t'
    simp only at hsource hdest hvalue hsource' hdest'
    rw [hsource, hdest, ← hvalue, hsource', hdest', hsame.1, hsame.2]
  · exact Or.inr htouch

/-- The same match leads to akin transfers in akin trees. -/
theorem rel_transferOf? {x : Trail} (h : root.Akin u) (hroot : root.WellFormed)
    (hu : u.WellFormed) {n : Node} (hn : Tree.At root x.found.keys n) :
    Option.Rel Transfer.Akin (transferOf? root rule x.found) (transferOf? u rule x.found) := by
  obtain ⟨n', hn', hnn⟩ := h.exists_at hroot hu hn
  simp only [transferOf?, hn.lookup_eq hroot, hn'.lookup_eq hu]
  split
  · exact Option.Rel.none
  · exact Option.Rel.some ⟨rfl, rfl, hnn⟩

/-- In between the transfers of the two runs are those that the first tree has for the matches of
the second. -/
theorem exists_transfers (h : root.Akin u) (hroot : root.WellFormed) (hu : u.WellFormed)
    (hrule : rule.Steady root) :
    ∃ ms, (∀ t ∈ ms, t.Fit) ∧
      Shuffle Transfer.Free
        ((rule.path.trails root).filterMap fun x => transferOf? root rule x.found) ms ∧
      List.Forall₂ Transfer.Akin ms
        ((rule.path.trails u).filterMap fun x => transferOf? u rule x.found) := by
  have hat : ∀ x ∈ rule.path.trails u, ∃ n, Tree.At root x.found.keys n := by
    intro x hx
    obtain ⟨n', hn'⟩ := at_of_mem_trails hu hx
    obtain ⟨n, hn, -⟩ := h.symm.exists_at hu hroot hn'
    exact ⟨n, hn⟩
  refine ⟨(rule.path.trails u).filterMap fun x => transferOf? root rule x.found, ?_, ?_, ?_⟩
  · intro t ht
    obtain ⟨x, hx, ht⟩ := List.mem_filterMap.mp ht
    obtain ⟨n, hn⟩ := hat x hx
    exact fit_of_transferOf? hroot hn ht
  · refine (Path.shuffle_trails h hroot hu hrule.reads hrule.apart).filterMap ?_
    intro x y hxy t ht t' ht'
    exact free_of_not_compete hxy ht ht'
  · refine List.rel_filterMap (R := fun x y => x = y ∧ x ∈ rule.path.trails u) ?_
      (List.forall₂_same.mpr fun x hx => ⟨rfl, hx⟩)
    rintro x _ ⟨rfl, hx⟩
    obtain ⟨n, hn⟩ := hat x hx
    exact rel_transferOf? h hroot hu hn

theorem fit_of_mem_pending (hr : r.root.WellFormed) : ∀ t ∈ r.pending rule, t.Fit := by
  intro t ht
  rw [pending_eq] at ht
  obtain ⟨x, hx, ht⟩ := List.mem_filterMap.mp ht
  obtain ⟨n, hn⟩ := at_of_mem_trails hr hx
  exact fit_of_transferOf? hr hn ht

theorem Akin.opening (h : r.Akin r') (removeSources : Bool) (hrule : rule.Steady r.root) :
    (r.opening removeSources rule).Akin (r'.opening removeSources rule) := by
  refine ⟨?_, wellFormed_opening removeSources h.left rule,
    wellFormed_opening removeSources h.right rule, h.sources, ?_⟩
  · cases removeSources with
    | false => exact h.root
    | true =>
        obtain ⟨ms, -, hshuffle, hsame⟩ := exists_transfers h.root h.left h.right hrule
        rw [← pending_eq] at hshuffle hsame
        have hsources : ∀ a, a ∈ (r.pending rule).map Transfer.source ↔
            a ∈ (r'.pending rule).map Transfer.source := by
          have hmap : ms.map Transfer.source = (r'.pending rule).map Transfer.source := by
            rw [← List.forall₂_eq_eq_eq, List.forall₂_map_left_iff, List.forall₂_map_right_iff]
            exact hsame.imp fun _ _ htt => htt.source
          intro a
          rw [← hmap]
          exact (hshuffle.perm.map Transfer.source).mem_iff
        have hreads : ∀ a ∈ (r.pending rule).map Transfer.source, r.root.ReadsAlong a := by
          intro a ha
          obtain ⟨t, ht, rfl⟩ := List.mem_map.mp ha
          exact (from_of_mem_pending h.left ht).holds.readsAlong
        simp only [Relocating.opening, if_true]
        rw [← foldl_remove_of_mem_iff h.right (fun a ha => h.root.readsAlong (hreads a ha))
          hsources]
        exact h.root.foldl_remove h.left h.right hreads
  · have hfound := (Path.shuffle_trails h.root h.left h.right hrule.reads hrule.apart).perm
    have hmatches := hfound.map Trail.found
    rw [Path.map_found_trails, Path.map_found_trails] at hmatches
    exact h.diagnostics.append (hmatches.flatMap_right _)

/-- A steady rule leaves akin states. -/
theorem Akin.apply (h : r.Akin r') (removeSources : Bool) (hrule : rule.Steady r.root) :
    (r.apply removeSources rule).Akin (r'.apply removeSources rule) := by
  obtain ⟨ms, hms, hshuffle, hsame⟩ := exists_transfers h.root h.left h.right hrule
  rw [← pending_eq] at hshuffle hsame
  have hopening := h.opening removeSources hrule
  rw [apply_eq, apply_eq]
  exact (hopening.foldl_assign_shuffle (fit_of_mem_pending h.left) hshuffle).trans
    (hopening.refl_right.foldl_assign hms (fit_of_mem_pending h.right) hsame)

/-- Every rule is steady in the tree to which it is applied. -/
def Steady (removeSources : Bool) : Relocating → List Relocation → Prop
  | _, [] => True
  | r, rule :: rules =>
      rule.Steady r.root ∧ Steady removeSources (r.apply removeSources rule) rules

theorem Akin.foldl_apply (h : r.Akin r') (removeSources : Bool) {rules : List Relocation}
    (hrules : r.Steady removeSources rules) :
    (rules.foldl (Relocating.apply removeSources) r).Akin
      (rules.foldl (Relocating.apply removeSources) r') := by
  induction rules generalizing r r' with
  | nil => exact h
  | cons rule rules ih => exact ih (h.apply removeSources hrules.1) hrules.2

end Relocating

theorem akin_relocate {t u : Node} (h : t.Akin u) (ht : t.WellFormed) (hu : u.WellFormed)
    (removeSources : Bool) {rules : List Relocation}
    (hrules : Relocating.Steady removeSources ⟨t, [], []⟩ rules) :
    (relocate removeSources t rules).1.Akin (relocate removeSources u rules).1 ∧
      (relocate removeSources t rules).1.WellFormed ∧
      (relocate removeSources u rules).1.WellFormed ∧
      (relocate removeSources t rules).2.Perm (relocate removeSources u rules).2 := by
  have hstart : Relocating.Akin ⟨t, [], []⟩ ⟨u, [], []⟩ :=
    ⟨h, ht, hu, fun _ => rfl, List.Perm.refl _⟩
  have hend := hstart.foldl_apply removeSources hrules
  exact ⟨hend.root, hend.left, hend.right, hend.diagnostics⟩

/-- The order of entries decides nothing when the plan runs on the body: the paths to select are
steady in the body, and every rule is in the tree to which it is applied. -/
structure Steady (p : Plan) (body : Value) : Prop where
  select : ∀ path ∈ p.select, path.Steady (.ofValue body)
  move : Relocating.Steady true ⟨runDelete (p.selected (.ofValue body)) p.delete, [], []⟩ p.move
  map : Relocating.Steady false
    ⟨(relocate true (runDelete (p.selected (.ofValue body)) p.delete) p.move).1, [], []⟩ p.map

variable {v w : Value}

theorem view_selected (hv : v.WellFormed) (hw : w.WellFormed) (h : v.Alike w) (p : Plan) :
    (p.selected (.ofValue v)).view = (p.selected (.ofValue w)).view := by
  rw [selected, selected]
  split
  · exact funext (Node.akin_ofValue h).view_eq
  · exact view_runSelect_alike hv hw h p.select

theorem akin_selected (hv : v.WellFormed) (hw : w.WellFormed) (h : v.Alike w) {p : Plan}
    (hselect : ∀ path ∈ p.select, path.Steady (.ofValue v)) :
    (p.selected (.ofValue v)).Akin (p.selected (.ofValue w)) := by
  rw [selected, selected]
  split
  · exact Node.akin_ofValue h
  · exact akin_runSelect hv hw h hselect

theorem execute_eq {p : Plan} (hc : v.isContainer) (keepIndices : Bool) :
    p.execute v keepIndices = .ok ⟨(p.runOn (.ofValue v)).1.toValue keepIndices,
      (p.runOn (.ofValue v)).2⟩ := by
  rw [execute, if_pos hc]

/-- The order of entries does not show in what a plan returns, for a plan that only selects and
deletes and closes the gaps of sequences, and for any other plan that is steady. -/
theorem execute_alike (hv : v.WellFormed) (hw : w.WellFormed) (h : v.Alike w) (hc : v.isContainer)
    (p : Plan) (keepIndices : Bool)
    (hsteady : (keepIndices = true ∨ p.move ≠ [] ∨ p.map ≠ []) → p.Steady v) :
    ∃ e e', p.execute v keepIndices = .ok e ∧ p.execute w keepIndices = .ok e' ∧
      e.data.Alike e'.data ∧ e.diagnostics.Perm e'.diagnostics := by
  have hc' : w.isContainer := by
    cases h with
    | scalar s => exact hc
    | seq _ _ => rfl
    | map _ _ => rfl
  refine ⟨_, _, execute_eq hc keepIndices, execute_eq hc' keepIndices, ?_⟩
  obtain ⟨-, -, hsv⟩ := part_selected hv p
  obtain ⟨-, -, hsw⟩ := part_selected hw p
  have hdv := wellFormed_runDelete hsv p.delete
  have hdw := wellFormed_runDelete hsw p.delete
  by_cases hopen : keepIndices = true ∨ p.move ≠ [] ∨ p.map ≠ []
  · obtain ⟨hselect, hmove, hmap⟩ := hsteady hopen
    have hakin := akin_runDelete (akin_selected hv hw h hselect) hsv hsw p.delete
    obtain ⟨hmoved, hmv, hmw, hdiagnostics⟩ := akin_relocate hakin hdv hdw true hmove
    obtain ⟨hmapped, hfv, hfw, hdiagnostics'⟩ := akin_relocate hmoved hmv hmw false hmap
    exact ⟨hmapped.alike_toValue hfv hfw keepIndices, hdiagnostics.append hdiagnostics'⟩
  · obtain ⟨hkeep, hmove, hmap⟩ : keepIndices = false ∧ p.move = [] ∧ p.map = [] := by
      simpa using hopen
    have hview := view_runDelete (view_selected hv hw h p) hsv hsw p.delete
    have hrun : ∀ t : Node, p.runOn t = (runDelete (p.selected t) p.delete, []) := by
      intro t
      simp [runOn, relocate, hmove, hmap]
    rw [hrun, hrun, hkeep]
    exact ⟨Node.alike_toValue_of_view_eq hdv hdw hview, List.Perm.refl _⟩

/-- A map of two numbers beside a sequence. -/
def countsAndRows : Value :=
  .map [("counts", .map [("a", .scalar (.int 1)), ("b", .scalar (.int 2))]),
    ("rows", .seq [.map [("id", .scalar (.int 3))], .map [("id", .scalar (.int 4))]])]

/-- The same with the entries of both maps in another order. -/
def rowsAndCounts : Value :=
  .map [("rows", .seq [.map [("id", .scalar (.int 3))], .map [("id", .scalar (.int 4))]]),
    ("counts", .map [("b", .scalar (.int 2)), ("a", .scalar (.int 1))])]

/-- Moves every number of the map to a name of its own, and gathers those of the sequence. -/
def spreadAndGather : Plan where
  select := [⟨"counts", [.step (.literal "counts") none false], {}⟩,
    ⟨"rows", [.step (.literal "rows") none false], {}⟩]
  move := [⟨⟨"counts/*", [.step (.literal "counts") none false, .step .any none false], {}⟩,
    .parse "n%1"⟩]
  map := [⟨⟨"rows/*/id", [.step (.literal "rows") none false, .step .any none false,
    .step (.literal "id") none false], {}⟩, .parse "ids"⟩]

theorem countsAndRows_alike : countsAndRows.Alike rowsAndCounts := by
  apply Value.Alike.map (by decide)
  intro k x y hx hy
  by_cases hcounts : "counts" = k
  · subst hcounts
    cases hx
    cases hy
    exact Value.alike_of_perm (by decide) (List.Perm.swap _ _ _)
  · by_cases hrows : "rows" = k
    · subst hrows
      cases hx
      cases hy
      exact Value.Alike.refl _
    · simp [Entries.get?, hcounts, hrows] at hx

theorem steady_spreadAndGather : spreadAndGather.Steady countsAndRows := by
  refine ⟨?_, ⟨⟨?_, ?_⟩, trivial⟩, ⟨⟨?_, ?_⟩, trivial⟩⟩
  · intro path hpath
    apply Path.ParentFree.steady
    simp only [spreadAndGather, List.mem_cons, List.not_mem_nil, or_false] at hpath
    rcases hpath with rfl | rfl <;> simp [Path.ParentFree]
  · exact Path.readsScalars_of_not_mem (by simp) _
  · decide +kernel
  · exact Path.readsScalars_of_not_mem (by simp) _
  · decide +kernel

theorem execute_alike_spreadAndGather :
    countsAndRows.WellFormed ∧ rowsAndCounts.WellFormed ∧ countsAndRows.Alike rowsAndCounts ∧
      countsAndRows.isContainer ∧ spreadAndGather.Steady countsAndRows ∧
      ∃ e e', spreadAndGather.execute countsAndRows true = .ok e ∧
        spreadAndGather.execute rowsAndCounts true = .ok e' ∧
        e.data.Alike e'.data ∧ e.diagnostics.Perm e'.diagnostics ∧
        e'.data.seek ["nb"] = some (.scalar (.int 2)) ∧
        e'.data.seek ["ids"] = some (.seq [.scalar (.int 4), .scalar (.int 3)]) := by
  have hv : countsAndRows.WellFormed := by simp [countsAndRows, Entries.keys]
  have hw : rowsAndCounts.WellFormed := by simp [rowsAndCounts, Entries.keys]
  obtain ⟨e, e', he, he', hdata, hdiagnostics⟩ := execute_alike hv hw countsAndRows_alike rfl
    spreadAndGather true fun _ => steady_spreadAndGather
  refine ⟨hv, hw, countsAndRows_alike, rfl, steady_spreadAndGather, e, e', he, he', hdata,
    hdiagnostics, ?_⟩
  cases he'
  exact ⟨by rfl, by rfl⟩

/-- Everything at the top goes to one name. -/
def gatherAll : Plan :=
  { map := [⟨⟨"*", [.step .any none false], {}⟩, .parse "x"⟩] }

/-- Values that come to one destination from the entries of a map are in the order of the
entries. -/
theorem execute_gatherAll :
    (Value.map [("a", .scalar (.int 1)), ("b", .scalar (.int 2))]).Alike
        (.map [("b", .scalar (.int 2)), ("a", .scalar (.int 1))]) ∧
      ∃ data data',
        gatherAll.execute (.map [("a", .scalar (.int 1)), ("b", .scalar (.int 2))]) false =
          .ok ⟨data, []⟩ ∧
        gatherAll.execute (.map [("b", .scalar (.int 2)), ("a", .scalar (.int 1))]) false =
          .ok ⟨data', []⟩ ∧
        data.seek ["x"] = some (.seq [.scalar (.int 1), .scalar (.int 2)]) ∧
        data'.seek ["x"] = some (.seq [.scalar (.int 2), .scalar (.int 1)]) ∧
        ¬ data.Alike data' := by
  refine ⟨Value.alike_of_perm (by decide) (List.Perm.swap _ _ _), _, _, by rfl, by rfl, by rfl,
    by rfl, ?_⟩
  intro halike
  obtain ⟨y, hy, hxy⟩ := halike.seek (q := ["x"]) rfl
  cases hy
  cases hxy with
  | seq _ h => cases h 0 _ _ rfl rfl

end Plan

end PathRules
