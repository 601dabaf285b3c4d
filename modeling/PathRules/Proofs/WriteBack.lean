import PathRules.Proofs.FoundPlaces
import PathRules.Proofs.MoveAsMap
import PathRules.Proofs.PrintedPaths
import PathRules.Proofs.SelectRestriction

/-!
# Values that go back to where they came from

A rule that sends every match to its own place changes nothing but the order of entries. While its
transfers run, the tree shows what the body shows at all places that are neither at nor below a
destination still to come: a write brings back its value with everything below, and keeps the shape
of the nodes above, since each of them has the child that the write goes on to. A node above may
have been made anew in another shape after its own removal, but then it is below a match that is
still to come.
-/

namespace PathRules

/-- A text that is no numeral with leading zeros. -/
def Key.Canonical (s : String) : Prop :=
  ∀ n, Numeral.readNat? s.toList = some n → Numeral.natText n = s

instance (s : String) : Decidable (Key.Canonical s) :=
  decidable_of_iff ((Numeral.readNat? s.toList).all fun n => Numeral.natText n = s)
    (by simp [Key.Canonical, Option.all_eq_true])

theorem Key.text_ofText {s : String} (hs : Key.Canonical s) : (Key.ofText s).text = s :=
  Key.Plain.text_ofText fun i hi => (hs i (Option.filter_eq_some_iff.mp hi).1).symm

/-- No key of a map is a numeral with leading zeros, and positions are counted with 64 bits. -/
inductive Value.Canonical : Value → Prop
  | scalar (s : Scalar) : Canonical (scalar s)
  | seq {items : List Value} (hlength : items.length ≤ Key.indexBound)
      (h : ∀ x ∈ items, Canonical x) : Canonical (seq items)
  | map {es : Entries Value} (hes : ∀ s ∈ es.keys, Key.Canonical s)
      (h : ∀ e ∈ es, Canonical e.2) : Canonical (map es)

namespace Node

variable {src t c v : Node} {k : Key} {d : Address}

theorem canonical_child {body : Value} (hbody : body.WellFormed) (hcan : body.Canonical)
    (hmem : (k, c) ∈ (ofValue body).children) :
    ∃ x : Value, c = ofValue x ∧ x.WellFormed ∧ x.Canonical ∧
      (Key.ofText k.text).text = k.text ∧ (ofValue body).Reads (Key.ofText k.text) := by
  rw [children_ofValue, List.mem_map] at hmem
  obtain ⟨⟨k', x⟩, hx, heq⟩ := hmem
  cases heq
  refine ⟨x, rfl, ?_⟩
  cases hbody with
  | scalar s => cases hx
  | @seq items hitems =>
      cases hcan with
      | seq hlength hcan =>
          have hmem := Value.mem_of_mem_countDown hx
          refine ⟨hitems x hmem, hcan x hmem, ?_⟩
          simp only [Value.children, Value.countDown, List.mem_map, List.mem_reverse, Prod.mk.injEq,
            Prod.exists, List.mem_zipIdx_iff_getElem?] at hx
          obtain ⟨x, i, hi, rfl, -⟩ := hx
          have hlt : i < Key.indexBound :=
            Nat.lt_of_lt_of_le (List.getElem?_eq_some_iff.mp hi).1 hlength
          have hkey : Key.ofText (Key.index i).text = .index i := by
            rw [Key.text_index, Key.ofText, Key.readIndex?_natText hlt]
          rw [hkey]
          exact ⟨rfl, Or.inr ⟨i, rfl, rfl⟩⟩
  | @map es hes hentries =>
      cases hcan with
      | map hkeys hcan =>
          simp only [Value.children, List.mem_map, Prod.mk.injEq, Prod.exists] at hx
          obtain ⟨s, x, hmem, rfl, rfl⟩ := hx
          exact ⟨hentries _ hmem, hcan _ hmem,
            Key.text_ofText (hkeys s (List.mem_map_of_mem hmem)), Or.inl rfl⟩

theorem holds_ofText {body : Value} {n : Node} {a : Address} (hbody : body.WellFormed)
    (hcan : body.Canonical) (ha : Tree.At (ofValue body) a n) :
    (ofValue body).Holds (a.place.map Key.ofText) ∧
      Address.place (a.place.map Key.ofText) = a.place := by
  induction a generalizing body with
  | nil => exact ⟨trivial, rfl⟩
  | cons k rest ih =>
      cases ha with
      | @child _ c _ _ _ hmem hrest =>
          have hget := ((mem_children_iff (wellFormed_ofValue hbody)).mp hmem).2
          obtain ⟨x, rfl, hx, hxcan, htext, hreads⟩ := canonical_child hbody hcan hmem
          obtain ⟨hholds, hplace⟩ := ih hx hxcan hrest
          rw [Address.place_cons, List.map_cons, Address.place_cons, htext, hplace]
          exact ⟨⟨hreads, ofValue x, by rw [htext, hget], hholds⟩, rfl⟩

/-- Where a tree agrees with the source, it still does after a value of the source was written to
its own place, and so it does at and below that place. -/
theorem view_alterAt_home (hsrc : src.WellFormed) (ht : t.WellFormed) (hd : d.Plain)
    (hholds : src.Holds d) (hv : src.seek d.place = some v) {p : Place}
    (hp : ¬ d.place <+: p → t.view p = src.view p) :
    (alterAt (fun _ => v) d t).view p = src.view p := by
  -- Along the address, with the place going the same way for as long as it can.
  induction d generalizing src t p with
  | nil =>
      cases hv
      rfl
  | cons k rest ih =>
      obtain ⟨hk, hrest⟩ := List.forall_mem_cons.mp hd
      obtain ⟨fresh, halter, hfresh, hempty, -⟩ := alterAt_cons (fun _ => v) k rest
      rw [halter]
      cases p with
      | nil =>
          obtain ⟨hreads, c, hc, -⟩ := hholds
          have hshape : t.shape = src.shape := Option.some.inj (hp (by simp))
          rw [view_nil, view_nil, hreads.shape_alter hsrc hc hshape]
      | cons s p =>
          rw [view_cons, get?_entries_alter ht (Or.inr hk)]
          by_cases hs : k.text = s
          · subst hs
            obtain ⟨-, c, hc, hbelow⟩ := hholds
            rw [Address.place_cons, seek_cons, hc, Option.bind_some] at hv
            rw [if_pos rfl, Option.bind_some, view_cons, hc, Option.bind_some]
            refine ih (hsrc.get? hc) (ht.getD_get? hfresh _) hrest hbelow hv ?_
            intro hp'
            have hagree := hp fun h => hp' (List.cons_prefix_cons.mp h).2
            rw [view_cons, view_cons, hc, Option.bind_some] at hagree
            cases hc' : t.entries.get? k.text with
            | some c' => rwa [hc', Option.bind_some] at hagree
            | none =>
                -- The source has nothing there either, and what is made has no children.
                rw [hc', Option.bind_none] at hagree
                rw [Option.getD_none, ← hagree]
                cases p with
                | nil => cases hagree
                | cons s' p => simp [view_cons, hempty, Entries.get?]
          · rw [if_neg hs, ← view_cons]
            exact hp fun h => hs (List.cons_prefix_cons.mp h).1

end Node

/-- The template spells the texts of the keys of every match, and leaves nothing unresolved. -/
def Relocation.Homeward (rule : Relocation) (body : Value) : Prop :=
  ∀ m ∈ rule.path.find body, rule.template.destination m = (m.keys.place.map Key.ofText, [])

namespace Plan

/-- The transfer takes a value of the source to its own place. -/
structure Transfer.Home (src : Node) (t : Transfer) : Prop where
  plain : t.dest.Plain
  holds : src.Holds t.dest
  value : src.seek t.dest.place = some t.value

/-- The pass shows the source at all places that are neither at nor below a pending destination, and
has not written to any of these. -/
structure Restoring (src : Node) (pending : List Transfer) (r : Relocating) : Prop where
  wellFormed : r.root.WellFormed
  unwritten : ∀ t ∈ pending, r.assigned.sources t.dest = []
  view_eq : ∀ p, (∀ t ∈ pending, ¬ t.dest.place <+: p) → r.root.view p = src.view p

section Restoring

variable {src : Node} {t : Transfer} {ts : List Transfer} {r : Relocating}

theorem Restoring.assign (h : Restoring src (t :: ts) r) (hsrc : src.WellFormed)
    (ht : t.Home src) (hnew : ∀ u ∈ ts, u.dest ≠ t.dest) : Restoring src ts (r.assign t) := by
  have hempty : r.assigned.sources t.dest = [] := h.unwritten t List.mem_cons_self
  have hs : t.source ∉ r.assigned.sources t.dest := by simp [hempty]
  have hmerge : merge 1 t.value = fun _ => t.value := by
    funext slot
    rfl
  have hroot : (r.assign t).root = r.root.alterAt (fun _ => t.value) t.dest := by
    rw [root_assign hs, hempty, List.length_nil, hmerge]
  refine ⟨?_, ?_, ?_⟩
  · rw [hroot]
    exact h.wellFormed.alterAt ht.plain fun _ _ => hsrc.seek ht.value
  · intro u hu
    rw [sources_assign hs, if_neg (hnew u hu)]
    exact h.unwritten u (List.mem_cons_of_mem _ hu)
  · intro p hp
    rw [hroot]
    apply Node.view_alterAt_home hsrc h.wellFormed ht.plain ht.holds ht.value
    intro hown
    exact h.view_eq p (List.forall_mem_cons.mpr ⟨hown, hp⟩)

theorem Restoring.foldl_assign (h : Restoring src ts r) (hsrc : src.WellFormed)
    (hts : ∀ t ∈ ts, t.Home src) (hnew : (ts.map Transfer.dest).Nodup) :
    Restoring src [] (ts.foldl Relocating.assign r) := by
  induction ts generalizing r with
  | nil => exact h
  | cons t ts ih =>
      obtain ⟨ht, hts⟩ := List.forall_mem_cons.mp hts
      obtain ⟨hfirst, hnew⟩ := List.nodup_cons.mp hnew
      refine ih (h.assign hsrc ht fun u hu heq => hfirst ?_) hts hnew
      rw [← heq]
      exact List.mem_map_of_mem hu

theorem Restoring.alike {body : Value} (h : Restoring (.ofValue body) [] r)
    (hbody : body.WellFormed) : (r.root.toValue false).Alike body := by
  have hpart : Node.Part (fun _ => True) (.ofValue body) r.root := by
    intro p x
    rw [h.view_eq p (by simp), true_and]
  have hbefore : ((Node.ofValue body).toValue false).Alike (body.restrict fun _ => true) :=
    Node.part_self.alike_restrict hbody (Node.wellFormed_ofValue hbody) (by simp)
  have hafter : (r.root.toValue false).Alike (body.restrict fun _ => true) :=
    hpart.alike_restrict hbody h.wellFormed (by simp)
  rw [Node.toValue_ofValue] at hbefore
  exact hafter.trans hbefore.symm

end Restoring

section Homeward

variable {body : Value} {rule : Relocation} {t : Transfer}

theorem home_transfers (hbody : body.WellFormed) (hcan : body.Canonical)
    (hhome : rule.Homeward body)
    (ht : t ∈ Relocating.transfers (.ofValue body) rule (rule.path.find body)) :
    t.Home (.ofValue body) ∧ t.dest.place = t.source.place := by
  have hsrc := Node.wellFormed_ofValue hbody
  obtain ⟨m, hm, -, hsource, hdest, hvalue⟩ := mem_transfers.mp ht
  have hplain : t.dest.Plain := by
    rw [hdest]
    exact rule.template.plain_destination m
  have htexts : t.dest = m.keys.place.map Key.ofText := by rw [hdest, hhome m hm]
  rw [← Path.find_ofValue] at hm
  obtain ⟨n, hn⟩ := Path.at_of_mem_find hsrc hm
  obtain ⟨hholds, hplace⟩ := Node.holds_ofText hbody hcan hn
  rw [hn.lookup_eq hsrc, Option.some.injEq] at hvalue
  rw [← htexts] at hholds hplace
  refine ⟨⟨hplain, hholds, ?_⟩, by rw [hplace, hsource]⟩
  rw [hplace, hn.seek_eq hsrc, hvalue]

theorem nodup_dest_transfers (hbody : body.WellFormed) (hcan : body.Canonical)
    (hhome : rule.Homeward body)
    (honce : ((rule.path.find body).map fun m => m.keys.place).Nodup) :
    ((Relocating.transfers (.ofValue body) rule (rule.path.find body)).map
      Transfer.dest).Nodup := by
  have hsources : ((rule.origins body).map Address.place).Nodup := by
    rw [Relocation.origins, List.map_map]
    exact honce.sublist (List.filter_sublist.map _)
  rw [← map_source_transfers_find hbody rule, List.map_map] at hsources
  have hplaces : (Relocating.transfers (.ofValue body) rule (rule.path.find body)).map
      (fun t => t.dest.place) =
        (Relocating.transfers (.ofValue body) rule (rule.path.find body)).map
          (Address.place ∘ Transfer.source) :=
    List.map_congr_left fun t ht => (home_transfers hbody hcan hhome ht).2
  rw [← hplaces] at hsources
  rw [← Function.comp_def, ← List.map_map] at hsources
  exact hsources.of_map

theorem restoring_start (hbody : body.WellFormed) (ts : List Transfer) :
    Restoring (.ofValue body) ts (Relocating.start body rule) :=
  ⟨Node.wellFormed_ofValue hbody, fun _ _ => rfl, fun _ _ => rfl⟩

/-- Taking out the sources leaves the places that are neither at nor below one of them. -/
theorem restoring_without (hbody : body.WellFormed) (hcan : body.Canonical)
    (hhome : rule.Homeward body) :
    Restoring (.ofValue body) (Relocating.transfers (.ofValue body) rule (rule.path.find body))
      ((Relocating.start body rule).without (rule.origins body)) := by
  have hreads : ∀ a ∈ rule.origins body, (Node.ofValue body).ReadsAlong a := fun a ha =>
    (holds_origins hbody rule a ha).readsAlong
  have hsrc := Node.wellFormed_ofValue hbody
  refine ⟨hsrc.foldl_remove hreads, fun _ _ => rfl, ?_⟩
  intro p hp
  have hapart : ∀ a ∈ rule.origins body, ¬ a.place <+: p := by
    intro a ha
    rw [← map_source_transfers_find hbody rule] at ha
    obtain ⟨t, ht, rfl⟩ := List.mem_map.mp ha
    rw [← (home_transfers hbody hcan hhome ht).2]
    exact hp t ht
  apply Option.ext
  intro x
  refine (Node.view_foldl_remove hsrc hreads p x).trans ?_
  rw [and_iff_left]
  exact fun a ha _ => hapart a ha

/-- A rule that sends every match home gives back the body, as a map and as a move. -/
theorem alike_relocate_homeward (hbody : body.WellFormed) (hcan : body.Canonical)
    (hhome : rule.Homeward body)
    (honce : ((rule.path.find body).map fun m => m.keys.place).Nodup) (removeSources : Bool) :
    ((relocate removeSources (.ofValue body) [rule]).1.toValue false).Alike body ∧
      (relocate removeSources (.ofValue body) [rule]).2 = [] := by
  have hsrc := Node.wellFormed_ofValue hbody
  have hts : ∀ t ∈ Relocating.transfers (.ofValue body) rule (rule.path.find body),
      t.Home (.ofValue body) := fun t ht => (home_transfers hbody hcan hhome ht).1
  have hnew := nodup_dest_transfers hbody hcan hhome honce
  have hdiagnostics : (Relocating.start body rule).diagnostics = [] := by
    refine List.flatMap_eq_nil_iff.mpr fun m hm => ?_
    rw [hhome m hm]
  cases removeSources with
  | true =>
      rw [relocate_move hbody]
      exact ⟨((restoring_without hbody hcan hhome).foldl_assign hsrc hts hnew).alike hbody,
        hdiagnostics⟩
  | false =>
      rw [relocate_map]
      exact ⟨((restoring_start hbody _).foldl_assign hsrc hts hnew).alike hbody, hdiagnostics⟩

end Homeward

end Plan

namespace Template

open Filling

theorem finishSegment_foldl_openKey {f : Filling} (hf : f.vacant = false) (ks : Address) :
    (ks.foldl openKey f).finishSegment =
      { f with segments := f.segments ++ f.current :: ks.place, current := "" } := by
  induction ks generalizing f with
  | nil => simp [finishSegment, hf]
  | cons k ks ih =>
      have hopen : (f.openKey k).vacant = false := hf
      rw [List.foldl_cons, ih hopen]
      simp [openKey]

theorem finishSegment_putKeys {f : Filling} (hf : f.vacant = false) (hcurrent : f.current = "")
    (w : Address) :
    (f.putKeys w).finishSegment = { f with segments := f.segments ++ w.place } := by
  obtain ⟨segments, current, vacant, splats, diagnostics⟩ := f
  cases hf
  cases hcurrent
  cases w with
  | nil => simp [putKeys, finishSegment]
  | cons k ks =>
      have hfirst : (⟨segments, "", false, splats, diagnostics⟩ : Filling).putKeys (k :: ks) =
          ks.foldl openKey ⟨segments, k.text, false, splats, diagnostics⟩ := by
        simp [putKeys, append]
      rw [hfirst, finishSegment_foldl_openKey rfl]
      rfl

/-- A splat, a slash and a name spell the keys of the splat with the name behind them. -/
theorem destination_splat (source k : String) (keys w : Address) :
    (⟨source, [.splat, .separator, .text k.toList]⟩ : Template).destination
      ⟨keys, [], [(0, w)]⟩ = ((w.place ++ [k]).map Key.ofText, []) := by
  have hkeys : (Filling.putKeys ⟨[], "", false, [], []⟩ w).finishSegment =
      ⟨w.place, "", false, [], []⟩ := by
    rw [finishSegment_putKeys rfl rfl]
    rfl
  simp only [destination, expand, List.isEmpty_cons, Bool.false_eq_true, if_false, List.foldl_cons,
    List.foldl_nil, Filling.put, List.map_cons, List.map_nil, List.reverse_singleton]
  rw [hkeys]
  simp [append, finishSegment]

end Template

namespace Path

theorem eq_of_mem_find_everywhere {α : Type} [Tree α] {path : Path} {k : String} {root : α}
    {m : Match} (hpath : path.segments = [.step (.literal k) none true])
    (hm : m ∈ path.find root) :
    ∃ (w : Address) (key : Key), key.text = k ∧ m = ⟨w ++ [key], [], [(0, w)]⟩ := by
  rw [find, hpath, findFrom] at hm
  obtain ⟨⟨w, n⟩, -, hm⟩ := List.mem_flatMap.mp hm
  obtain ⟨⟨m', c⟩, hhit, hm⟩ := List.mem_flatMap.mp hm
  have hsame : m ∈ findFrom root [] 1 c m' := hm
  rw [findFrom, List.mem_singleton] at hsame
  subst hsame
  obtain ⟨key, captures, -, hcaptures, rfl⟩ := mem_hits.mp hhit
  simp only [stepCaptures?, Matcher.matchKey?, Matcher.matchText?] at hcaptures
  split at hcaptures
  · rename_i hk
    cases hcaptures
    exact ⟨w, key, hk.symm, rfl⟩
  · cases hcaptures

end Path

namespace Plan

variable {body : Value} {k : String}

/-- Sends every entry under a name to where it is. -/
def everywhereHome (k : String) : Relocation :=
  ⟨⟨"**/" ++ Token.escapeText k, [.step (.literal k) none true], {}⟩,
    ⟨"%%/" ++ Token.escapeText k, [.splat, .separator, .text k.toList]⟩⟩

theorem homeward_everywhereHome (k : String) (body : Value) :
    (everywhereHome k).Homeward body := by
  intro m hm
  obtain ⟨w, key, rfl, rfl⟩ := Path.eq_of_mem_find_everywhere rfl hm
  have hplace : Address.place (w ++ [key]) = w.place ++ [key.text] := by simp [Address.place]
  rw [hplace]
  exact Template.destination_splat _ _ _ _

/-- Mapping or moving every entry under a name to where it is gives back the body, up to the order
of entries, also when matches are nested inside each other. -/
theorem execute_everywhere_home (hbody : body.WellFormed) (hc : body.isContainer)
    (hcan : body.Canonical) (hk : k ≠ "") :
    ∀ add ∈ [Plan.addMap, Plan.addMove], ∃ plan data,
      add {} ("**/" ++ Token.escapeText k) ("%%/" ++ Token.escapeText k) = .ok plan ∧
        plan.execute body false = .ok ⟨data, []⟩ ∧ data.Alike body := by
  have hforward : (everywhereHome k).path.Forward := by
    simp [Path.Forward, everywhereHome, Segment.Forward, Matcher.CountsUp]
  have honce : (((everywhereHome k).path.find body).map fun m => m.keys.place).Nodup := by
    rw [← Path.find_ofValue, Path.map_place_find hforward]
    exact Path.nodup_placesFrom_last (Node.wellFormed_ofValue hbody)
  have halike := alike_relocate_homeward hbody hcan (homeward_everywhereHome k body) honce
  have hcompile := Path.compile_everywhere hk
  have hparse := Template.parse_splat hk
  intro add hadd
  simp only [List.mem_cons, List.not_mem_nil, or_false] at hadd
  rcases hadd with rfl | rfl
  · obtain ⟨hdata, hdiagnostics⟩ := halike false
    refine ⟨{ map := [everywhereHome k] }, _, ?_, ?_, hdata⟩
    · simp only [Plan.addMap, hcompile, hparse]
      rfl
    · rw [execute_single_map hc, hdiagnostics]
  · obtain ⟨hdata, hdiagnostics⟩ := halike true
    refine ⟨{ move := [everywhereHome k] }, _, ?_, ?_, hdata⟩
    · simp only [Plan.addMove, hcompile, hparse]
      rfl
    · rw [execute_single_move hc, hdiagnostics]

/-- Entries named `*` inside another one. A map has the name `0`, as if it were a sequence. -/
def nestedStars : Value :=
  .map [("*", .seq [.map [("*", .scalar (.int 1))],
    .map [("0", .map [("*", .scalar (.int 2))])]])]

theorem canonical_nestedStars : nestedStars.Canonical := by
  have hkeys : Key.Canonical "*" ∧ Key.Canonical "0" := by decide
  refine .map (by simp [Entries.keys, hkeys]) ?_
  simp only [List.mem_singleton, forall_eq]
  refine .seq (by decide) ?_
  simp only [List.forall_mem_cons, List.not_mem_nil, false_implies, implies_true, and_true]
  refine ⟨.map (by simp [Entries.keys, hkeys]) ?_, .map (by simp [Entries.keys, hkeys]) ?_⟩
  · simpa using Value.Canonical.scalar _
  · simp only [List.mem_singleton, forall_eq]
    refine .map (by simp [Entries.keys, hkeys]) ?_
    simpa using Value.Canonical.scalar _

theorem execute_everywhere_home_stars :
    nestedStars.WellFormed ∧ nestedStars.isContainer ∧ nestedStars.Canonical ∧ "*" ≠ "" ∧
      ((everywhereHome "*").path.find nestedStars).map (fun m => m.keys.place) =
        [["*", "1", "0", "*"], ["*", "0", "*"], ["*"]] ∧
      ∃ plan data, Plan.addMove {} "**/\\*" "%%/\\*" = .ok plan ∧
        plan.execute nestedStars false = .ok ⟨data, []⟩ ∧ data.Alike nestedStars := by
  have hbody : nestedStars.WellFormed := by simp [nestedStars, Entries.keys]
  have hfound : ((everywhereHome "*").path.find nestedStars).map (fun m => m.keys.place) =
      [["*", "1", "0", "*"], ["*", "0", "*"], ["*"]] := by cbv
  have hname : "*" ≠ "" := by decide
  have hescape : Token.escapeText "*" = "\\*" := by decide
  have hrun := execute_everywhere_home hbody rfl canonical_nestedStars hname Plan.addMove (by simp)
  rw [hescape] at hrun
  exact ⟨hbody, rfl, canonical_nestedStars, hname, hfound, hrun⟩

end Plan

end PathRules
