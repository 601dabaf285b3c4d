import Mathlib.Data.List.Sort
import PathRules.Plan
import PathRules.Proofs.MatchPlaces
import PathRules.Proofs.TreeWriting
import PathRules.Proofs.ValueRestriction

/-!
# Selecting is restricting

While matches are copied, the working tree is a part of the body: it shows the shape of the body at
the places that were touched so far, and nothing at the others. Copying one more match adds the
places at, below and above it, in whatever order matches come and however they overlap, and also
when a sequence that was copied as a whole has turned sparse. A part with its gaps closed is the
restriction of the body, up to the order of entries.
-/

namespace PathRules

namespace Node

/-- `t` shows what `src` shows at the places in `K`, and nothing elsewhere. -/
def Part (K : Place → Prop) (src t : Node) : Prop :=
  ∀ p x, t.view p = some x ↔ K p ∧ src.view p = some x

variable {K : Place → Prop} {src t : Node}

theorem part_self : Part (fun _ => True) src src := by
  intro p x
  simp

theorem Part.congr {K' : Place → Prop} (h : Part K src t) (hK : ∀ p, K p ↔ K' p) :
    Part K' src t := by
  intro p x
  rw [h p x, hK]

theorem Part.shape_eq (h : Part K src t) : t.shape = src.shape := by
  have hroot := (h [] t.shape).mp rfl
  exact (Option.some.inj hroot.2).symm

theorem Part.root (h : Part K src t) : K [] :=
  ((h [] t.shape).mp rfl).1

theorem Part.child {s : String} {c' : Node} (h : Part K src t)
    (hc' : t.entries.get? s = some c') :
    ∃ c, src.entries.get? s = some c ∧ Part (fun p => K (s :: p)) c c' := by
  have hone := (h [s] c'.shape).mp (by rw [view_cons, hc']; rfl)
  cases hc : src.entries.get? s with
  | none => simp [view_cons, hc] at hone
  | some c =>
      refine ⟨c, rfl, ?_⟩
      intro p x
      have hp := h (s :: p) x
      rwa [view_cons, view_cons, hc, hc', Option.bind_some, Option.bind_some] at hp

theorem Part.exists_child {s : String} {c : Node} (h : Part K src t)
    (hc : src.entries.get? s = some c) (hK : K [s]) : ∃ c', t.entries.get? s = some c' := by
  have hone := (h [s] c.shape).mpr ⟨hK, by rw [view_cons, hc]; rfl⟩
  cases hc' : t.entries.get? s with
  | none => simp [view_cons, hc'] at hone
  | some c' => exact ⟨c', rfl⟩

theorem Part.not_of_missing {s : String} {c : Node} {p : Place} {x : Shape} (h : Part K src t)
    (hc : src.entries.get? s = some c) (hc' : t.entries.get? s = none)
    (hx : c.view p = some x) : ¬ K (s :: p) := by
  intro hK
  have hone := (h (s :: p) x).mpr ⟨hK, by rw [view_cons, hc]; exact hx⟩
  simp [view_cons, hc'] at hone

theorem shape_emptyLike (t : Node) : t.emptyLike.shape = t.shape := by
  cases t <;> rfl

theorem entries_emptyLike (t : Node) : t.emptyLike.entries = [] := by
  cases t <;> rfl

theorem wellFormed_emptyLike (t : Node) : t.emptyLike.WellFormed := by
  cases t with
  | scalar s => exact WellFormed.scalar s
  | seq items => exact WellFormed.sparse (Sparse.sound_ofLength _) (by simp [Sparse.ofLength])
  | sparse s => exact WellFormed.sparse (Sparse.sound_ofLength _) (by simp [Sparse.ofLength])
  | map es => exact WellFormed.map List.nodup_nil (by simp)

theorem part_emptyLike (src : Node) : Part (fun p => p = []) src src.emptyLike := by
  intro p x
  cases p with
  | nil => simp [shape_emptyLike]
  | cons s p => simp [view_cons, entries_emptyLike, Entries.get?]

theorem lt_of_mem_children {n i : Nat} {c : Node} (ht : t.WellFormed) (hn : t.shape = .seq n)
    (h : (Key.index i, c) ∈ t.children) : i < n := by
  have hget := ((mem_children_iff ht).mp h).2
  obtain ⟨j, hj, hmem⟩ : ∃ j, Numeral.natText i = Numeral.natText j ∧ j < n := by
    cases ht with
    | scalar s => cases hn
    | @seq items hx =>
        obtain ⟨j, hj, hmem⟩ := Sparse.mem_named.mp (Entries.mem_of_get? hget)
        have hlt := (List.getElem?_eq_some_iff.mp (Sparse.mem_ofList.mp hmem)).1
        exact ⟨j, hj, by rwa [← Shape.seq.inj hn]⟩
    | @sparse s hs hx =>
        obtain ⟨j, hj, hmem⟩ := Sparse.mem_named.mp (Entries.mem_of_get? hget)
        exact ⟨j, hj, by rw [← Shape.seq.inj hn]; exact hs.lt_span _ hmem⟩
    | map hes hx => cases hn
  rw [Numeral.natText_injective hj]
  exact hmem

/-- Writing at a key under which the source has a child keeps the shape of the source. -/
theorem Reads.shape_alter {k : Key} {c : Node} (hk : src.Reads k) (hsrc : src.WellFormed)
    (hc : src.entries.get? k.text = some c) (hshape : t.shape = src.shape) (fresh : Node)
    (f : Node → Node) : (t.alter k fresh f).shape = src.shape := by
  cases hs : src.shape with
  | map => exact shape_alter_of_map (hshape.trans hs) fresh f
  | scalar s =>
      cases src <;> cases hs
      cases hc
  | seq n =>
      obtain ⟨i, hi, htext⟩ := hk.resolve_left (by simp [hs])
      have hmem : (Key.index i, c) ∈ src.children :=
        (mem_children_iff hsrc).mpr ⟨by rw [hs]; trivial, by rw [Key.text_index, ← htext, hc]⟩
      exact shape_alter_of_seq (hshape.trans hs) hi (lt_of_mem_children hsrc hs hmem) fresh f

theorem Part.shape_alter {k : Key} {c : Node} (h : Part K src t) (hsrc : src.WellFormed)
    (hc : (k, c) ∈ src.children) (fresh : Node) (f : Node → Node) :
    (t.alter k fresh f).shape = src.shape := by
  obtain ⟨hlists, hget⟩ := (mem_children_iff hsrc).mp hc
  exact (Reads.of_lists hlists).shape_alter hsrc hget h.shape_eq fresh f

theorem Part.admits {k : Key} {c : Node} (h : Part K src t) (hsrc : src.WellFormed)
    (hc : (k, c) ∈ src.children) : t.shape = .map ∨ k.Plain := by
  have hlists := ((mem_children_iff hsrc).mp hc).1
  cases k with
  | index i => exact Or.inr (Key.plain_index i)
  | name s =>
      left
      rw [h.shape_eq]
      cases hshape : src.shape with
      | map => rfl
      | scalar s => rw [hshape] at hlists; cases hlists
      | seq n => rw [hshape] at hlists; cases hlists

theorem Part.alter {K' : Place → Prop} {k : Key} {c fresh : Node} {f : Node → Node}
    (h : Part K src t) (hsrc : src.WellFormed) (ht : t.WellFormed) (hc : (k, c) ∈ src.children)
    (hnew : Part K' c (f ((t.entries.get? k.text).getD fresh))) :
    Part (fun p => match p with
      | [] => True
      | s :: rest => if k.text = s then K' rest else K p) src (t.alter k fresh f) := by
  intro p x
  have hget := get?_entries_alter ht (h.admits hsrc hc) fresh f
  cases p with
  | nil => simp [h.shape_alter hsrc hc]
  | cons s rest =>
      rw [view_cons, hget]
      by_cases hs : k.text = s
      · subst hs
        rw [view_cons, ((mem_children_iff hsrc).mp hc).2]
        simpa using hnew rest x
      · simp only [if_neg hs]
        rw [← view_cons]
        exact h (s :: rest) x

theorem copyInto_cons {k : Key} {c : Node} (t : Node) (rest : Address)
    (hc : src.child? k = some c) :
    ∃ fresh, (rest ≠ [] → fresh = c.emptyLike) ∧
      copyInto src t (k :: rest) = t.alter k fresh fun u => copyInto c u rest := by
  cases rest with
  | nil => exact ⟨null, by simp, by simp [copyInto, hc, set]⟩
  | cons k' rest => exact ⟨c.emptyLike, fun _ => rfl, by simp [copyInto, hc]⟩

/-- The child that a copy goes on with is a part of the child of the source, if only an empty
one. -/
theorem Part.slot {s : String} {c : Node} (h : Part K src t) (ht : t.WellFormed)
    (hc : src.entries.get? s = some c) :
    Part (fun p => p = [] ∨ K (s :: p)) c ((t.entries.get? s).getD c.emptyLike) ∧
      ((t.entries.get? s).getD c.emptyLike).WellFormed := by
  cases hc' : t.entries.get? s with
  | some c' =>
      obtain ⟨c₀, hc₀, hpart⟩ := h.child hc'
      rw [hc] at hc₀
      cases hc₀
      refine ⟨hpart.congr fun p => ?_, ht.get? hc'⟩
      constructor
      · exact Or.inr
      · rintro (rfl | hp)
        · exact hpart.root
        · exact hp
  | none =>
      refine ⟨?_, wellFormed_emptyLike c⟩
      intro p x
      rw [Option.getD_none, part_emptyLike c p x]
      constructor
      · rintro ⟨hp, hx⟩
        exact ⟨Or.inl hp, hx⟩
      · rintro ⟨hp | hp, hx⟩
        · exact ⟨hp, hx⟩
        · exact absurd hp (h.not_of_missing hc hc' hx)

/-- Copying a location of the source into a part adds the places that it touches. -/
theorem Part.copyInto {a : Address} {n : Node} (hsrc : src.WellFormed) (ha : Tree.At src a n)
    (h : Part K src t) (ht : t.WellFormed) :
    Part (fun p => K p ∨ Place.Touches a.place p) src (copyInto src t a) ∧
      (copyInto src t a).WellFormed := by
  -- Along the address, with `K` moving to the places below the child.
  induction ha generalizing K t with
  | root src =>
      refine ⟨?_, hsrc⟩
      exact part_self.congr fun p => by simp [Place.Touches]
  | @child src c n k rest hmem hrest ih =>
      have hc := hsrc.of_mem_children hmem
      have hget := ((mem_children_iff hsrc).mp hmem).2
      obtain ⟨fresh, hfresh, hcopy⟩ := copyInto_cons t rest (child?_of_mem_children hsrc hmem)
      let u := (t.entries.get? k.text).getD fresh
      have hnew : Part (fun p => K (k.text :: p) ∨ Place.Touches rest.place p) c
          (Node.copyInto c u rest) ∧ (Node.copyInto c u rest).WellFormed := by
        by_cases hnil : rest = []
        · subst hnil
          exact ⟨part_self.congr fun p => by simp [Place.Touches], hc⟩
        · obtain ⟨hslot, hslotwf⟩ := h.slot ht hget
          rw [← hfresh hnil] at hslot hslotwf
          obtain ⟨hpart, hwf⟩ := ih hc hslot hslotwf
          refine ⟨hpart.congr fun p => ?_, hwf⟩
          constructor
          · rintro ((rfl | hp) | hp)
            · exact Or.inr (Or.inr List.nil_prefix)
            · exact Or.inl hp
            · exact Or.inr hp
          · rintro (hp | hp)
            · exact Or.inl (Or.inr hp)
            · exact Or.inr hp
      rw [hcopy]
      refine ⟨?_, ht.alter (h.admits hsrc hmem) hnew.2⟩
      refine (h.alter hsrc ht hmem hnew.1).congr fun p => ?_
      cases p with
      | nil => simp [Place.Touches]
      | cons s p =>
          rw [Address.place_cons, Place.touches_cons_cons]
          by_cases hs : k.text = s
          · subst hs
            simp
          · simp [hs]

theorem part_foldl {found : List Match} (hsrc : src.WellFormed)
    (hfound : ∀ m ∈ found, ∃ n, Tree.At src m.keys n) (h : Part K src t) (ht : t.WellFormed) :
    Part (fun p => K p ∨ ∃ m ∈ found, Place.Touches m.keys.place p) src
        (found.foldl (fun result m => src.copyInto result m.keys) t) ∧
      (found.foldl (fun result m => src.copyInto result m.keys) t).WellFormed := by
  induction found generalizing K t with
  | nil => exact ⟨h.congr fun p => by simp, ht⟩
  | cons m found ih =>
      obtain ⟨n, hn⟩ := hfound m List.mem_cons_self
      obtain ⟨hpart, hwf⟩ := h.copyInto hsrc hn ht
      have hrest := ih (fun m hm => hfound m (List.mem_cons_of_mem _ hm)) hpart hwf
      refine ⟨hrest.1.congr fun p => ?_, hrest.2⟩
      simp only [List.exists_mem_cons_iff, or_assoc]

/-- A sequence of a working tree as its elements with their positions. -/
theorem exists_positions {n : Nat} (ht : t.WellFormed) (hn : t.shape = .seq n) :
    ∃ ps : List (Nat × Node), (ps.Pairwise fun a b => a.1 < b.1) ∧
      t.entries = Sparse.named ps ∧
      t.toValue false = .seq (ps.map fun p => p.2.toValue false) := by
  cases ht with
  | scalar s => cases hn
  | @seq items hx =>
      refine ⟨(Sparse.ofList items).items, (Sparse.sound_ofList items).ascending, rfl, ?_⟩
      simp only [toValue, toItems_eq_map, Sparse.ofList, List.map_map]
      congr 1
      calc
        items.map (toValue false) = (items.zipIdx.map Prod.fst).map (toValue false) := by
          rw [List.zipIdx_map_fst]
        _ = _ := by rw [List.map_map]; rfl
  | @sparse s hs hx =>
      exact ⟨s.items, hs.ascending, rfl, by simp [toValue, toCompact_eq_map]⟩
  | map hes hx => cases hn

theorem get?_entries_ofValue_seq (items : List Value) (i : Nat) :
    (ofValue (.seq items)).entries.get? (Numeral.natText i) = items[i]?.map ofValue := by
  rw [ofValue, entries, Sparse.get?_named, Sparse.find?_ofList, ofItems_eq_map,
    List.getElem?_map]

/-- The elements of a part of a sequence are at the positions that pass the test. -/
theorem Part.positions_eq {items : List Value} {keep : Place → Bool} {ps : List (Nat × Node)}
    (h : Part K (ofValue (.seq items)) t) (hK : ∀ s p, K (s :: p) ↔ keep (s :: p) = true)
    (hps : ps.Pairwise fun a b => a.1 < b.1) (hentries : t.entries = Sparse.named ps) :
    ps.map Prod.fst = (Value.kept keep items).map Prod.fst := by
  have hkept : (Value.kept keep items).Pairwise fun a b => a.1 < b.1 :=
    (Sparse.sound_ofList items).ascending.filter _
  apply (List.pairwise_map.mpr hps).eq_of_mem_iff (List.pairwise_map.mpr hkept)
  intro i
  simp only [List.mem_map, Prod.exists, exists_and_right, exists_eq_right, Value.mem_kept]
  constructor
  · rintro ⟨c, hc⟩
    have hget : t.entries.get? (Numeral.natText i) = some c := by
      rw [hentries, Sparse.get?_named]
      exact Sparse.find?_of_mem hps hc
    obtain ⟨c₀, hc₀, hpart⟩ := h.child hget
    rw [get?_entries_ofValue_seq] at hc₀
    obtain ⟨x, hx, -⟩ := Option.map_eq_some_iff.mp hc₀
    exact ⟨⟨x, hx⟩, (hK _ []).mp hpart.root⟩
  · rintro ⟨⟨x, hx⟩, hkeep⟩
    obtain ⟨c, hc⟩ := h.exists_child (by rw [get?_entries_ofValue_seq, hx]; rfl)
      ((hK _ []).mpr hkeep)
    rw [hentries, Sparse.get?_named] at hc
    exact ⟨c, Sparse.mem_of_find? hc⟩

theorem get?_entries_ofValue_map (es : Entries Value) (k : String) :
    (ofValue (.map es)).entries.get? k = (es.get? k).map ofValue := by
  rw [ofValue, entries, ofEntries_eq_map]
  exact Entries.get?_map ofValue es k

/-- The entries of a part of a map are those that pass the test. -/
theorem Part.keys_perm {es : Entries Value} {fs : Entries Node} {keep : Place → Bool}
    (h : Part K (ofValue (.map es)) (.map fs)) (hK : ∀ s p, K (s :: p) ↔ keep (s :: p) = true)
    (hes : es.keys.Nodup) (hfs : fs.keys.Nodup) :
    fs.keys.Perm (Value.restrictEntries keep es).keys := by
  rw [Value.keys_restrictEntries, List.perm_ext_iff_of_nodup hfs (hes.filter _)]
  intro k
  rw [List.mem_filter, Entries.mem_keys_iff, Entries.mem_keys_iff]
  constructor
  · rintro ⟨c', hc'⟩
    obtain ⟨c, hc, hpart⟩ := h.child hc'
    rw [get?_entries_ofValue_map] at hc
    obtain ⟨x, hx, -⟩ := Option.map_eq_some_iff.mp hc
    exact ⟨⟨x, hx⟩, (hK k []).mp hpart.root⟩
  · rintro ⟨⟨x, hx⟩, hkeep⟩
    exact h.exists_child (by rw [get?_entries_ofValue_map, hx]; rfl) ((hK k []).mpr hkeep)

/-- A part of a value, with its gaps closed, is the restriction of the value. -/
theorem Part.alike_restrict {v : Value} (hv : v.WellFormed) {keep : Place → Bool}
    (h : Part K (ofValue v) t) (ht : t.WellFormed)
    (hK : ∀ s p, K (s :: p) ↔ keep (s :: p) = true) :
    (t.toValue false).Alike (v.restrict keep) := by
  induction hv generalizing K keep t with
  | scalar s =>
      have hshape := h.shape_eq
      cases t with
      | scalar s' =>
          cases hshape
          exact Value.Alike.scalar s
      | seq items => cases hshape
      | sparse s' => cases hshape
      | map es => cases hshape
  | @seq items _ ih =>
      obtain ⟨ps, hps, hentries, hvalue⟩ := exists_positions ht h.shape_eq
      rw [hvalue, Value.restrict, Value.restrictItems_eq_map]
      apply Value.alike_seq_of_positions (h.positions_eq hK hps hentries)
      rintro ⟨i, c⟩ hc ⟨j, x⟩ hx rfl
      obtain ⟨hx, -⟩ := Value.mem_kept.mp hx
      have hget : t.entries.get? (Numeral.natText i) = some c := by
        rw [hentries, Sparse.get?_named]
        exact Sparse.find?_of_mem hps hc
      obtain ⟨c₀, hc₀, hpart⟩ := h.child hget
      rw [get?_entries_ofValue_seq, hx] at hc₀
      cases hc₀
      exact ih x (List.mem_of_getElem? hx) hpart (ht.get? hget) fun s p => hK _ (s :: p)
  | @map es hes _ ih =>
      have hshape := h.shape_eq
      cases ht with
      | scalar s => cases hshape
      | seq hx => cases hshape
      | sparse hs hx => cases hshape
      | @map fs hfs hx =>
          rw [toValue, toEntries_eq_map, Value.restrict]
          apply Value.Alike.map
          · rw [Entries.keys_map]
            exact h.keys_perm hK hes hfs
          · intro k x y hx' hy
            rw [Entries.get?_map] at hx'
            obtain ⟨c', hc', rfl⟩ := Option.map_eq_some_iff.mp hx'
            obtain ⟨c, hc, hpart⟩ := h.child hc'
            rw [get?_entries_ofValue_map] at hc
            obtain ⟨z, hz, rfl⟩ := Option.map_eq_some_iff.mp hc
            rw [Value.get?_restrictEntries keep hes, if_pos ((hK k []).mp hpart.root), hz] at hy
            cases hy
            have hmem := Entries.mem_of_get? hc'
            exact ih _ (Entries.mem_of_get? hz) hpart (hx _ hmem) fun s p => hK k (s :: p)

end Node

namespace Plan

/-- The places at which the paths match. -/
def places (paths : List Path) (body : Value) : List Place :=
  paths.flatMap fun path => (path.find body).map fun m => m.keys.place

theorem runSelect_eq_foldl (src : Node) (paths : List Path) :
    runSelect src paths = (paths.flatMap fun path => path.find src).foldl
      (fun result m => src.copyInto result m.keys) src.emptyLike := by
  rw [List.foldl_flatMap, runSelect]

/-- After the select pass the working tree is the part of the input at the places that matches
touch. -/
theorem part_runSelect {src : Node} (hsrc : src.WellFormed) (paths : List Path) :
    src.Part (fun p => p = [] ∨ ∃ m ∈ paths.flatMap fun path => path.find src,
      Place.Touches m.keys.place p) (runSelect src paths) ∧ (runSelect src paths).WellFormed := by
  rw [runSelect_eq_foldl]
  apply Node.part_foldl hsrc _ (Node.part_emptyLike src) (Node.wellFormed_emptyLike src)
  intro m hm
  obtain ⟨path, -, hm⟩ := List.mem_flatMap.mp hm
  exact Path.at_of_mem_find hsrc hm

theorem alike_runSelect {body : Value} (hbody : body.WellFormed) (paths : List Path) :
    ((runSelect (.ofValue body) paths).toValue false).Alike
      (body.restrict (Place.touches (places paths body))) := by
  obtain ⟨hpart, hwf⟩ := part_runSelect (Node.wellFormed_ofValue hbody) paths
  apply hpart.alike_restrict hbody hwf
  intro s p
  simp only [Path.find_ofValue, Place.touches_eq_true_iff, places, List.mem_flatMap, List.mem_map,
    reduceCtorEq, false_or]
  constructor
  · rintro ⟨m, ⟨path, hpath, hm⟩, h⟩
    exact ⟨m.keys.place, ⟨path, hpath, m, hm, rfl⟩, h⟩
  · rintro ⟨_, ⟨path, hpath, m, hm, rfl⟩, h⟩
    exact ⟨m, ⟨path, hpath, hm⟩, h⟩

theorem execute_select {body : Value} (hc : body.isContainer) {paths : List Path}
    (hne : paths ≠ []) (keepIndices : Bool) :
    Plan.execute { select := paths } body keepIndices =
      .ok ⟨(runSelect (.ofValue body) paths).toValue keepIndices, []⟩ := by
  cases paths with
  | nil => exact absurd rfl hne
  | cons path paths =>
      simp [execute, hc, runOn, selected, runDelete, relocate]

/-- Selecting restricts the body to what is at, below or above a match. The outcome depends only
on the set of places that match. -/
theorem execute_select_alike_restrict {body : Value} (hbody : body.WellFormed)
    (hc : body.isContainer) {paths : List Path} (hne : paths ≠ []) :
    ∃ data, Plan.execute { select := paths } body false = .ok ⟨data, []⟩ ∧
      data.Alike (body.restrict (Place.touches (places paths body))) ∧
      ∀ paths', paths' ≠ [] → (∀ p, p ∈ places paths' body ↔ p ∈ places paths body) →
        ∃ data', Plan.execute { select := paths' } body false = .ok ⟨data', []⟩ ∧
          data'.Alike data := by
  refine ⟨_, execute_select hc hne false, alike_runSelect hbody paths, ?_⟩
  intro paths' hne' hsame
  refine ⟨_, execute_select hc hne' false, ?_⟩
  have h := alike_runSelect hbody paths'
  rw [Place.touches_congr hsame] at h
  exact h.trans (alike_runSelect hbody paths).symm

/-- Three items, the second without an `id`. -/
def threeItems : Value :=
  .map [("items", .seq [
    .map [("id", .scalar (.int 1)), ("size", .scalar .null)],
    .map [("size", .scalar (.int 2))],
    .map [("id", .scalar (.int 3)), ("size", .scalar (.int 4))]]),
    ("total", .scalar (.int 3))]

/-- The identifiers of all items. -/
def itemIds : Path :=
  ⟨"items/*/id", [.step (.literal "items") none false, .step .any none false,
    .step (.literal "id") none false], {}⟩

/-- The items whose size is 4. -/
def largeItems : Path :=
  ⟨"items/*/size=4/..", [.step (.literal "items") none false, .step .any none false,
    .step (.literal "size") (some (.literal "4")) false, .parent], {}⟩

theorem execute_select_alike_restrict_items :
    threeItems.WellFormed ∧ threeItems.isContainer ∧
      [itemIds, largeItems] ≠ [] ∧
      places [itemIds, largeItems] threeItems =
        [["items", "2", "id"], ["items", "0", "id"], ["items", "2"]] ∧
      ∃ data, Plan.execute { select := [itemIds, largeItems] } threeItems false =
          .ok ⟨data, []⟩ ∧
        data.Alike (.map [("items", .seq [
          .map [("id", .scalar (.int 1))],
          .map [("id", .scalar (.int 3)), ("size", .scalar (.int 4))]])]) := by
  have hbody : threeItems.WellFormed := by simp [threeItems, Entries.keys]
  have hplaces : places [itemIds, largeItems] threeItems =
      [["items", "2", "id"], ["items", "0", "id"], ["items", "2"]] := by rfl
  obtain ⟨data, hrun, halike, -⟩ := execute_select_alike_restrict hbody rfl
    (List.cons_ne_nil itemIds [largeItems])
  refine ⟨hbody, rfl, List.cons_ne_nil _ _, hplaces, data, hrun, ?_⟩
  rw [hplaces] at halike
  exact halike
end Plan

end PathRules
