import PathRules.Proofs.Leaves
import PathRules.Proofs.MoveAsMap

/-!
# A move conserves the leaves

A first write to a destination that the body does not have adds the leaves of its value, and so does
every later one: a pair and a sequence have the leaves of their members. So a map adds the leaves of
each source once, however often the source matched, and removing the sources takes the same leaves
away. This holds as long as no write replaces what an earlier one has written, that is, if no
destination is above another, and if every source goes to one destination and is not the root.
-/

namespace PathRules

theorem Value.leaves_gather (vs : List Value) : (gather vs).leaves = vs.flatMap leaves := by
  match vs with
  | [] => rfl
  | [v] => rw [gather, List.flatMap_singleton]
  | u :: w :: ws => exact leaves_seq (u :: w :: ws)

namespace Node

variable {t : Node} {a : Address}

/-- A removal leaves the tree as it is at places that are neither at, below nor above it. -/
theorem seek_remove_of_not_touches {p : Place} (ht : t.WellFormed) (ha : t.ReadsAlong a)
    (hp : ¬ Place.Touches a.place p) : (t.remove a).seek p = t.seek p := by
  induction a generalizing t p with
  | nil => exact absurd (Or.inl List.nil_prefix) hp
  | cons k rest ih =>
      cases p with
      | nil => exact absurd (Or.inr List.nil_prefix) hp
      | cons s p =>
          rw [seek_cons, seek_cons, get?_entries_remove ht ha]
          by_cases hs : k.text = s
          · subst hs
            have hbelow : ¬ Place.Touches (Address.place rest) p := fun h =>
              hp (Place.touches_cons_cons.mpr ⟨rfl, h⟩)
            have hrest : rest ≠ [] := by
              rintro rfl
              exact hbelow (Or.inl List.nil_prefix)
            rw [if_pos rfl, if_neg hrest]
            cases hc : t.entries.get? k.text with
            | none => rfl
            | some c => exact ih (ht.get? hc) (ha.2 c hc) hbelow
          · rw [if_neg hs]

/-- Removals that do not touch each other take away the leaves at and below each address. -/
theorem count_leaves_foldl_remove {as : List Address} (ht : t.WellFormed)
    (has : ∀ a ∈ as, t.ReadsAlong a) (hne : ∀ a ∈ as, a ≠ [])
    (hapart : as.Pairwise fun a b => ¬ Place.Touches a.place b.place) (x : Scalar) :
    (as.foldl Node.remove t).leaves.count x + (as.flatMap fun a => t.leavesAt a.place).count x =
      t.leaves.count x := by
  induction as generalizing t with
  | nil => rfl
  | cons a as ih =>
      obtain ⟨ha, has⟩ := List.forall_mem_cons.mp has
      obtain ⟨hnea, hne⟩ := List.forall_mem_cons.mp hne
      obtain ⟨haparta, hapart⟩ := List.pairwise_cons.mp hapart
      have hsame : (as.flatMap fun b => (t.remove a).leavesAt b.place) =
          as.flatMap fun b => t.leavesAt b.place := by
        apply List.flatMap_congr
        intro b hb
        rw [leavesAt, leavesAt, seek_remove_of_not_touches ht ha (haparta b hb)]
      have hone := count_leaves_remove ht ha hnea x
      have hrest := ih (ht.remove ha) (fun b hb => (has b hb).remove ht ha) hne hapart
      rw [hsame] at hrest
      rw [List.foldl_cons, List.flatMap_cons, List.count_append]
      omega

end Node

namespace Plan

/-- Transfers that make room for each other: each source goes to one destination, and a destination
is new to the body and not above another one. -/
structure Transfer.Orderly (body : Value) (ts : List Transfer) : Prop where
  sound : ∀ t ∈ ts, t.Sound body
  seek_eq : ∀ t ∈ ts, (Node.ofValue body).seek t.source.place = some t.value
  single : ∀ t ∈ ts, ∀ u ∈ ts, t.source = u.source → t.dest = u.dest
  fresh : ∀ t ∈ ts, ∃ s p, t.dest.place = s :: p ∧ body.entries.get? s = none
  apart : ∀ t ∈ ts, ∀ u ∈ ts, u.dest = t.dest ∨ ¬ Place.Touches t.dest.place u.dest.place

/-- The pass after some transfers from the sources `as`, each listed once: to the leaves of the body
those of the sources have come. -/
structure Gathered (body : Value) (done : List Transfer) (as : List Address) (r : Relocating) :
    Prop where
  placed : Placed body done r
  nodup : as.Nodup
  mem_iff : ∀ a, a ∈ as ↔ ∃ t ∈ done, t.source = a
  count_leaves : ∀ x, r.root.leaves.count x =
    body.leaves.count x + (as.flatMap fun a => (Node.ofValue body).leavesAt a.place).count x

section Gathered

variable {body : Value} {ts done : List Transfer} {as : List Address} {r : Relocating}
  {t : Transfer}

theorem seek_fresh {s : String} (hfresh : body.entries.get? s = none) (p : Place) :
    (Node.ofValue body).seek (s :: p) = none := by
  rw [Node.seek_ofValue_eq_map, Value.seek_cons, hfresh]
  rfl

/-- No scalar is in the way to a destination. -/
theorem Placed.open_above (h : Placed body done r) (hc : body.isContainer)
    (hts : Transfer.Orderly body ts) (hdone : ∀ u ∈ done, u ∈ ts) (ht : t ∈ ts) {p : Place}
    {y : Scalar} (hp : p <+: t.dest.place) (hy : r.root.seek p = some (.scalar y)) :
    p = t.dest.place := by
  by_cases htouch : ∃ u ∈ done, Place.Touches u.dest.place p
  · obtain ⟨u, hu, htouch⟩ := htouch
    obtain ⟨vs, -, hwritten⟩ := h.written u hu
    have hseek := Node.seek_of_lookup (hts.sound u (hdone u hu)).plain hwritten
    -- There is nothing below a scalar, so a destination below it would be at it.
    have hsame : u.dest = t.dest := by
      refine (hts.apart t ht u (hdone u hu)).resolve_right (not_not.mpr ?_)
      rcases htouch with hup | hdown
      · exact Or.inr (hup.trans hp)
      · exact Or.inr (Node.eq_of_seek_scalar hy hseek hdown ▸ hp)
    rw [hsame] at hseek
    exact Node.eq_of_seek_scalar hy hseek hp
  · rw [h.elsewhere p fun u hu htouches => htouch ⟨u, hu, htouches⟩] at hy
    obtain ⟨s, q, hplace, hfresh⟩ := hts.fresh t ht
    cases p with
    | nil =>
        cases body with
        | scalar s => cases hc
        | seq items => cases hy
        | map es => cases hy
    | cons s' p =>
        rw [hplace] at hp
        obtain ⟨rfl, -⟩ := List.cons_prefix_cons.mp hp
        rw [seek_fresh hfresh] at hy
        cases hy

/-- What a destination holds are the values that came to it, and before the first one nothing. -/
theorem Placed.leavesAt_dest (h : Placed body done r) (hts : Transfer.Orderly body ts)
    (hdone : ∀ u ∈ done, u ∈ ts) (ht : t ∈ ts) :
    ∃ vs : List Value, (r.assigned.sources t.dest).length = vs.length ∧
      (vs ≠ [] → (r.root.seek t.dest.place).getD .null = .ofValue (.gather vs)) ∧
      r.root.leavesAt t.dest.place = vs.flatMap Value.leaves := by
  obtain ⟨vs, hvs, hslot⟩ := h.slot (hts.sound t ht)
  have hlength := congrArg List.length hvs
  rw [List.length_map, List.length_map, ← h.sources] at hlength
  refine ⟨vs, hlength, hslot, ?_⟩
  by_cases hempty : vs = []
  · subst hempty
    have hnone : ∀ u ∈ done, u.dest ≠ t.dest := by
      intro u hu hto
      have hmem := Transfer.mem_sourcesTo.mpr ⟨u, hu, hto, rfl⟩
      rw [← h.sources, List.eq_nil_of_length_eq_zero hlength] at hmem
      cases hmem
    obtain ⟨s, p, hplace, hfresh⟩ := hts.fresh t ht
    rw [List.flatMap_nil]
    apply Node.leavesAt_of_seek_eq_none
    rw [h.elsewhere _ fun u hu => (hts.apart u (hdone u hu) t ht).resolve_left (hnone u hu).symm]
    rw [hplace, seek_fresh hfresh]
  · have hsome := hslot hempty
    cases hseek : r.root.seek t.dest.place with
    | none =>
        obtain ⟨s, hs⟩ : ∃ s, s ∈ Transfer.sourcesTo done t.dest := by
          apply List.exists_mem_of_ne_nil
          intro hnil
          rw [h.sources, hnil] at hlength
          exact hempty (List.eq_nil_of_length_eq_zero hlength.symm)
        obtain ⟨u, hu, hto, -⟩ := Transfer.mem_sourcesTo.mp hs
        obtain ⟨ws, -, hwritten⟩ := h.written u hu
        rw [hto] at hwritten
        rw [Node.seek_of_lookup (hts.sound t ht).plain hwritten] at hseek
        cases hseek
    | some n =>
        rw [hseek, Option.getD_some] at hsome
        rw [Node.leavesAt, hseek, Option.map_some, Option.getD_some, hsome, Node.leaves_ofValue,
          Value.leaves_gather]

theorem Gathered.assign_again (h : Gathered body done as r)
    (hs : t.source ∈ r.assigned.sources t.dest) :
    Gathered body (done ++ [t]) as (r.assign t) := by
  have hassign : r.assign t = r := by rw [Relocating.assign, if_pos hs]
  refine ⟨h.placed.assign_again hs, h.nodup, ?_, ?_⟩
  · intro a
    rw [h.mem_iff]
    constructor
    · rintro ⟨u, hu, rfl⟩
      exact ⟨u, List.mem_append_left _ hu, rfl⟩
    · rintro ⟨u, hu, rfl⟩
      rcases List.mem_append.mp hu with hu | hu
      · exact ⟨u, hu, rfl⟩
      · rw [List.mem_singleton.mp hu]
        rw [h.placed.sources] at hs
        obtain ⟨w, hw, -, hsource⟩ := Transfer.mem_sourcesTo.mp hs
        exact ⟨w, hw, hsource⟩
  · rw [hassign]
    exact h.count_leaves

theorem Gathered.assign_new (h : Gathered body done as r) (hc : body.isContainer)
    (hts : Transfer.Orderly body ts) (hdone : ∀ u ∈ done, u ∈ ts) (ht : t ∈ ts)
    (hs : t.source ∉ r.assigned.sources t.dest) :
    Gathered body (done ++ [t]) (as ++ [t.source]) (r.assign t) := by
  have hsound := hts.sound t ht
  have hnew : t.source ∉ as := by
    intro hmem
    obtain ⟨u, hu, hsource⟩ := (h.mem_iff _).mp hmem
    rw [h.placed.sources] at hs
    exact hs (Transfer.mem_sourcesTo.mpr
      ⟨u, hu, hts.single u (hdone u hu) t ht hsource, hsource⟩)
  refine ⟨h.placed.assign_new hsound (fun u hu => hts.sound u (hdone u hu))
    (fun u hu => hts.apart t ht u (hdone u hu)) hs, ?_, ?_, ?_⟩
  · exact List.nodup_append.mpr ⟨h.nodup, List.nodup_singleton _, by
      intro a ha b hb hab
      rw [List.mem_singleton.mp hb] at hab
      exact hnew (hab ▸ ha)⟩
  · intro a
    rw [List.mem_append, List.mem_singleton, h.mem_iff]
    simp only [List.mem_append, List.mem_singleton, or_and_right, exists_or, exists_eq_left,
      eq_comm (a := a)]
  · intro x
    obtain ⟨v, hv, -, hvalue⟩ := hsound.value
    obtain ⟨vs, hlength, hslot, hleaves⟩ := h.placed.leavesAt_dest hts hdone ht
    have hwrite := Node.count_leaves_alterAt (f := merge (vs.length + 1) t.value)
      h.placed.wellFormed hsound.plain
      (fun u hu => wellFormed_merge (vs.length + 1) (hvalue ▸ hv) hu)
      (fun p y hp hy => h.placed.open_above hc hts hdone ht hp hy) x
    rw [hvalue, merge_gather v hslot, Node.leaves_ofValue, Value.leaves_gather, hleaves,
      List.flatMap_append, List.flatMap_singleton, List.count_append] at hwrite
    have hsource : (Node.ofValue body).leavesAt t.source.place = v.leaves := by
      rw [Node.leavesAt, hts.seek_eq t ht, hvalue, Option.map_some, Option.getD_some,
        Node.leaves_ofValue]
    have hbefore := h.count_leaves x
    rw [root_assign hs, hlength, hvalue, List.flatMap_append, List.flatMap_singleton,
      List.count_append, hsource]
    omega

theorem Gathered.foldl_assign (h : Gathered body [] [] r) (hc : body.isContainer)
    (hts : Transfer.Orderly body ts) : ∃ as, Gathered body ts as (ts.foldl Relocating.assign r) := by
  refine Relocating.foldl_assign_induction (P := fun done r => ∃ as, Gathered body done as r)
    ⟨[], h⟩ fun done t r hdone ht h => ?_
  obtain ⟨as, h⟩ := h
  by_cases hs : t.source ∈ r.assigned.sources t.dest
  · exact ⟨as, h.assign_again hs⟩
  · exact ⟨_, h.assign_new hc hts hdone ht hs⟩

end Gathered

end Plan

/-- The rule takes pieces of the body to new places: no source is the root or lies inside another
one, all matches of a source have one destination, the body has no destination, and no destination
is above another. -/
structure Relocation.Orderly (rule : Relocation) (body : Value) : Prop where
  belowRoot : [] ∉ rule.origins body
  originsApart : ∀ a ∈ rule.origins body, ∀ b ∈ rule.origins body,
    a = b ∨ ¬ Place.Touches a.place b.place
  single : ∀ m ∈ rule.path.find body, ∀ m' ∈ rule.path.find body, m.keys = m'.keys →
    (rule.template.destination m).1 ≠ [] → (rule.template.destination m').1 ≠ [] →
    (rule.template.destination m).1 = (rule.template.destination m').1
  fresh : ∀ d ∈ rule.destinations body, ∀ s p, d.place = s :: p → body.entries.get? s = none
  apart : ∀ d ∈ rule.destinations body, ∀ d' ∈ rule.destinations body,
    d = d' ∨ ¬ Place.Touches d.place d'.place

namespace Plan

section Orderly

variable {body : Value} {rule : Relocation}

theorem orderly_transfers (hbody : body.WellFormed) (h : rule.Orderly body) :
    Transfer.Orderly body
      (Relocating.transfers (.ofValue body) rule (rule.path.find body)) := by
  refine ⟨fun t ht => sound_transfers hbody ht, ?_, ?_, ?_, ?_⟩
  · intro t ht
    have hpending : t ∈ (Relocating.start body rule).pending rule := by
      rwa [Relocating.pending, Relocating.start, Path.find_ofValue]
    exact (Relocating.from_of_mem_pending (Node.wellFormed_ofValue hbody) hpending).seek_eq
  · intro t ht u hu hsame
    obtain ⟨m, hm, hne, hsource, hdest, -⟩ := mem_transfers.mp ht
    obtain ⟨m', hm', hne', hsource', hdest', -⟩ := mem_transfers.mp hu
    rw [hsource, hsource'] at hsame
    rw [hdest, hdest', h.single m hm m' hm' hsame hne hne']
  · intro t ht
    have hd := dest_mem_destinations hbody ht
    obtain ⟨k, rest, hkey⟩ := List.exists_cons_of_ne_nil ((mem_destinations hbody).mp hd).1
    have hplace : t.dest.place = k.text :: Address.place rest := by rw [hkey, Address.place_cons]
    exact ⟨k.text, _, hplace, h.fresh _ hd _ _ hplace⟩
  · intro t ht u hu
    exact (h.apart _ (dest_mem_destinations hbody ht) _ (dest_mem_destinations hbody hu)).imp_left
      Eq.symm

theorem holds_foldl_assign {ts : List Transfer} {r : Relocating} {a : Address}
    (hr : r.root.WellFormed) (hts : ∀ t ∈ ts, t.Sound body) (ha : r.root.Holds a)
    (hp : ∀ t ∈ ts, ¬ Place.Touches t.dest.place a.place) :
    (ts.foldl Relocating.assign r).root.Holds a := by
  induction ts generalizing r with
  | nil => exact ha
  | cons t ts ih =>
      obtain ⟨ht, hts⟩ := List.forall_mem_cons.mp hts
      obtain ⟨hpt, hp⟩ := List.forall_mem_cons.mp hp
      exact ih (wellFormed_assign hr ht) hts (holds_assign hr ht ha hpt) hp

/-- A destination whose first text is new to the body is apart from every source. -/
theorem origins_apart_destinations (hbody : body.WellFormed) (h : rule.Orderly body) :
    ∀ a ∈ rule.origins body, ∀ d ∈ rule.destinations body, ¬ Place.Touches d.place a.place := by
  intro a ha d hd htouch
  obtain ⟨hne, -⟩ := (mem_destinations hbody).mp hd
  obtain ⟨k, rest, rfl⟩ := List.exists_cons_of_ne_nil hne
  cases a with
  | nil => exact h.belowRoot ha
  | cons k' rest' =>
      have htext := (Place.touches_cons_cons.mp htouch).1
      obtain ⟨-, c, hc, -⟩ := holds_origins hbody rule _ ha
      rw [← htext, Node.entries_ofValue, Entries.get?_map,
        h.fresh _ hd _ _ (Address.place_cons k rest)] at hc
      cases hc

/-- The sources are where they were, and removing them takes away the leaves that have come. -/
theorem Gathered.perm_leaves_without {as : List Address} {r : Relocating}
    (h : Gathered body (Relocating.transfers (.ofValue body) rule (rule.path.find body)) as r)
    (hbody : body.WellFormed) (hrule : rule.Orderly body)
    (hholds : ∀ a ∈ rule.origins body, r.root.Holds a) :
    ((rule.origins body).foldl Node.remove r.root).leaves.Perm body.leaves := by
  have hwf := h.placed.wellFormed
  have hmem : ∀ a, a ∈ as ↔ a ∈ rule.origins body := by
    intro a
    rw [h.mem_iff, ← map_source_transfers_find hbody, List.mem_map]
  have hreads : ∀ a ∈ as, r.root.ReadsAlong a := fun a ha =>
    (hholds a ((hmem a).mp ha)).readsAlong
  have honce : (rule.origins body).foldl Node.remove r.root = as.foldl Node.remove r.root := by
    apply Node.foldl_remove_congr hwf (fun a ha => (hholds a ha).readsAlong) hreads
    intro p _ _
    simp only [List.mem_map, hmem]
  have hapart : as.Pairwise fun a b => ¬ Place.Touches a.place b.place := by
    refine h.nodup.pairwise_of_forall_ne fun a ha b hb hne => ?_
    exact (hrule.originsApart a ((hmem a).mp ha) b ((hmem b).mp hb)).resolve_left hne
  have hkept : (as.flatMap fun a => r.root.leavesAt a.place) =
      as.flatMap fun a => (Node.ofValue body).leavesAt a.place := by
    apply List.flatMap_congr
    intro a ha
    rw [Node.leavesAt, Node.leavesAt, h.placed.elsewhere a.place fun t ht =>
      origins_apart_destinations hbody hrule a ((hmem a).mp ha) _ (dest_mem_destinations hbody ht)]
  rw [honce, List.perm_iff_count]
  intro x
  have hadded := h.count_leaves x
  have htaken := Node.count_leaves_foldl_remove hwf hreads
    (fun a ha hnil => hrule.belowRoot (hnil ▸ (hmem a).mp ha)) hapart x
  rw [hkept] at htaken
  omega

theorem perm_leaves_relocate (hbody : body.WellFormed) (hc : body.isContainer)
    (h : rule.Orderly body) :
    (relocate true (.ofValue body) [rule]).1.leaves.Perm body.leaves := by
  have hts := orderly_transfers hbody h
  have hapart := origins_apart_destinations hbody h
  have hstart : Gathered body [] [] (.start body rule) :=
    ⟨placed_start hbody _, List.nodup_nil, by simp, by
      intro x
      simp [Relocating.start, Node.leaves_ofValue]⟩
  obtain ⟨as, hmap⟩ := hstart.foldl_assign hc hts
  rw [relocate_move_eq_map_without hbody rule hapart, relocate_map]
  apply hmap.perm_leaves_without hbody h
  intro a ha
  exact holds_foldl_assign (Node.wellFormed_ofValue hbody) hts.sound
    (holds_origins hbody rule a ha) fun t ht => hapart a ha _ (dest_mem_destinations hbody ht)

/-- A single orderly move leaves the scalars of the body, each as often as it was there. Lengths
have no bound here. Where 64 bits count them, this is about destinations without the position
18446744073709551615: a sequence that reaches it has one element more than they count. -/
theorem execute_move_perm_leaves (hbody : body.WellFormed) (hc : body.isContainer)
    (h : rule.Orderly body) (keepIndices : Bool) :
    ∃ e, Plan.execute { move := [rule] } body keepIndices = .ok e ∧
      e.data.leaves.Perm body.leaves := by
  refine ⟨_, execute_single_move hc rule keepIndices, ?_⟩
  rw [Node.leaves_toValue]
  exact perm_leaves_relocate hbody hc h

end Orderly

/-- Gathers the tokens of a body by the places of their holders. -/
def tokensByHolder : Relocation :=
  ⟨⟨"**/token", [.step (.literal "token") none true], {}⟩, .parse "tokens/%%"⟩

def twoTokens : Value :=
  .map [("a", .map [("token", .scalar (.int 1))]), ("b", .map [("token", .scalar (.int 2))])]

theorem execute_move_perm_leaves_twoTokens :
    twoTokens.WellFormed ∧ twoTokens.isContainer ∧ tokensByHolder.Orderly twoTokens ∧
      ∃ e, Plan.execute { move := [tokensByHolder] } twoTokens false = .ok e ∧
        e.data = .map [("a", .map []), ("b", .map []),
          ("tokens", .map [("a", .scalar (.int 1)), ("b", .scalar (.int 2))])] ∧
        e.data.leaves.Perm [.int 1, .int 2] := by
  have hbody : twoTokens.WellFormed := by simp [twoTokens, Entries.keys]
  have hfind : (tokensByHolder.path.find twoTokens) =
      [⟨[.name "a", .name "token"], [], [(0, [.name "a"])]⟩,
        ⟨[.name "b", .name "token"], [], [(0, [.name "b"])]⟩] := by decide +kernel
  have horigins : tokensByHolder.origins twoTokens =
      [[.name "a", .name "token"], [.name "b", .name "token"]] := by decide +kernel
  have hdest : tokensByHolder.destinations twoTokens =
      [[.name "tokens", .name "a"], [.name "tokens", .name "b"]] := by decide +kernel
  have horderly : tokensByHolder.Orderly twoTokens := by
    constructor
    · rw [horigins]
      decide
    · rw [horigins]
      simp [Place.Touches]
    · rw [hfind]
      simp
    · rw [hdest]
      simp [twoTokens, Value.entries, Entries.get?]
    · rw [hdest]
      simp [Place.Touches]
  obtain ⟨e, he, hperm⟩ := execute_move_perm_leaves hbody rfl horderly false
  refine ⟨hbody, rfl, horderly, e, he, ?_, hperm⟩
  have hrun : Plan.execute { move := [tokensByHolder] } twoTokens false =
      .ok ⟨.map [("a", .map []), ("b", .map []),
        ("tokens", .map [("a", .scalar (.int 1)), ("b", .scalar (.int 2))])], []⟩ := by
    with_unfolding_all rfl
  rw [hrun] at he
  cases he
  rfl

def tokenAtTop : Value :=
  .map [("a", .map [("token", .scalar (.int 1))]), ("token", .scalar (.int 2))]

def nestedPair : Value :=
  .map [("a", .map [("b", .scalar (.int 1)), ("c", .scalar (.int 2))])]

/-- Moves the whole body. -/
def rootToX : Relocation :=
  ⟨⟨"", [], {}⟩, .parse "x"⟩

/-- Moves the same source once for each of its children. -/
def parentOfEach : Relocation :=
  ⟨⟨"a/*/..", [.step (.literal "a") none false, .step .any none false, .parent], {}⟩,
    .parse "x%1"⟩

/-- A destination above another one loses a leaf. The root stays where it is, and a source with two
destinations is copied to both, so that leaves are doubled. -/
theorem execute_move_not_perm_leaves :
    (tokensByHolder.origins tokenAtTop = [[.name "a", .name "token"], [.name "token"]] ∧
      tokensByHolder.destinations tokenAtTop = [[.name "tokens", .name "a"], [.name "tokens"]] ∧
      ∃ data, Plan.execute { move := [tokensByHolder] } tokenAtTop true = .ok ⟨data, []⟩ ∧
        ¬ data.leaves.Perm tokenAtTop.leaves) ∧
    (rootToX.origins nestedPair = [[]] ∧ rootToX.destinations nestedPair = [[.name "x"]] ∧
      ∃ data, Plan.execute { move := [rootToX] } nestedPair true = .ok ⟨data, []⟩ ∧
        ¬ data.leaves.Perm nestedPair.leaves) ∧
    (parentOfEach.origins nestedPair = [[.name "a"], [.name "a"]] ∧
      parentOfEach.destinations nestedPair = [[.name "xb"], [.name "xc"]] ∧
      ∃ data, Plan.execute { move := [parentOfEach] } nestedPair true = .ok ⟨data, []⟩ ∧
        ¬ data.leaves.Perm nestedPair.leaves) := by
  refine ⟨⟨by decide +kernel, by decide +kernel,
      .map [("a", .map []), ("tokens", .scalar (.int 2))], by with_unfolding_all rfl, ?_⟩,
    ⟨by rfl, by rfl, _, by rfl, ?_⟩, ⟨by rfl, by rfl, _, by rfl, ?_⟩⟩
  · decide
  · decide
  · decide

end Plan

end PathRules
