import PathRules.Proofs.LeafOrigin

/-!
# What a rule moves arrives

A first write leaves its value at the destination, and every later one leaves a sequence to which
its value belongs and which keeps what it had. Destinations that do not touch each other do not
disturb each other, so at the end of a rule each value that was written during the rule is still
there. A transfer is skipped if the destination has had its source before, whatever the source
holds by then: so the value arrives if the source is new to the destination in this pass.
-/

namespace PathRules

/-- The node is the value, or a sequence to which the value belongs. -/
def Node.Bears (n v : Node) : Prop :=
  n = v ∨ ∃ items, n = seq items ∧ v ∈ items

namespace Plan

/-- A destination after so many writes, one of which wrote the value. -/
def HoldsWritten (writes : Nat) (v slot : Node) : Prop :=
  (writes = 1 ∧ slot = v) ∨ (1 < writes ∧ ∃ items, slot = .seq items ∧ v ∈ items)

section Merge

variable {v u slot : Node} {n : Nat}

theorem HoldsWritten.bears (h : HoldsWritten n v slot) : slot.Bears v :=
  h.imp And.right And.right

theorem merge_eq_seq (hn : 1 < n) (v slot : Node) :
    ∃ items, merge n v slot = .seq items ∧ v ∈ items := by
  have hmore : n ≠ 1 := by omega
  simp only [merge, if_neg hmore]
  split
  · split <;> exact ⟨_, rfl, by simp⟩
  · exact ⟨_, rfl, by simp⟩

theorem holdsWritten_merge (hn : 0 < n) (v slot : Node) : HoldsWritten n v (merge n v slot) := by
  by_cases hfirst : n = 1
  · subst hfirst
    exact Or.inl ⟨rfl, rfl⟩
  · have hmore : 1 < n := by omega
    exact Or.inr ⟨hmore, merge_eq_seq hmore v slot⟩

/-- The next write keeps what earlier ones have written. -/
theorem HoldsWritten.merge (h : HoldsWritten n u slot) (v : Node) :
    HoldsWritten (n + 1) u (merge (n + 1) v slot) := by
  rcases h with ⟨rfl, rfl⟩ | ⟨hn, items, rfl, hu⟩
  · refine Or.inr ⟨by omega, [slot, v], ?_, by simp⟩
    cases slot <;> simp [Plan.merge]
  · refine Or.inr ⟨by omega, items ++ [v], ?_, by simp [hu]⟩
    have hmore : 2 < n + 1 := by omega
    have hnext : n + 1 ≠ 1 := by omega
    simp only [Plan.merge, if_neg hnext, if_pos hmore]

end Merge

/-- The pass during a rule that began in the state `r`: what was written since is still there. -/
structure Delivering (r : Relocating) (done : List Transfer) (r' : Relocating) : Prop where
  wellFormed : r'.root.WellFormed
  sources : ∀ d, ∀ s ∈ r'.assigned.sources d,
    s ∈ r.assigned.sources d ∨ ∃ t ∈ done, t.dest = d ∧ t.source = s
  arrived : ∀ t ∈ done, t.source ∉ r.assigned.sources t.dest →
    ∃ n, Tree.lookup r'.root t.dest = some n ∧
      HoldsWritten (r'.assigned.sources t.dest).length t.value n

section Delivering

variable {root : Node} {r r' : Relocating} {done : List Transfer} {t : Transfer}

theorem Delivering.sources_append (h : Delivering r done r') (ts : List Transfer) {d s : Address}
    (hs : s ∈ r'.assigned.sources d) :
    s ∈ r.assigned.sources d ∨ ∃ u ∈ done ++ ts, u.dest = d ∧ u.source = s := by
  refine (h.sources d s hs).imp_right ?_
  rintro ⟨u, hu, hto⟩
  exact ⟨u, List.mem_append_left _ hu, hto⟩

theorem Delivering.assign_again (h : Delivering r done r') (ht : t.From root)
    (hdone : ∀ u ∈ done, u.From root) (hs : t.source ∈ r'.assigned.sources t.dest) :
    Delivering r (done ++ [t]) (r'.assign t) := by
  have hassign : r'.assign t = r' := by rw [Relocating.assign, if_pos hs]
  rw [hassign]
  refine ⟨h.wellFormed, fun d s hmem => h.sources_append [t] hmem, ?_⟩
  · intro u hu hnew
    rcases List.mem_append.mp hu with hu | hu
    · exact h.arrived u hu hnew
    · -- Another transfer of this rule has brought the value from the same source.
      rw [List.mem_singleton.mp hu] at hnew ⊢
      obtain ⟨w, hw, hdest, hsource⟩ := (h.sources _ _ hs).resolve_left hnew
      have hvalue : w.value = t.value := by
        have hsame := (hdone w hw).lookup_eq
        rw [hsource, ht.lookup_eq] at hsame
        exact (Option.some.inj hsame).symm
      rw [← hdest, ← hvalue]
      exact h.arrived w hw (by rwa [hsource, hdest])

theorem Delivering.assign_new (h : Delivering r done r') (hroot : root.WellFormed)
    (ht : t.From root) (hdone : ∀ u ∈ done, u.From root)
    (hapart : ∀ u ∈ done, u.dest = t.dest ∨ ¬ Place.Touches t.dest.place u.dest.place)
    (hs : t.source ∉ r'.assigned.sources t.dest) :
    Delivering r (done ++ [t]) (r'.assign t) := by
  refine ⟨Relocating.wellFormed_root_assign h.wellFormed ht.plain (ht.wellFormed hroot), ?_, ?_⟩
  · intro d s hmem
    rw [sources_assign hs] at hmem
    by_cases hd : d = t.dest
    · subst hd
      rw [if_pos rfl, List.mem_append, List.mem_singleton] at hmem
      rcases hmem with hmem | rfl
      · exact h.sources_append [t] hmem
      · exact Or.inr ⟨t, by simp, rfl, rfl⟩
    · rw [if_neg hd] at hmem
      exact h.sources_append [t] hmem
  · intro u hu hnew
    rw [sources_assign hs, root_assign hs]
    by_cases hd : u.dest = t.dest
    · rw [hd, if_pos rfl, List.length_append, List.length_singleton]
      refine ⟨_, Node.lookup_alterAt h.wellFormed ht.plain, ?_⟩
      rcases List.mem_append.mp hu with hu | hu
      · obtain ⟨n, hn, hheld⟩ := h.arrived u hu hnew
        rw [hd] at hn hheld
        rw [Node.seek_of_lookup ht.plain hn, Option.getD_some]
        exact hheld.merge t.value
      · rw [List.mem_singleton.mp hu]
        exact holdsWritten_merge (Nat.succ_pos _) _ _
    · have hmem : u ∈ done := by
        rcases List.mem_append.mp hu with hu | hu
        · exact hu
        · exact absurd (by rw [List.mem_singleton.mp hu]) hd
      obtain ⟨n, hn, hheld⟩ := h.arrived u hmem hnew
      rw [if_neg hd]
      refine ⟨n, ?_, hheld⟩
      exact Node.lookup_alterAt_of_not_touches h.wellFormed ht.plain (hdone u hmem).plain hn
        ((hapart u hmem).resolve_left hd)

theorem Delivering.foldl_assign {ts : List Transfer} (h : Delivering r [] r')
    (hroot : root.WellFormed) (hts : ∀ t ∈ ts, t.From root)
    (hapart : ∀ u ∈ ts, ∀ t ∈ ts, u.dest = t.dest ∨ ¬ Place.Touches t.dest.place u.dest.place) :
    Delivering r ts (ts.foldl Relocating.assign r') := by
  refine Relocating.foldl_assign_induction h fun done t r' hdone ht h => ?_
  have hfrom : ∀ u ∈ done, u.From root := fun u hu => hts u (hdone u hu)
  by_cases hs : t.source ∈ r'.assigned.sources t.dest
  · exact h.assign_again (hts t ht) hfrom hs
  · exact h.assign_new hroot (hts t ht) hfrom (fun u hu => hapart u (hdone u hu) t ht) hs

end Delivering

namespace Relocating

/-- The addresses to which the matches in the tree of the pass go do not touch each other. -/
def DestinationsApart (r : Relocating) (rule : Relocation) : Prop :=
  ∀ m ∈ rule.path.find r.root, ∀ m' ∈ rule.path.find r.root,
    (rule.template.destination m).1 ≠ [] → (rule.template.destination m').1 ≠ [] →
    (rule.template.destination m).1 = (rule.template.destination m').1 ∨
      ¬ Place.Touches (rule.template.destination m').1.place (rule.template.destination m).1.place

theorem delivering_apply (removeSources : Bool) {r : Relocating} (hr : r.root.WellFormed)
    {rule : Relocation} (hapart : r.DestinationsApart rule) :
    Delivering r (r.pending rule) (r.apply removeSources rule) := by
  have hstart : Delivering r [] (r.opening removeSources rule) :=
    ⟨wellFormed_opening removeSources hr rule, fun _ _ hs => Or.inl hs, by simp⟩
  rw [apply_eq]
  refine hstart.foldl_assign hr (fun t ht => from_of_mem_pending hr ht) ?_
  intro u hu t ht
  obtain ⟨m, hm, hne, -, hdest, -⟩ := mem_transfers.mp hu
  obtain ⟨m', hm', hne', -, hdest', -⟩ := mem_transfers.mp ht
  rw [hdest, hdest']
  exact hapart m hm m' hm' hne hne'

end Relocating

/-- The state of a pass after some of its rules. -/
def reached (removeSources : Bool) (root : Node) (rules : List Relocation) : Relocating :=
  rules.foldl (Relocating.apply removeSources) ⟨root, [], []⟩

/-- After a move whose destinations do not touch each other, the value of a match is at its
destination or belongs to the sequence there, whatever the moves before have done, provided that
none of them has written to this destination from the same address. -/
theorem relocate_bears {root : Node} (hroot : root.WellFormed) (before : List Relocation)
    (rule : Relocation) (hapart : (reached true root before).DestinationsApart rule) {m : Match}
    (hm : m ∈ rule.path.find (relocate true root before).1)
    (hne : (rule.template.destination m).1 ≠ [])
    (hnew : m.keys ∉ (reached true root before).assigned.sources (rule.template.destination m).1) :
    ∃ v n, Tree.lookup (relocate true root before).1 m.keys = some v ∧
      Tree.lookup (relocate true root (before ++ [rule])).1 (rule.template.destination m).1 =
        some n ∧ n.Bears v := by
  have hwf : (reached true root before).root.WellFormed :=
    Relocating.wellFormed_foldl_apply true hroot before
  obtain ⟨v, hv⟩ := Path.at_of_mem_find hwf hm
  have hlookup : Tree.lookup (reached true root before).root m.keys = some v := hv.lookup_eq hwf
  have hmem : ⟨m.keys, (rule.template.destination m).1, v⟩ ∈
      (reached true root before).pending rule :=
    mem_transfers.mpr ⟨m, hm, hne, rfl, rfl, hlookup⟩
  obtain ⟨n, hn, hheld⟩ :=
    (Relocating.delivering_apply true hwf hapart).arrived _ hmem hnew
  have hrun : (relocate true root (before ++ [rule])).1 =
      ((reached true root before).apply true rule).root := by
    simp only [relocate, reached, List.foldl_append, List.foldl_cons, List.foldl_nil]
  exact ⟨v, n, hlookup, hrun ▸ hn, hheld.bears⟩

theorem relocate_bears_meeting :
    oneAndTwo.WellFormed ∧
      (reached true (.ofValue oneAndTwo) [rename "a" "x"]).DestinationsApart (rename "b" "x") ∧
      (reached true (.ofValue oneAndTwo) [rename "a" "x"]).assigned.sources [.name "x"] =
        [[.name "a"]] ∧
      ∃ n, Tree.lookup (relocate true (.ofValue oneAndTwo) [rename "a" "x", rename "b" "x"]).1
          [.name "x"] = some n ∧ n.Bears (.scalar (.int 2)) := by
  have hbody : oneAndTwo.WellFormed := by simp [oneAndTwo, Entries.keys]
  have hfind : (rename "b" "x").path.find
      (reached true (.ofValue oneAndTwo) [rename "a" "x"]).root = [⟨[.name "b"], [], []⟩] := by rfl
  have hapart : (reached true (.ofValue oneAndTwo) [rename "a" "x"]).DestinationsApart
      (rename "b" "x") := by
    intro m hm m' hm' _ _
    rw [hfind, List.mem_singleton] at hm hm'
    exact Or.inl (by rw [hm, hm'])
  refine ⟨hbody, hapart, rfl, ?_⟩
  obtain ⟨v, n, hv, hn, hbears⟩ := relocate_bears (Node.wellFormed_ofValue hbody)
    [rename "a" "x"] (rename "b" "x") hapart (m := ⟨[.name "b"], [], []⟩)
    (hfind ▸ List.mem_singleton_self _) (by decide) (by decide)
  cases hv
  exact ⟨n, hn, hbears⟩

/-- The name `a` is emptied and filled again. -/
def refill : List Relocation :=
  [rename "a" "x", rename "b" "a"]

/-- A second move of the name `a` to the same destination takes its new value out and writes it
nowhere. -/
theorem relocate_refill :
    (reached true (.ofValue oneAndTwo) refill).DestinationsApart (rename "a" "x") ∧
      (rename "a" "x").path.find (relocate true (.ofValue oneAndTwo) refill).1 =
        [⟨[.name "a"], [], []⟩] ∧
      ((rename "a" "x").template.destination ⟨[.name "a"], [], []⟩).1 = [.name "x"] ∧
      Tree.lookup (relocate true (.ofValue oneAndTwo) refill).1 [.name "a"] =
        some (.scalar (.int 2)) ∧
      Tree.lookup (relocate true (.ofValue oneAndTwo) (refill ++ [rename "a" "x"])).1 [.name "x"] =
        some (.scalar (.int 1)) ∧
      ¬ (Node.scalar (.int 1)).Bears (.scalar (.int 2)) := by
  have hfind : (rename "a" "x").path.find (reached true (.ofValue oneAndTwo) refill).root =
      [⟨[.name "a"], [], []⟩] := by rfl
  refine ⟨?_, hfind, by rfl, by rfl, by rfl, ?_⟩
  · intro m hm m' hm' _ _
    rw [hfind, List.mem_singleton] at hm hm'
    exact Or.inl (by rw [hm, hm'])
  · simp [Node.Bears]

end Plan

end PathRules
