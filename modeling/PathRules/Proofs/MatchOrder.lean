import PathRules.Proofs.FoundPlaces

/-!
# What comes after a match

A path without `..` lists what it finds below a child in one stretch, and a recursive step lists
what it finds further down before its own results. So an address that leads to a result below
another one is listed once more after it: if the step could have gone to the lower one from further
up, then it can also stop on the way. The last result at or below a match is therefore the match.
-/

namespace PathRules

namespace Tree.At

variable {t n m : Node} {a b : Address}

/-- In a well-formed tree a place is below another one only if the addresses say so. -/
theorem isPrefix_of_place (ht : t.WellFormed) (ha : Tree.At t a n) (hb : Tree.At t b m)
    (h : a.place <+: b.place) : a <+: b := by
  induction ha generalizing b with
  | root t => exact List.nil_prefix
  | @child t c n k rest hmem _ ih =>
      cases hb with
      | root => exact absurd (List.prefix_nil.mp h) (by simp)
      | @child _ c' _ k' rest' hmem' hrest' =>
          obtain ⟨htext, hbelow⟩ := List.cons_prefix_cons.mp h
          have hsame : (k, c) = (k', c') := List.inj_on_of_nodup_map ht.nodup_texts hmem hmem' htext
          cases hsame
          exact List.cons_prefix_cons.mpr ⟨rfl, ih (ht.of_mem_children hmem) hrest' hbelow⟩

end Tree.At

theorem Node.isContainer_of_mem_children {t c : Node} {k : Key} (h : (k, c) ∈ Tree.children t) :
    Tree.isContainer t := by
  cases t with
  | scalar s => cases h
  | seq items => rfl
  | sparse s => rfl
  | map es => rfl

namespace Path

/-- The addresses that segments without `..` find below a node, in the order of the matches. -/
def routes : List Segment → Node → List Address
  | [], _ => [[]]
  | .parent :: _, _ => []
  | .step key value false :: rest, node =>
      (Tree.children node).flatMap fun (k, c) =>
        if (stepCaptures? key value (Tree.seqLength? node) k c).isSome then
          (routes rest c).map (k :: ·)
        else []
  | .step key value true :: rest, node =>
      (Tree.reach node).flatMap fun (w, n) =>
        ((Tree.children n).flatMap fun (k, c) =>
          if (stepCaptures? key value (Tree.seqLength? n) k c).isSome then
            (routes rest c).map (k :: ·)
          else []).map (w ++ ·)

variable {key : Matcher} {value : Option Matcher} {rest segments : List Segment}
  {root node c : Node} {k : Key} {a b : Address}

theorem routes_recursive (node : Node) :
    routes (.step key value true :: rest) node =
      ((Tree.children node).flatMap fun (k, c) =>
        if Tree.isContainer c then (routes (.step key value true :: rest) c).map (k :: ·)
        else []) ++ routes (.step key value false :: rest) node := by
  simp only [routes]
  rw [Tree.reach_eq, List.flatMap_append, List.flatMap_assoc]
  congr 1
  · apply List.flatMap_congr
    rintro ⟨k, c⟩ -
    by_cases hc : Tree.isContainer c
    · simp [hc, List.flatMap_map, List.map_flatMap, Function.comp_def]
    · simp [hc]
  · simp

theorem map_keys_hits (number : Nat) (node : Node) (found : Match)
    (hrest : ∀ c m, (findFrom root rest number c m).map Match.keys =
      (routes rest c).map (m.keys ++ ·)) :
    ((hits key value node found).flatMap fun (m, c) =>
        findFrom root rest number c m).map Match.keys =
      (routes (.step key value false :: rest) node).map (found.keys ++ ·) := by
  simp only [hits, routes, List.map_flatMap, hrest]
  induction Tree.children node with
  | nil => rfl
  | cons p ps ih =>
      obtain ⟨k, c⟩ := p
      rw [List.flatMap_cons, ← ih]
      cases hs : stepCaptures? key value (Tree.seqLength? node) k c with
      | none => simp [hs]
      | some captures => simp [hs, Match.extend, Function.comp_def]

theorem map_keys_findFrom
    (hp : ∀ segment ∈ segments, ∃ key value recursive, segment = .step key value recursive)
    (number : Nat) (node : Node) (found : Match) :
    (findFrom root segments number node found).map Match.keys =
      (routes segments node).map (found.keys ++ ·) := by
  induction segments generalizing number node found with
  | nil => simp [findFrom, routes]
  | cons segment rest ih =>
      obtain ⟨⟨key, value, recursive, rfl⟩, hrest⟩ := List.forall_mem_cons.mp hp
      have hnext : ∀ c m, (findFrom root rest (number + 1) c m).map Match.keys =
          (routes rest c).map (m.keys ++ ·) := fun c m => ih hrest (number + 1) c m
      cases recursive with
      | false => exact map_keys_hits (number + 1) node found hnext
      | true =>
          simp only [findFrom, List.map_flatMap (l := Tree.reach node)]
          rw [routes, List.map_flatMap]
          apply List.flatMap_congr
          rintro ⟨w, n⟩ -
          rw [map_keys_hits (number + 1) n (found.walk number w) hnext, List.map_map, routes]
          apply List.map_congr_left
          intro a _
          simp [Match.walk]

theorem map_keys_find {path : Path} (hpath : path.ParentFree) (root : Node) :
    (path.find root).map Match.keys = routes path.segments root := by
  rw [find, map_keys_findFrom hpath]
  simp

theorem mem_routes_iff
    (hp : ∀ segment ∈ segments, ∃ key value recursive, segment = .step key value recursive) :
    a ∈ routes segments node ↔ Leads segments node a := by
  have hroutes : (findFrom node segments 0 node {}).map Match.keys = routes segments node := by
    rw [map_keys_findFrom hp]
    simp
  rw [← hroutes, mem_keys_findFrom_iff hp]
  simp

theorem Leads.isContainer {segment : Segment} (h : Leads (segment :: rest) node a) :
    Tree.isContainer node := by
  cases h with
  | step hmem _ _ => exact Node.isContainer_of_mem_children hmem
  | descend hmem _ _ => exact Node.isContainer_of_mem_children hmem

theorem Leads.descend_at {n : Node} {u : Address} (hu : Tree.At node u n)
    (h : Leads (.step key value true :: rest) n a) :
    Leads (.step key value true :: rest) node (u ++ a) := by
  induction hu with
  | root => exact h
  | child hmem _ ih =>
      have hbelow := ih h
      exact Leads.descend hmem hbelow.isContainer hbelow

theorem Leads.exists_way (h : Leads (.step key value true :: rest) node a) :
    ∃ u n b, a = u ++ b ∧ u ≠ [] ∧ Tree.At node u n ∧ Leads rest n b := by
  obtain ⟨w, n, b, hreach, ⟨k, c, b', hmem, -, hrest, rfl⟩, rfl⟩ := leads_recursive_iff.mp h
  exact ⟨w ++ [k], c, b', by simp, by simp,
    (at_of_mem_reach hreach).append (Tree.At.child hmem (Tree.At.root c)), hrest⟩

/-- If segments lead to an address from a node, and from a node on the way to another address that
is on the way too, then they lead to that one from the first node. -/
theorem Leads.of_isPrefix {n : Node} {u : Address} (hnode : node.WellFormed)
    (hu : Tree.At node u n) (hne : u ≠ []) (ha : Leads segments n a) (hb : Leads segments node b)
    (hway : u ++ a <+: b) : Leads segments node (u ++ a) := by
  induction segments generalizing node n u a b with
  | nil =>
      cases hb
      rw [List.prefix_nil, List.append_eq_nil_iff] at hway
      exact absurd hway.1 hne
  | cons segment rest ih =>
      match segment with
      | .parent => cases hb
      | .step key value true => exact ha.descend_at hu
      | .step key value false =>
          obtain ⟨k₀, c₀, b, hmem₀, haccept, hlong, rfl⟩ := leads_step_iff.mp hb
          obtain ⟨k', c', a, hmem', -, hshort, rfl⟩ := leads_step_iff.mp ha
          cases hu with
          | root => exact absurd rfl hne
          | @child _ c _ k u hmem hu =>
              rw [List.cons_append, List.cons_prefix_cons] at hway
              obtain ⟨rfl, hbelow⟩ := hway
              have hsame : (k, c) = (k, c₀) :=
                List.inj_on_of_nodup_map hnode.nodup_texts hmem hmem₀ rfl
              cases hsame
              -- The key that the step takes further down belongs to the way from the child.
              have hlower : Tree.At c₀ (u ++ [k']) c' :=
                hu.append (Tree.At.child hmem' (Tree.At.root _))
              rw [List.append_cons] at hbelow
              have hfound := ih (hnode.of_mem_children hmem) hlower (by simp) hshort hlong hbelow
              rw [← List.append_cons] at hfound
              exact Leads.step hmem haccept hfound

/-- Whenever an element is below an address of a set, that address is the element or comes
later. -/
def Settled (P : Address → Prop) : List Address → Prop
  | [] => True
  | b :: l => (∀ a, P a → a <+: b → a ∈ b :: l) ∧ Settled P l

variable {P Q : Address → Prop} {l l' : List Address}

theorem Settled.mem (h : Settled P l) (hb : b ∈ l) (ha : P a) (hab : a <+: b) : a ∈ l := by
  induction l with
  | nil => cases hb
  | cons b' l ih =>
      rcases List.mem_cons.mp hb with rfl | hb
      · exact h.1 a ha hab
      · exact List.mem_cons_of_mem _ (ih h.2 hb)

theorem Settled.append (h : Settled (fun a => P a ∧ a ∉ l') l) (h' : Settled P l') :
    Settled P (l ++ l') := by
  induction l with
  | nil => exact h'
  | cons b l ih =>
      refine ⟨?_, ih h.2⟩
      intro a ha hab
      apply List.mem_append (s := b :: l) |>.mpr
      by_cases hlater : a ∈ l'
      · exact Or.inr hlater
      · exact Or.inl (h.1 a ⟨ha, hlater⟩ hab)

theorem Settled.mono (h : Settled Q l) (hPQ : ∀ a b, b ∈ l → a <+: b → P a → Q a) :
    Settled P l := by
  induction l with
  | nil => trivial
  | cons b l ih =>
      exact ⟨fun a ha hab => h.1 a (hPQ a b List.mem_cons_self hab ha) hab,
        ih h.2 fun a b hb => hPQ a b (List.mem_cons_of_mem _ hb)⟩

theorem Settled.map_cons (hnil : ¬ P []) (h : Settled (fun a => P (k :: a)) l) :
    Settled P (l.map (k :: ·)) := by
  induction l with
  | nil => trivial
  | cons b l ih =>
      refine ⟨?_, ih h.2⟩
      intro a ha hab
      cases a with
      | nil => exact absurd ha hnil
      | cons k' a =>
          obtain ⟨rfl, hbelow⟩ := List.cons_prefix_cons.mp hab
          exact List.mem_map_of_mem (f := (k' :: ·)) (h.1 a ha hbelow)

theorem Settled.flatMap {α : Type} {xs : List α} {f : α → List Address}
    (h : ∀ x ∈ xs, Settled P (f x)) : Settled P (xs.flatMap f) := by
  induction xs with
  | nil => trivial
  | cons x xs ih =>
      obtain ⟨hx, hxs⟩ := List.forall_mem_cons.mp h
      exact Settled.append (hx.mono fun _ _ _ _ ha => ha.1) (ih hxs)

theorem not_leads_nil {segment : Segment} : ¬ Leads (segment :: rest) node [] := by
  intro h
  cases h

/-- The way that segments lead to a child's address goes through the child. -/
theorem leadsOn_cons_iff (hnode : node.WellFormed) (hmem : (k, c) ∈ Tree.children node) :
    LeadsOn key value rest node (k :: a) ↔
      (stepCaptures? key value (Tree.seqLength? node) k c).isSome ∧ Leads rest c a := by
  constructor
  · rintro ⟨k', c', b, hmem', haccept, hrest, heq⟩
    cases heq
    have hsame : (k, c) = (k, c') := List.inj_on_of_nodup_map hnode.nodup_texts hmem hmem' rfl
    cases hsame
    exact ⟨haccept, hrest⟩
  · rintro ⟨haccept, hrest⟩
    exact ⟨k, c, a, hmem, haccept, hrest, rfl⟩

theorem leads_recursive_cons_iff (hnode : node.WellFormed) (hmem : (k, c) ∈ Tree.children node) :
    Leads (.step key value true :: rest) node (k :: a) ↔
      LeadsOn key value rest node (k :: a) ∨ Leads (.step key value true :: rest) c a := by
  constructor
  · intro h
    cases h with
    | step hmem' haccept hrest => exact Or.inl ⟨_, _, _, hmem', haccept, hrest, rfl⟩
    | @descend _ _ _ _ c' _ _ hmem' _ hrest =>
        have hsame : (k, c) = (k, c') := List.inj_on_of_nodup_map hnode.nodup_texts hmem hmem' rfl
        cases hsame
        exact Or.inr hrest
  · rintro (⟨k', c', b, hmem', haccept, hrest, heq⟩ | h)
    · rw [heq]
      exact Leads.step hmem' haccept hrest
    · exact Leads.descend hmem h.isContainer h

theorem settled_routes_step (hnil : ¬ P [])
    (h : ∀ k c, (k, c) ∈ Tree.children node →
      (stepCaptures? key value (Tree.seqLength? node) k c).isSome →
      Settled (fun a => P (k :: a)) (routes rest c)) :
    Settled P (routes (.step key value false :: rest) node) := by
  rw [routes]
  apply Settled.flatMap
  rintro ⟨k, c⟩ hmem
  by_cases haccept : (stepCaptures? key value (Tree.seqLength? node) k c).isSome
  · simp only [haccept, if_true]
    exact Settled.map_cons hnil (h k c hmem haccept)
  · simp only [haccept]
    trivial

/-- A result of a recursive step from further down is among the own results too if one of these is
below it, and otherwise it is settled further down. -/
theorem settled_routes_recursive
    (hp : ∀ segment ∈ rest, ∃ key value recursive, segment = .step key value recursive)
    (hrest : ∀ c : Node, c.WellFormed → Settled (Leads rest c) (routes rest c))
    (hnode : node.WellFormed) :
    Settled (Leads (.step key value true :: rest) node)
      (routes (.step key value true :: rest) node) := by
  induction node using Tree.induction with
  | step node ih =>
      rw [routes_recursive]
      apply Settled.append
      · apply Settled.flatMap
        rintro ⟨k, c⟩ hmem
        by_cases hcont : Tree.isContainer c
        · simp only [hcont, if_true]
          apply Settled.map_cons (fun h => not_leads_nil h.1)
          refine (ih k c hmem (hnode.of_mem_children hmem)).mono ?_
          rintro a b - - ⟨hleads, hown⟩
          refine ((leads_recursive_cons_iff hnode hmem).mp hleads).resolve_left fun hon => hown ?_
          have hstep : ∀ segment ∈ Segment.step key value false :: rest,
              ∃ key value recursive, segment = .step key value recursive :=
            List.forall_mem_cons.mpr ⟨⟨key, value, false, rfl⟩, hp⟩
          exact (mem_routes_iff hstep).mpr (leads_step_iff.mpr hon)
        · simp only [hcont]
          trivial
      · apply settled_routes_step not_leads_nil
        intro k c hmem haccept
        have hwf := hnode.of_mem_children hmem
        refine (hrest c hwf).mono ?_
        intro a b hb hab hleads
        rcases (leads_recursive_cons_iff hnode hmem).mp hleads with hon | hdeep
        · exact ((leadsOn_cons_iff hnode hmem).mp hon).2
        · obtain ⟨u, n, a', rfl, hne, hu, ha'⟩ := hdeep.exists_way
          exact Leads.of_isPrefix hwf hu hne ha' ((mem_routes_iff hp).mp hb) hab

theorem settled_routes
    (hp : ∀ segment ∈ segments, ∃ key value recursive, segment = .step key value recursive)
    (hnode : node.WellFormed) : Settled (Leads segments node) (routes segments node) := by
  induction segments generalizing node with
  | nil =>
      refine ⟨fun a _ ha => ?_, trivial⟩
      rw [List.prefix_nil.mp ha]
      exact List.mem_singleton_self _
  | cons segment rest ih =>
      obtain ⟨⟨key, value, recursive, rfl⟩, hrest⟩ := List.forall_mem_cons.mp hp
      cases recursive with
      | true => exact settled_routes_recursive hrest (fun c hc => ih hrest hc) hnode
      | false =>
          apply settled_routes_step not_leads_nil
          intro k c hmem _
          refine (ih hrest (hnode.of_mem_children hmem)).mono ?_
          intro a b _ _ hleads
          exact ((leadsOn_cons_iff hnode hmem).mp (leads_step_iff.mp hleads)).2

end Path

end PathRules
