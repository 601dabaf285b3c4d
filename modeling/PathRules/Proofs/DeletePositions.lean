import PathRules.Proofs.SelectRestriction
import PathRules.Proofs.TreeRemoval

/-!
# Deletes address the positions of the body

A part of the body shows the shapes of the body, spans included, at the places that it still has.
So a path without `..` leads through the part to the places to which it leads through the body, as
far as the part has them. Whatever the select pass and earlier deletes have left, a delete removes
the matches of its path in the body, and a part stays a part. Removals depend only on the set of
places, and with them the whole pass.
-/

namespace PathRules

namespace Node

variable {K : Place → Prop} {src t : Node}

theorem Part.mem_children {k : Key} {c' : Node} (h : Part K src t) (hsrc : src.WellFormed)
    (ht : t.WellFormed) (hmem : (k, c') ∈ t.children) :
    ∃ c, (k, c) ∈ src.children ∧ Part (fun p => K (k.text :: p)) c c' := by
  obtain ⟨hlists, hget⟩ := (mem_children_iff ht).mp hmem
  obtain ⟨c, hc, hpart⟩ := h.child hget
  rw [h.shape_eq] at hlists
  exact ⟨c, (mem_children_iff hsrc).mpr ⟨hlists, hc⟩, hpart⟩

theorem Part.mem_children_of_get? {k : Key} {c c' : Node} (h : Part K src t)
    (hsrc : src.WellFormed) (ht : t.WellFormed) (hmem : (k, c) ∈ src.children)
    (hget : t.entries.get? k.text = some c') :
    (k, c') ∈ t.children ∧ Part (fun p => K (k.text :: p)) c c' := by
  obtain ⟨hlists, hc⟩ := (mem_children_iff hsrc).mp hmem
  obtain ⟨c₀, hc₀, hpart⟩ := h.child hget
  rw [hc] at hc₀
  cases hc₀
  rw [← h.shape_eq] at hlists
  exact ⟨(mem_children_iff ht).mpr ⟨hlists, hget⟩, hpart⟩

theorem exists_of_isSome_seek {s : String} {p : Place} (h : (t.seek (s :: p)).isSome) :
    ∃ c, t.entries.get? s = some c ∧ (c.seek p).isSome := by
  obtain ⟨n, hn⟩ := Option.isSome_iff_exists.mp h
  obtain ⟨c, hc, hbelow⟩ := Option.bind_eq_some_iff.mp hn
  exact ⟨c, hc, by rw [hbelow]; rfl⟩

theorem Part.readsAlong {a : Address} {n : Node} (h : Part K src t) (hsrc : src.WellFormed)
    (ha : Tree.At src a n) : t.ReadsAlong a := by
  induction ha generalizing K t with
  | root => trivial
  | @child src c n k rest hmem _ ih =>
      obtain ⟨hlists, hget⟩ := (mem_children_iff hsrc).mp hmem
      refine ⟨(Reads.of_lists hlists).congr h.shape_eq, ?_⟩
      intro c' hc'
      obtain ⟨c₀, hc₀, hpart⟩ := h.child hc'
      rw [hget] at hc₀
      cases hc₀
      exact ih hpart (hsrc.of_mem_children hmem)

theorem Part.foldl_remove {as : List Address} (h : Part K src t) (ht : t.WellFormed)
    (has : ∀ a ∈ as, t.ReadsAlong a) :
    Part (fun p => K p ∧ ∀ a ∈ as, a ≠ [] → ¬ a.place <+: p) src (as.foldl Node.remove t) := by
  intro p x
  rw [view_foldl_remove ht has, h p x, and_right_comm]

end Node

namespace Path

variable {K : Place → Prop} {src t : Node}

/-- Whether a step accepts a child depends on the shape of the child alone. -/
theorem isSome_stepCaptures?_congr {c c' : Node} (hshape : c'.shape = c.shape) (key : Matcher)
    (value : Option Matcher) (length : Option Nat) (k : Key) :
    (stepCaptures? key value length k c').isSome = (stepCaptures? key value length k c).isSome := by
  have hvalue : ∀ m : Matcher, (m.matchValue? c').isSome = (m.matchValue? c).isSome := by
    intro m
    have hcont : Tree.isContainer c' = Tree.isContainer c :=
      Node.isContainer_eq_of_shape_eq hshape
    cases hc : Tree.isContainer c with
    | true => cases m <;> simp [Matcher.matchValue?, hcont, hc]
    | false =>
        cases c with
        | scalar s =>
            cases c' <;> cases hshape
            rfl
        | seq items => cases hc
        | sparse s => cases hc
        | map es => cases hc
  cases value with
  | none => simp [stepCaptures?]
  | some m =>
      cases hk : key.matchKey? k length with
      | none => simp [stepCaptures?, hk]
      | some captures =>
          have hm := hvalue m
          cases hv : m.matchValue? c <;> cases hv' : m.matchValue? c' <;>
            simp_all [stepCaptures?]

theorem leads_of_part {segments : List Segment} {a : Address} (h : src.Part K t)
    (hsrc : src.WellFormed) (ht : t.WellFormed) (ha : Leads segments t a) :
    Leads segments src a := by
  induction ha generalizing K src with
  | done => exact Leads.done src
  | @step key value recursive rest t c' k a hmem haccept _ ih =>
      obtain ⟨c, hc, hpart⟩ := h.mem_children hsrc ht hmem
      have hlen : Tree.seqLength? t = Tree.seqLength? src :=
        Node.seqLength?_eq_of_shape_eq h.shape_eq
      rw [isSome_stepCaptures?_congr hpart.shape_eq, hlen] at haccept
      exact Leads.step hc haccept (ih hpart (hsrc.of_mem_children hc) (ht.of_mem_children hmem))
  | @descend key value rest t c' k a hmem hcont _ ih =>
      obtain ⟨c, hc, hpart⟩ := h.mem_children hsrc ht hmem
      have hsame : Tree.isContainer c' = Tree.isContainer c :=
        Node.isContainer_eq_of_shape_eq hpart.shape_eq
      rw [hsame] at hcont
      exact Leads.descend hc hcont (ih hpart (hsrc.of_mem_children hc) (ht.of_mem_children hmem))

theorem leads_part {segments : List Segment} {a : Address} (h : src.Part K t)
    (hsrc : src.WellFormed) (ht : t.WellFormed) (ha : Leads segments src a)
    (hplace : (t.seek a.place).isSome) : Leads segments t a := by
  -- The part has the place, hence every child on the way to it.
  induction ha generalizing K t with
  | done => exact Leads.done t
  | @step key value recursive rest src c k a hmem haccept _ ih =>
      obtain ⟨c', hget, hbelow⟩ := Node.exists_of_isSome_seek hplace
      obtain ⟨hmem', hpart⟩ := h.mem_children_of_get? hsrc ht hmem hget
      have hlen : Tree.seqLength? t = Tree.seqLength? src :=
        Node.seqLength?_eq_of_shape_eq h.shape_eq
      rw [← isSome_stepCaptures?_congr hpart.shape_eq, ← hlen] at haccept
      exact Leads.step hmem' haccept
        (ih hpart (hsrc.of_mem_children hmem) (ht.of_mem_children hmem') hbelow)
  | @descend key value rest src c k a hmem hcont _ ih =>
      obtain ⟨c', hget, hbelow⟩ := Node.exists_of_isSome_seek hplace
      obtain ⟨hmem', hpart⟩ := h.mem_children_of_get? hsrc ht hmem hget
      have hsame : Tree.isContainer c' = Tree.isContainer c :=
        Node.isContainer_eq_of_shape_eq hpart.shape_eq
      rw [← hsame] at hcont
      exact Leads.descend hmem' hcont
        (ih hpart (hsrc.of_mem_children hmem) (ht.of_mem_children hmem') hbelow)

end Path

namespace Plan

variable {K : Place → Prop} {src t : Node} {qs : List Path}

/-- The addresses at which the paths match. -/
def matched {α : Type} [Tree α] (paths : List Path) (root : α) : List Address :=
  paths.flatMap fun path => (path.find root).map Match.keys

theorem matched_cons {α : Type} [Tree α] (q : Path) (qs : List Path) (root : α) :
    matched (q :: qs) root = (q.find root).map Match.keys ++ matched qs root := rfl

theorem matched_ofValue (paths : List Path) (body : Value) :
    matched paths (Node.ofValue body) = matched paths body := by
  simp only [matched, Path.find_ofValue]

theorem mem_matched {α : Type} [Tree α] {paths : List Path} {root : α} {a : Address} :
    a ∈ matched paths root ↔ ∃ q ∈ paths, a ∈ (q.find root).map Match.keys :=
  List.mem_flatMap

theorem readsAlong_of_mem_find {q : Path} (h : src.Part K t) (hsrc : src.WellFormed) :
    ∀ a ∈ (q.find src).map Match.keys, t.ReadsAlong a := by
  intro a ha
  obtain ⟨m, hm, rfl⟩ := List.mem_map.mp ha
  obtain ⟨n, hn⟩ := Path.at_of_mem_find hsrc hm
  exact h.readsAlong hsrc hn

theorem readsAlong_of_mem_matched (h : src.Part K t) (hsrc : src.WellFormed) (qs : List Path) :
    ∀ a ∈ matched qs src, t.ReadsAlong a := by
  intro a ha
  obtain ⟨q, -, ha⟩ := mem_matched.mp ha
  exact readsAlong_of_mem_find h hsrc a ha

/-- Deleting a path from a part of a tree removes the matches of the path in the whole tree. -/
theorem deletePath_part {q : Path} (h : src.Part K t) (hsrc : src.WellFormed) (ht : t.WellFormed)
    (hq : q.ParentFree) :
    deletePath t q = ((q.find src).map Match.keys).foldl Node.remove t := by
  have hfold : deletePath t q = ((q.find t).map Match.keys).foldl Node.remove t := by
    rw [List.foldl_map, deletePath]
  rw [hfold]
  apply Node.foldl_remove_congr ht (readsAlong_of_mem_find Node.part_self ht)
    (readsAlong_of_mem_find h hsrc)
  intro p _ hp
  simp only [List.mem_map (f := Address.place), Path.mem_keys_find_iff hq]
  constructor
  · rintro ⟨a, ha, rfl⟩
    exact ⟨a, Path.leads_of_part h hsrc ht ha, rfl⟩
  · rintro ⟨a, ha, rfl⟩
    exact ⟨a, Path.leads_part h hsrc ht ha hp, rfl⟩

theorem runDelete_part (h : src.Part K t) (hsrc : src.WellFormed) (ht : t.WellFormed)
    (hqs : ∀ q ∈ qs, q.ParentFree) :
    runDelete t qs = (matched qs src).foldl Node.remove t := by
  -- Every delete leaves a part again, with fewer places.
  induction qs generalizing K t with
  | nil => rfl
  | cons q qs ih =>
      have hq := hqs q List.mem_cons_self
      have hrest : ∀ q ∈ qs, q.ParentFree := fun q hq => hqs q (List.mem_cons_of_mem _ hq)
      have hreads := readsAlong_of_mem_find (q := q) h hsrc
      have hstep := deletePath_part h hsrc ht hq
      rw [matched_cons, List.foldl_append, ← hstep]
      refine ih (K := fun p => K p ∧ ∀ a ∈ (q.find src).map Match.keys, a ≠ [] →
        ¬ a.place <+: p) ?_ ?_ hrest
      · rw [hstep]
        exact h.foldl_remove ht hreads
      · rw [hstep]
        exact ht.foldl_remove hreads

theorem part_selected {body : Value} (hbody : body.WellFormed) (p : Plan) :
    ∃ K, (Node.ofValue body).Part K (p.selected (.ofValue body)) ∧
      (p.selected (.ofValue body)).WellFormed := by
  have hsrc := Node.wellFormed_ofValue hbody
  rw [selected]
  split
  · exact ⟨_, Node.part_self, hsrc⟩
  · exact ⟨_, part_runSelect hsrc p.select⟩

/-- Removing the same set of addresses leaves the same tree, whatever the order. -/
theorem runDelete_eq_foldl_remove {as : List Address} (h : src.Part K t) (hsrc : src.WellFormed)
    (ht : t.WellFormed) (hqs : ∀ q ∈ qs, q.ParentFree) (has : ∀ a, a ∈ as ↔ a ∈ matched qs src) :
    runDelete t qs = as.foldl Node.remove t := by
  have hreads := readsAlong_of_mem_matched h hsrc qs
  rw [runDelete_part h hsrc ht hqs]
  apply Node.foldl_remove_congr ht hreads fun a ha => hreads a ((has a).mp ha)
  intro p _ _
  simp only [List.mem_map, has]

/-- The delete pass removes the matches in the body, wherever the select pass has left them. The
outcome of the plan depends only on the set of paths to delete. -/
theorem runDelete_selected {body : Value} (hbody : body.WellFormed) (p : Plan)
    (hp : ∀ q ∈ p.delete, q.ParentFree) :
    (∀ as : List Address, (∀ a, a ∈ as ↔ a ∈ matched p.delete body) →
      runDelete (p.selected (.ofValue body)) p.delete =
        as.foldl Node.remove (p.selected (.ofValue body))) ∧
    (∀ place shape, (runDelete (p.selected (.ofValue body)) p.delete).view place = some shape ↔
      (p.selected (.ofValue body)).view place = some shape ∧
        ∀ a ∈ matched p.delete body, a ≠ [] → ¬ a.place <+: place) ∧
    ∀ deletes, (∀ q, q ∈ deletes ↔ q ∈ p.delete) → ∀ keepIndices,
      Plan.execute { p with delete := deletes } body keepIndices =
        Plan.execute p body keepIndices := by
  obtain ⟨K, hpart, hwf⟩ := part_selected hbody p
  have hsrc := Node.wellFormed_ofValue hbody
  refine ⟨?_, ?_, ?_⟩
  · intro as has
    apply runDelete_eq_foldl_remove hpart hsrc hwf hp
    rwa [matched_ofValue]
  · intro place shape
    have hreads := readsAlong_of_mem_matched hpart hsrc p.delete
    rw [runDelete_part hpart hsrc hwf hp, Node.view_foldl_remove hwf hreads, matched_ofValue]
  · intro deletes hsame keepIndices
    have hdeletes : ∀ q ∈ deletes, q.ParentFree := fun q hq => hp q ((hsame q).mp hq)
    have hrun : runDelete (p.selected (.ofValue body)) deletes =
        runDelete (p.selected (.ofValue body)) p.delete := by
      rw [runDelete_part hpart hsrc hwf hdeletes]
      symm
      apply runDelete_eq_foldl_remove hpart hsrc hwf hp
      intro a
      simp only [mem_matched, hsame]
    have hselected : Plan.selected { p with delete := deletes } (.ofValue body) =
        p.selected (.ofValue body) := rfl
    simp only [execute, runOn, hselected, hrun]

/-- Four numbers, of which the first is not selected. -/
def fourNumbers : Value :=
  .map [("items", .seq [.scalar (.int 1), .scalar (.int 2), .scalar (.int 3), .scalar (.int 4)])]

def rangeOfItems (start stop : Int64) : Path :=
  ⟨"items", [.step (.literal "items") none false, .step (.range start stop true) none false], {}⟩

/-- The last position and the second, each counted in the body. -/
def lastAndSecond : Plan :=
  { select := [rangeOfItems 1 3], delete := [rangeOfItems (-1) (-1), rangeOfItems 1 1] }

theorem runDelete_selected_lastAndSecond :
    fourNumbers.WellFormed ∧ (∀ q ∈ lastAndSecond.delete, q.ParentFree) ∧
      Plan.execute lastAndSecond fourNumbers true =
        .ok ⟨.map [("items", .map [("2", .scalar (.int 3))])], []⟩ ∧
      Plan.execute { lastAndSecond with delete := lastAndSecond.delete.reverse } fourNumbers true =
        Plan.execute lastAndSecond fourNumbers true := by
  have hbody : fourNumbers.WellFormed := by simp [fourNumbers, Entries.keys]
  have hfree : ∀ q ∈ lastAndSecond.delete, q.ParentFree := by
    simp [lastAndSecond, rangeOfItems, Path.ParentFree]
  obtain ⟨-, -, horder⟩ := runDelete_selected hbody lastAndSecond hfree
  exact ⟨hbody, hfree, rfl, horder _ (fun q => List.mem_reverse) true⟩

end Plan

end PathRules
