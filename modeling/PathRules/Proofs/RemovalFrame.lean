import PathRules.Proofs.DeleteRepetition
import PathRules.Proofs.LeafConservation

/-!
# One location and nothing else

A removal takes out what the address leads to. The nodes that are neither above nor below the
address stay as they are, those above it keep their kind and their length, and no address is new.
An address that leads nowhere leaves nothing behind, not even a sequence that was opened on the way.
Two removals commute whatever the addresses are, also if they spell their keys in another way than
the tree does: in a part of a tree an address leads to where the listed one leads.
-/

namespace PathRules

/-- The two keys address the same child in a node of this shape. -/
def Shape.Alike : Shape → Key → Key → Prop
  | .scalar _, _, _ => True
  | .seq _, k, k' => k.asIndex? = k'.asIndex?
  | .map, k, k' => k.text = k'.text

/-- Listed keys with the same text are the same key. -/
theorem Shape.Lists.eq_of_text_eq {shape : Shape} {k k' : Key} (hk : shape.Lists k)
    (hk' : shape.Lists k') (h : k.text = k'.text) : k = k' := by
  cases shape <;> cases k <;> cases k' <;> simp_all [Lists]

/-- Below the same node an address is under another one if its place is. -/
theorem Tree.At.prefix_iff {t n n' : Node} {a b : Address} (ht : t.WellFormed)
    (ha : Tree.At t a n) (hb : Tree.At t b n') : a.place <+: b.place ↔ a <+: b := by
  induction ha generalizing b with
  | root => simp
  | @child t c n k rest hmem _ ih =>
      cases hb with
      | root => simp
      | @child _ c' _ k' rest' hmem' hrest' =>
          obtain ⟨hk, hc⟩ := (Node.mem_children_iff ht).mp hmem
          obtain ⟨hk', hc'⟩ := (Node.mem_children_iff ht).mp hmem'
          simp only [Address.place_cons, List.cons_prefix_cons]
          constructor
          · rintro ⟨htext, hplace⟩
            cases hk.eq_of_text_eq hk' htext
            cases hc.symm.trans hc'
            exact ⟨rfl, (ih (ht.get? hc) hrest').mp hplace⟩
          · rintro ⟨rfl, hrest⟩
            cases hc.symm.trans hc'
            exact ⟨rfl, (ih (ht.get? hc) hrest').mpr hrest⟩

namespace Node

variable {K : Place → Prop} {t u c n v : Node} {k k' : Key} {a b rest : Address}

section Spelling

theorem child?_congr (h : t.shape.Alike k k') : t.child? k = t.child? k' := by
  cases t with
  | scalar s => rfl
  | seq items => rw [child?, child?, show k.asIndex? = k'.asIndex? from h]
  | sparse s => rw [child?, child?, show k.asIndex? = k'.asIndex? from h]
  | map es => rw [child?, child?, show k.text = k'.text from h]

theorem removeChild?_congr (h : t.shape.Alike k k') : t.removeChild? k = t.removeChild? k' := by
  have hchild := child?_congr h
  cases t with
  | scalar s => simp [removeChild?, hchild]
  | seq items => simp only [removeChild?, hchild, show k.asIndex? = k'.asIndex? from h]
  | sparse s => simp only [removeChild?, hchild, show k.asIndex? = k'.asIndex? from h]
  | map es => simp only [removeChild?, hchild, show k.text = k'.text from h]

theorem replace_congr (h : t.shape.Alike k k') (c : Node) : t.replace k c = t.replace k' c := by
  cases t with
  | scalar s => cases hk : k.asIndex? <;> cases hk' : k'.asIndex? <;> simp [replace]
  | seq items => cases hk : k'.asIndex? <;> simp [replace, show k.asIndex? = _ from h, hk]
  | sparse s => cases hk : k'.asIndex? <;> simp [replace, show k.asIndex? = _ from h, hk]
  | map es => simp only [replace, show k.text = k'.text from h]

/-- A child that a key leads to is listed under a key that leads there too. -/
theorem exists_listed (ht : t.WellFormed) (hc : t.child? k = some c) :
    ∃ k', (k', c) ∈ t.children ∧ t.shape.Alike k k' := by
  cases t with
  | scalar s => cases hc
  | seq items =>
      obtain ⟨i, hi, hget⟩ := Option.bind_eq_some_iff.mp hc
      have hlead : (seq items).entries.get? (Key.index i).text = some c :=
        (Reads.child?_eq (Or.inr ⟨i, rfl, rfl⟩)).symm.trans hget
      exact ⟨.index i, (mem_children_iff ht).mpr ⟨trivial, hlead⟩, hi⟩
  | sparse s =>
      obtain ⟨i, hi, hget⟩ := Option.bind_eq_some_iff.mp hc
      have hlead : (sparse s).entries.get? (Key.index i).text = some c :=
        (Reads.child?_eq (Or.inr ⟨i, rfl, rfl⟩)).symm.trans hget
      exact ⟨.index i, (mem_children_iff ht).mpr ⟨trivial, hlead⟩, hi⟩
  | map es => exact ⟨.name k.text, (mem_children_iff ht).mpr ⟨trivial, hc⟩, rfl⟩

theorem Part.child? (h : Part K t u) (ht : t.WellFormed) (hu : u.WellFormed)
    (hc : u.child? k = some c) :
    ∃ c₀ s, t.child? k = some c₀ ∧ Part (fun p => K (s :: p)) c₀ c ∧ c.WellFormed := by
  obtain ⟨k', hmem, halike⟩ := exists_listed hu hc
  obtain ⟨c₀, hc₀, hpart⟩ := h.mem_children ht hu hmem
  rw [h.shape_eq] at halike
  exact ⟨c₀, k'.text, (child?_congr halike).trans (child?_of_mem_children ht hc₀), hpart,
    hu.of_mem_children hmem⟩

end Spelling

theorem remove?_below (t : Node) (k : Key) (hrest : rest ≠ []) :
    t.remove? (k :: rest) =
      (t.child? k).bind fun c => (c.remove? rest).map fun r => (r.1, t.replace k r.2) := by
  cases rest with
  | nil => exact absurd rfl hrest
  | cons k' rest =>
      cases hc : t.child? k with
      | none => simp [remove?, hc]
      | some c => cases hr : c.remove? (k' :: rest) <;> simp [remove?, hc, hr]

/-- There is something to take out exactly where an address below the root leads. -/
theorem exists_remove?_iff (t : Node) (a : Address) (v : Node) :
    (∃ u, t.remove? a = some (v, u)) ↔ a ≠ [] ∧ Tree.lookup t a = some v := by
  induction a generalizing t with
  | nil => simp [remove?]
  | cons k rest ih =>
      have hlook : Tree.lookup t (k :: rest) = (t.child? k).bind (Tree.lookup · rest) := rfl
      rw [hlook]
      by_cases hrest : rest = []
      · subst hrest
        cases hc : t.child? k with
        | none => simp [remove?, removeChild?, hc]
        | some c =>
            -- A child of a sequence has a position, so nothing else can fail.
            cases t with
            | scalar s => cases hc
            | seq items =>
                obtain ⟨i, hi, -⟩ := Option.bind_eq_some_iff.mp hc
                simp [remove?, removeChild?, hc, hi]
            | sparse s =>
                obtain ⟨i, hi, -⟩ := Option.bind_eq_some_iff.mp hc
                simp [remove?, removeChild?, hc, hi]
            | map es => simp [remove?, removeChild?, hc]
      · rw [remove?_below t k hrest]
        cases hc : t.child? k with
        | none => simp
        | some c =>
            have hbelow := ih c
            simp only [ne_eq, hrest, not_false_eq_true, true_and] at hbelow
            simp [← hbelow, Prod.ext_iff]

theorem remove_of_remove?_eq_none (h : t.remove? a = none) : t.remove a = t := by
  rw [remove, h]

theorem remove_of_lookup_eq_none (h : Tree.lookup t a = none) : t.remove a = t := by
  apply remove_of_remove?_eq_none
  cases hr : t.remove? a with
  | none => rfl
  | some r =>
      obtain ⟨-, hlook⟩ := (exists_remove?_iff t a r.1).mp ⟨r.2, hr⟩
      rw [h] at hlook
      cases hlook

section Frame

theorem Part.lookup_eq_none (h : Part K t u) (ht : t.WellFormed) (hu : u.WellFormed)
    (ha : Tree.lookup t a = none) : Tree.lookup u a = none := by
  induction a generalizing K t u with
  | nil => cases ha
  | cons k rest ih =>
      rw [Tree.lookup_cons]
      cases hc : Tree.child? u k with
      | none => rfl
      | some c =>
          obtain ⟨c₀, s, hc₀, hpart, hwf⟩ := h.child? ht hu hc
          have hrest : Tree.lookup c₀ rest = none := by
            rw [Tree.lookup_cons, show Tree.child? t k = some c₀ from hc₀] at ha
            exact ha
          obtain ⟨k', hmem, halike⟩ := exists_listed ht hc₀
          exact ih hpart (ht.of_mem_children hmem) hwf hrest

theorem ReadsAlong.lookup_eq (h : t.ReadsAlong a) : Tree.lookup t a = t.seek a.place := by
  induction a generalizing t with
  | nil => rfl
  | cons k rest ih =>
      obtain ⟨hk, hbelow⟩ := h
      have hchild : Tree.child? t k = t.entries.get? k.text := hk.child?_eq
      rw [Tree.lookup_cons, hchild, Address.place_cons, seek_cons]
      exact Option.bind_congr fun c hc => ih (hbelow c hc)

/-- A part has the listed addresses of the tree at the places that it kept. -/
theorem Part.at_of_seek (h : Part K t u) (ht : t.WellFormed) (hu : u.WellFormed)
    (hb : Tree.At t b n) (hseek : u.seek b.place = some v) : Tree.At u b v := by
  induction hb generalizing K u with
  | root =>
      cases hseek
      exact Tree.At.root _
  | child hmem _ ih =>
      obtain ⟨c', hget, hbelow⟩ := Option.bind_eq_some_iff.mp hseek
      obtain ⟨hmem', hpart⟩ := h.mem_children_of_get? ht hu hmem hget
      exact Tree.At.child hmem'
        (ih hpart (ht.of_mem_children hmem) (hu.of_mem_children hmem') hbelow)

/-- The second tree is the first without the node at an address, and with everything else. -/
structure Without (t : Node) (a : Address) (u : Node) : Prop where
  gone : Tree.lookup u a = none
  at_iff : ∀ b, (∃ n, Tree.At u b n) ↔ (∃ n, Tree.At t b n) ∧ ¬ a <+: b
  apart : ∀ b n, Tree.At t b n → ¬ a <+: b → ¬ b <+: a → Tree.lookup u b = some n
  above : ∀ b n, Tree.At t b n → b <+: a → b ≠ a → ∃ n', Tree.lookup u b = some n' ∧
    n'.isContainer = n.isContainer ∧ n'.seqLength? = n.seqLength?

theorem part_remove (ht : t.WellFormed) (ha : t.ReadsAlong a) :
    Part (fun p => a ≠ [] → ¬ a.place <+: p) t (t.remove a) := by
  intro p x
  rw [view_remove ht ha, and_comm]

/-- A listed address that is not at or below the removed one is still there, and its node shows the
same on its own. -/
theorem exists_at_remove (ht : t.WellFormed) (ha : Tree.At t a v) (hb : Tree.At t b n)
    (hab : ¬ a <+: b) : ∃ n', Tree.At (t.remove a) b n' ∧ n'.shape = n.shape := by
  have hreads := (Holds.of_at ht ha).readsAlong
  have hview : (t.remove a).view b.place = some n.shape := by
    rw [view_remove ht hreads, view, hb.seek_eq ht]
    exact ⟨rfl, fun _ hplace => hab ((ha.prefix_iff ht hb).mp hplace)⟩
  obtain ⟨n', hn', hshape⟩ := Option.map_eq_some_iff.mp hview
  exact ⟨n', (part_remove ht hreads).at_of_seek ht (ht.remove hreads) hb hn', hshape⟩

theorem exists_at_of_at_remove (ht : t.WellFormed) (ha : Tree.At t a v) (hne : a ≠ [])
    (hb : Tree.At (t.remove a) b n) : ∃ n', Tree.At t b n' ∧ ¬ a <+: b := by
  have hreads := (Holds.of_at ht ha).readsAlong
  have hwf := ht.remove hreads
  obtain ⟨-, n', hn', -⟩ := (part_remove ht hreads).exists_at ht hwf hb
  refine ⟨n', hn', fun hab => ?_⟩
  have hview : (t.remove a).view b.place = some n.shape := by
    rw [view, hb.seek_eq hwf]
    rfl
  exact ((view_remove ht hreads _ _).mp hview).2 hne ((ha.prefix_iff ht hn').mpr hab)

theorem lookup_remove_self (ht : t.WellFormed) (ha : t.ReadsAlong a) (hne : a ≠ []) :
    Tree.lookup (t.remove a) a = none := by
  rw [(ha.remove ht ha).lookup_eq]
  cases hseek : (t.remove a).seek a.place with
  | none => rfl
  | some n =>
      have hview : (t.remove a).view a.place = some n.shape := by
        rw [view, hseek]
        rfl
      exact absurd List.prefix_rfl (((view_remove ht ha _ _).mp hview).2 hne)

theorem without_remove (ht : t.WellFormed) (ha : Tree.At t a v) (hne : a ≠ []) :
    t.Without a (t.remove a) := by
  have hreads := (Holds.of_at ht ha).readsAlong
  have hwf := ht.remove hreads
  refine ⟨lookup_remove_self ht hreads hne, ?_, ?_, ?_⟩
  · intro b
    constructor
    · rintro ⟨n', hb⟩
      obtain ⟨n, hn, hab⟩ := exists_at_of_at_remove ht ha hne hb
      exact ⟨⟨n, hn⟩, hab⟩
    · rintro ⟨⟨n, hb⟩, hab⟩
      obtain ⟨n', hn', -⟩ := exists_at_remove ht ha hb hab
      exact ⟨n', hn'⟩
  · intro b n hb hab hba
    have hapart : ¬ Place.Touches a.place b.place := by
      rintro (h | h)
      · exact hab ((ha.prefix_iff ht hb).mp h)
      · exact hba ((hb.prefix_iff ht ha).mp h)
    have hseek := (seek_remove_of_not_touches ht hreads hapart).trans (hb.seek_eq ht)
    exact ((part_remove ht hreads).at_of_seek ht hwf hb hseek).lookup_eq hwf
  · intro b n hb hba hne
    have hab : ¬ a <+: b := fun h => hne (hba.eq_of_length_le h.length_le)
    obtain ⟨n', hn', hshape⟩ := exists_at_remove ht ha hb hab
    exact ⟨n', hn'.lookup_eq hwf, isContainer_eq_of_shape_eq hshape,
      seqLength?_eq_of_shape_eq hshape⟩

end Frame

section Commutation

/-- An address that leads somewhere is listed under another spelling, and removes the same from
the tree and from each of its parts. -/
theorem exists_listed_address (ht : t.WellFormed) (ha : Tree.lookup t a = some n) :
    ∃ a', Tree.At t a' n ∧ (a' = [] ↔ a = []) ∧
      ∀ K u, Part K t u → u.WellFormed → u.remove? a = u.remove? a' := by
  induction a generalizing t with
  | nil =>
      cases ha
      exact ⟨[], Tree.At.root _, Iff.rfl, fun _ _ _ _ => rfl⟩
  | cons k rest ih =>
      obtain ⟨c, hc, hrest⟩ := Option.bind_eq_some_iff.mp ha
      obtain ⟨k', hmem, halike⟩ := exists_listed ht hc
      obtain ⟨rest', hat, hnil, hsame⟩ := ih (ht.of_mem_children hmem) hrest
      refine ⟨k' :: rest', Tree.At.child hmem hat, by simp, ?_⟩
      intro K u hpart hu
      rw [← hpart.shape_eq] at halike
      by_cases hend : rest = []
      · cases hend
        cases hnil.mpr rfl
        exact removeChild?_congr halike
      · rw [remove?_below u k hend, remove?_below u k' (mt hnil.mp hend), child?_congr halike]
        apply Option.bind_congr
        intro c' hc'
        have hlists := ((mem_children_iff ht).mp hmem).1
        rw [← hpart.shape_eq] at hlists
        rw [(Reads.of_lists hlists).child?_eq] at hc'
        obtain ⟨hmem', hbelow⟩ := hpart.mem_children_of_get? ht hu hmem hc'
        rw [hsame _ c' hbelow (hu.of_mem_children hmem')]
        simp only [replace_congr halike]

/-- Every address removes the same from the parts of a tree as one whose keys lead to the children
with their texts. -/
theorem exists_readsAlong (ht : t.WellFormed) (a : Address) :
    ∃ a', t.ReadsAlong a' ∧ ∀ K u, Part K t u → u.WellFormed → u.remove a = u.remove a' := by
  cases ha : Tree.lookup t a with
  | none =>
      refine ⟨[], trivial, fun K u hpart hu => ?_⟩
      rw [remove_of_lookup_eq_none (hpart.lookup_eq_none ht hu ha), remove_nil]
  | some n =>
      obtain ⟨a', hat, -, hsame⟩ := exists_listed_address ht ha
      refine ⟨a', (Holds.of_at ht hat).readsAlong, fun K u hpart hu => ?_⟩
      rw [remove, remove, hsame K u hpart hu]

/-- Two removals commute. -/
theorem remove_comm (ht : t.WellFormed) (a b : Address) :
    (t.remove a).remove b = (t.remove b).remove a := by
  obtain ⟨a', ha, hsame⟩ := exists_readsAlong ht a
  obtain ⟨b', hb, hsame'⟩ := exists_readsAlong ht b
  calc (t.remove a).remove b
    _ = (t.remove a').remove b' := by
        rw [hsame _ t part_self ht, hsame' _ _ (part_remove ht ha) (ht.remove ha)]
    _ = (t.remove b').remove a' := by
        have hpair : [a', b'].foldl Node.remove t = [b', a'].foldl Node.remove t := by
          apply foldl_remove_congr ht (by simp [ha, hb]) (by simp [ha, hb])
          simp [or_comm]
        exact hpair
    _ = (t.remove b).remove a := by
        rw [hsame' _ t part_self ht, hsame _ _ (part_remove ht hb) (ht.remove hb)]

end Commutation

/-- A removal takes out what an address below the root leads to, and otherwise leaves the tree as it
is. For a listed address the tree that is left is without it and has everything else. Removals
commute, be their addresses equal, nested or apart. -/
theorem remove_frame (ht : t.WellFormed) :
    (∀ a v, (∃ u, t.remove? a = some (v, u)) ↔ a ≠ [] ∧ Tree.lookup t a = some v) ∧
    (∀ a, t.remove? a = none → t.remove a = t) ∧
    (∀ a n v u, Tree.At t a n → t.remove? a = some (v, u) → t.remove a = u ∧ t.Without a u) ∧
    ∀ a b, (t.remove a).remove b = (t.remove b).remove a := by
  refine ⟨exists_remove?_iff t, fun a => remove_of_remove?_eq_none, ?_, remove_comm ht⟩
  intro a n v u ha hr
  have hu : t.remove a = u := by rw [remove, hr]
  obtain ⟨hne, -⟩ := (exists_remove?_iff t a v).mp ⟨u, hr⟩
  exact ⟨hu, hu ▸ without_remove ht ha hne⟩

/-- A sequence in a map, with a map as its second element. -/
def pairInMap : Node :=
  .map [("xs", .seq [.scalar (.int 1), .map [("y", .scalar (.int 2)), ("z", .scalar (.int 3))]])]

/-- The first element opens the sequence, and the second stays where it is. -/
theorem remove_frame_firstOfPair :
    pairInMap.WellFormed ∧
      (∃ u, pairInMap.remove? [.name "xs", .index 0] = some (.scalar (.int 1), u) ∧
        pairInMap.Without [.name "xs", .index 0] u) ∧
      pairInMap.remove [.name "xs", .index 2] = pairInMap ∧
      (pairInMap.remove [.name "xs", .index 0]).remove [.name "xs", .index 1, .name "y"] =
        (pairInMap.remove [.name "xs", .index 1, .name "y"]).remove [.name "xs", .index 0] := by
  have hwf : pairInMap.WellFormed := by
    refine WellFormed.map (by simp [Entries.keys]) ?_
    simp only [List.mem_singleton, forall_eq]
    refine WellFormed.seq ?_
    simp only [List.mem_cons, List.not_mem_nil, or_false, forall_eq_or_imp, forall_eq]
    refine ⟨WellFormed.scalar _, WellFormed.map (by simp [Entries.keys]) ?_⟩
    simp only [List.mem_cons, List.not_mem_nil, or_false, forall_eq_or_imp, forall_eq]
    exact ⟨WellFormed.scalar _, WellFormed.scalar _⟩
  obtain ⟨htaken, hkeep, hframe, hcomm⟩ := remove_frame hwf
  have hlook : Tree.lookup pairInMap [.name "xs", .index 0] = some (.scalar (.int 1)) := rfl
  have hat : Tree.At pairInMap [.name "xs", .index 0] (.scalar (.int 1)) :=
    Tree.At.child (List.mem_cons_self ..)
      (Tree.At.child (List.mem_cons_of_mem _ (List.mem_cons_self ..)) (Tree.At.root _))
  obtain ⟨u, hu⟩ := (htaken _ _).mpr ⟨by simp, hlook⟩
  exact ⟨hwf, ⟨u, hu, (hframe _ _ _ _ hat hu).2⟩, hkeep _ rfl, hcomm _ _⟩

end Node

end PathRules
