import PathRules.Proofs.CursorOrder
import PathRules.Proofs.TreePlaces

/-!
# Removing from a working tree

A node is determined by its form and its list of children, order included. Removing an address
keeps the list of children but for the one it leads to: that child is left out if the address ends
there, and is replaced by what is left of it otherwise. So the outcome of many removals has a
closed form, in which only the set of places counts: neither the order nor the repetition of
removals shows, and a place that the tree does not have makes no difference.
-/

namespace PathRules

namespace Entries

variable {α : Type}

theorem erase_eq_filter {es : Entries α} (hes : es.keys.Nodup) (key : String) :
    es.erase key = es.filter fun e => e.1 ≠ key := by
  induction es with
  | nil => rfl
  | cons e es ih =>
      obtain ⟨hnew, hrest⟩ := nodup_keys_cons.mp hes
      by_cases hk : e.1 = key
      · subst hk
        have hall : es.filter (fun e' => e'.1 ≠ e.1) = es := by
          apply List.filter_eq_self.mpr
          intro e' he'
          simpa using ne_of_not_mem_keys hnew e' he'
        rw [List.filter_cons_of_neg (by simp), hall]
        simp [erase]
      · rw [List.filter_cons_of_pos (by simp [hk]), ← ih hrest]
        simp [erase, hk]

theorem insert_eq_map {es : Entries α} (hes : es.keys.Nodup) {key : String} (x : α)
    (hkey : key ∈ es.keys) :
    es.insert key x = es.map fun e => if e.1 = key then (e.1, x) else e := by
  induction es with
  | nil => simp [keys] at hkey
  | cons e es ih =>
      obtain ⟨hnew, hrest⟩ := nodup_keys_cons.mp hes
      by_cases hk : e.1 = key
      · subst hk
        have hall : es.map (fun e' => if e'.1 = e.1 then (e'.1, x) else e') = es.map id := by
          apply List.map_congr_left
          intro e' he'
          rw [if_neg (ne_of_not_mem_keys hnew e' he')]
          rfl
        rw [List.map_cons, hall, List.map_id]
        simp [insert]
      · have hmem : key ∈ keys es := (List.mem_cons.mp hkey).resolve_left (Ne.symm hk)
        rw [List.map_cons, ← ih hrest hmem]
        simp [insert, hk]

end Entries

namespace Sparse

variable {α : Type}

theorem drop_eq_filter {items : List (Nat × α)} (hitems : items.Pairwise fun a b => a.1 < b.1)
    (i : Nat) : drop items i = items.filter fun p => p.1 ≠ i := by
  induction items with
  | nil => rfl
  | cons a items ih =>
      obtain ⟨hlt, hrest⟩ := List.pairwise_cons.mp hitems
      by_cases hi : a.1 = i
      · subst hi
        have hall : items.filter (fun p => p.1 ≠ a.1) = items := by
          apply List.filter_eq_self.mpr
          intro p hp
          simpa using Nat.ne_of_gt (hlt p hp)
        rw [List.filter_cons_of_neg (by simp), hall]
        simp [drop]
      · rw [List.filter_cons_of_pos (by simp [hi]), ← ih hrest]
        simp [drop, hi]

theorem put_eq_map {items : List (Nat × α)} (hitems : items.Pairwise fun a b => a.1 < b.1)
    {i : Nat} {y : α} (x : α) (hi : (i, y) ∈ items) :
    put items i x = items.map fun p => if p.1 = i then (p.1, x) else p := by
  induction items with
  | nil => simp at hi
  | cons a items ih =>
      obtain ⟨hlt, hrest⟩ := List.pairwise_cons.mp hitems
      rcases List.mem_cons.mp hi with rfl | hi
      · have hall : items.map (fun p => if p.1 = i then (p.1, x) else p) = items.map id := by
          apply List.map_congr_left
          intro p hp
          rw [if_neg (Nat.ne_of_gt (hlt p hp))]
          rfl
        rw [List.map_cons, hall, List.map_id]
        simp [put]
      · have hai : a.1 < i := hlt _ hi
        have hne : ¬ i = a.1 := by omega
        have hnlt : ¬ i < a.1 := by omega
        rw [List.map_cons, ← ih hrest hi, if_neg (Ne.symm hne)]
        simp [put, hne, hnlt]

theorem ofList_set (xs : List α) (i : Nat) (x : α) :
    (ofList (xs.set i x)).items =
      (ofList xs).items.map fun p => if p.1 = i then (p.1, x) else p := by
  apply List.ext_getElem (by simp [ofList])
  intro j h₁ h₂
  simp only [ofList, List.getElem_map, List.getElem_zipIdx, Nat.zero_add, List.getElem_set]
  by_cases hj : i = j
  · simp [hj]
  · simp [hj, Ne.symm hj]

end Sparse

theorem Address.place_eq_nil {a : Address} : a.place = [] ↔ a = [] := by
  simp [Address.place]

/-- What a node is apart from its children. -/
inductive Form where
  | scalar (s : Scalar)
  | seq (length : Nat)
  | sparse (span : Nat)
  | map

/-- The form of a node after it lost a child. -/
def Form.opened : Form → Form
  | .seq n => .sparse n
  | form => form

@[simp] theorem Form.opened_opened (form : Form) : form.opened.opened = form.opened := by
  cases form <;> rfl

namespace Node

def form : Node → Form
  | scalar s => .scalar s
  | seq items => .seq items.length
  | sparse s => .sparse s.span
  | map _ => .map

theorem shape_eq_of_form_opened {t u : Node} (h : t.form.opened = u.form.opened) :
    t.shape = u.shape := by
  cases t <;> cases u <;> simp_all [form, Form.opened, shape]

theorem children_seq (items : List Node) :
    (seq items).children = (Sparse.ofList items).items.reverse.map fun p => (.index p.1, p.2) := by
  simp [children, Value.countDown, Sparse.ofList, Function.comp_def]

theorem children_sparse (s : Sparse Node) :
    (sparse s).children = s.items.reverse.map fun p => (.index p.1, p.2) := rfl

theorem children_map (es : Entries Node) :
    (map es).children = es.map fun e => (.name e.1, e.2) := rfl

theorem keys_entries (t : Node) :
    t.entries.keys = if t.shape = .map then t.children.map fun p => p.1.text
      else (t.children.map fun p => p.1.text).reverse := by
  cases t with
  | scalar s => rfl
  | seq items =>
      simp [children_seq, entries, shape, Sparse.named, Entries.keys, Function.comp_def]
  | sparse s =>
      simp [children_sparse, entries, shape, Sparse.named, Entries.keys, Function.comp_def]
  | map es => simp [children_map, entries, shape, Entries.keys, Function.comp_def]

theorem WellFormed.nodup_keys_entries {t : Node} (ht : t.WellFormed) : t.entries.keys.Nodup := by
  cases ht with
  | scalar s => exact List.nodup_nil
  | @seq items hx => exact Sparse.nodup_keys_named (Sparse.sound_ofList items).ascending
  | sparse hs hx => exact Sparse.nodup_keys_named hs.ascending
  | map hes hx => exact hes

theorem WellFormed.nodup_texts {t : Node} (ht : t.WellFormed) :
    (t.children.map fun p => p.1.text).Nodup := by
  have hkeys := ht.nodup_keys_entries
  rw [keys_entries] at hkeys
  split at hkeys
  · exact hkeys
  · exact List.nodup_reverse.mp hkeys

/-- A node is its form with its children. -/
theorem eq_of_form_of_children {t u : Node} (hform : t.form = u.form)
    (h : t.children = u.children) : t = u := by
  have hindex : Function.Injective fun p : Nat × Node => (Key.index p.1, p.2) := by
    rintro ⟨i, x⟩ ⟨j, y⟩ hp
    cases hp
    rfl
  have hname : Function.Injective fun e : String × Node => (Key.name e.1, e.2) := by
    rintro ⟨s, x⟩ ⟨s', y⟩ he
    cases he
    rfl
  cases t with
  | scalar s =>
      cases u <;> cases hform
      rfl
  | seq items =>
      cases u with
      | seq items' =>
          rw [children_seq, children_seq] at h
          have hitems := List.reverse_injective (List.map_injective_iff.mpr hindex h)
          have hsnd := congrArg (List.map Prod.snd) hitems
          simp only [Sparse.ofList, List.map_map] at hsnd
          have hid : ∀ l : List Node, l.zipIdx.map (Prod.snd ∘ fun p => (p.2, p.1)) = l :=
            fun l => List.zipIdx_map_fst 0 l
          rw [hid, hid] at hsnd
          rw [hsnd]
      | scalar s => cases hform
      | sparse s => cases hform
      | map es => cases hform
  | sparse s =>
      cases u with
      | sparse s' =>
          rw [children_sparse, children_sparse] at h
          have hitems := List.reverse_injective (List.map_injective_iff.mpr hindex h)
          obtain ⟨span, items⟩ := s
          obtain ⟨span', items'⟩ := s'
          cases hform
          cases hitems
          rfl
      | scalar s => cases hform
      | seq items => cases hform
      | map es => cases hform
  | map es =>
      cases u with
      | map es' =>
          rw [children_map, children_map] at h
          rw [List.map_injective_iff.mpr hname h]
      | scalar s => cases hform
      | seq items => cases hform
      | sparse s => cases hform

variable {t c : Node} {k : Key} {rest : Address}

theorem Reads.text_ne (hk : t.Reads k) (ht : t.WellFormed) (hc : t.child? k = none)
    {p : Key × Node} (hp : p ∈ t.children) : p.1.text ≠ k.text := by
  intro htext
  have hget := ((mem_children_iff ht).mp hp).2
  rw [htext, ← hk.child?_eq, hc] at hget
  cases hget

theorem Reads.eq_child (hk : t.Reads k) (ht : t.WellFormed) (hc : t.child? k = some c)
    {p : Key × Node} (hp : p ∈ t.children) (htext : p.1.text = k.text) : p.2 = c := by
  have hget := ((mem_children_iff ht).mp hp).2
  rw [htext, ← hk.child?_eq, hc] at hget
  exact (Option.some.inj hget).symm

theorem form_replace (t : Node) (k : Key) (c : Node) : (t.replace k c).form = t.form := by
  cases t with
  | scalar s => cases k.asIndex? <;> rfl
  | seq items => cases hk : k.asIndex? <;> simp [replace, hk, form]
  | sparse s => cases hk : k.asIndex? <;> simp [replace, hk, form]
  | map es => rfl

theorem mem_items_of_child? {s : Sparse Node} {i : Nat} (hi : k.asIndex? = some i)
    (hc : (sparse s).child? k = some c) : (i, c) ∈ s.items := by
  have hget : s.get? i = some c := by simpa only [child?, hi, Option.bind_some] using hc
  exact Sparse.mem_of_find? hget

theorem children_replace (hk : t.Reads k) (ht : t.WellFormed) (hc : t.child? k = some c)
    (c' : Node) : (t.replace k c').children =
      t.children.map fun p => if p.1.text = k.text then (p.1, c') else p := by
  cases ht with
  | scalar s => cases hc
  | map hes hx =>
      have hmem := Entries.mem_keys_iff.mpr ⟨c, hc⟩
      simp only [replace, children_map, Entries.insert_eq_map hes c' hmem, List.map_map]
      apply List.map_congr_left
      intro e _
      by_cases he : e.1 = k.text <;> simp [he]
  | @seq items hx =>
      obtain ⟨i, hi, htext⟩ := hk.resolve_left (by simp [shape])
      have hset : (seq items).replace k c' = seq (items.set i c') := by simp [replace, hi]
      rw [hset, children_seq, children_seq, Sparse.ofList_set, ← List.map_reverse, List.map_map,
        List.map_map]
      apply List.map_congr_left
      intro p _
      by_cases hp : p.1 = i <;> simp [hp, htext]
  | @sparse s hs hx =>
      obtain ⟨i, hi, htext⟩ := hk.resolve_left (by simp [shape])
      have hmem := mem_items_of_child? hi hc
      have hput : (sparse s).replace k c' =
          sparse { s with items := Sparse.put s.items i c' } := by simp [replace, hi]
      rw [hput, children_sparse, children_sparse, Sparse.put_eq_map hs.ascending c' hmem,
        ← List.map_reverse, List.map_map, List.map_map]
      apply List.map_congr_left
      intro p _
      by_cases hp : p.1 = i <;> simp [hp, htext]

theorem removeChild?_of_child? (hk : t.Reads k) (ht : t.WellFormed) (hc : t.child? k = some c) :
    ∃ u, t.removeChild? k = some (c, u) ∧ u.WellFormed ∧ u.form = t.form.opened ∧
      u.children = t.children.filter fun p => p.1.text ≠ k.text := by
  have hindex : ∀ (items : List (Nat × Node)) (i : Nat),
      (items.Pairwise fun a b => a.1 < b.1) →
      (Sparse.drop items i).reverse.map (fun p => (Key.index p.1, p.2)) =
        (items.reverse.map fun p => (Key.index p.1, p.2)).filter
          fun p => p.1.text ≠ Numeral.natText i := by
    intro items i hitems
    rw [Sparse.drop_eq_filter hitems, ← List.filter_reverse, List.filter_map]
    congr 1
    apply List.filter_congr
    intro p _
    simp
  cases ht with
  | scalar s => cases hc
  | @map es hes hx =>
      refine ⟨map (Entries.erase es k.text), by simp [removeChild?, hc],
        WellFormed.map (Entries.nodup_keys_erase hes _)
          (fun e he => hx e (Entries.mem_of_mem_erase he)), rfl, ?_⟩
      rw [children_map, children_map, Entries.erase_eq_filter hes, List.filter_map]
      rfl
  | @seq items hx =>
      obtain ⟨i, hi, htext⟩ := hk.resolve_left (by simp [shape])
      have hs := Sparse.sound_ofList items
      refine ⟨sparse ((Sparse.ofList items).erase i), by simp [removeChild?, hc, hi],
        WellFormed.sparse (hs.erase i) (fun p hp =>
          hx _ (List.mem_of_getElem? (Sparse.mem_ofList.mp (Sparse.mem_of_mem_drop hp)))), rfl, ?_⟩
      rw [children_seq, children_sparse, htext]
      exact hindex _ i hs.ascending
  | @sparse s hs hx =>
      obtain ⟨i, hi, htext⟩ := hk.resolve_left (by simp [shape])
      refine ⟨sparse (s.erase i), by simp [removeChild?, hc, hi],
        WellFormed.sparse (hs.erase i) (fun p hp => hx p (Sparse.mem_of_mem_drop hp)), rfl, ?_⟩
      rw [children_sparse, children_sparse, htext]
      exact hindex _ i hs.ascending

theorem remove_single (hk : t.Reads k) (ht : t.WellFormed) (hc : t.child? k = some c) :
    (t.remove [k]).WellFormed ∧ (t.remove [k]).form = t.form.opened ∧
      (t.remove [k]).children = t.children.filter fun p => p.1.text ≠ k.text := by
  obtain ⟨u, hu, hwf, hform, hchildren⟩ := removeChild?_of_child? hk ht hc
  have hrem : t.remove [k] = u := by simp [remove, remove?, hu]
  rw [hrem]
  exact ⟨hwf, hform, hchildren⟩

theorem remove_of_missing (hc : t.child? k = none) : t.remove (k :: rest) = t := by
  cases rest with
  | nil => simp [remove, remove?, removeChild?, hc]
  | cons k' rest => simp [remove, remove?, hc]

theorem remove_below (hc : t.child? k = some c) (hrest : rest ≠ []) :
    t.remove (k :: rest) = t ∧ c.remove rest = c ∨
      t.remove (k :: rest) = t.replace k (c.remove rest) := by
  cases rest with
  | nil => exact absurd rfl hrest
  | cons k' rest =>
      cases hr : c.remove? (k' :: rest) with
      | none => exact Or.inl (by simp [remove, remove?, hc, hr])
      | some p => exact Or.inr (by simp [remove, remove?, hc, hr])

/-- What is left of a child when an address is removed from its parent. -/
def left (k : Key) (rest : Address) (p : Key × Node) : Option (Key × Node) :=
  if p.1.text = k.text then if rest = [] then none else some (p.1, p.2.remove rest) else some p

/-- A removal keeps every child but the one that the address leads to. -/
theorem children_remove (hk : t.Reads k) (ht : t.WellFormed) :
    (t.remove (k :: rest)).children = t.children.filterMap (left k rest) := by
  cases hc : t.child? k with
  | none =>
      rw [remove_of_missing hc]
      have hleft : t.children.filterMap (left k rest) = t.children.filterMap some := by
        apply List.filterMap_congr
        intro p hp
        rw [left, if_neg (hk.text_ne ht hc hp)]
      rw [hleft, List.filterMap_some]
  | some c =>
      by_cases hrest : rest = []
      · subst hrest
        rw [(remove_single hk ht hc).2.2, ← List.filterMap_eq_filter]
        apply List.filterMap_congr
        intro p _
        by_cases htext : p.1.text = k.text <;> simp [left, htext, Option.guard]
      · have hmap : (t.remove (k :: rest)).children =
            t.children.map fun p => if p.1.text = k.text then (p.1, c.remove rest) else p := by
          rcases remove_below hc hrest with ⟨htree, hchild⟩ | htree
          · rw [htree, hchild]
            conv_lhs => rw [← List.map_id t.children]
            apply List.map_congr_left
            intro p hp
            by_cases htext : p.1.text = k.text
            · simp [htext, ← hk.eq_child ht hc hp htext]
            · simp [htext]
          · rw [htree, children_replace hk ht hc]
        rw [hmap, ← List.filterMap_eq_map]
        apply List.filterMap_congr
        intro p hp
        by_cases htext : p.1.text = k.text
        · simp [left, htext, hrest, hk.eq_child ht hc hp htext]
        · simp [left, htext]

theorem form_remove_below (t : Node) (k : Key) (hrest : rest ≠ []) :
    (t.remove (k :: rest)).form = t.form := by
  cases hc : t.child? k with
  | none => rw [remove_of_missing hc]
  | some c =>
      rcases remove_below hc hrest with ⟨htree, -⟩ | htree
      · rw [htree]
      · rw [htree, form_replace]

theorem remove_nil (t : Node) : t.remove [] = t := rfl

theorem shape_remove (ht : t.WellFormed) (hk : t.Reads k) :
    (t.remove (k :: rest)).shape = t.shape := by
  apply shape_eq_of_form_opened
  by_cases hrest : rest = []
  · subst hrest
    cases hc : t.child? k with
    | none => rw [remove_of_missing hc]
    | some c => rw [(remove_single hk ht hc).2.1, Form.opened_opened]
  · rw [form_remove_below t k hrest]

theorem WellFormed.replace {c' : Node} (ht : t.WellFormed) (hk : t.Reads k)
    (hc : t.child? k = some c) (hc' : c'.WellFormed) : (t.replace k c').WellFormed := by
  cases ht with
  | scalar s => cases hc
  | map hes hx =>
      apply WellFormed.map (Entries.nodup_keys_insert hes _ _)
      intro e he
      rcases Entries.mem_insert he with rfl | he
      · exact hc'
      · exact hx e he
  | @seq items hx =>
      obtain ⟨i, hi, -⟩ := hk.resolve_left (by simp [shape])
      simp only [Node.replace, hi]
      apply WellFormed.seq
      intro x hmem
      rcases List.mem_or_eq_of_mem_set hmem with hmem | rfl
      · exact hx x hmem
      · exact hc'
  | @sparse s hs hx =>
      obtain ⟨i, hi, -⟩ := hk.resolve_left (by simp [shape])
      have hspan : i < s.span := hs.lt_span _ (mem_items_of_child? hi hc)
      simp only [Node.replace, hi]
      apply WellFormed.sparse ⟨Sparse.pairwise_put hs.ascending, ?_⟩
      · intro p hp
        rcases Sparse.mem_put hp with rfl | hp
        · exact hc'
        · exact hx p hp
      · intro p hp
        rcases Sparse.mem_put hp with rfl | hp
        · exact hspan
        · exact hs.lt_span p hp

/-- Every key of an address leads to the child with its text, down to where the address ends or
leaves the tree. -/
def ReadsAlong (t : Node) : Address → Prop
  | [] => True
  | k :: rest => t.Reads k ∧ ∀ c, t.entries.get? k.text = some c → c.ReadsAlong rest

theorem WellFormed.remove {a : Address} (ht : t.WellFormed) (ha : t.ReadsAlong a) :
    (t.remove a).WellFormed := by
  induction a generalizing t with
  | nil => exact ht
  | cons k rest ih =>
      obtain ⟨hk, hbelow⟩ := ha
      cases hc : t.child? k with
      | none => rwa [remove_of_missing hc]
      | some c =>
          have hget : t.entries.get? k.text = some c := by rw [← hk.child?_eq, hc]
          by_cases hrest : rest = []
          · subst hrest
            exact (remove_single hk ht hc).1
          · rcases remove_below hc hrest with ⟨htree, -⟩ | htree
            · rwa [htree]
            · rw [htree]
              exact ht.replace hk hc (ih (ht.get? hget) (hbelow c hget))

theorem get?_entries_remove (ht : t.WellFormed) (ha : t.ReadsAlong (k :: rest)) (s : String) :
    (t.remove (k :: rest)).entries.get? s =
      if k.text = s then if rest = [] then none else (t.entries.get? s).map (remove · rest)
      else t.entries.get? s := by
  apply Option.ext
  intro c'
  rw [get?_entries_iff (ht.remove ha), children_remove ha.1 ht]
  simp only [List.mem_filterMap, left]
  constructor
  · rintro ⟨k', ⟨p, hp, hleft⟩, rfl⟩
    have hget := ((mem_children_iff ht).mp hp).2
    by_cases htext : p.1.text = k.text
    · by_cases hrest : rest = []
      · simp [htext, hrest] at hleft
      · simp only [htext, if_true, if_neg hrest, Option.some.injEq, Prod.mk.injEq] at hleft
        obtain ⟨rfl, rfl⟩ := hleft
        rw [if_pos htext.symm, if_neg hrest, hget, Option.map_some]
    · simp only [if_neg htext, Option.some.injEq] at hleft
      subst hleft
      rw [if_neg (Ne.symm htext), hget]
  · intro h
    by_cases htext : k.text = s
    · subst htext
      by_cases hrest : rest = []
      · simp [hrest] at h
      · simp only [if_true, if_neg hrest, Option.map_eq_some_iff] at h
        obtain ⟨c, hc, rfl⟩ := h
        obtain ⟨k', hmem, hk'⟩ := (get?_entries_iff ht).mp hc
        exact ⟨k', ⟨(k', c), hmem, by simp [hk', hrest]⟩, hk'⟩
    · rw [if_neg htext] at h
      obtain ⟨k', hmem, rfl⟩ := (get?_entries_iff ht).mp h
      exact ⟨k', ⟨(k', c'), hmem, by simp [Ne.symm htext]⟩, rfl⟩

/-- A removal takes away the places at and below the address, and changes nothing at others. -/
theorem view_remove {a : Address} (ht : t.WellFormed) (ha : t.ReadsAlong a) (p : Place)
    (x : Shape) : (t.remove a).view p = some x ↔
      t.view p = some x ∧ (a ≠ [] → ¬ a.place <+: p) := by
  induction a generalizing t p with
  | nil => simp [remove_nil]
  | cons k rest ih =>
      cases p with
      | nil => simp [shape_remove ht ha.1]
      | cons s p =>
          rw [view_cons, view_cons, get?_entries_remove ht ha, Address.place_cons,
            List.cons_prefix_cons]
          by_cases htext : k.text = s
          · subst htext
            by_cases hrest : rest = []
            · simp [hrest]
            · cases hc : t.entries.get? k.text with
              | none => simp [hrest]
              | some c =>
                  have hchild := ih (ht.get? hc) (ha.2 c hc) p
                  simpa [hrest] using hchild
          · simp [htext]

theorem ReadsAlong.remove {a b : Address} (ht : t.WellFormed) (ha : t.ReadsAlong a)
    (hb : t.ReadsAlong b) : (t.remove b).ReadsAlong a := by
  induction a generalizing t b with
  | nil => trivial
  | cons k rest ih =>
      cases b with
      | nil => exact ha
      | cons k' rest' =>
          refine ⟨ha.1.congr (shape_remove ht hb.1), ?_⟩
          intro c' hc'
          rw [get?_entries_remove ht hb] at hc'
          by_cases htext : k'.text = k.text
          · by_cases hrest : rest' = []
            · simp [htext, hrest] at hc'
            · simp only [htext, if_true, if_neg hrest, Option.map_eq_some_iff] at hc'
              obtain ⟨c, hc, rfl⟩ := hc'
              exact ih (ht.get? hc) (ha.2 c hc) (hb.2 c (by rw [htext, hc]))
          · rw [if_neg htext] at hc'
            exact ha.2 c' hc'

section Lists

variable {as bs : List Address}

theorem WellFormed.foldl_remove (ht : t.WellFormed) (has : ∀ a ∈ as, t.ReadsAlong a) :
    (as.foldl Node.remove t).WellFormed := by
  induction as generalizing t with
  | nil => exact ht
  | cons a as ih =>
      have ha := has a List.mem_cons_self
      exact ih (ht.remove ha) fun b hb => (has b (List.mem_cons_of_mem _ hb)).remove ht ha

/-- Many removals take away the places at and below the addresses. -/
theorem view_foldl_remove (ht : t.WellFormed) (has : ∀ a ∈ as, t.ReadsAlong a) (p : Place)
    (x : Shape) : (as.foldl Node.remove t).view p = some x ↔
      t.view p = some x ∧ ∀ a ∈ as, a ≠ [] → ¬ a.place <+: p := by
  induction as generalizing t with
  | nil => simp
  | cons a as ih =>
      have ha := has a List.mem_cons_self
      rw [List.foldl_cons, ih (ht.remove ha) fun b hb =>
        (has b (List.mem_cons_of_mem _ hb)).remove ht ha, view_remove ht ha, and_assoc,
        List.forall_mem_cons]

/-- The rest of an address below the child with a text, if it does not end there. -/
def restBelow (s : String) : Address → Option Address
  | [] => none
  | k :: rest => if k.text = s ∧ rest ≠ [] then some rest else none

/-- What is left of a child after many removals from its parent. -/
def leftOf (as : List Address) (p : Key × Node) : Option (Key × Node) :=
  if [p.1.text] ∈ as.map Address.place then none
  else some (p.1, (as.filterMap (restBelow p.1.text)).foldl Node.remove p.2)

theorem left_bind_leftOf (k : Key) (rest : Address) (as : List Address) (p : Key × Node) :
    (left k rest p).bind (leftOf as) = leftOf ((k :: rest) :: as) p := by
  by_cases htext : p.1.text = k.text
  · by_cases hrest : rest = []
    · simp [left, leftOf, htext, hrest]
    · have hplace : ¬ rest.place = [] := fun h => hrest (Address.place_eq_nil.mp h)
      simp [left, leftOf, htext, hrest, restBelow, Ne.symm hplace]
  · simp [left, leftOf, htext, restBelow, Ne.symm htext]

theorem children_foldl_remove (ht : t.WellFormed) (has : ∀ a ∈ as, t.ReadsAlong a) :
    (as.foldl Node.remove t).children = t.children.filterMap (leftOf as) := by
  induction as generalizing t with
  | nil =>
      have hall : (leftOf []) = some := by
        funext p
        simp [leftOf]
      rw [hall, List.filterMap_some]
      rfl
  | cons a as ih =>
      have ha := has a List.mem_cons_self
      rw [List.foldl_cons, ih (ht.remove ha) fun b hb =>
        (has b (List.mem_cons_of_mem _ hb)).remove ht ha]
      cases a with
      | nil =>
          apply List.filterMap_congr
          intro p _
          have hskip : ([] :: as).filterMap (restBelow p.1.text) =
              as.filterMap (restBelow p.1.text) := List.filterMap_cons_none rfl
          simp [leftOf, hskip]
      | cons k rest =>
          rw [children_remove ha.1 ht, List.filterMap_filterMap]
          exact List.filterMap_congr fun p _ => left_bind_leftOf k rest as p

/-- A removal of the node's own child opens its form. Any other removal keeps the form, and the
texts under which there are children. -/
theorem remove_opens_or_keeps (ht : t.WellFormed) (ha : t.ReadsAlong (k :: rest)) :
    (rest = [] ∧ (t.entries.get? k.text).isSome ∧
        (t.remove (k :: rest)).form = t.form.opened) ∨
      (¬ (rest = [] ∧ (t.entries.get? k.text).isSome) ∧
        (t.remove (k :: rest)).form = t.form ∧
        ∀ s, ((t.remove (k :: rest)).entries.get? s).isSome = (t.entries.get? s).isSome) := by
  have hchild := ha.1.child?_eq
  by_cases hhit : rest = [] ∧ (t.entries.get? k.text).isSome
  · obtain ⟨rfl, hsome⟩ := hhit
    obtain ⟨c, hc⟩ := Option.isSome_iff_exists.mp hsome
    exact Or.inl ⟨rfl, hsome, (remove_single ha.1 ht (hchild.trans hc)).2.1⟩
  · have hnone : rest = [] → t.entries.get? k.text = none := by
      intro hrest
      simpa [hrest] using hhit
    refine Or.inr ⟨hhit, ?_, ?_⟩
    · by_cases hrest : rest = []
      · rw [remove_of_missing (hchild.trans (hnone hrest))]
      · exact form_remove_below t k hrest
    · intro s
      rw [get?_entries_remove ht ha]
      by_cases htext : k.text = s
      · subst htext
        by_cases hrest : rest = []
        · simp [hrest, hnone hrest]
        · simp [hrest]
      · simp [htext]

/-- The form after many removals tells whether the node itself lost a child. -/
theorem form_foldl_remove (ht : t.WellFormed) (has : ∀ a ∈ as, t.ReadsAlong a) :
    ((∃ s, (t.entries.get? s).isSome ∧ [s] ∈ as.map Address.place) →
      (as.foldl Node.remove t).form = t.form.opened) ∧
    ((∀ s, (t.entries.get? s).isSome → [s] ∉ as.map Address.place) →
      (as.foldl Node.remove t).form = t.form) := by
  induction as generalizing t with
  | nil => simp
  | cons a as ih =>
      have ha := has a List.mem_cons_self
      obtain ⟨hopen, hkeep⟩ := ih (ht.remove ha) fun b hb =>
        (has b (List.mem_cons_of_mem _ hb)).remove ht ha
      rw [List.foldl_cons]
      cases a with
      | nil =>
          rw [remove_nil] at hopen hkeep ⊢
          simpa using And.intro hopen hkeep
      | cons k rest =>
          rcases remove_opens_or_keeps ht ha with ⟨hrest, hsome, hform⟩ | ⟨hno, hform, hsame⟩
          · constructor
            · intro _
              by_cases hhit : ∃ s, ((t.remove (k :: rest)).entries.get? s).isSome ∧
                  [s] ∈ as.map Address.place
              · rw [hopen hhit, hform, Form.opened_opened]
              · rw [hkeep fun s hs hmem => hhit ⟨s, hs, hmem⟩, hform]
            · intro hnone
              exact absurd (by simp [hrest]) (hnone k.text hsome)
          · -- The address ends at no child of the node, so it counts in neither list.
            have hskip : ∀ s, (t.entries.get? s).isSome →
                ([s] ∈ ((k :: rest) :: as).map Address.place ↔ [s] ∈ as.map Address.place) := by
              intro s hs
              rw [List.map_cons, List.mem_cons, or_iff_right]
              intro heq
              rw [Address.place_cons, List.cons.injEq] at heq
              exact hno ⟨Address.place_eq_nil.mp heq.2.symm, heq.1 ▸ hs⟩
            constructor
            · rintro ⟨s, hs, hmem⟩
              rw [hopen ⟨s, by rw [hsame]; exact hs, (hskip s hs).mp hmem⟩, hform]
            · intro hnone
              rw [hkeep, hform]
              intro s hs hmem
              rw [hsame] at hs
              exact hnone s hs ((hskip s hs).mpr hmem)

theorem mem_place_restBelow {s : String} {p : Place} (hp : p ≠ []) :
    p ∈ (as.filterMap (restBelow s)).map Address.place ↔ s :: p ∈ as.map Address.place := by
  simp only [List.mem_map, List.mem_filterMap]
  constructor
  · rintro ⟨b, ⟨a, ha, hb⟩, rfl⟩
    cases a with
    | nil => simp [restBelow] at hb
    | cons k rest =>
        simp only [restBelow, Option.ite_none_right_eq_some, Option.some.injEq] at hb
        obtain ⟨⟨hk, -⟩, rfl⟩ := hb
        exact ⟨k :: rest, ha, by rw [Address.place_cons, hk]⟩
  · rintro ⟨a, ha, hplace⟩
    cases a with
    | nil => cases hplace
    | cons k rest =>
        rw [Address.place_cons, List.cons.injEq] at hplace
        obtain ⟨hk, rfl⟩ := hplace
        have hrest : rest ≠ [] := by
          rintro rfl
          exact hp rfl
        exact ⟨rest, ⟨k :: rest, ha, by simp [restBelow, hk, hrest]⟩, rfl⟩

theorem readsAlong_restBelow (has : ∀ a ∈ as, t.ReadsAlong a) {s : String}
    (hc : t.entries.get? s = some c) : ∀ a ∈ as.filterMap (restBelow s), c.ReadsAlong a := by
  intro b hb
  obtain ⟨a, ha, hb⟩ := List.mem_filterMap.mp hb
  cases a with
  | nil => simp [restBelow] at hb
  | cons k rest =>
      simp only [restBelow, Option.ite_none_right_eq_some, Option.some.injEq] at hb
      obtain ⟨⟨rfl, -⟩, rfl⟩ := hb
      exact (has _ ha).2 c hc

/-- Removals depend only on the set of places that the tree has: neither their order nor their
repetition shows. -/
theorem foldl_remove_congr (ht : t.WellFormed) (has : ∀ a ∈ as, t.ReadsAlong a)
    (hbs : ∀ b ∈ bs, t.ReadsAlong b)
    (hsame : ∀ p, p ≠ [] → (t.seek p).isSome →
      (p ∈ as.map Address.place ↔ p ∈ bs.map Address.place)) :
    as.foldl Node.remove t = bs.foldl Node.remove t := by
  -- Below a child only the rests of the addresses that go through it count.
  induction t using Tree.induction generalizing as bs with
  | step t ih =>
      have htop : ∀ s, (t.entries.get? s).isSome →
          ([s] ∈ as.map Address.place ↔ [s] ∈ bs.map Address.place) := by
        intro s hs
        refine hsame [s] (by simp) ?_
        obtain ⟨c, hc⟩ := Option.isSome_iff_exists.mp hs
        simp [hc]
      apply eq_of_form_of_children
      · by_cases hhit : ∃ s, (t.entries.get? s).isSome ∧ [s] ∈ as.map Address.place
        · obtain ⟨s, hs, hmem⟩ := hhit
          rw [(form_foldl_remove ht has).1 ⟨s, hs, hmem⟩,
            (form_foldl_remove ht hbs).1 ⟨s, hs, (htop s hs).mp hmem⟩]
        · have hno : ∀ s, (t.entries.get? s).isSome → [s] ∉ as.map Address.place :=
            fun s hs hmem => hhit ⟨s, hs, hmem⟩
          rw [(form_foldl_remove ht has).2 hno, (form_foldl_remove ht hbs).2 fun s hs hmem =>
            hno s hs ((htop s hs).mpr hmem)]
      · rw [children_foldl_remove ht has, children_foldl_remove ht hbs]
        apply List.filterMap_congr
        rintro ⟨k, c⟩ hmem
        have hc := ((mem_children_iff ht).mp hmem).2
        have hbelow := ih k c hmem (ht.get? hc) (readsAlong_restBelow has hc)
          (readsAlong_restBelow hbs hc) fun p hp hs => by
            rw [mem_place_restBelow hp, mem_place_restBelow hp]
            exact hsame _ (by simp) (by rw [seek_cons, hc]; exact hs)
        simp only [leftOf, htop k.text (by rw [hc]; rfl), hbelow]

end Lists

end Node

end PathRules
