import PathRules.Proofs.TreeRemoval
import PathRules.Proofs.TreeWriting

/-!
# Writing and removing commute

A well-formed node is its form with its children by text, and for a map the order of the texts. A
write and a removal at places that do not touch each other meet at a node where they go on to
different children. There both orders leave the same children, also if the write turns the node
into another container or a removed element has opened a sequence. Both orders give the same tree.
-/

namespace PathRules

theorem Entries.eq_of_keys_of_get? {α : Type} {es fs : Entries α} (hes : es.keys.Nodup)
    (hkeys : es.keys = fs.keys) (hget : ∀ s, es.get? s = fs.get? s) : es = fs := by
  induction es generalizing fs with
  | nil =>
      cases fs with
      | nil => rfl
      | cons f fs => cases hkeys
  | cons e es ih =>
      cases fs with
      | nil => cases hkeys
      | cons f fs =>
          obtain ⟨k, x⟩ := e
          obtain ⟨k', y⟩ := f
          obtain ⟨hk, hrest⟩ := List.cons.inj hkeys
          obtain ⟨hnew, hnodup⟩ := nodup_keys_cons.mp hes
          cases hk
          have hfirst : x = y := by simpa [get?] using hget k
          have hbelow : ∀ s, get? es s = get? fs s := by
            intro s
            by_cases hs : k = s
            · subst hs
              have hnew' : k ∉ keys fs := by rwa [keys, ← hrest]
              rw [get?_eq_none_iff.mpr hnew, get?_eq_none_iff.mpr hnew']
            · simpa only [get?, if_neg hs] using hget s
          rw [hfirst, ih hnodup hrest hbelow]

/-- The form of a node after a write at a key. -/
def Form.written (k : Key) : Form → Form
  | .scalar _ =>
      match k with
      | .index i => .sparse (i + 1)
      | .name _ => .map
  | .seq n | .sparse n =>
      match k.asIndex? with
      | some i => .sparse (max n (i + 1))
      | none => .map
  | .map => .map

theorem Form.written_opened (k : Key) (form : Form) : form.opened.written k = form.written k := by
  cases form <;> rfl

theorem Form.opened_written (k : Key) (form : Form) :
    (form.written k).opened = form.written k := by
  cases form with
  | scalar s => cases k <;> rfl
  | seq n => cases hk : k.asIndex? <;> simp [written, hk, opened]
  | sparse n => cases hk : k.asIndex? <;> simp [written, hk, opened]
  | map => rfl

namespace Node

variable {t u : Node} {k : Key} {rest a d : Address} {f : Node → Node}

/-- A node is its form with its children by text, and for a map the order of the texts. -/
theorem eq_of_form_of_get? (ht : t.WellFormed) (hu : u.WellFormed) (hform : t.form = u.form)
    (hkeys : t.form = .map → t.entries.keys = u.entries.keys)
    (hget : ∀ s, t.entries.get? s = u.entries.get? s) : t = u := by
  have hindex : ∀ {xs ys : List (Nat × Node)},
      (∀ s, (Sparse.named xs).get? s = (Sparse.named ys).get? s) →
      ∀ i, Sparse.find? xs i = Sparse.find? ys i := by
    intro xs ys h i
    rw [← Sparse.get?_named, ← Sparse.get?_named, h]
  cases ht with
  | scalar s =>
      cases hu <;> cases hform
      rfl
  | @seq xs hxs =>
      cases hu with
      | @seq ys hys =>
          congr 1
          apply List.ext_getElem?
          intro i
          rw [← Sparse.find?_ofList, ← Sparse.find?_ofList, hindex hget]
      | scalar s => cases hform
      | sparse hs hx => cases hform
      | map hes hx => cases hform
  | @sparse s hs hxs =>
      cases hu with
      | @sparse s' hs' hys =>
          have hitems := Sparse.eq_of_find? hs.ascending hs'.ascending (hindex hget)
          obtain ⟨span, items⟩ := s
          obtain ⟨span', items'⟩ := s'
          cases hform
          cases hitems
          rfl
      | scalar s => cases hform
      | seq hx => cases hform
      | map hes hx => cases hform
  | @map es hes hxs =>
      cases hu with
      | @map fs hfs hys =>
          have hsame : es = fs := Entries.eq_of_keys_of_get? hes (hkeys rfl) hget
          rw [hsame]
      | scalar s => cases hform
      | seq hx => cases hform
      | sparse hs hx => cases hform

theorem form_alter (t : Node) (k : Key) (fresh : Node) (f : Node → Node) :
    (t.alter k fresh f).form = t.form.written k := by
  cases t with
  | scalar s =>
      cases k with
      | index i =>
          simp [alter, prepare, containerFor, alterPrepared, form, Form.written, Sparse.insert,
            Sparse.empty, Sparse.ofLength]
      | name s => rfl
  | seq items =>
      cases hk : k.asIndex? <;>
        simp [alter, prepare, hk, alterPrepared, form, Form.written, Sparse.insert, Sparse.ofList]
  | sparse s =>
      cases hk : k.asIndex? <;>
        simp [alter, prepare, hk, alterPrepared, form, Form.written, Sparse.insert]
  | map es => rfl

theorem keys_entries_alter (fresh : Node) (f : Node → Node) (hmap : t.form.written k = .map) :
    (t.alter k fresh f).entries.keys =
      if k.text ∈ t.entries.keys then t.entries.keys else t.entries.keys ++ [k.text] := by
  rw [← form_alter t k fresh f] at hmap
  rw [← entries_prepare t k]
  rcases prepare_cases t k with ⟨es, he, -⟩ | ⟨s, i, he, -, -⟩
  · rw [alter, he]
    exact Entries.keys_insert es k.text _
  · rw [alter, he] at hmap
    cases hmap

theorem form_remove (ht : t.WellFormed) (ha : t.ReadsAlong a) :
    (t.remove a).form = t.form ∨ (t.remove a).form = t.form.opened := by
  cases a with
  | nil => exact Or.inl rfl
  | cons k rest =>
      rcases remove_opens_or_keeps ht ha with ⟨-, -, hform⟩ | ⟨-, hform, -⟩
      · exact Or.inr hform
      · exact Or.inl hform

theorem keys_entries_remove (ht : t.WellFormed) (hk : t.Reads k) :
    (t.remove (k :: rest)).entries.keys =
      if rest = [] then t.entries.keys.filter (· ≠ k.text) else t.entries.keys := by
  have htexts : (t.remove (k :: rest)).children.map (fun p => p.1.text) =
      if rest = [] then (t.children.map fun p => p.1.text).filter (· ≠ k.text)
        else t.children.map fun p => p.1.text := by
    rw [children_remove hk ht, List.map_filterMap]
    by_cases hrest : rest = []
    · rw [if_pos hrest, List.filter_map, ← List.filterMap_eq_filter, List.map_filterMap]
      apply List.filterMap_congr
      intro p _
      by_cases hp : p.1.text = k.text <;> simp [left, hrest, hp, Option.guard]
    · rw [if_neg hrest, ← List.filterMap_eq_map]
      apply List.filterMap_congr
      intro p _
      by_cases hp : p.1.text = k.text <;> simp [left, hrest, hp]
  rw [keys_entries, keys_entries, htexts, shape_remove ht hk]
  by_cases hrest : rest = [] <;> by_cases hmap : t.shape = .map <;>
    simp [hrest, hmap]

theorem remove_of_seek_eq_none (ht : t.WellFormed) (ha : t.ReadsAlong a)
    (h : t.seek a.place = none) : t.remove a = t := by
  have hnothing : [a].foldl Node.remove t = [].foldl Node.remove t := by
    apply foldl_remove_congr ht (by simpa using ha) (by simp)
    intro p _ hp
    suffices p ≠ a.place by simpa using this
    rintro rfl
    rw [h] at hp
    cases hp
  exact hnothing

/-- Changing a child and removing below the same node commute if they go on to different children,
or commute in the child that they share. -/
theorem remove_alter {k' : Key} {rest' : Address} {fresh : Node} (ht : t.WellFormed)
    (hk : k.Plain) (ha : t.ReadsAlong (k' :: rest')) (hwf : (t.alter k fresh f).WellFormed)
    (ha' : (t.alter k fresh f).ReadsAlong (k' :: rest'))
    (hwf' : ((t.remove (k' :: rest')).alter k fresh f).WellFormed)
    (hchild : k'.text = k.text → rest' ≠ [] ∧
      (f ((t.entries.get? k.text).getD fresh)).remove rest' =
        f (((t.entries.get? k.text).map (remove · rest')).getD fresh)) :
    (t.alter k fresh f).remove (k' :: rest') = (t.remove (k' :: rest')).alter k fresh f := by
  -- A write leaves no plain sequence, so the removal cannot open the form once more.
  have hleft : ((t.alter k fresh f).remove (k' :: rest')).form = t.form.written k := by
    rcases form_remove hwf ha' with h | h
    · rw [h, form_alter]
    · rw [h, form_alter, Form.opened_written]
  have hright : (t.remove (k' :: rest')).form.written k = t.form.written k := by
    rcases form_remove ht ha with h | h
    · rw [h]
    · rw [h, Form.written_opened]
  apply eq_of_form_of_get? (hwf.remove ha') hwf'
  · rw [hleft, form_alter, hright]
  · intro hmap
    rw [hleft] at hmap
    rw [keys_entries_remove hwf ha'.1, keys_entries_alter fresh _ hmap,
      keys_entries_alter fresh _ (hright.trans hmap), keys_entries_remove ht ha.1]
    by_cases hnil : rest' = []
    · have hne : k.text ≠ k'.text := fun h => (hchild h.symm).1 hnil
      by_cases hmem : k.text ∈ t.entries.keys <;> simp [hnil, hmem, hne]
    · simp [hnil]
  · intro s
    rw [get?_entries_remove hwf ha', get?_entries_alter (ht.remove ha) (Or.inr hk),
      get?_entries_remove ht ha, get?_entries_remove ht ha, get?_entries_alter ht (Or.inr hk)]
    by_cases hs : k.text = s
    · subst hs
      by_cases htext : k'.text = k.text
      · obtain ⟨hne, hsame⟩ := hchild htext
        simp [htext, hne, hsame]
      · simp [htext]
    · by_cases hs' : k'.text = s <;> simp [hs, hs']

/-- A write and a removal commute unless one of their places is at or below the other. -/
theorem remove_alterAt (ht : t.WellFormed) (hd : d.Plain)
    (hf : ∀ u : Node, u.WellFormed → (f u).WellFormed) (ha : t.ReadsAlong a)
    (ha' : (alterAt f d t).ReadsAlong a) (hp : ¬ Place.Touches d.place a.place) :
    (alterAt f d t).remove a = alterAt f d (t.remove a) := by
  -- Along the address of the write, as long as the removal goes to the same child.
  induction d generalizing t a with
  | nil => exact absurd (Or.inl List.nil_prefix) hp
  | cons k rest ih =>
      cases a with
      | nil => exact absurd (Or.inr List.nil_prefix) hp
      | cons k' rest' =>
          obtain ⟨hk, hrest⟩ := List.forall_mem_cons.mp hd
          obtain ⟨fresh, halter, hfresh, hempty, -⟩ := alterAt_cons f k rest
          have hwf := ht.alterAt hd hf
          have hwf' := (ht.remove ha).alterAt hd hf
          rw [halter] at ha' hwf hwf' ⊢
          rw [halter]
          apply remove_alter ht hk ha hwf ha' hwf'
          intro htext
          have hbelow : ¬ Place.Touches (Address.place rest) (Address.place rest') := fun h =>
            hp (Place.touches_cons_cons.mpr ⟨htext.symm, h⟩)
          have hne : rest' ≠ [] := by
            rintro rfl
            exact hbelow (Or.inr List.nil_prefix)
          have hreads := ha'.2 _
            (by rw [get?_entries_alter ht (Or.inr hk), if_pos htext.symm])
          refine ⟨hne, ?_⟩
          cases hc : t.entries.get? k.text with
          | some c =>
              rw [hc, Option.getD_some] at hreads
              exact ih (ht.get? hc) hrest (ha.2 c (htext ▸ hc)) hreads hbelow
          | none =>
              -- Nothing is there to remove, neither before the write nor after it.
              rw [hc, Option.getD_none] at hreads
              rw [Option.getD_none, Option.map_none, Option.getD_none]
              refine remove_of_seek_eq_none (hfresh.alterAt hrest hf) hreads ?_
              rw [seek_alterAt_of_not_touches hfresh hrest hbelow]
              cases rest' with
              | nil => exact absurd rfl hne
              | cons k'' rest' => simp [hempty, Entries.get?]

/-- Every key of the address leads to the child with its text, which is there. -/
def Holds (t : Node) : Address → Prop
  | [] => True
  | k :: rest => t.Reads k ∧ ∃ c, t.entries.get? k.text = some c ∧ c.Holds rest

theorem Holds.readsAlong (h : t.Holds a) : t.ReadsAlong a := by
  induction a generalizing t with
  | nil => trivial
  | cons k rest ih =>
      obtain ⟨hk, c, hc, hrest⟩ := h
      refine ⟨hk, ?_⟩
      intro c' hc'
      cases hc.symm.trans hc'
      exact ih hrest

theorem Holds.of_at {n : Node} (ht : t.WellFormed) (ha : Tree.At t a n) : t.Holds a := by
  induction ha with
  | root => trivial
  | child hmem _ ih =>
      obtain ⟨hlists, hget⟩ := (mem_children_iff ht).mp hmem
      exact ⟨Reads.of_lists hlists, _, hget, ih (ht.of_mem_children hmem)⟩

theorem Holds.alterAt (h : t.Holds a) (ht : t.WellFormed) (hd : d.Plain)
    (hp : ¬ Place.Touches d.place a.place) : (alterAt f d t).Holds a := by
  induction d generalizing t a with
  | nil => exact absurd (Or.inl List.nil_prefix) hp
  | cons k rest ih =>
      cases a with
      | nil => trivial
      | cons k' rest' =>
          obtain ⟨hk, hrest⟩ := List.forall_mem_cons.mp hd
          obtain ⟨hk', c, hc, hbelow⟩ := h
          obtain ⟨fresh, halter, -⟩ := alterAt_cons f k rest
          rw [halter]
          refine ⟨hk'.alter k fresh _, ?_⟩
          rw [get?_entries_alter ht (Or.inr hk)]
          by_cases htext : k.text = k'.text
          · have hapart : ¬ Place.Touches (Address.place rest) (Address.place rest') := fun h =>
              hp (Place.touches_cons_cons.mpr ⟨htext, h⟩)
            rw [if_pos htext, htext, hc, Option.getD_some]
            exact ⟨_, rfl, ih hbelow (ht.get? hc) hrest hapart⟩
          · rw [if_neg htext]
            exact ⟨c, hc, hbelow⟩

/-- A write commutes with removals that it does not touch. -/
theorem foldl_remove_alterAt {as : List Address} (ht : t.WellFormed) (hd : d.Plain)
    (hf : ∀ u : Node, u.WellFormed → (f u).WellFormed) (has : ∀ a ∈ as, t.ReadsAlong a)
    (has' : ∀ a ∈ as, (alterAt f d t).ReadsAlong a)
    (hp : ∀ a ∈ as, ¬ Place.Touches d.place a.place) :
    as.foldl Node.remove (alterAt f d t) = alterAt f d (as.foldl Node.remove t) := by
  induction as generalizing t with
  | nil => rfl
  | cons a as ih =>
      obtain ⟨ha, has⟩ := List.forall_mem_cons.mp has
      obtain ⟨ha', has'⟩ := List.forall_mem_cons.mp has'
      obtain ⟨hpa, hp⟩ := List.forall_mem_cons.mp hp
      have hone := remove_alterAt ht hd hf ha ha' hpa
      rw [List.foldl_cons, List.foldl_cons, hone]
      refine ih (ht.remove ha) (fun b hb => (has b hb).remove ht ha) (fun b hb => ?_) hp
      rw [← hone]
      exact (has' b hb).remove (ht.alterAt hd hf) ha'

end Node

end PathRules
