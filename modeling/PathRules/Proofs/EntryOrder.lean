import Mathlib.Data.List.Forall2
import Mathlib.Data.Option.Defs
import PathRules.Proofs.SelectOrder
import PathRules.Proofs.WriteRemoval

/-!
# Trees up to the order of entries

Two working trees are akin if they have nodes of the same form at the same places. They differ then
in the order in which maps list their entries and in nothing else, and the trees of two values are
akin if the values are alike. Akin trees have akin children under the same keys, in the same order
but for maps. Writing akin values to them and removing the same addresses from them gives akin
trees again.
-/

namespace PathRules

/-- A map is alike itself with its entries in another order. -/
theorem Value.alike_of_perm {es fs : Entries Value} (hes : es.keys.Nodup) (h : es.Perm fs) :
    (map es).Alike (.map fs) := by
  have hkeys : es.keys.Perm fs.keys := h.map Prod.fst
  apply Alike.map hkeys
  intro k x y hx hy
  have hmem := h.mem_iff.mp (Entries.mem_of_get? hx)
  rw [Entries.get?_of_mem (hkeys.nodup_iff.mp hes) hmem] at hy
  cases hy
  exact Alike.refl x

/-- The key is the one that its text denotes. -/
def Key.Denoted (k : Key) : Prop :=
  Key.ofText k.text = k

theorem Key.denoted_ofText (s : String) : (Key.ofText s).Denoted := by
  rw [Denoted]
  cases hr : Key.readIndex? s with
  | none => simp [ofText, hr]
  | some i => simp [ofText, hr, readIndex?_natText (lt_indexBound_of_readIndex? hr)]

theorem Key.Denoted.plain {k : Key} (hk : k.Denoted) : k.Plain := by
  rw [← hk]
  exact Key.plain_ofText k.text

/-- A name that denotes itself addresses no position. -/
theorem Key.Denoted.asIndex?_name {s : String} (hs : (Key.name s).Denoted) :
    (Key.name s).asIndex? = none := by
  cases hr : Key.readIndex? s with
  | none => exact hr
  | some i => simp [Denoted, ofText, hr] at hs

def Address.Denoted (a : Address) : Prop :=
  ∀ k ∈ a, k.Denoted

theorem Address.Denoted.plain {a : Address} (ha : a.Denoted) : a.Plain :=
  fun k hk => (ha k hk).plain

theorem Form.written_comm {k k' : Key} (hk : k.Denoted) (hk' : k'.Denoted) (form : Form) :
    (form.written k).written k' = (form.written k').written k := by
  cases k with
  | index i =>
      cases k' with
      | index j => cases form <;> simp [written] <;> omega
      | name s => cases form <;> simp [written, hk'.asIndex?_name]
  | name s =>
      cases k' with
      | index j => cases form <;> simp [written, hk.asIndex?_name]
      | name s' => cases form <;> simp [written, hk.asIndex?_name, hk'.asIndex?_name]

theorem Sparse.map_fst_eq_of_named {α : Type} {xs ys : List (Nat × α)}
    (hxs : xs.Pairwise fun a b => a.1 < b.1) (hys : ys.Pairwise fun a b => a.1 < b.1)
    (h : ∀ s, ((named xs).get? s).isSome = ((named ys).get? s).isSome) :
    xs.map Prod.fst = ys.map Prod.fst := by
  have hmem : ∀ {zs : List (Nat × α)}, (zs.Pairwise fun a b => a.1 < b.1) → ∀ i,
      i ∈ zs.map Prod.fst ↔ ((named zs).get? (Numeral.natText i)).isSome := by
    intro zs hzs i
    simp [get?_named, Option.isSome_iff_exists, find?_eq_some_iff hzs]
  have : Std.Asymm fun i j : Nat => i < j := ⟨fun _ _ h => Nat.lt_asymm h⟩
  apply (List.pairwise_map.mpr hxs).eq_of_mem_iff (List.pairwise_map.mpr hys)
  intro i
  rw [hmem hxs, hmem hys, h]

/-- What a form shows in a view. -/
def Form.shape : Form → Shape
  | .scalar s => .scalar s
  | .seq n | .sparse n => .seq n
  | .map => .map

namespace Node

@[simp] theorem shape_form (t : Node) : t.form.shape = t.shape := by
  cases t <;> rfl

/-- Equality up to the order of entries. -/
def Akin (t u : Node) : Prop :=
  ∀ p, (t.seek p).map form = (u.seek p).map form

variable {t u v c c' : Node} {s : String}

theorem Akin.refl (t : Node) : Akin t t :=
  fun _ => rfl

theorem Akin.symm (h : Akin t u) : Akin u t :=
  fun p => (h p).symm

theorem Akin.trans (h : Akin t u) (h' : Akin u v) : Akin t v :=
  fun p => (h p).trans (h' p)

theorem Akin.form_eq (h : Akin t u) : t.form = u.form :=
  Option.some.inj (h [])

theorem Akin.shape_eq (h : Akin t u) : t.shape = u.shape := by
  rw [← shape_form, h.form_eq, shape_form]

theorem Akin.view_eq (h : Akin t u) (p : Place) : t.view p = u.view p := by
  have hview : ∀ n : Node, n.view p = ((n.seek p).map form).map Form.shape := by
    intro n
    simp [view, Function.comp_def]
  rw [hview, hview, h p]

theorem isSome_get?_of_view_eq (h : t.view = u.view) (s : String) :
    (t.entries.get? s).isSome = (u.entries.get? s).isSome := by
  have hview : ∀ n : Node, (n.view [s]).isSome = (n.entries.get? s).isSome := by
    intro n
    cases hc : n.entries.get? s <;> simp [view, hc]
  rw [← hview, ← hview, h]

theorem Akin.isSome_get? (h : Akin t u) (s : String) :
    (t.entries.get? s).isSome = (u.entries.get? s).isSome :=
  isSome_get?_of_view_eq (funext h.view_eq) s

theorem Akin.get? (h : Akin t u) (s : String) :
    Option.Rel Akin (t.entries.get? s) (u.entries.get? s) := by
  cases hc : t.entries.get? s with
  | none =>
      cases hc' : u.entries.get? s with
      | none => exact Option.Rel.none
      | some c' =>
          have hone := h [s]
          simp [hc, hc'] at hone
  | some c =>
      cases hc' : u.entries.get? s with
      | none =>
          have hone := h [s]
          simp [hc, hc'] at hone
      | some c' =>
          refine Option.Rel.some fun p => ?_
          have hbelow := h (s :: p)
          simpa [hc, hc'] using hbelow

/-- Nodes of the same form with akin entries are akin. -/
theorem akin_of_get? (hform : t.form = u.form)
    (h : ∀ s, Option.Rel Akin (t.entries.get? s) (u.entries.get? s)) : Akin t u := by
  intro p
  cases p with
  | nil => exact congrArg some hform
  | cons s p =>
      have hs := h s
      rw [seek_cons, seek_cons]
      generalize t.entries.get? s = x at hs ⊢
      generalize u.entries.get? s = y at hs ⊢
      cases hs with
      | none => rfl
      | some hc => exact hc p

theorem Akin.child (h : Akin t u) (hc : t.entries.get? s = some c) :
    ∃ c', u.entries.get? s = some c' ∧ Akin c c' := by
  have hs := h.get? s
  rw [hc] at hs
  cases hu : u.entries.get? s with
  | none =>
      rw [hu] at hs
      cases hs
  | some c' =>
      rw [hu] at hs
      cases hs with
      | some hcc => exact ⟨c', rfl, hcc⟩

theorem Akin.getD (h : Akin t u) (s : String) (fresh : Node) :
    Akin ((t.entries.get? s).getD fresh) ((u.entries.get? s).getD fresh) := by
  have hs := h.get? s
  generalize t.entries.get? s = x at hs ⊢
  generalize u.entries.get? s = y at hs ⊢
  cases hs with
  | none => exact Akin.refl fresh
  | some hcc => exact hcc

theorem Akin.mem_children {k : Key} (h : Akin t u) (ht : t.WellFormed) (hu : u.WellFormed)
    (hmem : (k, c) ∈ t.children) : ∃ c', (k, c') ∈ u.children ∧ Akin c c' := by
  obtain ⟨hlists, hget⟩ := (mem_children_iff ht).mp hmem
  obtain ⟨c', hc', hcc⟩ := h.child hget
  rw [h.shape_eq] at hlists
  exact ⟨c', (mem_children_iff hu).mpr ⟨hlists, hc'⟩, hcc⟩

theorem Akin.of_mem_children {k : Key} (h : Akin t u) (ht : t.WellFormed) (hu : u.WellFormed)
    (hmem : (k, c) ∈ t.children) (hmem' : (k, c') ∈ u.children) : Akin c c' := by
  obtain ⟨c'', hget, hcc⟩ := h.child ((mem_children_iff ht).mp hmem).2
  rw [((mem_children_iff hu).mp hmem').2] at hget
  cases hget
  exact hcc

theorem Akin.exists_at {a : Address} {n : Node} (h : Akin t u) (ht : t.WellFormed)
    (hu : u.WellFormed) (ha : Tree.At t a n) : ∃ n', Tree.At u a n' ∧ Akin n n' := by
  induction ha generalizing u with
  | root t => exact ⟨u, Tree.At.root u, h⟩
  | child hmem _ ih =>
      obtain ⟨c', hc', hcc⟩ := h.mem_children ht hu hmem
      obtain ⟨n', hn', hnn⟩ := ih hcc (ht.of_mem_children hmem) (hu.of_mem_children hc')
      exact ⟨n', Tree.At.child hc' hn', hnn⟩

theorem Akin.of_at {a : Address} {n n' : Node} (h : Akin t u) (ht : t.WellFormed)
    (hu : u.WellFormed) (ha : Tree.At t a n) (ha' : Tree.At u a n') : Akin n n' := by
  obtain ⟨n'', hn'', hnn⟩ := h.exists_at ht hu ha
  have hsame : n'' = n' := Option.some.inj ((hn''.lookup_eq hu).symm.trans (ha'.lookup_eq hu))
  rwa [hsame] at hnn

theorem rel_akin_refl (x : Option Node) : Option.Rel Akin x x := by
  cases x with
  | none => exact Option.Rel.none
  | some c => exact Option.Rel.some (Akin.refl c)

theorem forall₂_of_akin_seq {xs ys : List Node} (h : Akin (seq xs) (seq ys)) :
    List.Forall₂ Akin xs ys := by
  rw [List.forall₂_iff_get]
  have hlength : xs.length = ys.length := by simpa [form] using h.form_eq
  refine ⟨hlength, fun i hi hi' => ?_⟩
  have hget := h.get? (Numeral.natText i)
  simp only [entries, Sparse.get?_named, Sparse.find?_ofList, List.getElem?_eq_getElem hi,
    List.getElem?_eq_getElem hi'] at hget
  cases hget with
  | some hone => exact hone

theorem akin_seq {xs ys : List Node} (h : List.Forall₂ Akin xs ys) : Akin (seq xs) (seq ys) := by
  have hlength := h.length_eq
  apply akin_of_get?
  · simp [form, hlength]
  · intro s
    by_cases hs : ∃ i, Numeral.natText i = s
    · obtain ⟨i, rfl⟩ := hs
      simp only [entries, Sparse.get?_named, Sparse.find?_ofList]
      by_cases hi : i < xs.length
      · rw [List.getElem?_eq_getElem hi, List.getElem?_eq_getElem (hlength ▸ hi)]
        exact Option.Rel.some (h.get hi (hlength ▸ hi))
      · rw [List.getElem?_eq_none (not_lt.mp hi), List.getElem?_eq_none (hlength ▸ not_lt.mp hi)]
        exact Option.Rel.none
    · have hne := not_exists.mp hs
      rw [entries, entries, Sparse.get?_named_eq_none hne, Sparse.get?_named_eq_none hne]
      exact Option.Rel.none

section Writing

variable {f g : Node → Node} {d e : Address} {k : Key}

theorem Akin.alter {fresh : Node} (h : Akin t u) (ht : t.WellFormed) (hu : u.WellFormed)
    (hk : k.Plain)
    (hfg : Akin (f ((t.entries.get? k.text).getD fresh)) (g ((u.entries.get? k.text).getD fresh))) :
    Akin (t.alter k fresh f) (u.alter k fresh g) := by
  apply akin_of_get?
  · rw [form_alter, form_alter, h.form_eq]
  · intro s
    rw [get?_entries_alter ht (Or.inr hk), get?_entries_alter hu (Or.inr hk)]
    by_cases hs : k.text = s
    · rw [if_pos hs, if_pos hs]
      exact Option.Rel.some hfg
    · rw [if_neg hs, if_neg hs]
      exact h.get? s

theorem prepare_containerFor (k : Key) : (containerFor k).prepare k = null.prepare k := by
  cases k <;> rfl

/-- A write at an address changes the child at its first key, if need be one made from nothing. -/
theorem alterAt_cons_null (f : Node → Node) (k : Key) (rest : Address) (t : Node) :
    Node.alterAt f (k :: rest) t = t.alter k null (Node.alterAt f rest) := by
  cases rest with
  | nil => rfl
  | cons next rest =>
      have hfresh : Node.alterAt f (next :: rest) (containerFor next) =
          Node.alterAt f (next :: rest) null := by
        cases rest <;> simp only [Node.alterAt, Node.alter, prepare_containerFor]
      have hgetD : ∀ x : Option Node, Node.alterAt f (next :: rest) (x.getD (containerFor next)) =
          Node.alterAt f (next :: rest) (x.getD null) := by
        intro x
        cases x with
        | none => exact hfresh
        | some c => rfl
      simp only [Node.alterAt, Node.alter, alterPrepared, hgetD]

/-- Akin writes to the same address of akin trees leave akin trees. -/
theorem Akin.alterAt (h : Akin t u) (ht : t.WellFormed) (hu : u.WellFormed) (hd : d.Plain)
    (hfg : ∀ a b : Node, a.WellFormed → b.WellFormed → Akin a b → Akin (f a) (g b)) :
    Akin (Node.alterAt f d t) (Node.alterAt g d u) := by
  induction d generalizing t u with
  | nil => exact hfg t u ht hu h
  | cons k rest ih =>
      obtain ⟨hk, hrest⟩ := List.forall_mem_cons.mp hd
      have hnull := WellFormed.scalar Scalar.null
      rw [alterAt_cons_null, alterAt_cons_null]
      exact h.alter ht hu hk
        (ih (h.getD _ _) (ht.getD_get? hnull _) (hu.getD_get? hnull _) hrest)

/-- Writes at addresses that do not touch commute. -/
theorem alterAt_alterAt (ht : t.WellFormed) (hd : d.Denoted) (he : e.Denoted)
    (hf : ∀ u : Node, u.WellFormed → (f u).WellFormed)
    (hg : ∀ u : Node, u.WellFormed → (g u).WellFormed)
    (hp : ¬ Place.Touches d.place e.place) :
    Akin (Node.alterAt f d (Node.alterAt g e t)) (Node.alterAt g e (Node.alterAt f d t)) := by
  -- Along the keys that the addresses share.
  induction d generalizing t e with
  | nil => exact absurd (Or.inl List.nil_prefix) hp
  | cons k rest ih =>
      cases e with
      | nil => exact absurd (Or.inr List.nil_prefix) hp
      | cons k' rest' =>
          obtain ⟨hk, hrest⟩ := List.forall_mem_cons.mp hd
          obtain ⟨hk', hrest'⟩ := List.forall_mem_cons.mp he
          have hnull := WellFormed.scalar Scalar.null
          have hslot := fun s => ht.getD_get? hnull s
          have hwf : (t.alter k null (Node.alterAt f rest)).WellFormed :=
            ht.alter (Or.inr hk.plain) ((hslot _).alterAt (Address.Denoted.plain hrest) hf)
          have hwf' : (t.alter k' null (Node.alterAt g rest')).WellFormed :=
            ht.alter (Or.inr hk'.plain) ((hslot _).alterAt (Address.Denoted.plain hrest') hg)
          simp only [alterAt_cons_null]
          apply akin_of_get?
          · simp only [form_alter]
            exact Form.written_comm hk' hk t.form
          · intro s
            rw [get?_entries_alter hwf' (Or.inr hk.plain),
              get?_entries_alter hwf (Or.inr hk'.plain),
              get?_entries_alter ht (Or.inr hk.plain), get?_entries_alter ht (Or.inr hk'.plain),
              get?_entries_alter ht (Or.inr hk.plain), get?_entries_alter ht (Or.inr hk'.plain)]
            by_cases htext : k.text = k'.text
            · have hbelow : ¬ Place.Touches (Address.place rest) (Address.place rest') := fun h =>
                hp (Place.touches_cons_cons.mpr ⟨htext, h⟩)
              by_cases hs : k'.text = s
              · simp only [htext, hs, if_true, Option.getD_some]
                exact Option.Rel.some (ih (hslot _) hrest hrest' hbelow)
              · simp only [htext, if_neg hs]
                exact rel_akin_refl _
            · by_cases hs : k.text = s
              · have hs' : k'.text ≠ s := fun h => htext (hs.trans h.symm)
                simp only [hs, hs', Ne.symm hs', if_true, if_false]
                exact rel_akin_refl _
              · simp only [hs, Ne.symm htext, htext, if_false]
                exact rel_akin_refl _

end Writing

section Removing

variable {a : Address} {as : List Address}

theorem Akin.readsAlong (h : Akin t u) (ha : t.ReadsAlong a) : u.ReadsAlong a := by
  induction a generalizing t u with
  | nil => trivial
  | cons k rest ih =>
      refine ⟨ha.1.congr h.shape_eq.symm, ?_⟩
      intro c' hc'
      obtain ⟨c, hc, hcc⟩ := h.symm.child hc'
      exact ih hcc.symm (ha.2 c hc)

theorem Akin.remove (h : Akin t u) (ht : t.WellFormed) (hu : u.WellFormed) (ha : t.ReadsAlong a) :
    Akin (t.remove a) (u.remove a) := by
  induction a generalizing t u with
  | nil => exact h
  | cons k rest ih =>
      have ha' := h.readsAlong ha
      have hsome := h.isSome_get? k.text
      apply akin_of_get?
      · rcases remove_opens_or_keeps ht ha with ⟨hrest, hs, hform⟩ | ⟨hno, hform, -⟩
        · rcases remove_opens_or_keeps hu ha' with ⟨-, -, hform'⟩ | ⟨hno', -, -⟩
          · rw [hform, hform', h.form_eq]
          · exact absurd ⟨hrest, hsome ▸ hs⟩ hno'
        · rcases remove_opens_or_keeps hu ha' with ⟨hrest, hs, -⟩ | ⟨-, hform', -⟩
          · exact absurd ⟨hrest, hsome ▸ hs⟩ hno
          · rw [hform, hform', h.form_eq]
      · intro s
        rw [get?_entries_remove ht ha, get?_entries_remove hu ha']
        by_cases hs : k.text = s
        · subst hs
          by_cases hrest : rest = []
          · simp only [hrest, if_true]
            exact Option.Rel.none
          · simp only [if_neg hrest, if_true]
            cases hc : t.entries.get? k.text with
            | none =>
                have hnone : u.entries.get? k.text = none := by
                  rw [hc] at hsome
                  simpa using hsome.symm
                rw [hnone]
                exact Option.Rel.none
            | some c =>
                obtain ⟨c', hc', hcc⟩ := h.child hc
                rw [hc']
                exact Option.Rel.some (ih hcc (ht.get? hc) (hu.get? hc') (ha.2 c hc))
        · rw [if_neg hs, if_neg hs]
          exact h.get? s

theorem Akin.foldl_remove (h : Akin t u) (ht : t.WellFormed) (hu : u.WellFormed)
    (has : ∀ a ∈ as, t.ReadsAlong a) :
    Akin (as.foldl Node.remove t) (as.foldl Node.remove u) := by
  induction as generalizing t u with
  | nil => exact h
  | cons a as ih =>
      obtain ⟨ha, has⟩ := List.forall_mem_cons.mp has
      exact ih (h.remove ht hu ha) (ht.remove ha) (hu.remove (h.readsAlong ha))
        fun b hb => (has b hb).remove ht ha

end Removing

section Values

theorem keys_entries_perm (ht : t.WellFormed) (hu : u.WellFormed)
    (h : ∀ s, (t.entries.get? s).isSome = (u.entries.get? s).isSome) :
    t.entries.keys.Perm u.entries.keys := by
  rw [List.perm_ext_iff_of_nodup ht.nodup_keys_entries hu.nodup_keys_entries]
  intro s
  rw [Entries.mem_keys_iff, Entries.mem_keys_iff, ← Option.isSome_iff_exists,
    ← Option.isSome_iff_exists, h]

theorem alike_map_entries {F : Node → Value} (ht : t.WellFormed) (hu : u.WellFormed)
    (hkeys : ∀ s, (t.entries.get? s).isSome = (u.entries.get? s).isSome)
    (h : ∀ s c c', t.entries.get? s = some c → u.entries.get? s = some c' → (F c).Alike (F c')) :
    (Value.map (t.entries.map fun e => (e.1, F e.2))).Alike
      (.map (u.entries.map fun e => (e.1, F e.2))) := by
  apply Value.Alike.map
  · rw [Entries.keys_map, Entries.keys_map]
    exact keys_entries_perm ht hu hkeys
  · intro s x y hx hy
    rw [Entries.get?_map] at hx hy
    obtain ⟨c, hc, rfl⟩ := Option.map_eq_some_iff.mp hx
    obtain ⟨c', hc', rfl⟩ := Option.map_eq_some_iff.mp hy
    exact h s c c' hc hc'

/-- The data without gaps depends on the view alone, but for the order of entries. -/
theorem alike_toValue_of_view_eq (ht : t.WellFormed) (hu : u.WellFormed) (h : t.view = u.view) :
    (t.toValue false).Alike (u.toValue false) := by
  induction t using Tree.induction generalizing u with
  | step t ih =>
      have hshape : t.shape = u.shape := Option.some.inj (congrFun h [])
      have hkeys := isSome_get?_of_view_eq h
      have hchild : ∀ s c c', t.entries.get? s = some c → u.entries.get? s = some c' →
          (c.toValue false).Alike (c'.toValue false) := by
        intro s c c' hc hc'
        obtain ⟨k, hmem, -⟩ := (get?_entries_iff ht).mp hc
        apply ih k c hmem (ht.get? hc) (hu.get? hc')
        funext p
        have hp := congrFun h (s :: p)
        rwa [view_cons, view_cons, hc, hc'] at hp
      cases hs : t.shape with
      | scalar s =>
          cases t <;> cases hs
          cases u <;> cases hshape
          exact Value.Alike.scalar s
      | map =>
          cases t <;> cases hs
          cases u <;> cases hshape
          simp only [toValue, toEntries_eq_map]
          exact alike_map_entries ht hu hkeys hchild
      | seq n =>
          obtain ⟨ps, hps, hentries, hvalue⟩ := exists_positions ht hs
          obtain ⟨qs, hqs, hentries', hvalue'⟩ := exists_positions hu (hshape.symm.trans hs)
          rw [hentries, hentries'] at hchild hkeys
          rw [hvalue, hvalue']
          apply Value.alike_seq_of_positions (Sparse.map_fst_eq_of_named hps hqs hkeys)
          rintro ⟨i, c⟩ hc ⟨j, c'⟩ hc' rfl
          apply hchild (Numeral.natText i)
          · rw [Sparse.get?_named, Sparse.find?_of_mem hps hc]
          · rw [Sparse.get?_named, Sparse.find?_of_mem hqs hc']

/-- The data of akin trees. -/
theorem Akin.alike_toValue (h : Akin t u) (ht : t.WellFormed) (hu : u.WellFormed)
    (keepIndices : Bool) : (t.toValue keepIndices).Alike (u.toValue keepIndices) := by
  cases keepIndices with
  | false => exact alike_toValue_of_view_eq ht hu (funext h.view_eq)
  | true =>
      induction t using Tree.induction generalizing u with
      | step t ih =>
          have hkeys := h.isSome_get?
          have hchild : ∀ s c c', t.entries.get? s = some c → u.entries.get? s = some c' →
              (c.toValue true).Alike (c'.toValue true) := by
            intro s c c' hc hc'
            obtain ⟨k, hmem, -⟩ := (get?_entries_iff ht).mp hc
            obtain ⟨c'', hc'', hcc⟩ := h.child hc
            rw [hc'] at hc''
            cases hc''
            exact ih k c hmem hcc (ht.get? hc) (hu.get? hc')
          have hform := h.form_eq
          cases t with
          | scalar s =>
              cases u <;> cases hform
              exact Value.Alike.scalar s
          | seq xs =>
              cases u with
              | seq ys =>
                  simp only [toValue, toItems_eq_map]
                  apply Value.Alike.seq (by simpa [form] using hform)
                  intro i x y hx hy
                  rw [List.getElem?_map] at hx hy
                  obtain ⟨c, hc, rfl⟩ := Option.map_eq_some_iff.mp hx
                  obtain ⟨c', hc', rfl⟩ := Option.map_eq_some_iff.mp hy
                  apply hchild (Numeral.natText i)
                  · rw [entries, Sparse.get?_named, Sparse.find?_ofList, hc]
                  · rw [entries, Sparse.get?_named, Sparse.find?_ofList, hc']
              | scalar s => cases hform
              | sparse s => cases hform
              | map es => cases hform
          | sparse s =>
              cases u with
              | sparse s' =>
                  rw [toValue_of_ne_seq rfl (by simp), toValue_of_ne_seq rfl (by simp)]
                  exact alike_map_entries ht hu hkeys hchild
              | scalar s' => cases hform
              | seq items => cases hform
              | map es => cases hform
          | map es =>
              cases u <;> cases hform
              rw [toValue_of_ne_seq rfl (by simp), toValue_of_ne_seq rfl (by simp)]
              exact alike_map_entries ht hu hkeys hchild

theorem akin_ofValue {v w : Value} (h : v.Alike w) : Akin (ofValue v) (ofValue w) := by
  have hform : ∀ {x y : Value}, x.Alike y → (ofValue x).form = (ofValue y).form := by
    intro x y hxy
    cases hxy with
    | scalar s => rfl
    | seq hlength _ => simp [ofValue, form, ofItems_eq_map, hlength]
    | map _ _ => rfl
  intro p
  rw [seek_ofValue_eq_map, seek_ofValue_eq_map]
  cases hx : v.seek p with
  | some x =>
      obtain ⟨y, hy, hxy⟩ := h.seek hx
      rw [hy]
      exact congrArg some (hform hxy)
  | none =>
      cases hy : w.seek p with
      | none => rfl
      | some y =>
          obtain ⟨x, hx', -⟩ := h.symm.seek hy
          rw [hx] at hx'
          cases hx'

end Values

end Node

end PathRules
