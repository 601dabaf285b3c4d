import PathRules.Proofs.TreePlaces

/-!
# Writing into a working tree

To hold a key a node may have to change its shape: a sequence becomes sparse or a map, and a scalar
gives way. None of this moves a child away from the text of its key. So changing the child at a
key changes what is found under the text of that key and nothing else, provided that the key spells
itself: a sequence takes a name like `007` for a position whose numeral is another text.
-/

namespace PathRules

/-- If the key addresses a position, then its text is the numeral of the position. -/
def Key.Plain (k : Key) : Prop :=
  ∀ i, k.asIndex? = some i → k.text = Numeral.natText i

instance (k : Key) : Decidable k.Plain :=
  decidable_of_iff (k.asIndex?.all fun i => k.text = Numeral.natText i)
    (by simp [Key.Plain, Option.all_eq_true])

theorem Key.plain_index (i : Nat) : (Key.index i).Plain := by
  intro j hj
  cases hj
  rfl

theorem Key.plain_ofText (s : String) : (Key.ofText s).Plain := by
  intro i hi
  cases hr : Key.readIndex? s with
  | none => simp [Key.ofText, hr, Key.asIndex?] at hi
  | some j =>
      simp only [Key.ofText, hr, Key.asIndex?, Option.some.injEq] at hi ⊢
      rw [hi]
      rfl

theorem Key.Plain.text_ofText {s : String} (hs : (Key.name s).Plain) : (Key.ofText s).text = s := by
  rw [Key.ofText]
  cases hr : Key.readIndex? s with
  | none => rfl
  | some i => exact (hs i hr).symm

namespace Node

theorem entries_prepare (t : Node) (k : Key) : (t.prepare k).entries = t.entries := by
  cases t with
  | scalar s => cases k <;> rfl
  | seq items => cases hk : k.asIndex? <;> simp [prepare, hk, entries]
  | sparse s => cases hk : k.asIndex? <;> simp [prepare, hk, entries]
  | map es => rfl

/-- The text under which a child that is written at a key is listed. A sequence takes a name that is
a numeral for a position, whose numeral may be another text. -/
def slot (t : Node) (k : Key) : String :=
  match t.shape, k.asIndex? with
  | .seq _, some i => Numeral.natText i
  | _, _ => k.text

theorem slot_eq_text {t : Node} {k : Key} (hk : t.shape = .map ∨ k.Plain) :
    t.slot k = k.text := by
  rw [slot]
  split
  · rename_i n i hshape hi
    rcases hk with hmap | hplain
    · rw [hmap] at hshape
      cases hshape
    · exact (hplain i hi).symm
  · rfl

/-- A prepared node is a map that takes the text of the key, or a sparse sequence that takes the
position that the key addresses. -/
theorem prepare_cases (t : Node) (k : Key) :
    (∃ es, t.prepare k = map es ∧ t.slot k = k.text) ∨
      ∃ s i, t.prepare k = sparse s ∧ k.asIndex? = some i ∧ t.slot k = Numeral.natText i := by
  cases t with
  | scalar s =>
      cases k with
      | index i => exact Or.inr ⟨.empty, i, rfl, rfl, rfl⟩
      | name s => exact Or.inl ⟨[], rfl, rfl⟩
  | seq items =>
      cases hk : k.asIndex? with
      | none =>
          exact Or.inl ⟨Sparse.named (Sparse.ofList items).items, by simp only [prepare, hk],
            by simp only [slot, shape, hk]⟩
      | some i =>
          exact Or.inr ⟨Sparse.ofList items, i, by simp only [prepare, hk], rfl,
            by simp only [slot, shape, hk]⟩
  | sparse s =>
      cases hk : k.asIndex? with
      | none =>
          exact Or.inl ⟨Sparse.named s.items, by simp only [prepare, hk],
            by simp only [slot, shape, hk]⟩
      | some i =>
          exact Or.inr ⟨s, i, by simp only [prepare, hk], rfl, by simp only [slot, shape, hk]⟩
  | map es => exact Or.inl ⟨es, rfl, rfl⟩

theorem WellFormed.named {items : List (Nat × Node)}
    (hitems : items.Pairwise fun a b => a.1 < b.1) (h : ∀ p ∈ items, p.2.WellFormed) :
    (Node.map (Sparse.named items)).WellFormed := by
  apply WellFormed.map (Sparse.nodup_keys_named hitems)
  intro e he
  obtain ⟨i, -, hi⟩ := Sparse.mem_named.mp he
  exact h _ hi

theorem WellFormed.ofList {items : List Node} (h : ∀ x ∈ items, x.WellFormed) :
    (Node.sparse (Sparse.ofList items)).WellFormed := by
  apply WellFormed.sparse (Sparse.sound_ofList items)
  intro p hp
  exact h _ (List.mem_of_getElem? (Sparse.mem_ofList.mp hp))

theorem wellFormed_containerFor (k : Key) : (containerFor k).WellFormed := by
  cases k with
  | index i =>
      exact WellFormed.sparse (Sparse.sound_ofLength 0) (by simp [Sparse.empty, Sparse.ofLength])
  | name s => exact WellFormed.map List.nodup_nil (by simp)

theorem WellFormed.prepare {t : Node} (ht : t.WellFormed) (k : Key) : (t.prepare k).WellFormed := by
  cases ht with
  | scalar s =>
      exact wellFormed_containerFor k
  | @seq items hx =>
      have hs := WellFormed.ofList hx
      cases hk : k.asIndex? with
      | none =>
          simp only [Node.prepare, hk]
          cases hs with
          | sparse hs hp => exact WellFormed.named hs.ascending hp
      | some i => simpa only [Node.prepare, hk] using hs
  | @sparse s hs hx =>
      cases hk : k.asIndex? with
      | none =>
          simp only [Node.prepare, hk]
          exact WellFormed.named hs.ascending hx
      | some i =>
          simp only [Node.prepare, hk]
          exact WellFormed.sparse hs hx
  | map hes hx => exact WellFormed.map hes hx

theorem get?_named_eq_get? (s : Sparse Node) {k : Key} {i : Nat}
    (htext : k.text = Numeral.natText i) : (Sparse.named s.items).get? k.text = s.get? i := by
  rw [htext, Sparse.get?_named, Sparse.get?]

/-- Changing the child at a key changes what is found under the text at which it is listed, and
nothing else. -/
theorem get?_entries_alter_slot {t : Node} (ht : t.WellFormed) (k : Key) (fresh : Node)
    (f : Node → Node) (s : String) :
    (t.alter k fresh f).entries.get? s =
      if t.slot k = s then some (f ((t.entries.get? (t.slot k)).getD fresh))
      else t.entries.get? s := by
  have hp := ht.prepare k
  rw [alter, ← entries_prepare t k]
  rcases prepare_cases t k with ⟨es, he, hslot⟩ | ⟨sp, i, he, hi, hslot⟩
  · rw [he, hslot]
    simp only [alterPrepared, entries, Entries.get?_insert]
  · rw [he] at hp ⊢
    cases hp with
    | sparse hs _ =>
        have hget : (Sparse.named sp.items).get? (t.slot k) = sp.get? i := by
          rw [hslot, Sparse.get?_named, Sparse.get?]
        simp only [alterPrepared, hi, Option.getD_some, entries, Sparse.insert, hget,
          Sparse.get?_named_put hs.ascending, ← hslot]

/-- Changing the child at a key changes what is found under the text of the key, and nothing
else. -/
theorem get?_entries_alter {t : Node} {k : Key} (ht : t.WellFormed) (hk : t.shape = .map ∨ k.Plain)
    (fresh : Node) (f : Node → Node) (s : String) :
    (t.alter k fresh f).entries.get? s =
      if k.text = s then some (f ((t.entries.get? k.text).getD fresh)) else t.entries.get? s := by
  rw [get?_entries_alter_slot ht, slot_eq_text hk]

theorem WellFormed.alter_slot {t : Node} {k : Key} {fresh : Node} {f : Node → Node}
    (ht : t.WellFormed) (hf : (f ((t.entries.get? (t.slot k)).getD fresh)).WellFormed) :
    (t.alter k fresh f).WellFormed := by
  have hp := ht.prepare k
  rw [← entries_prepare t k] at hf
  rw [Node.alter]
  rcases prepare_cases t k with ⟨es, he, hslot⟩ | ⟨sp, i, he, hi, hslot⟩
  · rw [he] at hp hf ⊢
    cases hp with
    | map hes hx =>
        rw [hslot] at hf
        apply WellFormed.map (Entries.nodup_keys_insert hes _ _)
        intro e hmem
        rcases Entries.mem_insert hmem with rfl | hmem
        · exact hf
        · exact hx e hmem
  · rw [he] at hp hf ⊢
    cases hp with
    | sparse hs hx =>
        simp only [entries, hslot, Sparse.get?_named] at hf
        simp only [alterPrepared, hi, Option.getD_some]
        apply WellFormed.sparse (hs.insert i _)
        intro p hmem
        rcases Sparse.mem_put hmem with rfl | hmem
        · exact hf
        · exact hx p hmem

theorem WellFormed.alter {t : Node} {k : Key} {fresh : Node} {f : Node → Node}
    (ht : t.WellFormed) (hk : t.shape = .map ∨ k.Plain)
    (hf : (f ((t.entries.get? k.text).getD fresh)).WellFormed) :
    (t.alter k fresh f).WellFormed := by
  apply ht.alter_slot
  rwa [slot_eq_text hk]

theorem shape_alter_of_map {t : Node} {k : Key} (ht : t.shape = .map) (fresh : Node)
    (f : Node → Node) : (t.alter k fresh f).shape = .map := by
  cases t <;> cases ht
  rfl

/-- Writing below the length of a sequence keeps the length. -/
theorem shape_alter_of_seq {t : Node} {k : Key} {n i : Nat} (ht : t.shape = .seq n)
    (hk : k.asIndex? = some i) (hi : i < n) (fresh : Node) (f : Node → Node) :
    (t.alter k fresh f).shape = .seq n := by
  match t with
  | seq items =>
      have hn : items.length = n := Shape.seq.inj ht
      simp only [alter, prepare, hk, alterPrepared, shape, Sparse.insert, Sparse.ofList,
        Option.getD_some, Shape.seq.injEq]
      omega
  | sparse s =>
      have hn : s.span = n := Shape.seq.inj ht
      simp only [alter, prepare, hk, alterPrepared, shape, Sparse.insert, Option.getD_some,
        Shape.seq.injEq]
      omega

section Reading

variable {t c fresh : Node} {k k' : Key}

theorem Reads.of_child? (hk : k.Plain) (hc : t.child? k = some c) : t.Reads k := by
  cases t with
  | scalar s => cases hc
  | map es => exact Or.inl rfl
  | seq items =>
      cases hi : k.asIndex? with
      | none => simp [child?, hi] at hc
      | some i => exact Or.inr ⟨i, hi, hk i hi⟩
  | sparse s =>
      cases hi : k.asIndex? with
      | none => simp [child?, hi] at hc
      | some i => exact Or.inr ⟨i, hi, hk i hi⟩

/-- A node into which a key was written leads from the key to what was written. -/
theorem reads_alter (hk : t.shape = .map ∨ k.Plain) (fresh : Node) (f : Node → Node) :
    (t.alter k fresh f).Reads k := by
  rcases prepare_cases t k with ⟨es, he, -⟩ | ⟨s, i, -, hi, hslot⟩
  · rw [alter, he]
    exact Or.inl rfl
  · exact Or.inr ⟨i, hi, (slot_eq_text hk).symm.trans hslot⟩

theorem Reads.alter (h : t.Reads k') (k : Key) (fresh : Node) (f : Node → Node) :
    (t.alter k fresh f).Reads k' := by
  rcases h with hshape | h
  · exact Or.inl (shape_alter_of_map hshape fresh f)
  · exact Or.inr h

end Reading

end Node

/-- Every key of the address spells itself. -/
def Address.Plain (a : Address) : Prop :=
  ∀ k ∈ a, k.Plain

namespace Node

section Addresses

variable {t x : Node} {f : Node → Node} {d e : Address}

/-- A write at an address changes the child at its first key, and a missing one is made without
children. -/
theorem alterAt_cons (f : Node → Node) (k : Key) (rest : Address) :
    ∃ fresh : Node, (∀ t, alterAt f (k :: rest) t = t.alter k fresh (alterAt f rest)) ∧
      fresh.WellFormed ∧ fresh.entries = [] ∧
      (rest = [] ∧ fresh = null ∨ rest ≠ [] ∧ fresh.isContainer) := by
  cases rest with
  | nil => exact ⟨null, fun _ => rfl, WellFormed.scalar _, rfl, Or.inl ⟨rfl, rfl⟩⟩
  | cons next rest =>
      refine ⟨containerFor next, fun _ => rfl, wellFormed_containerFor next, ?_, Or.inr ⟨?_, ?_⟩⟩
      · cases next <;> rfl
      · simp
      · cases next <;> rfl

theorem WellFormed.getD_get? {fresh : Node} (ht : t.WellFormed) (hfresh : fresh.WellFormed)
    (s : String) : ((t.entries.get? s).getD fresh).WellFormed := by
  cases hc : t.entries.get? s with
  | none => exact hfresh
  | some c => exact ht.get? hc

theorem WellFormed.alterAt (ht : t.WellFormed) (hd : d.Plain)
    (hf : ∀ u : Node, u.WellFormed → (f u).WellFormed) : (alterAt f d t).WellFormed := by
  induction d generalizing t with
  | nil => exact hf t ht
  | cons k rest ih =>
      obtain ⟨hk, hrest⟩ := List.forall_mem_cons.mp hd
      obtain ⟨fresh, halter, hfresh, -⟩ := alterAt_cons f k rest
      rw [halter]
      exact ht.alter (Or.inr hk) (ih (ht.getD_get? hfresh _) hrest)

theorem seek_of_lookup (hd : d.Plain) (h : Tree.lookup t d = some x) : t.seek d.place = some x := by
  induction d generalizing t with
  | nil => exact h
  | cons k rest ih =>
      obtain ⟨hk, hrest⟩ := List.forall_mem_cons.mp hd
      obtain ⟨c, hc, hx⟩ := Option.bind_eq_some_iff.mp h
      have hget : t.entries.get? k.text = some c := by
        rw [← (Reads.of_child? hk hc).child?_eq]
        exact hc
      rw [Address.place_cons, seek_cons, hget]
      exact ih hrest hx

/-- A write can be read back. -/
theorem lookup_alterAt (ht : t.WellFormed) (hd : d.Plain) :
    Tree.lookup (alterAt f d t) d = some (f ((t.seek d.place).getD null)) := by
  induction d generalizing t with
  | nil => rfl
  | cons k rest ih =>
      obtain ⟨hk, hrest⟩ := List.forall_mem_cons.mp hd
      obtain ⟨fresh, halter, hfresh, hempty, hend⟩ := alterAt_cons f k rest
      let u := (t.entries.get? k.text).getD fresh
      have hchild : Tree.child? (alterAt f (k :: rest) t) k = some (alterAt f rest u) := by
        have hreads : (t.alter k fresh (alterAt f rest)).Reads k := reads_alter (Or.inr hk) _ _
        rw [halter]
        refine hreads.child?_eq.trans ?_
        rw [get?_entries_alter ht (Or.inr hk), if_pos rfl]
      have hslot : (u.seek (Address.place rest)).getD null =
          (t.seek (Address.place (k :: rest))).getD null := by
        rw [Address.place_cons, seek_cons]
        cases hc : t.entries.get? k.text with
        | some c => simp [u, hc]
        | none =>
            cases rest with
            | nil => simp_all [u]
            | cons next rest => simp [u, hc, hempty, Entries.get?]
      rw [Tree.lookup_cons, hchild, ← hslot]
      exact ih (ht.getD_get? hfresh _) hrest

/-- A write leaves the tree as it is at places that are neither at, below nor above it. -/
theorem seek_alterAt_of_not_touches {p : Place} (ht : t.WellFormed) (hd : d.Plain)
    (hp : ¬ Place.Touches d.place p) : (alterAt f d t).seek p = t.seek p := by
  induction d generalizing t p with
  | nil => exact absurd (Or.inl List.nil_prefix) hp
  | cons k rest ih =>
      cases p with
      | nil => exact absurd (Or.inr List.nil_prefix) hp
      | cons s p =>
          obtain ⟨hk, hrest⟩ := List.forall_mem_cons.mp hd
          obtain ⟨fresh, halter, hfresh, hempty, -⟩ := alterAt_cons f k rest
          rw [halter, seek_cons, seek_cons, get?_entries_alter ht (Or.inr hk)]
          by_cases hs : k.text = s
          · subst hs
            have hbelow : ¬ Place.Touches (Address.place rest) p := fun h =>
              hp (Place.touches_cons_cons.mpr ⟨rfl, h⟩)
            rw [if_pos rfl, Option.bind_some, ih (ht.getD_get? hfresh _) hrest hbelow]
            cases hc : t.entries.get? k.text with
            | some c => rfl
            | none =>
                cases p with
                | nil => exact absurd (Or.inr List.nil_prefix) hbelow
                | cons s' p => simp [hempty, Entries.get?]
          · rw [if_neg hs]

/-- What an address led to before a write elsewhere, it leads to afterwards. -/
theorem lookup_alterAt_of_not_touches (ht : t.WellFormed) (hd : d.Plain) (he : e.Plain)
    (hx : Tree.lookup t e = some x) (hp : ¬ Place.Touches d.place e.place) :
    Tree.lookup (alterAt f d t) e = some x := by
  induction d generalizing t e with
  | nil => exact absurd (Or.inl List.nil_prefix) hp
  | cons k rest ih =>
      cases e with
      | nil => exact absurd (Or.inr List.nil_prefix) hp
      | cons k' rest' =>
          obtain ⟨hk, hrest⟩ := List.forall_mem_cons.mp hd
          obtain ⟨hk', hrest'⟩ := List.forall_mem_cons.mp he
          obtain ⟨fresh, halter, -⟩ := alterAt_cons f k rest
          obtain ⟨c, hc, hx⟩ := Option.bind_eq_some_iff.mp hx
          have hreads := Reads.of_child? hk' hc
          have hget : t.entries.get? k'.text = some c := hreads.child?_eq.symm.trans hc
          have hchild : Tree.child? (alterAt f (k :: rest) t) k' =
              if k.text = k'.text then some (alterAt f rest c) else some c := by
            rw [halter]
            refine (hreads.alter k fresh (alterAt f rest)).child?_eq.trans ?_
            rw [get?_entries_alter ht (Or.inr hk)]
            by_cases htext : k.text = k'.text <;> simp [htext, hget]
          rw [Tree.lookup_cons, hchild]
          by_cases htext : k.text = k'.text
          · have hbelow : ¬ Place.Touches (Address.place rest) (Address.place rest') := fun h =>
              hp (Place.touches_cons_cons.mpr ⟨htext, h⟩)
            rw [if_pos htext, Option.bind_some]
            exact ih (ht.get? hget) hrest hrest' hx hbelow
          · rw [if_neg htext, Option.bind_some]
            exact hx

end Addresses

end Node

end PathRules
