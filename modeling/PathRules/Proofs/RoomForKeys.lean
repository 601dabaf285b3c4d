import PathRules.Proofs.WriteRemoval

/-!
# Room for a key

To take a key a node is prepared first, and then a child that is missing is made in the node that
the preparation gives. The shape of the node and the kind of the key decide twice, once how to
prepare and once where to look for the child. Both times the same keys count as positions, so a
prepared node always takes the key, and nothing is thrown away but a scalar. A container keeps its
children under the texts of their keys, whatever it becomes.
-/

namespace PathRules

/-- A key with the text of a position addresses it. -/
theorem Key.asIndex?_of_text_eq {k : Key} {i : Nat} (hi : i < indexBound)
    (htext : k.text = Numeral.natText i) : k.asIndex? = some i := by
  cases k with
  | index j => rw [asIndex?, Numeral.natText_injective htext]
  | name s =>
      rw [text] at htext
      rw [asIndex?, htext, readIndex?_natText hi]

namespace Node

variable {t u c fresh : Node} {k k' : Key}

/-- How a node makes room for a key: in a number of preparations, with the child that it hands out
and the node that holds it afterwards. If a prepared node could not take the key, then an empty
container would take its place and be prepared again. -/
inductive MakesRoom (key : Key) (fresh : Node) : Node → Nat → Node → Node → Prop
  | map {node child : Node} {es : Entries Node} (hnode : node.prepare key = map es)
      (hchild : child = (es.get? key.text).getD fresh) :
      MakesRoom key fresh node 1 child (map (es.insert key.text child))
  | sparse {node child : Node} {s : Sparse Node} {i : Nat} (hnode : node.prepare key = sparse s)
      (hi : i = key.asIndex?.getD 0) (hchild : child = (s.get? i).getD fresh) :
      MakesRoom key fresh node 1 child (sparse (s.insert i child))
  | again {node child after : Node} {n : Nat} (hmap : ∀ es, node.prepare key ≠ map es)
      (hsparse : ∀ s, node.prepare key ≠ sparse s)
      (hagain : MakesRoom key fresh (containerFor key) n child after) :
      MakesRoom key fresh node (n + 1) child after

/-- The length of a sequence is counted with 64 bits. -/
def LengthFits (t : Node) : Prop :=
  ∀ n, t.seqLength? = some n → n < Key.indexBound

theorem lt_indexBound_of_mem_children {i : Nat} (ht : t.WellFormed) (hlength : t.LengthFits)
    (hmem : (Key.index i, c) ∈ t.children) : i < Key.indexBound := by
  cases ht with
  | scalar s => cases hmem
  | map hes hx => simp [children] at hmem
  | @seq items hx =>
      have hi : (i, c) ∈ (Sparse.ofList items).items := by simpa [children_seq] using hmem
      exact ((Sparse.sound_ofList items).lt_span _ hi).trans (hlength _ rfl)
  | @sparse s hs hx =>
      have hi : (i, c) ∈ s.items := by simpa [children_sparse] using hmem
      exact (hs.lt_span _ hi).trans (hlength _ rfl)

/-- Where a child is listed under the text of a key, the key leads to it. -/
theorem reads_of_get? (ht : t.WellFormed) (hlength : t.LengthFits)
    (hget : t.entries.get? k.text = some c) : t.Reads k := by
  obtain ⟨k', hmem, htext⟩ := (get?_entries_iff ht).mp hget
  have hlists := ((mem_children_iff ht).mp hmem).1
  cases hshape : t.shape with
  | map => exact Or.inl hshape
  | scalar s =>
      rw [hshape] at hlists
      cases hlists
  | seq n =>
      rw [hshape] at hlists
      cases k' with
      | name s => cases hlists
      | index i =>
          have hi := lt_indexBound_of_mem_children ht hlength hmem
          exact Or.inr ⟨i, Key.asIndex?_of_text_eq hi htext.symm, htext.symm⟩

/-- Every key with the text of a child leads to it. -/
theorem child?_of_text_eq (ht : t.WellFormed) (hlength : t.LengthFits)
    (hmem : (k, c) ∈ t.children) (htext : k'.text = k.text) : t.child? k' = some c := by
  have hget : t.entries.get? k'.text = some c := by
    rw [htext]
    exact ((mem_children_iff ht).mp hmem).2
  rw [(reads_of_get? ht hlength hget).child?_eq, hget]

/-- A key leads to the child that is listed where a write at the key would list it. -/
theorem child?_eq_slot (ht : t.WellFormed) (hlength : t.LengthFits) (k : Key) :
    t.child? k = t.entries.get? (t.slot k) := by
  cases hk : k.asIndex? with
  | some i =>
      cases t with
      | scalar s => rfl
      | seq items =>
          simp [child?, slot, shape, entries, hk, Sparse.get?_named, Sparse.find?_ofList]
      | sparse s => simp [child?, slot, shape, entries, hk, Sparse.get?_named, Sparse.get?]
      | map es => rfl
  | none =>
      have hplain : k.Plain := by
        intro i hi
        rw [hk] at hi
        cases hi
      rw [slot_eq_text (Or.inr hplain)]
      cases hget : t.entries.get? k.text with
      | some c => rw [(reads_of_get? ht hlength hget).child?_eq, hget]
      | none =>
          cases t with
          | scalar s => rfl
          | seq items => simp [child?, hk]
          | sparse s => simp [child?, hk]
          | map es => exact hget

/-- After a write the key leads to the child where it was written. -/
theorem child?_alter (t : Node) (k : Key) (fresh : Node) (f : Node → Node) :
    (t.alter k fresh f).child? k = (t.alter k fresh f).entries.get? (t.slot k) := by
  rw [alter]
  rcases prepare_cases t k with ⟨es, he, hslot⟩ | ⟨s, i, he, hi, hslot⟩
  · rw [he, hslot]
    rfl
  · rw [he, hslot]
    simp [alterPrepared, child?, entries, hi, Sparse.get?_named, Sparse.get?]

section Preparing

variable {es : Entries Node} {s : Sparse Node} {i n : Nat}

theorem alter_of_map (h : t.prepare k = map es) (fresh : Node) (f : Node → Node) :
    t.alter k fresh f = map (es.insert k.text (f ((es.get? k.text).getD fresh))) := by
  rw [alter, h]
  rfl

theorem alter_of_sparse (h : t.prepare k = sparse s) (hi : k.asIndex? = some i) (fresh : Node)
    (f : Node → Node) : t.alter k fresh f = sparse (s.insert i (f ((s.get? i).getD fresh))) := by
  rw [alter, h, alterPrepared, hi]
  rfl

/-- The first preparation is the only one. The child is the one that is listed where the key is
written, or the fresh one. -/
theorem makesRoom_iff : MakesRoom k fresh t n c u ↔
    n = 1 ∧ c = (t.entries.get? (t.slot k)).getD fresh ∧ u = t.ensure k fresh := by
  rw [ensure, ← entries_prepare t k]
  rcases prepare_cases t k with ⟨es, he, hslot⟩ | ⟨s, i, he, hi, hslot⟩
  · rw [alter_of_map he, he, hslot]
    constructor
    · intro h
      cases h with
      | map hnode hchild =>
          cases he.symm.trans hnode
          exact ⟨rfl, hchild, by rw [hchild]; rfl⟩
      | sparse hnode => cases he.symm.trans hnode
      | again hmap => exact absurd he (hmap es)
    · rintro ⟨rfl, rfl, rfl⟩
      exact MakesRoom.map he rfl
  · rw [alter_of_sparse he hi, he, hslot]
    simp only [entries, Sparse.get?_named]
    constructor
    · intro h
      cases h with
      | map hnode => cases he.symm.trans hnode
      | sparse hnode hindex hchild =>
          cases he.symm.trans hnode
          rw [hi] at hindex
          cases hindex
          exact ⟨rfl, hchild, by rw [hchild]; rfl⟩
      | again _ hsparse => exact absurd he (hsparse s)
    · rintro ⟨rfl, rfl, rfl⟩
      exact MakesRoom.sparse he (by rw [hi]; rfl) rfl

/-- What is made of the child that is handed out takes its place, and nothing else changes. -/
theorem alter_eq_replace_ensure (t : Node) (k : Key) (fresh : Node) (f : Node → Node) :
    t.alter k fresh f =
      (t.ensure k fresh).replace k (f ((t.entries.get? (t.slot k)).getD fresh)) := by
  rw [ensure, ← entries_prepare t k]
  rcases prepare_cases t k with ⟨es, he, hslot⟩ | ⟨s, i, he, hi, hslot⟩
  · rw [alter_of_map he, alter_of_map he, he, hslot]
    simp only [replace, entries, id_eq, Entries.insert_insert]
  · rw [alter_of_sparse he hi, alter_of_sparse he hi, he, hslot]
    simp only [replace, hi, entries, Sparse.get?_named, Sparse.insert, id_eq, Sparse.put_put]
    rfl

/-- A preparation gives a sequence no other length, and a new one is empty. -/
theorem seqLength?_prepare (h : t.prepare k = sparse s) :
    s.span = 0 ∨ t.seqLength? = some s.span := by
  cases t with
  | scalar v =>
      cases k with
      | index j =>
          cases h
          exact Or.inl rfl
      | name v => cases h
  | seq items =>
      cases hk : k.asIndex? with
      | none => simp [prepare, hk] at h
      | some j =>
          simp only [prepare, hk, sparse.injEq] at h
          exact Or.inr (by rw [← h]; rfl)
  | sparse s' =>
      cases hk : k.asIndex? with
      | none => simp [prepare, hk] at h
      | some j =>
          simp only [prepare, hk, sparse.injEq] at h
          exact Or.inr (by rw [h]; rfl)
  | map es => cases h

theorem LengthFits.alter (hlength : t.LengthFits)
    (hk : ∀ i, k.asIndex? = some i → i + 1 < Key.indexBound) (fresh : Node) (f : Node → Node) :
    (t.alter k fresh f).LengthFits := by
  intro n hn
  rcases prepare_cases t k with ⟨es, he, -⟩ | ⟨s, i, he, hi, -⟩
  · rw [alter_of_map he] at hn
    cases hn
  · have hspan : n = max s.span (i + 1) := by
      rw [alter_of_sparse he hi] at hn
      exact (Option.some.inj hn).symm
    have hi := hk i hi
    rcases seqLength?_prepare he with hzero | hsome
    · omega
    · have := hlength _ hsome
      omega

end Preparing

/-- The node `u` is `t` with room for a key, at which it has the child `c`. Every child of `t` is
still there, listed under the same text, and each key with this text leads to it. The only other
child is `c`, and only if the key led nowhere. -/
structure HasRoom (t : Node) (k : Key) (c u : Node) : Prop where
  child?_eq : u.child? k = some c
  kept : ∀ k' c', (k', c') ∈ t.children → ∀ k'' : Key, k''.text = k'.text → u.child? k'' = some c'
  listed_iff : ∀ s c', (∃ k', (k', c') ∈ u.children ∧ k'.text = s) ↔
    (∃ k', (k', c') ∈ t.children ∧ k'.text = s) ∨ t.child? k = none ∧ s = t.slot k ∧ c' = c
  form_eq : u.form = t.form.written k

theorem WellFormed.ensure (ht : t.WellFormed) (hfresh : fresh.WellFormed) (k : Key) :
    (t.ensure k fresh).WellFormed :=
  ht.alter_slot (ht.getD_get? hfresh _)

theorem hasRoom_ensure (ht : t.WellFormed) (hlength : t.LengthFits)
    (hk : ∀ i, k.asIndex? = some i → i + 1 < Key.indexBound) (hfresh : fresh.WellFormed) :
    t.HasRoom k ((t.child? k).getD fresh) (t.ensure k fresh) := by
  have hwf := ht.ensure hfresh k
  have hget : ∀ s, (t.ensure k fresh).entries.get? s =
      if t.slot k = s then some ((t.child? k).getD fresh) else t.entries.get? s := by
    intro s
    rw [child?_eq_slot ht hlength]
    exact get?_entries_alter_slot ht k fresh id s
  have hlisted : ∀ s c', (∃ k', (k', c') ∈ (t.ensure k fresh).children ∧ k'.text = s) ↔
      (∃ k', (k', c') ∈ t.children ∧ k'.text = s) ∨
        t.child? k = none ∧ s = t.slot k ∧ c' = (t.child? k).getD fresh := by
    intro s c'
    rw [← get?_entries_iff hwf, ← get?_entries_iff ht, hget]
    by_cases hs : t.slot k = s
    · subst hs
      rw [if_pos rfl, child?_eq_slot ht hlength]
      cases t.entries.get? (t.slot k) <;> simp [eq_comm]
    · simp [hs, Ne.symm hs]
  refine ⟨?_, ?_, hlisted, form_alter t k fresh id⟩
  · rw [ensure, child?_alter, ← ensure, hget, if_pos rfl]
  · intro k' c' hmem k'' htext
    obtain ⟨k₀, hmem₀, htext₀⟩ := (hlisted k'.text c').mpr (Or.inl ⟨k', hmem, rfl⟩)
    exact child?_of_text_eq hwf (hlength.alter hk fresh id) hmem₀ (htext.trans htext₀.symm)

/-- Making room for a key takes one preparation, hands out the child that the key leads to, or the
fresh one if it leads nowhere, and keeps all other children. What is made of the child afterwards
stays in its place. -/
theorem ensure_makes_room (ht : t.WellFormed) (hlength : t.LengthFits)
    (hk : ∀ i, k.asIndex? = some i → i + 1 < Key.indexBound) (hfresh : fresh.WellFormed) :
    (∀ n c u, MakesRoom k fresh t n c u ↔
      n = 1 ∧ c = (t.child? k).getD fresh ∧ u = t.ensure k fresh) ∧
    t.HasRoom k ((t.child? k).getD fresh) (t.ensure k fresh) ∧
    (t.ensure k fresh).WellFormed ∧ (t.ensure k fresh).LengthFits ∧
    ∀ f : Node → Node, t.alter k fresh f =
      (t.ensure k fresh).replace k (f ((t.child? k).getD fresh)) := by
  refine ⟨fun n c u => ?_, hasRoom_ensure ht hlength hk hfresh, ht.ensure hfresh k,
    hlength.alter hk fresh id, fun f => ?_⟩
  · rw [makesRoom_iff, child?_eq_slot ht hlength]
  · rw [alter_eq_replace_ensure, child?_eq_slot ht hlength]

def twoNumbers : Node :=
  .seq [.scalar (.int 1), .scalar (.int 2)]

/-- The name `05` addresses a position past the end, which opens the sequence. -/
theorem ensure_makes_room_pastEnd :
    twoNumbers.WellFormed ∧ twoNumbers.LengthFits ∧
      (∀ i, (Key.name "05").asIndex? = some i → i + 1 < Key.indexBound) ∧ null.WellFormed ∧
      MakesRoom (.name "05") null twoNumbers 1 null (twoNumbers.ensure (.name "05") null) ∧
      twoNumbers.HasRoom (.name "05") null (twoNumbers.ensure (.name "05") null) ∧
      (twoNumbers.ensure (.name "05") null).form = .sparse 6 := by
  have hwf : twoNumbers.WellFormed := by
    refine WellFormed.seq ?_
    simp only [List.mem_cons, List.not_mem_nil, or_false, forall_eq_or_imp, forall_eq]
    exact ⟨WellFormed.scalar _, WellFormed.scalar _⟩
  have hlength : twoNumbers.LengthFits := by
    intro n hn
    cases hn
    decide
  have hindex : (Key.name "05").asIndex? = some 5 := by decide
  have hk : ∀ i, (Key.name "05").asIndex? = some i → i + 1 < Key.indexBound := by
    intro i hi
    cases hindex.symm.trans hi
    decide
  have hnull : null.WellFormed := WellFormed.scalar _
  have hchild : (twoNumbers.child? (.name "05")).getD null = null := by
    simp [twoNumbers, child?, hindex]
  obtain ⟨hmakes, hroom, -⟩ := ensure_makes_room hwf hlength hk hnull
  rw [hchild] at hroom
  exact ⟨hwf, hlength, hk, hnull, (hmakes _ _ _).mpr ⟨rfl, hchild.symm, rfl⟩, hroom, hroom.form_eq⟩

end Node

end PathRules
