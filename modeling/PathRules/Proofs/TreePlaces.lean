import PathRules.Node
import PathRules.Proofs.SparseEntries

/-!
# Places in a working tree

A place is an address with the texts of its keys in place of the keys. The children of a container
have different texts, so a well-formed tree has at most one node at a place. What a node shows on
its own is its shape: a scalar, a map, or a sequence with its length, whether sparse or not. The
view of a tree is the shape at each place.
-/

namespace PathRules

/-- The texts of the keys from a root down to a location. -/
abbrev Place := List String

def Address.place (a : Address) : Place :=
  a.map Key.text

@[simp] theorem Address.place_nil : Address.place [] = [] := rfl

@[simp] theorem Address.place_cons (k : Key) (a : Address) :
    Address.place (k :: a) = k.text :: Address.place a := rfl

@[simp] theorem Key.text_index (i : Nat) : (Key.index i).text = Numeral.natText i := rfl

/-- One of two places is at or below the other. -/
def Place.Touches (q p : Place) : Prop :=
  q <+: p ∨ p <+: q

instance (q p : Place) : Decidable (Place.Touches q p) :=
  inferInstanceAs (Decidable (q <+: p ∨ p <+: q))

theorem Place.touches_cons_cons {s s' : String} {q p : Place} :
    Touches (s :: q) (s' :: p) ↔ s = s' ∧ Touches q p := by
  simp only [Touches, List.cons_prefix_cons]
  constructor
  · rintro (⟨rfl, h⟩ | ⟨rfl, h⟩)
    · exact ⟨rfl, Or.inl h⟩
    · exact ⟨rfl, Or.inr h⟩
  · rintro ⟨rfl, h | h⟩
    · exact Or.inl ⟨rfl, h⟩
    · exact Or.inr ⟨rfl, h⟩

inductive Shape where
  | scalar (s : Scalar)
  | seq (length : Nat)
  | map
  deriving DecidableEq

/-- The kind of key under which a container of this shape lists its children. -/
def Shape.Lists : Shape → Key → Prop
  | .seq _, .index _ => True
  | .map, .name _ => True
  | _, _ => False

/-- The node of a tree at an address made of the keys under which children are listed. -/
inductive Tree.At {α : Type} [Tree α] : α → Address → α → Prop
  | root (node : α) : At node [] node
  | child {node child n : α} {key : Key} {rest : Address}
      (hmem : (key, child) ∈ Tree.children node) (hrest : At child rest n) :
      At node (key :: rest) n

theorem Tree.At.append {α : Type} [Tree α] {node n n' : α} {a b : Address} (h : At node a n)
    (h' : At n b n') : At node (a ++ b) n' := by
  induction h with
  | root node => exact h'
  | child hmem _ ih => exact At.child hmem (ih h')

theorem Tree.At.exists_dropLast {α : Type} [Tree α] {node n : α} {a : Address} (h : At node a n) :
    ∃ up, At node a.dropLast up := by
  induction h with
  | root node => exact ⟨node, At.root node⟩
  | @child node c n key rest hmem hrest ih =>
      cases rest with
      | nil => exact ⟨node, At.root node⟩
      | cons key' rest =>
          obtain ⟨up, hup⟩ := ih
          exact ⟨up, At.child hmem hup⟩

/-- An address made of the keys under which children are listed leads to the node that it names. -/
def Tree.Faithful {α : Type} [Tree α] (root : α) : Prop :=
  ∀ {a : Address} {n : α}, At root a n → lookup root a = some n

namespace Value

/-- The keys of every map are pairwise distinct. -/
inductive WellFormed : Value → Prop
  | scalar (s : Scalar) : WellFormed (scalar s)
  | seq {items : List Value} (h : ∀ x ∈ items, WellFormed x) : WellFormed (seq items)
  | map {es : Entries Value} (hes : es.keys.Nodup) (h : ∀ e ∈ es, WellFormed e.2) :
      WellFormed (map es)

@[simp] theorem wellFormed_scalar (s : Scalar) : (scalar s).WellFormed :=
  WellFormed.scalar s

@[simp] theorem wellFormed_seq_iff {items : List Value} :
    (seq items).WellFormed ↔ ∀ x ∈ items, x.WellFormed := by
  constructor
  · intro h
    cases h with
    | seq hx => exact hx
  · exact WellFormed.seq

@[simp] theorem wellFormed_map_iff {es : Entries Value} :
    (map es).WellFormed ↔ es.keys.Nodup ∧ ∀ e ∈ es, e.2.WellFormed := by
  constructor
  · intro h
    cases h with
    | map hes hx => exact ⟨hes, hx⟩
  · rintro ⟨hes, hx⟩
    exact WellFormed.map hes hx

end Value

namespace Node

/-- The keys of every map are pairwise distinct, and every sparse sequence is sound. -/
inductive WellFormed : Node → Prop
  | scalar (s : Scalar) : WellFormed (scalar s)
  | seq {items : List Node} (h : ∀ x ∈ items, WellFormed x) : WellFormed (seq items)
  | sparse {s : Sparse Node} (hs : s.Sound) (h : ∀ p ∈ s.items, WellFormed p.2) :
      WellFormed (sparse s)
  | map {es : Entries Node} (hes : es.keys.Nodup) (h : ∀ e ∈ es, WellFormed e.2) :
      WellFormed (map es)

def shape : Node → Shape
  | scalar s => .scalar s
  | seq items => .seq items.length
  | sparse s => .seq s.span
  | map _ => .map

/-- The children under the texts of their keys. -/
def entries : Node → Entries Node
  | scalar _ => []
  | seq items => Sparse.named (Sparse.ofList items).items
  | sparse s => Sparse.named s.items
  | map es => es

def seek (t : Node) : Place → Option Node
  | [] => some t
  | s :: rest => (t.entries.get? s).bind fun c => seek c rest

def view (t : Node) (p : Place) : Option Shape :=
  (t.seek p).map shape

@[simp] theorem seek_nil (t : Node) : t.seek [] = some t := rfl

@[simp] theorem seek_cons (t : Node) (s : String) (rest : Place) :
    t.seek (s :: rest) = (t.entries.get? s).bind fun c => c.seek rest := rfl

theorem seek_append (t : Node) (p q : Place) : t.seek (p ++ q) = (t.seek p).bind (seek · q) := by
  induction p generalizing t with
  | nil => rfl
  | cons s p ih =>
      simp only [List.cons_append, seek_cons]
      cases t.entries.get? s with
      | none => rfl
      | some c => exact ih c

/-- There is nothing below a scalar. -/
theorem eq_of_seek_scalar {t n : Node} {s : Scalar} {p q : Place}
    (hp : t.seek p = some (scalar s)) (hq : t.seek q = some n) (hpq : p <+: q) : p = q := by
  obtain ⟨rest, rfl⟩ := hpq
  rw [seek_append, hp] at hq
  cases rest with
  | nil => rw [List.append_nil]
  | cons s' rest => simp [entries, Entries.get?] at hq

@[simp] theorem view_nil (t : Node) : t.view [] = some t.shape := rfl

theorem view_cons (t : Node) (s : String) (rest : Place) :
    t.view (s :: rest) = (t.entries.get? s).bind fun c => c.view rest := by
  simp only [view, seek_cons]
  cases t.entries.get? s <;> rfl

theorem seqLength?_eq_of_shape_eq {t u : Node} (h : t.shape = u.shape) :
    t.seqLength? = u.seqLength? := by
  cases t <;> cases u <;> simp_all [shape, seqLength?]

theorem isContainer_eq_of_shape_eq {t u : Node} (h : t.shape = u.shape) :
    t.isContainer = u.isContainer := by
  cases t <;> cases u <;> simp_all [shape, isContainer]

theorem WellFormed.get? {t c : Node} {s : String} (ht : t.WellFormed)
    (h : t.entries.get? s = some c) : c.WellFormed := by
  have hm := Entries.mem_of_get? h
  cases ht with
  | scalar s => simp [entries] at hm
  | seq hx =>
      obtain ⟨i, -, hi⟩ := Sparse.mem_named.mp hm
      exact hx c (List.mem_of_getElem? (Sparse.mem_ofList.mp hi))
  | sparse hs hx =>
      obtain ⟨i, -, hi⟩ := Sparse.mem_named.mp hm
      exact hx _ hi
  | map hes hx => exact hx _ hm

theorem WellFormed.seek {t n : Node} {p : Place} (ht : t.WellFormed) (h : t.seek p = some n) :
    n.WellFormed := by
  induction p generalizing t with
  | nil =>
      cases h
      exact ht
  | cons s p ih =>
      obtain ⟨c, hc, hn⟩ := Option.bind_eq_some_iff.mp h
      exact ih (ht.get? hc) hn

/-- The children of a node are its entries, listed under keys of the kind of its shape. -/
theorem mem_children_iff {t c : Node} {k : Key} (ht : t.WellFormed) :
    (k, c) ∈ t.children ↔ t.shape.Lists k ∧ t.entries.get? k.text = some c := by
  cases ht with
  | scalar s => simp [children, entries, Entries.get?]
  | @seq items hx =>
      cases k with
      | name s => simp [children, Value.countDown, shape, Shape.Lists]
      | index i =>
          simp [children, Value.countDown, shape, Shape.Lists, entries, Sparse.get?_named,
            Sparse.find?_ofList, List.mem_zipIdx_iff_getElem?]
  | @sparse s hs hx =>
      cases k with
      | name s => simp [children, shape, Shape.Lists]
      | index i =>
          simp [children, shape, Shape.Lists, entries, Sparse.get?_named, Sparse.descending,
            Sparse.find?_eq_some_iff hs.ascending]
  | @map es hes hx =>
      cases k with
      | index i => simp [children, shape, Shape.Lists]
      | name s =>
          simp [children, shape, Shape.Lists, entries, Entries.get?_eq_some_iff hes]

theorem get?_entries_iff {t c : Node} {s : String} (ht : t.WellFormed) :
    t.entries.get? s = some c ↔ ∃ k, (k, c) ∈ t.children ∧ k.text = s := by
  constructor
  · intro hget
    have hm := Entries.mem_of_get? hget
    cases t with
    | scalar s => simp [entries] at hm
    | seq items =>
        obtain ⟨i, rfl, -⟩ := Sparse.mem_named.mp hm
        exact ⟨.index i, (mem_children_iff ht).mpr ⟨trivial, hget⟩, rfl⟩
    | sparse s =>
        obtain ⟨i, rfl, -⟩ := Sparse.mem_named.mp hm
        exact ⟨.index i, (mem_children_iff ht).mpr ⟨trivial, hget⟩, rfl⟩
    | map es => exact ⟨.name s, (mem_children_iff ht).mpr ⟨trivial, hget⟩, rfl⟩
  · rintro ⟨k, hmem, rfl⟩
    exact ((mem_children_iff ht).mp hmem).2

theorem exists_at_of_seek {t n : Node} {p : Place} (ht : t.WellFormed) (h : t.seek p = some n) :
    ∃ a : Address, Tree.At t a n ∧ a.place = p := by
  induction p generalizing t with
  | nil =>
      cases h
      exact ⟨[], Tree.At.root _, rfl⟩
  | cons s p ih =>
      obtain ⟨c, hget, hbelow⟩ := Option.bind_eq_some_iff.mp h
      obtain ⟨k, hmem, rfl⟩ := (get?_entries_iff ht).mp hget
      obtain ⟨a, ha, rfl⟩ := ih (ht.get? hget) hbelow
      exact ⟨k :: a, Tree.At.child hmem ha, rfl⟩

/-- A key leads to the child with its text. A name might lead to an element of a sequence whose
numeral is another text. -/
def Reads (t : Node) (k : Key) : Prop :=
  t.shape = .map ∨ ∃ i, k.asIndex? = some i ∧ k.text = Numeral.natText i

theorem Reads.of_lists {t : Node} {k : Key} (h : t.shape.Lists k) : t.Reads k := by
  cases k with
  | index i => exact Or.inr ⟨i, rfl, rfl⟩
  | name s =>
      cases hs : t.shape with
      | map => exact Or.inl hs
      | scalar s => rw [hs] at h; cases h
      | seq n => rw [hs] at h; cases h

theorem Reads.congr {t u : Node} {k : Key} (h : t.Reads k) (hshape : u.shape = t.shape) :
    u.Reads k := by
  rwa [Reads, hshape]

theorem Reads.child?_eq {t : Node} {k : Key} (hk : t.Reads k) :
    t.child? k = t.entries.get? k.text := by
  rcases hk with hshape | ⟨i, hi, htext⟩
  · cases t <;> cases hshape
    rfl
  · cases t with
    | scalar s => rfl
    | seq items => simp [child?, entries, hi, htext, Sparse.get?_named, Sparse.find?_ofList]
    | sparse s => simp [child?, entries, hi, htext, Sparse.get?_named, Sparse.get?]
    | map es => rfl

theorem child?_of_mem_children {t c : Node} {k : Key} (ht : t.WellFormed)
    (h : (k, c) ∈ t.children) : t.child? k = some c := by
  obtain ⟨hk, hc⟩ := (mem_children_iff ht).mp h
  rw [(Reads.of_lists hk).child?_eq, hc]

theorem WellFormed.of_mem_children {t c : Node} {k : Key} (ht : t.WellFormed)
    (h : (k, c) ∈ t.children) : c.WellFormed :=
  ht.get? ((mem_children_iff ht).mp h).2

end Node

namespace Tree.At

variable {t n : Node} {a : Address}

theorem wellFormed (h : At t a n) (ht : t.WellFormed) : n.WellFormed := by
  induction h with
  | root => exact ht
  | child hmem _ ih => exact ih (ht.of_mem_children hmem)

theorem lookup_eq (h : At t a n) (ht : t.WellFormed) : lookup t a = some n := by
  induction h with
  | root => rfl
  | @child t c n k rest hmem _ ih =>
      have hc : child? t k = some c := Node.child?_of_mem_children ht hmem
      rw [lookup_cons, hc]
      exact ih (ht.of_mem_children hmem)

theorem seek_eq (h : At t a n) (ht : t.WellFormed) : t.seek a.place = some n := by
  induction h with
  | root => rfl
  | child hmem _ ih =>
      rw [Address.place_cons, Node.seek_cons, ((Node.mem_children_iff ht).mp hmem).2]
      exact ih (ht.of_mem_children hmem)

end Tree.At

namespace Node

theorem WellFormed.faithful {t : Node} (ht : t.WellFormed) : Tree.Faithful t :=
  fun h => h.lookup_eq ht

theorem ofItems_eq_map (items : List Value) : ofItems items = items.map ofValue := by
  induction items with
  | nil => rfl
  | cons x items ih => simp [ofItems, ih]

theorem ofEntries_eq_map (es : Entries Value) :
    ofEntries es = es.map fun e => (e.1, ofValue e.2) := by
  induction es with
  | nil => rfl
  | cons e es ih => simp [ofEntries, ih]

theorem wellFormed_ofValue {v : Value} (hv : v.WellFormed) : (ofValue v).WellFormed := by
  induction hv with
  | scalar s => exact WellFormed.scalar s
  | seq _ ih =>
      rw [ofValue, ofItems_eq_map]
      apply WellFormed.seq
      intro x hx
      obtain ⟨y, hy, rfl⟩ := List.mem_map.mp hx
      exact ih y hy
  | @map es hes _ ih =>
      rw [ofValue, ofEntries_eq_map]
      apply WellFormed.map (by rw [Entries.keys_map]; exact hes)
      intro e he
      obtain ⟨e', he', rfl⟩ := List.mem_map.mp he
      exact ih e' he'

end Node

end PathRules
