import PathRules.Proofs.MatchPlaces
import PathRules.Proofs.TreeWriting

/-!
# Places in a value

The value of a working tree that keeps its indices has the same places as the tree: a sparse
sequence becomes a map from the numerals of its positions, which are the texts of its keys. So an
address whose keys spell themselves leads through the value to what it leads to in the tree.
-/

namespace PathRules

namespace Value

/-- The children under the texts of their keys. -/
def entries : Value → Entries Value
  | scalar _ => []
  | seq items => Sparse.named (Sparse.ofList items).items
  | map es => es

def seek (v : Value) : Place → Option Value
  | [] => some v
  | s :: rest => (v.entries.get? s).bind fun c => seek c rest

@[simp] theorem seek_nil (v : Value) : v.seek [] = some v := rfl

@[simp] theorem seek_cons (v : Value) (s : String) (rest : Place) :
    v.seek (s :: rest) = (v.entries.get? s).bind fun c => c.seek rest := rfl

end Value

namespace Node

theorem entries_toValue (t : Node) :
    (t.toValue true).entries = t.entries.map fun e => (e.1, e.2.toValue true) := by
  cases t with
  | scalar s => rfl
  | seq items =>
      simp [toValue, toItems_eq_map, Value.entries, entries, Sparse.named, Sparse.ofList,
        List.zipIdx_map]
  | sparse s => simp [toValue, toNamed_eq_map, Value.entries, entries]
  | map es => simp [toValue, toEntries_eq_map, Value.entries, entries]

theorem seek_toValue (t : Node) (p : Place) :
    (t.toValue true).seek p = (t.seek p).map (toValue true) := by
  induction p generalizing t with
  | nil => rfl
  | cons s rest ih =>
      rw [Value.seek_cons, seek_cons, entries_toValue, Entries.get?_map]
      cases t.entries.get? s with
      | none => rfl
      | some c => exact ih c

theorem seek_ofValue (v : Value) (p : Place) :
    v.seek p = ((ofValue v).seek p).map (toValue true) := by
  rw [← seek_toValue, toValue_ofValue]

theorem entries_ofValue (v : Value) :
    (ofValue v).entries = v.entries.map fun e => (e.1, ofValue e.2) := by
  cases v with
  | scalar s => rfl
  | seq items =>
      simp [ofValue, ofItems_eq_map, Value.entries, entries, Sparse.named, Sparse.ofList,
        List.zipIdx_map]
  | map es => simp [ofValue, ofEntries_eq_map, Value.entries, entries]

theorem seek_ofValue_eq_map (v : Value) (p : Place) :
    (ofValue v).seek p = (v.seek p).map ofValue := by
  induction p generalizing v with
  | nil => rfl
  | cons s rest ih =>
      rw [Value.seek_cons, seek_cons, entries_ofValue, Entries.get?_map]
      cases v.entries.get? s with
      | none => rfl
      | some c => exact ih c

theorem WellFormed.toValue {t : Node} (ht : t.WellFormed) (keepIndices : Bool) :
    (t.toValue keepIndices).WellFormed := by
  induction ht with
  | scalar s => exact Value.WellFormed.scalar s
  | seq _ ih =>
      rw [Node.toValue, toItems_eq_map]
      apply Value.WellFormed.seq
      intro x hx
      obtain ⟨y, hy, rfl⟩ := List.mem_map.mp hx
      exact ih y hy
  | @sparse s hs _ ih =>
      cases keepIndices with
      | true =>
          rw [Node.toValue, if_pos rfl, toNamed_eq_map]
          apply Value.WellFormed.map
          · rw [Entries.keys_map]
            exact Sparse.nodup_keys_named hs.ascending
          · intro e he
            obtain ⟨⟨k, c⟩, hc, rfl⟩ := List.mem_map.mp he
            obtain ⟨i, -, hi⟩ := Sparse.mem_named.mp hc
            exact ih _ hi
      | false =>
          rw [Node.toValue, if_neg (by simp), toCompact_eq_map]
          apply Value.WellFormed.seq
          intro x hx
          obtain ⟨p, hp, rfl⟩ := List.mem_map.mp hx
          exact ih p hp
  | @map es hes _ ih =>
      rw [Node.toValue, toEntries_eq_map]
      apply Value.WellFormed.map
      · rw [Entries.keys_map]
        exact hes
      · intro e he
        obtain ⟨e', he', rfl⟩ := List.mem_map.mp he
        exact ih e' he'

theorem child?_toValue {t c : Node} {k : Key} (hk : k.Plain) (hc : t.child? k = some c) :
    (t.toValue true).child? k = some (c.toValue true) := by
  cases t with
  | scalar s => cases hc
  | seq items =>
      obtain ⟨i, hi, hget⟩ := Option.bind_eq_some_iff.mp hc
      simp [toValue, toItems_eq_map, Value.child?, hi, hget]
  | sparse s =>
      obtain ⟨i, hi, hget⟩ := Option.bind_eq_some_iff.mp hc
      have hnamed : (Sparse.named s.items).get? k.text = some c := by
        rw [get?_named_eq_get? s (hk i hi), hget]
      simp [toValue, toNamed_eq_map, Value.child?, Entries.get?_map, hnamed]
  | map es =>
      have hget : Entries.get? es k.text = some c := hc
      simp [toValue, toEntries_eq_map, Value.child?, Entries.get?_map, hget]

theorem lookup_toValue {t x : Node} {d : Address} (hd : d.Plain) (hx : Tree.lookup t d = some x) :
    Tree.lookup (t.toValue true) d = some (x.toValue true) := by
  induction d generalizing t with
  | nil =>
      cases hx
      rfl
  | cons k rest ih =>
      obtain ⟨hk, hrest⟩ := List.forall_mem_cons.mp hd
      obtain ⟨c, hc, hx⟩ := Option.bind_eq_some_iff.mp hx
      have hchild : Tree.child? (t.toValue true) k = some (c.toValue true) := child?_toValue hk hc
      rw [Tree.lookup_cons, hchild]
      exact ih hrest hx

end Node

end PathRules
