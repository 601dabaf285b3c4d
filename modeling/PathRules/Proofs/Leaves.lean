import PathRules.Proofs.TreeRemoval
import PathRules.Proofs.ValuePlaces

/-!
# The scalars at the leaves

A scalar occurs in a well-formed tree if the tree shows it at some place. A container has the
leaves of its children, so two nodes that differ in one child differ by the leaves of that child.
From this the leaves after a write and after a removal are counted: what was at and below the place
goes, and what is written comes. A write through a scalar takes that scalar away too.
-/

namespace PathRules

namespace Entries

variable {α : Type}

theorem perm_cons_erase {es : Entries α} {key : String} {x : α} (h : es.get? key = some x) :
    es.Perm ((key, x) :: es.erase key) := by
  induction es with
  | nil => cases h
  | cons e es ih =>
      obtain ⟨k, y⟩ := e
      by_cases hk : k = key
      · subst hk
        simp_all [get?, erase]
      · simp only [get?, if_neg hk] at h
        simp only [erase, if_neg hk]
        exact ((ih h).cons _).trans (List.Perm.swap _ _ _)

theorem erase_of_get?_eq_none {es : Entries α} {key : String} (h : es.get? key = none) :
    es.erase key = es := by
  induction es with
  | nil => rfl
  | cons e es ih =>
      obtain ⟨k, y⟩ := e
      by_cases hk : k = key
      · simp [get?, hk] at h
      · simp only [get?, if_neg hk] at h
        simp only [erase, if_neg hk, ih h]

/-- What is left without a key depends only on the other keys. -/
theorem perm_erase {es fs : Entries α} (hes : es.keys.Nodup) (hfs : fs.keys.Nodup) {key : String}
    (h : ∀ s, s ≠ key → es.get? s = fs.get? s) : (es.erase key).Perm (fs.erase key) := by
  rw [erase_eq_filter hes, erase_eq_filter hfs]
  rw [List.perm_ext_iff_of_nodup (hes.of_map _ |>.filter _) (hfs.of_map _ |>.filter _)]
  rintro ⟨s, x⟩
  rw [List.mem_filter, List.mem_filter, ← get?_eq_some_iff hes, ← get?_eq_some_iff hfs]
  by_cases hs : s = key
  · simp [hs]
  · rw [h s hs]

end Entries

namespace Value

mutual

/-- The scalars in the order in which a text of the value names them. -/
def leaves : Value → List Scalar
  | scalar s => [s]
  | seq items => leavesOfItems items
  | map es => leavesOfEntries es

def leavesOfItems : List Value → List Scalar
  | [] => []
  | x :: xs => leaves x ++ leavesOfItems xs

def leavesOfEntries : List (String × Value) → List Scalar
  | [] => []
  | (_, x) :: es => leaves x ++ leavesOfEntries es

end

theorem leaves_seq (items : List Value) : (seq items).leaves = items.flatMap leaves := by
  rw [leaves]
  induction items with
  | nil => rfl
  | cons x xs ih => rw [leavesOfItems, ih, List.flatMap_cons]

theorem leaves_map (es : Entries Value) : (map es).leaves = es.flatMap fun e => e.2.leaves := by
  rw [leaves]
  induction es with
  | nil => rfl
  | cons e es ih => rw [leavesOfEntries, ih, List.flatMap_cons]

theorem leaves_eq_flatMap {v : Value} (hc : v.isContainer) :
    v.leaves = v.entries.flatMap fun e => e.2.leaves := by
  cases v with
  | scalar s => cases hc
  | seq items =>
      calc (seq items).leaves = (items.zipIdx.map Prod.fst).flatMap leaves := by
            rw [leaves_seq, List.zipIdx_map_fst]
        _ = (seq items).entries.flatMap fun e => e.2.leaves := by
            simp only [entries, Sparse.named, Sparse.ofList, List.flatMap_map]
  | map es => exact leaves_map es

end Value

namespace Node

/-- The leaves of the value that the tree stands for. -/
def leaves (t : Node) : List Scalar :=
  (t.toValue false).leaves

theorem leaves_scalar (s : Scalar) : (scalar s).leaves = [s] := by
  rw [leaves, toValue, Value.leaves]

theorem leaves_seq (items : List Node) : (seq items).leaves = items.flatMap leaves := by
  rw [leaves, toValue, toItems_eq_map, Value.leaves_seq, List.flatMap_map]
  rfl

theorem leaves_ofValue (v : Value) : (ofValue v).leaves = v.leaves := by
  rw [leaves, toValue_ofValue]

/-- Whether gaps are closed makes no difference to the leaves. -/
theorem leaves_toValue (t : Node) (keepIndices : Bool) :
    (t.toValue keepIndices).leaves = t.leaves := by
  induction t using Tree.induction with
  | step t ih =>
      rw [leaves]
      cases t with
      | scalar s => rfl
      | seq items =>
          simp only [toValue, toItems_eq_map, Value.leaves_seq, List.flatMap_map]
          apply List.flatMap_congr
          intro x hx
          obtain ⟨i, hi⟩ := List.mem_iff_getElem?.mp hx
          refine ih (.index i) x ?_
          simpa [Tree.children, children_seq] using Sparse.mem_ofList.mpr hi
      | sparse s =>
          have hitem : ∀ p ∈ s.items, (p.2.toValue keepIndices).leaves = p.2.leaves := by
            intro p hp
            refine ih (.index p.1) p.2 ?_
            simpa [Tree.children, children_sparse] using hp
          cases keepIndices with
          | false => rfl
          | true =>
              simp only [toValue, toNamed_eq_map, toCompact_eq_map, Value.leaves_seq,
                Value.leaves_map, Sparse.named, List.flatMap_map, if_true, Bool.false_eq_true,
                if_false]
              exact List.flatMap_congr hitem
      | map es =>
          simp only [toValue, toEntries_eq_map, Value.leaves_map, List.flatMap_map]
          apply List.flatMap_congr
          intro e he
          refine ih (.name e.1) e.2 ?_
          simpa [Tree.children, children_map] using he

theorem leaves_eq_flatMap {t : Node} (hc : t.isContainer) :
    t.leaves = t.entries.flatMap fun e => e.2.leaves := by
  have hvalue : (t.toValue true).isContainer := by
    cases t with
    | scalar s => cases hc
    | _ => rfl
  rw [← leaves_toValue t true, Value.leaves_eq_flatMap hvalue, entries_toValue, List.flatMap_map]
  simp only [leaves_toValue]

variable {t u : Node} {a d : Address} {f : Node → Node}

theorem view_eq_scalar_iff {p : Place} {x : Scalar} :
    t.view p = some (.scalar x) ↔ t.seek p = some (scalar x) := by
  rw [view]
  cases t.seek p with
  | none => simp
  | some n => cases n <;> simp [shape]

/-- The leaves of a tree are the scalars that it shows. -/
theorem mem_leaves_iff (ht : t.WellFormed) {x : Scalar} :
    x ∈ t.leaves ↔ ∃ p, t.seek p = some (scalar x) := by
  induction t using Tree.induction with
  | step t ih =>
      by_cases hc : t.isContainer
      · rw [leaves_eq_flatMap hc, List.mem_flatMap]
        constructor
        · rintro ⟨⟨s, c⟩, hmem, hx⟩
          have hget := Entries.get?_of_mem ht.nodup_keys_entries hmem
          obtain ⟨k, hk, -⟩ := (get?_entries_iff ht).mp hget
          obtain ⟨p, hp⟩ := (ih k c hk (ht.get? hget)).mp hx
          exact ⟨s :: p, by rw [seek_cons, hget, Option.bind_some, hp]⟩
        · rintro ⟨p, hp⟩
          cases p with
          | nil =>
              cases hp
              cases hc
          | cons s p =>
              obtain ⟨c, hget, hp⟩ := Option.bind_eq_some_iff.mp hp
              obtain ⟨k, hk, -⟩ := (get?_entries_iff ht).mp hget
              exact ⟨(s, c), Entries.mem_of_get? hget, (ih k c hk (ht.get? hget)).mpr ⟨p, hp⟩⟩
      · cases t with
        | scalar s =>
            rw [leaves_scalar, List.mem_singleton]
            constructor
            · rintro rfl
              exact ⟨[], rfl⟩
            · rintro ⟨p, hp⟩
              cases p with
              | nil =>
                  cases hp
                  rfl
              | cons s' p => simp [entries, Entries.get?] at hp
        | _ => exact absurd rfl hc

theorem mem_leaves_of_seek {n : Node} {p : Place} {x : Scalar} (ht : t.WellFormed)
    (hn : t.seek p = some n) (hx : x ∈ n.leaves) : x ∈ t.leaves := by
  obtain ⟨q, hq⟩ := (mem_leaves_iff (ht.seek hn)).mp hx
  exact (mem_leaves_iff ht).mpr ⟨p ++ q, by rw [seek_append, hn, Option.bind_some, hq]⟩

/-- A leaf after a write was there before, or comes from what was written. -/
theorem mem_leaves_alterAt (ht : t.WellFormed) (hd : d.Plain)
    (hf : ∀ u : Node, u.WellFormed → (f u).WellFormed) {x : Scalar}
    (hx : x ∈ (alterAt f d t).leaves) :
    x ∈ t.leaves ∨ x ∈ (f ((t.seek d.place).getD null)).leaves := by
  have hwf := ht.alterAt hd hf
  obtain ⟨p, hp⟩ := (mem_leaves_iff hwf).mp hx
  have hslot := seek_of_lookup hd (lookup_alterAt (f := f) ht hd)
  by_cases htouch : Place.Touches d.place p
  · right
    -- A scalar above the place of the write is the one written.
    have hbelow : d.place <+: p := by
      rcases htouch with h | h
      · exact h
      · exact (eq_of_seek_scalar hp hslot h) ▸ List.prefix_rfl
    obtain ⟨q, rfl⟩ := hbelow
    rw [seek_append, hslot, Option.bind_some] at hp
    exact (mem_leaves_iff (hwf.seek hslot)).mpr ⟨q, hp⟩
  · rw [seek_alterAt_of_not_touches ht hd htouch] at hp
    exact Or.inl ((mem_leaves_iff ht).mpr ⟨p, hp⟩)

/-- The leaves at and below a place. -/
def leavesAt (t : Node) (p : Place) : List Scalar :=
  ((t.seek p).map leaves).getD []

theorem leavesAt_nil (t : Node) : t.leavesAt [] = t.leaves := rfl

theorem leavesAt_of_seek_eq_none {p : Place} (h : t.seek p = none) : t.leavesAt p = [] := by
  rw [leavesAt, h, Option.map_none, Option.getD_none]

theorem leavesAt_cons_of_get? {c : Node} {s : String} (h : t.entries.get? s = some c) (p : Place) :
    t.leavesAt (s :: p) = c.leavesAt p := by
  rw [leavesAt, seek_cons, h, Option.bind_some, leavesAt]

theorem leavesAt_cons_of_get?_eq_none {s : String} (h : t.entries.get? s = none) (p : Place) :
    t.leavesAt (s :: p) = [] :=
  leavesAt_of_seek_eq_none (by rw [seek_cons, h, Option.bind_none])

theorem count_leavesAt_add_erase (hc : t.isContainer) (s : String) (x : Scalar) :
    t.leaves.count x =
      (t.leavesAt [s]).count x + ((t.entries.erase s).flatMap fun e => e.2.leaves).count x := by
  rw [leaves_eq_flatMap hc]
  cases hget : t.entries.get? s with
  | none => simp [leavesAt_cons_of_get?_eq_none hget, Entries.erase_of_get?_eq_none hget]
  | some c =>
      rw [leavesAt_cons_of_get? hget, leavesAt_nil,
        ((Entries.perm_cons_erase hget).flatMap_right _).count_eq, List.flatMap_cons,
        List.count_append]

/-- Containers with the same children but for one differ by the leaves of that one. -/
theorem count_leaves_of_agree (ht : t.WellFormed) (hu : u.WellFormed) (htc : t.isContainer)
    (huc : u.isContainer) {s : String}
    (h : ∀ s', s' ≠ s → u.entries.get? s' = t.entries.get? s') (x : Scalar) :
    u.leaves.count x + (t.leavesAt [s]).count x = t.leaves.count x + (u.leavesAt [s]).count x := by
  have hothers := ((Entries.perm_erase hu.nodup_keys_entries ht.nodup_keys_entries h).flatMap_right
    fun e => e.2.leaves).count_eq x
  have htsplit := count_leavesAt_add_erase htc s x
  have husplit := count_leavesAt_add_erase huc s x
  omega

/-- A removal takes away the leaves at and below the address. -/
theorem count_leaves_remove (ht : t.WellFormed) (ha : t.ReadsAlong a) (hne : a ≠ []) (x : Scalar) :
    (t.remove a).leaves.count x + (t.leavesAt a.place).count x = t.leaves.count x := by
  induction a generalizing t with
  | nil => exact absurd rfl hne
  | cons k rest ih =>
      cases hget : t.entries.get? k.text with
      | none =>
          have hmissing : t.child? k = none := ha.1.child?_eq.trans hget
          rw [remove_of_missing hmissing, Address.place_cons, leavesAt_cons_of_get?_eq_none hget]
          simp
      | some c =>
          have htc : t.isContainer := by
            cases t with
            | scalar s => cases hget
            | _ => rfl
          have huc : (t.remove (k :: rest)).isContainer := by
            rwa [isContainer_eq_of_shape_eq (shape_remove ht ha.1)]
          have hchild := get?_entries_remove ht ha k.text
          rw [if_pos rfl, hget] at hchild
          have hagree := count_leaves_of_agree ht (ht.remove ha) htc huc (s := k.text)
            (fun s' hs' => by rw [get?_entries_remove ht ha, if_neg (Ne.symm hs')]) x
          rw [leavesAt_cons_of_get? hget, leavesAt_nil] at hagree
          rw [Address.place_cons, leavesAt_cons_of_get? hget]
          by_cases hrest : rest = []
          · subst hrest
            rw [if_pos rfl] at hchild
            rw [leavesAt_cons_of_get?_eq_none hchild, List.count_nil] at hagree
            rw [Address.place_nil, leavesAt_nil]
            omega
          · rw [if_neg hrest, Option.map_some] at hchild
            rw [leavesAt_cons_of_get? hchild, leavesAt_nil] at hagree
            have hbelow := ih (ht.get? hget) (ha.2 c hget) hrest
            omega

theorem isContainer_alter (t : Node) (k : Key) (fresh : Node) (f : Node → Node) :
    (t.alter k fresh f).isContainer := by
  rw [alter]
  rcases prepare_cases t k with ⟨es, he, -⟩ | ⟨s, i, he, -, -⟩ <;> rw [he] <;> rfl

theorem count_leaves_alter {k : Key} (ht : t.WellFormed) (hk : k.Plain) (hc : t.isContainer)
    (fresh : Node) (hf : (f ((t.entries.get? k.text).getD fresh)).WellFormed) (x : Scalar) :
    (t.alter k fresh f).leaves.count x + (t.leavesAt [k.text]).count x =
      t.leaves.count x + (f ((t.entries.get? k.text).getD fresh)).leaves.count x := by
  have hagree := count_leaves_of_agree ht (ht.alter (Or.inr hk) hf) hc
    (isContainer_alter t k fresh f) (s := k.text)
    (fun s' hs' => by rw [get?_entries_alter ht (Or.inr hk), if_neg (Ne.symm hs')]) x
  have hchild := get?_entries_alter ht (Or.inr hk) fresh f k.text
  rw [if_pos rfl] at hchild
  rwa [leavesAt_cons_of_get? hchild, leavesAt_nil] at hagree

/-- A write that goes through no scalar takes away the leaves at and below its place, and brings
those of what it writes. -/
theorem count_leaves_alterAt (ht : t.WellFormed) (hd : d.Plain)
    (hf : ∀ u : Node, u.WellFormed → (f u).WellFormed)
    (hopen : ∀ p y, p <+: d.place → t.seek p = some (scalar y) → p = d.place) (x : Scalar) :
    (alterAt f d t).leaves.count x + (t.leavesAt d.place).count x =
      t.leaves.count x + (f ((t.seek d.place).getD null)).leaves.count x := by
  induction d generalizing t with
  | nil => exact Nat.add_comm _ _
  | cons k rest ih =>
      obtain ⟨hk, hrest⟩ := List.forall_mem_cons.mp hd
      have htc : t.isContainer := by
        cases t with
        | scalar y => cases hopen [] y List.nil_prefix rfl
        | _ => rfl
      obtain ⟨fresh, halter, hfresh, hempty, hend⟩ := alterAt_cons f k rest
      have hone := count_leaves_alter ht hk htc fresh
        ((ht.getD_get? hfresh _).alterAt hrest hf) x
      rw [halter]
      cases hget : t.entries.get? k.text with
      | some c =>
          have hbelow := ih (ht.get? hget) hrest fun p y hp hy => by
            have hsame := hopen (k.text :: p) y (List.cons_prefix_cons.mpr ⟨rfl, hp⟩)
              (by rw [seek_cons, hget, Option.bind_some, hy])
            exact (List.cons.inj hsame).2
          rw [leavesAt_cons_of_get? hget, leavesAt_nil] at hone
          rw [hget, Option.getD_some] at hone
          rw [Address.place_cons, leavesAt_cons_of_get? hget, seek_cons, hget, Option.bind_some]
          omega
      | none =>
          rw [leavesAt_cons_of_get?_eq_none hget] at hone
          rw [hget, Option.getD_none] at hone
          rw [Address.place_cons, leavesAt_cons_of_get?_eq_none hget, seek_cons, hget,
            Option.bind_none, Option.getD_none]
          rcases hend with ⟨rfl, rfl⟩ | ⟨hne, hcont⟩
          · exact hone
          · -- What is made on the way is an empty container.
            have hmissing : fresh.seek (Address.place rest) = none := by
              cases rest with
              | nil => exact absurd rfl hne
              | cons k' rest => rw [Address.place_cons, seek_cons, hempty]; rfl
            have hbelow := ih hfresh hrest fun p y hp hy => by
              cases p with
              | nil =>
                  cases hy
                  cases hcont
              | cons s p =>
                  rw [seek_cons, hempty] at hy
                  cases hy
            rw [leavesAt_of_seek_eq_none hmissing, leaves_eq_flatMap hcont, hempty, hmissing,
              Option.getD_none] at hbelow
            simp only [List.count_nil, List.flatMap_nil] at hbelow hone ⊢
            omega

end Node

end PathRules
