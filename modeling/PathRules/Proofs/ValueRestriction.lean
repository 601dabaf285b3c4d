import Mathlib.Data.List.Nodup
import PathRules.Proofs.TreePlaces

/-!
# Restricting a value to some of its places

Two values are alike if they are equal up to the order of entries; every scalar is alike itself,
not-a-number included. A value is restricted by a test of places: a child that fails is left out
with everything below it, a sequence closes its gaps, and the root always stays.
-/

namespace PathRules

/-- Whether a place is at, below or above one of the places. -/
def Place.touches (places : List Place) (p : Place) : Bool :=
  places.any fun s => s.isPrefixOf p || p.isPrefixOf s

theorem Place.touches_eq_true_iff {places : List Place} {p : Place} :
    touches places p = true ↔ ∃ s ∈ places, Touches s p := by
  simp [touches, Touches]

theorem Place.touches_congr {places places' : List Place} (h : ∀ p, p ∈ places ↔ p ∈ places') :
    touches places = touches places' := by
  funext p
  rw [Bool.eq_iff_iff, touches_eq_true_iff, touches_eq_true_iff]
  simp only [h]

namespace Value

/-- Equality up to the order of entries. -/
inductive Alike : Value → Value → Prop
  | scalar (s : Scalar) : Alike (scalar s) (scalar s)
  | seq {xs ys : List Value} (hlength : xs.length = ys.length)
      (h : ∀ (i : Nat) x y, xs[i]? = some x → ys[i]? = some y → Alike x y) :
      Alike (seq xs) (seq ys)
  | map {es fs : Entries Value} (hkeys : es.keys.Perm fs.keys)
      (h : ∀ (k : String) x y, es.get? k = some x → fs.get? k = some y → Alike x y) :
      Alike (map es) (map fs)

theorem Alike.symm {v w : Value} (h : v.Alike w) : w.Alike v := by
  induction h with
  | scalar s => exact Alike.scalar s
  | seq hlength _ ih => exact Alike.seq hlength.symm fun i x y hx hy => ih i y x hy hx
  | map hkeys _ ih => exact Alike.map hkeys.symm fun k x y hx hy => ih k y x hy hx

theorem Alike.trans {u v w : Value} (h : u.Alike v) (h' : v.Alike w) : u.Alike w := by
  induction h generalizing w with
  | scalar s => exact h'
  | @seq xs ys hlength _ ih =>
      cases h' with
      | @seq _ zs hlength' hzs =>
          apply Alike.seq (hlength.trans hlength')
          intro i x z hx hz
          have hi : i < ys.length := by
            have := (List.getElem?_eq_some_iff.mp hx).1
            omega
          have hy : ys[i]? = some ys[i] := List.getElem?_eq_getElem hi
          exact ih i x _ hx hy (hzs i _ z hy hz)
  | @map es fs hkeys _ ih =>
      cases h' with
      | @map _ gs hkeys' hgs =>
          apply Alike.map (hkeys.trans hkeys')
          intro k x z hx hz
          have hk : k ∈ fs.keys := hkeys.mem_iff.mp (Entries.mem_keys_iff.mpr ⟨x, hx⟩)
          obtain ⟨y, hy⟩ := Entries.mem_keys_iff.mp hk
          exact ih k x y hx hy (hgs k y z hy hz)

/-- Sequences are alike if their elements are at the same positions of some longer sequence and
elements at the same position are alike. -/
theorem alike_seq_of_positions {α β : Type} {as : List α} {bs : List β} {P : α → Nat} {Q : β → Nat}
    {f : α → Value} {g : β → Value} (hpos : as.map P = bs.map Q)
    (h : ∀ a ∈ as, ∀ b ∈ bs, P a = Q b → (f a).Alike (g b)) :
    (seq (as.map f)).Alike (seq (bs.map g)) := by
  have hlength := congrArg List.length hpos
  simp only [List.length_map] at hlength
  apply Alike.seq (by simpa using hlength)
  intro i x y hx hy
  rw [List.getElem?_map] at hx hy
  obtain ⟨a, ha, rfl⟩ := Option.map_eq_some_iff.mp hx
  obtain ⟨b, hb, rfl⟩ := Option.map_eq_some_iff.mp hy
  have hi := congrArg (fun l : List Nat => l[i]?) hpos
  simp only [List.getElem?_map, ha, hb, Option.map_some, Option.some.injEq] at hi
  exact h a (List.mem_of_getElem? ha) b (List.mem_of_getElem? hb) hi

mutual

/-- The part of a value at the places that pass a test. -/
def restrict (keep : Place → Bool) : Value → Value
  | scalar s => scalar s
  | seq items => seq (restrictItems keep 0 items)
  | map es => map (restrictEntries keep es)

/-- The elements from a position on. -/
def restrictItems (keep : Place → Bool) (i : Nat) : List Value → List Value
  | [] => []
  | x :: xs =>
      if keep [Numeral.natText i] then
        restrict (fun p => keep (Numeral.natText i :: p)) x :: restrictItems keep (i + 1) xs
      else restrictItems keep (i + 1) xs

def restrictEntries (keep : Place → Bool) : Entries Value → Entries Value
  | [] => []
  | (k, x) :: es =>
      if keep [k] then (k, restrict (fun p => keep (k :: p)) x) :: restrictEntries keep es
      else restrictEntries keep es

end

/-- The elements that pass the test, with their positions. -/
def kept (keep : Place → Bool) (items : List Value) : List (Nat × Value) :=
  (Sparse.ofList items).items.filter fun p => keep [Numeral.natText p.1]

theorem mem_kept {keep : Place → Bool} {items : List Value} {i : Nat} {x : Value} :
    (i, x) ∈ kept keep items ↔ items[i]? = some x ∧ keep [Numeral.natText i] = true := by
  rw [kept, List.mem_filter, Sparse.mem_ofList]

theorem restrictItems_eq_map (keep : Place → Bool) (items : List Value) :
    restrictItems keep 0 items =
      (kept keep items).map fun p => p.2.restrict fun q => keep (Numeral.natText p.1 :: q) := by
  have hfrom : ∀ i, restrictItems keep i items =
      ((items.zipIdx i).filter fun p => keep [Numeral.natText p.2]).map
        fun p => p.1.restrict fun q => keep (Numeral.natText p.2 :: q) := by
    induction items with
    | nil => intro i; rfl
    | cons x items ih =>
        intro i
        by_cases hkeep : keep [Numeral.natText i] <;> simp [restrictItems, hkeep, ih]
  rw [hfrom, kept, Sparse.ofList, List.filter_map, List.map_map]
  rfl

theorem get?_restrictEntries (keep : Place → Bool) {es : Entries Value} (hes : es.keys.Nodup)
    (k : String) :
    (restrictEntries keep es).get? k =
      if keep [k] then (es.get? k).map (restrict fun p => keep (k :: p)) else none := by
  induction es with
  | nil => simp [restrictEntries, Entries.get?]
  | cons e es ih =>
      obtain ⟨k', x⟩ := e
      obtain ⟨hnew, hnodup⟩ := Entries.nodup_keys_cons.mp hes
      have hrest := ih hnodup
      by_cases hk : k' = k
      · subst hk
        have hnone : Entries.get? es k' = none := Entries.get?_eq_none_iff.mpr hnew
        rw [hnone] at hrest
        by_cases hkeep : keep [k'] <;> simp_all [restrictEntries, Entries.get?]
      · by_cases hkeep : keep [k'] <;> simp [restrictEntries, Entries.get?, hkeep, hk, hrest]

theorem keys_restrictEntries (keep : Place → Bool) (es : Entries Value) :
    (restrictEntries keep es).keys = es.keys.filter fun k => keep [k] := by
  induction es with
  | nil => rfl
  | cons e es ih =>
      obtain ⟨k, x⟩ := e
      have ih : (restrictEntries keep es).map Prod.fst =
          (es.map Prod.fst).filter fun k => keep [k] := ih
      by_cases hkeep : keep [k] <;> simp [restrictEntries, Entries.keys, hkeep, ih]

end Value

end PathRules
