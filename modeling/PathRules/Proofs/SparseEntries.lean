import Mathlib.Data.List.Basic
import Mathlib.Data.List.Nodup
import Mathlib.Data.List.Sort
import PathRules.Key
import PathRules.Sparse

/-!
# Reading and writing entries and sparse sequences

Maps and sparse sequences are lists of pairs in which a key occurs once. Looking a key up is then
the same as membership, and a write or a removal changes the answer for its own key only. A sparse
sequence under the numerals of its positions is a map with the same answers, since numerals are
different for different positions.
-/

namespace PathRules

namespace Numeral

theorem natText_injective {i j : Nat} (h : natText i = natText j) : i = j := by
  have hd : natDigits i = natDigits j := by simpa [natText] using congrArg String.toList h
  have hr : readNat? (natDigits i) = readNat? (natDigits j) := by rw [hd]
  simpa only [readNat?_natDigits, Option.some.injEq] using hr

@[simp] theorem natText_inj {i j : Nat} : natText i = natText j ↔ i = j :=
  ⟨natText_injective, fun h => by rw [h]⟩

theorem natText_ne_empty (i : Nat) : natText i ≠ "" := by
  have hd : natDigits i ≠ [] := Nat.toDigits_ne_nil
  simpa [natText] using hd

end Numeral

namespace Entries

variable {α β : Type}

theorem mem_of_get? {es : Entries α} {key : String} {x : α} (h : es.get? key = some x) :
    (key, x) ∈ es := by
  induction es with
  | nil => simp [get?] at h
  | cons e es ih =>
      obtain ⟨k, y⟩ := e
      by_cases hk : k = key
      · simp_all [get?]
      · simp only [get?, if_neg hk] at h
        exact List.mem_cons_of_mem _ (ih h)

theorem nodup_keys_cons {e : String × α} {es : Entries α} :
    (Entries.keys (e :: es)).Nodup ↔ e.1 ∉ es.keys ∧ es.keys.Nodup :=
  List.nodup_cons

theorem ne_of_not_mem_keys {es : Entries α} {key : String} (hkey : key ∉ es.keys) :
    ∀ e ∈ es, e.1 ≠ key := by
  rintro e he rfl
  exact hkey (List.mem_map_of_mem he)

theorem get?_of_mem {es : Entries α} {key : String} {x : α} (hes : es.keys.Nodup)
    (h : (key, x) ∈ es) : es.get? key = some x := by
  induction es with
  | nil => simp at h
  | cons e es ih =>
      obtain ⟨k, y⟩ := e
      obtain ⟨hk, hrest⟩ := nodup_keys_cons.mp hes
      rcases List.mem_cons.mp h with heq | hm
      · cases heq
        simp [get?]
      · have hne : key ≠ k := ne_of_not_mem_keys hk _ hm
        simpa only [get?, if_neg hne.symm] using ih hrest hm

theorem get?_eq_some_iff {es : Entries α} {key : String} {x : α} (hes : es.keys.Nodup) :
    es.get? key = some x ↔ (key, x) ∈ es :=
  ⟨mem_of_get?, get?_of_mem hes⟩

theorem mem_keys_iff {es : Entries α} {key : String} :
    key ∈ es.keys ↔ ∃ x, es.get? key = some x := by
  rw [← not_iff_not, ← get?_eq_none_iff, Option.eq_none_iff_forall_ne_some, not_exists]

/-- Changing every value keeps the keys. -/
theorem get?_map (f : α → β) (es : Entries α) (key : String) :
    Entries.get? (es.map fun e => (e.1, f e.2)) key = (es.get? key).map f := by
  induction es with
  | nil => rfl
  | cons e es ih =>
      by_cases hk : e.1 = key <;> simp [get?, hk, ih]

theorem keys_map (f : α → β) (es : Entries α) :
    Entries.keys (es.map fun e => (e.1, f e.2)) = es.keys := by
  simp [keys]

theorem nodup_keys_insert {es : Entries α} (hes : es.keys.Nodup) (key : String) (x : α) :
    (es.insert key x).keys.Nodup := by
  rw [keys_insert]
  split
  · exact hes
  · exact List.nodup_append.mpr ⟨hes, List.nodup_singleton key, by
      intro a ha b hb
      rw [List.mem_singleton.mp hb]
      rintro rfl
      contradiction⟩

theorem insert_insert (es : Entries α) (key : String) (x y : α) :
    (es.insert key x).insert key y = es.insert key y := by
  induction es with
  | nil => simp [insert]
  | cons e es ih => by_cases hk : e.1 = key <;> simp [insert, hk, ih]

theorem nodup_keys_erase {es : Entries α} (hes : es.keys.Nodup) (key : String) :
    (es.erase key).keys.Nodup := by
  rw [keys_erase]
  exact hes.erase key

theorem mem_insert {es : Entries α} {key : String} {x : α} {e : String × α}
    (h : e ∈ es.insert key x) : e = (key, x) ∨ e ∈ es := by
  induction es with
  | nil => simpa [insert] using h
  | cons e' es ih =>
      obtain ⟨k, y⟩ := e'
      by_cases hk : k = key
      · subst hk
        rcases List.mem_cons.mp (by simpa [insert] using h) with h | h
        · exact Or.inl h
        · exact Or.inr (List.mem_cons_of_mem _ h)
      · rcases List.mem_cons.mp (by simpa only [insert, if_neg hk] using h) with h | h
        · exact Or.inr (by simp [h])
        · exact (ih h).imp_right (List.mem_cons_of_mem _)

theorem mem_of_mem_erase {es : Entries α} {key : String} {e : String × α}
    (h : e ∈ es.erase key) : e ∈ es := by
  induction es with
  | nil => simp [erase] at h
  | cons e' es ih =>
      obtain ⟨k, y⟩ := e'
      by_cases hk : k = key
      · exact List.mem_cons_of_mem _ (by simpa [erase, hk] using h)
      · rcases List.mem_cons.mp (by simpa only [erase, if_neg hk] using h) with h | h
        · exact List.mem_cons.mpr (Or.inl h)
        · exact List.mem_cons_of_mem _ (ih h)

end Entries

namespace Sparse

variable {α : Type}

/-- Positions are in ascending order and below the span. -/
structure Sound (s : Sparse α) : Prop where
  ascending : s.items.Pairwise fun a b => a.1 < b.1
  lt_span : ∀ p ∈ s.items, p.1 < s.span

theorem mem_of_find? {items : List (Nat × α)} {i : Nat} {x : α} (h : find? items i = some x) :
    (i, x) ∈ items := by
  induction items with
  | nil => simp [find?] at h
  | cons a items ih =>
      obtain ⟨j, y⟩ := a
      by_cases hj : j = i
      · simp_all [find?]
      · simp only [find?, if_neg hj] at h
        exact List.mem_cons_of_mem _ (ih h)

theorem find?_of_mem {items : List (Nat × α)} {i : Nat} {x : α}
    (hitems : items.Pairwise fun a b => a.1 < b.1) (h : (i, x) ∈ items) :
    find? items i = some x := by
  induction items with
  | nil => simp at h
  | cons a items ih =>
      obtain ⟨j, y⟩ := a
      obtain ⟨hlt, hrest⟩ := List.pairwise_cons.mp hitems
      rcases List.mem_cons.mp h with heq | hm
      · cases heq
        simp [find?]
      · have hj : j ≠ i := Nat.ne_of_lt (hlt (i, x) hm)
        simpa only [find?, if_neg hj] using ih hrest hm

theorem find?_eq_some_iff {items : List (Nat × α)} {i : Nat} {x : α}
    (hitems : items.Pairwise fun a b => a.1 < b.1) :
    find? items i = some x ↔ (i, x) ∈ items :=
  ⟨mem_of_find?, find?_of_mem hitems⟩

theorem eq_of_find? {xs ys : List (Nat × α)}
    (hxs : xs.Pairwise fun a b => a.1 < b.1) (hys : ys.Pairwise fun a b => a.1 < b.1)
    (hfind : ∀ i, find? xs i = find? ys i) : xs = ys := by
  have : Std.Asymm fun a b : Nat × α => a.1 < b.1 := ⟨fun _ _ h => Nat.lt_asymm h⟩
  apply hxs.eq_of_mem_iff hys
  rintro ⟨i, x⟩
  rw [← find?_eq_some_iff hxs, ← find?_eq_some_iff hys, hfind]

theorem put_put (items : List (Nat × α)) (i : Nat) (x y : α) :
    put (put items i x) i y = put items i y := by
  induction items with
  | nil => simp [put]
  | cons a items ih =>
      simp only [put]
      split
      · simp [put]
      · split
        · simp [put]
        · rename_i hlt hne
          simp [put, hlt, hne, ih]

theorem mem_of_mem_drop {items : List (Nat × α)} {i : Nat} {a : Nat × α}
    (h : a ∈ drop items i) : a ∈ items := by
  induction items with
  | nil => simp [drop] at h
  | cons b items ih =>
      obtain ⟨j, y⟩ := b
      by_cases hj : j = i
      · exact List.mem_cons_of_mem _ (by simpa [drop, hj] using h)
      · rcases List.mem_cons.mp (by simpa only [drop, if_neg hj] using h) with h | h
        · exact List.mem_cons.mpr (Or.inl h)
        · exact List.mem_cons_of_mem _ (ih h)

theorem pairwise_drop {items : List (Nat × α)} (hitems : items.Pairwise fun a b => a.1 < b.1)
    (i : Nat) : (drop items i).Pairwise fun a b => a.1 < b.1 := by
  induction items with
  | nil => simp [drop]
  | cons a items ih =>
      obtain ⟨j, y⟩ := a
      obtain ⟨hlt, hrest⟩ := List.pairwise_cons.mp hitems
      by_cases hj : j = i
      · simpa only [drop, if_pos hj] using hrest
      · simp only [drop, if_neg hj]
        exact List.pairwise_cons.mpr ⟨fun b hb => hlt b (mem_of_mem_drop hb), ih hrest⟩

theorem find?_drop {items : List (Nat × α)} (hitems : items.Pairwise fun a b => a.1 < b.1)
    (i j : Nat) : find? (drop items i) j = if i = j then none else find? items j := by
  induction items with
  | nil => simp [drop, find?]
  | cons a items ih =>
      obtain ⟨k, y⟩ := a
      obtain ⟨hlt, hrest⟩ := List.pairwise_cons.mp hitems
      by_cases hk : k = i
      · subst hk
        by_cases hj : k = j
        · subst hj
          have hnone : find? items k = none := by
            rw [Option.eq_none_iff_forall_ne_some]
            intro x hx
            exact Nat.lt_irrefl k (hlt _ (mem_of_find? hx))
          simpa [drop] using hnone
        · simp [drop, find?, hj]
      · by_cases hj : k = j
        · subst hj
          simp [drop, find?, hk, Ne.symm hk]
        · simp [drop, find?, hk, hj, ih hrest]

theorem sound_ofLength (n : Nat) : (ofLength n : Sparse α).Sound :=
  ⟨List.Pairwise.nil, by simp [ofLength]⟩

theorem Sound.insert {s : Sparse α} (hs : s.Sound) (i : Nat) (x : α) : (s.insert i x).Sound where
  ascending := pairwise_put hs.ascending
  lt_span p hp := by
    have hspan : (s.insert i x).span = max s.span (i + 1) := rfl
    rcases mem_put hp with rfl | hm
    · simp only [hspan]
      omega
    · have := hs.lt_span p hm
      omega

theorem Sound.erase {s : Sparse α} (hs : s.Sound) (i : Nat) : (s.erase i).Sound where
  ascending := pairwise_drop hs.ascending i
  lt_span p hp := hs.lt_span p (mem_of_mem_drop hp)

theorem Sound.lt_of_get? {s : Sparse α} (hs : s.Sound) {i : Nat} {x : α}
    (h : s.get? i = some x) : i < s.span :=
  hs.lt_span _ (mem_of_find? h)

/-- Writing at a position below the span keeps the span. -/
theorem Sound.put {s : Sparse α} (hs : s.Sound) {i : Nat} (hi : i < s.span) (x : α) :
    Sound { s with items := put s.items i x } where
  ascending := pairwise_put hs.ascending
  lt_span p hp := by
    rcases mem_put hp with rfl | hm
    · exact hi
    · exact hs.lt_span p hm

theorem mem_ofList {xs : List α} {i : Nat} {x : α} :
    (i, x) ∈ (ofList xs).items ↔ xs[i]? = some x := by
  simp [ofList, List.mem_zipIdx_iff_getElem?]

theorem sound_ofList (xs : List α) : (ofList xs).Sound where
  ascending := by
    simp only [ofList, List.pairwise_map]
    rw [List.pairwise_iff_getElem]
    intro i j hi hj hij
    simpa using hij
  lt_span p hp := by
    obtain ⟨i, x⟩ := p
    exact (List.getElem?_eq_some_iff.mp (mem_ofList.mp hp)).1

theorem find?_ofList (xs : List α) (i : Nat) : find? (ofList xs).items i = xs[i]? := by
  apply Option.ext
  intro x
  rw [find?_eq_some_iff (sound_ofList xs).ascending, mem_ofList]

theorem get?_named (items : List (Nat × α)) (i : Nat) :
    (named items).get? (Numeral.natText i) = find? items i := by
  induction items with
  | nil => rfl
  | cons a items ih =>
      obtain ⟨j, y⟩ := a
      have hn : named ((j, y) :: items) = (Numeral.natText j, y) :: named items := rfl
      simp only [hn, Entries.get?, find?, Numeral.natText_inj, ih]

theorem mem_named {items : List (Nat × α)} {key : String} {x : α} :
    (key, x) ∈ named items ↔ ∃ i, key = Numeral.natText i ∧ (i, x) ∈ items := by
  simp only [named, List.mem_map, Prod.mk.injEq, Prod.exists]
  constructor
  · rintro ⟨i, y, hm, rfl, rfl⟩
    exact ⟨i, rfl, hm⟩
  · rintro ⟨i, rfl, hm⟩
    exact ⟨i, x, hm, rfl, rfl⟩

theorem nodup_keys_named {items : List (Nat × α)}
    (hitems : items.Pairwise fun a b => a.1 < b.1) : (named items).keys.Nodup := by
  have hkeys : (named items).keys = items.map fun p => Numeral.natText p.1 := by
    simp [named, Entries.keys]
  rw [hkeys, List.Nodup, List.pairwise_map]
  exact hitems.imp fun hlt heq => Nat.ne_of_lt hlt (Numeral.natText_injective heq)

theorem get?_named_eq_none {key : String} (h : ∀ i, Numeral.natText i ≠ key)
    (items : List (Nat × α)) : (named items).get? key = none := by
  rw [Entries.get?_eq_none_iff]
  simp only [named, Entries.keys, List.map_map, List.mem_map, not_exists, not_and]
  intro p _
  exact h p.1

theorem get?_named_put {items : List (Nat × α)} (hitems : items.Pairwise fun a b => a.1 < b.1)
    (i : Nat) (x : α) (key : String) :
    (named (put items i x)).get? key =
      if Numeral.natText i = key then some x else (named items).get? key := by
  by_cases hkey : ∃ j, Numeral.natText j = key
  · obtain ⟨j, rfl⟩ := hkey
    simp only [get?_named, Numeral.natText_inj, find?_put items i j x hitems]
  · have hne := not_exists.mp hkey
    rw [get?_named_eq_none hne, get?_named_eq_none hne, if_neg (hne i)]

/-- The positions that have elements, the last first. -/
def populated (s : Sparse α) : List Nat :=
  s.descending.map Prod.fst

theorem mem_populated_iff {s : Sparse α} (hs : s.Sound) {i : Nat} : i ∈ s.populated ↔ (s.get? i).isSome := by
  rw [Option.isSome_iff_exists]
  simp [populated, descending, get?, find?_eq_some_iff hs.ascending]

theorem Sound.lt_of_mem_populated {s : Sparse α} (hs : s.Sound) {i : Nat} (h : i ∈ s.populated) :
    i < s.span := by
  obtain ⟨p, hp, rfl⟩ := List.mem_map.mp h
  exact hs.lt_span p (List.mem_reverse.mp hp)

theorem Sound.pairwise_populated {s : Sparse α} (hs : s.Sound) : s.populated.Pairwise (· > ·) := by
  rw [populated, List.pairwise_map, descending, List.pairwise_reverse]
  exact hs.ascending

end Sparse

end PathRules
