import PathRules.Numeral
import PathRules.Entries

/-!
# Sparse sequences

A sparse sequence has elements at some of its positions only. Its span is the length of the
sequence it stands for, raised by writes past the end. Removals leave the span as it is, so
positions keep their meaning.
-/

namespace PathRules

structure Sparse (α : Type) where
  span : Nat
  /-- The elements with their positions, in ascending order. -/
  items : List (Nat × α)

namespace Sparse

variable {α β : Type}

/-- A sparse sequence without elements, in place of one with a number of positions. -/
def ofLength (n : Nat) : Sparse α := ⟨n, []⟩

def empty : Sparse α := ofLength 0

def ofList (xs : List α) : Sparse α :=
  ⟨xs.length, xs.zipIdx.map fun (x, i) => (i, x)⟩

def find? : List (Nat × α) → Nat → Option α
  | [], _ => none
  | (j, x) :: items, i => if j = i then some x else find? items i

/-- Writes at a position and keeps the order. -/
def put : List (Nat × α) → Nat → α → List (Nat × α)
  | [], i, x => [(i, x)]
  | (j, y) :: items, i, x =>
      if i < j then (i, x) :: (j, y) :: items
      else if i = j then (i, x) :: items
      else (j, y) :: put items i x

def drop : List (Nat × α) → Nat → List (Nat × α)
  | [], _ => []
  | (j, y) :: items, i => if j = i then items else (j, y) :: drop items i

def get? (s : Sparse α) (i : Nat) : Option α :=
  find? s.items i

/-- Writes at a position, and the span grows to hold it. Spans have no bound here: at the position
18446744073709551615, where 64 bits no longer count the span, it grows all the same. -/
def insert (s : Sparse α) (i : Nat) (x : α) : Sparse α :=
  ⟨max s.span (i + 1), put s.items i x⟩

def erase (s : Sparse α) (i : Nat) : Sparse α :=
  { s with items := drop s.items i }

/-- The elements with their positions, the last first. -/
def descending (s : Sparse α) : List (Nat × α) :=
  s.items.reverse

/-- The elements under the numerals of their positions. -/
def named (items : List (Nat × α)) : Entries α :=
  items.map fun (i, x) => (Numeral.natText i, x)

/-- An operation on one position. -/
inductive Edit (α : Type) where
  | insert (i : Nat) (x : α)
  | erase (i : Nat)
  | get (i : Nat)
  /-- Replaces the element of a position that has one. -/
  | replace (i : Nat) (x : α)
  /-- Makes an element at a position that has none. -/
  | ensure (i : Nat) (x : α)

/-- The element that an operation answers with: the one it found, or for `ensure` the one that is
there afterwards. -/
def Edit.answer (s : Sparse α) : Edit α → Option α
  | .insert i _ | .erase i | .get i | .replace i _ => s.get? i
  | .ensure i x => some ((s.get? i).getD x)

def Edit.apply (s : Sparse α) : Edit α → Sparse α
  | .insert i x => s.insert i x
  | .erase i => s.erase i
  | .get _ => s
  | .replace i x => if (s.get? i).isSome then { s with items := put s.items i x } else s
  | .ensure i x => s.insert i ((s.get? i).getD x)

theorem find?_put (items : List (Nat × α)) (i j : Nat) (x : α)
    (h : items.Pairwise fun a b => a.1 < b.1) :
    find? (put items i x) j = if i = j then some x else find? items j := by
  induction items with
  | nil => simp [put, find?]
  | cons a items ih =>
      obtain ⟨k, y⟩ := a
      have ih := ih h.of_cons
      simp only [put]
      split
      · simp only [find?]
      · split
        · rename_i hne heq
          subst heq
          by_cases hj : i = j <;> simp [find?, hj]
        · rename_i hne hne'
          simp only [find?, ih]
          by_cases hk : k = j
          · subst hk
            simp [hne']
          · simp [hk]

theorem mem_put {items : List (Nat × α)} {i : Nat} {x : α} {a : Nat × α}
    (h : a ∈ put items i x) : a = (i, x) ∨ a ∈ items := by
  induction items with
  | nil => simpa [put] using h
  | cons b items ih =>
      obtain ⟨k, y⟩ := b
      simp only [put] at h
      split at h
      · simpa using h
      · split at h
        · rcases List.mem_cons.mp h with h | h
          · exact Or.inl h
          · exact Or.inr (List.mem_cons_of_mem _ h)
        · rcases List.mem_cons.mp h with h | h
          · exact Or.inr (by simp [h])
          · rcases ih h with h | h
            · exact Or.inl h
            · exact Or.inr (List.mem_cons_of_mem _ h)

/-- Writing keeps the positions in ascending order. -/
theorem pairwise_put {items : List (Nat × α)} {i : Nat} {x : α}
    (h : items.Pairwise fun a b => a.1 < b.1) :
    (put items i x).Pairwise fun a b => a.1 < b.1 := by
  induction items with
  | nil => simp [put]
  | cons b items ih =>
      obtain ⟨k, y⟩ := b
      have hb := List.pairwise_cons.mp h
      simp only [put]
      split
      · rename_i hlt
        refine List.pairwise_cons.mpr ⟨fun a ha => ?_, h⟩
        rcases List.mem_cons.mp ha with rfl | ha
        · exact hlt
        · exact Nat.lt_trans hlt (hb.1 a ha)
      · split
        · rename_i heq
          subst heq
          exact List.pairwise_cons.mpr ⟨hb.1, hb.2⟩
        · refine List.pairwise_cons.mpr ⟨fun a ha => ?_, ih hb.2⟩
          rcases mem_put ha with rfl | ha
          · simp only
            omega
          · exact hb.1 a ha

end Sparse

end PathRules
