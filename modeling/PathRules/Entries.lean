/-!
# Entries in insertion order

A map keeps its entries in the order of insertion. A key that is written again keeps its place and
takes the new value, and removing an entry keeps the order of the rest. The keys of a map are
pairwise distinct, which every operation preserves.
-/

namespace PathRules

abbrev Entries (α : Type) := List (String × α)

namespace Entries

variable {α β : Type}

def keys (es : Entries α) : List String :=
  es.map Prod.fst

def get? : Entries α → String → Option α
  | [], _ => none
  | (k, x) :: es, key => if k = key then some x else get? es key

def insert : Entries α → String → α → Entries α
  | [], key, x => [(key, x)]
  | (k, y) :: es, key, x => if k = key then (k, x) :: es else (k, y) :: insert es key x

def erase : Entries α → String → Entries α
  | [], _ => []
  | (k, y) :: es, key => if k = key then es else (k, y) :: erase es key

/-- The entries that a list of pairs leaves when it is inserted from the left. -/
def ofPairs (ps : List (String × α)) : Entries α :=
  ps.foldl (fun es p => es.insert p.1 p.2) []

theorem get?_eq_none_iff {es : Entries α} {key : String} : es.get? key = none ↔ key ∉ es.keys := by
  induction es with
  | nil => simp [get?, keys]
  | cons e es ih =>
      obtain ⟨k, x⟩ := e
      by_cases h : k = key
      · simp [get?, keys, h]
      · simpa [get?, keys, h, Ne.symm h, eq_comm] using ih

theorem get?_insert (es : Entries α) (key key' : String) (x : α) :
    (es.insert key x).get? key' = if key = key' then some x else es.get? key' := by
  induction es with
  | nil => simp [insert, get?]
  | cons e es ih =>
      obtain ⟨k, y⟩ := e
      by_cases h : k = key
      · subst h
        by_cases h' : k = key' <;> simp [insert, get?, h']
      · by_cases h' : k = key'
        · subst h'
          simp [insert, get?, h, Ne.symm h]
        · simp [insert, get?, h, h', ih]

theorem keys_insert (es : Entries α) (key : String) (x : α) :
    (es.insert key x).keys = if key ∈ es.keys then es.keys else es.keys ++ [key] := by
  induction es with
  | nil => simp [insert, keys]
  | cons e es ih =>
      obtain ⟨k, y⟩ := e
      by_cases h : k = key
      · simp [insert, keys, h]
      · have hk : (insert es key x).map Prod.fst =
            if key ∈ es.map Prod.fst then es.map Prod.fst else es.map Prod.fst ++ [key] := ih
        by_cases hm : key ∈ es.map Prod.fst <;>
          simp_all [insert, keys, Ne.symm h]

theorem keys_erase (es : Entries α) (key : String) : (es.erase key).keys = es.keys.erase key := by
  induction es with
  | nil => rfl
  | cons e es ih =>
      obtain ⟨k, y⟩ := e
      by_cases h : k = key
      · simp [erase, keys, h]
      · have he : (erase es key).map Prod.fst = (es.map Prod.fst).erase key := ih
        simp [erase, keys, h, he]

end Entries

end PathRules
