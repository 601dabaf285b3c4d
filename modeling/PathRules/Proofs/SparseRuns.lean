import Mathlib.Logic.Function.Basic
import PathRules.Proofs.MatchPlaces

/-!
# Runs of operations on a sparse sequence

A sparse sequence stands for a finite map from positions together with a length. An operation does
to the map what its name says, answers from the map, and raises the length as far as the position
that it writes. Its elements stay in ascending order and below the length. So after any run the map
is the one that the operations make, the length is the greatest that was asked for, and the two
determine all that is read: the elements from the last to the first, and the value with or without
the gaps.
-/

namespace PathRules

namespace Sparse

variable {α : Type}

namespace Edit

/-- What a finite map from positions holds after an operation. -/
def update (m : Nat → Option α) : Edit α → Nat → Option α
  | insert i x => Function.update m i (some x)
  | erase i => Function.update m i none
  | get _ => m
  | replace i x => Function.update m i ((m i).map fun _ => x)
  | ensure i x => Function.update m i ((m i).or (some x))

/-- What a finite map from positions answers to an operation. -/
def reply (m : Nat → Option α) : Edit α → Option α
  | insert i _ | erase i | get i | replace i _ => m i
  | ensure i x => (m i).or (some x)

/-- The length that an operation asks for: a position that may be new lies below it. -/
def reach : Edit α → Nat
  | insert i _ | ensure i _ => i + 1
  | erase _ | get _ | replace _ _ => 0

end Edit

/-- The ways to begin a sparse sequence. -/
inductive Start (α : Type) where
  | empty
  | ofLength (n : Nat)
  | ofList (xs : List α)

namespace Start

def sparse : Start α → Sparse α
  | empty => .empty
  | ofLength n => .ofLength n
  | ofList xs => .ofList xs

def content : Start α → Nat → Option α
  | empty, _ | ofLength _, _ => none
  | ofList xs, i => xs[i]?

def length : Start α → Nat
  | empty => 0
  | ofLength n => n
  | ofList xs => xs.length

end Start

def run (s : Sparse α) (es : List (Edit α)) : Sparse α :=
  es.foldl (fun s e => e.apply s) s

/-- What a map holds at positions below a length, in ascending order. -/
def held (m : Nat → Option α) (n : Nat) : List (Nat × α) :=
  (List.range n).filterMap fun i => (m i).map (i, ·)

section Steps

variable {s : Sparse α}

theorem answer_eq_reply (s : Sparse α) (e : Edit α) : e.answer s = e.reply s.get? := by
  cases e with
  | ensure i x => cases h : s.get? i <;> simp [Edit.answer, Edit.reply, h]
  | _ => rfl

theorem span_apply (s : Sparse α) (e : Edit α) : (e.apply s).span = max s.span e.reach := by
  cases e with
  | replace i x =>
      simp only [Edit.apply, Edit.reach, Nat.max_zero]
      split <;> rfl
  | erase i => simp [Edit.apply, Edit.reach, Sparse.erase]
  | get i => simp [Edit.apply, Edit.reach]
  | insert i x => rfl
  | ensure i x => rfl

theorem Sound.apply (hs : s.Sound) (e : Edit α) : (e.apply s).Sound := by
  cases e with
  | insert i x => exact hs.insert i x
  | erase i => exact hs.erase i
  | get i => exact hs
  | ensure i x => exact hs.insert i _
  | replace i x =>
      simp only [Edit.apply]
      split
      · rename_i hi
        obtain ⟨y, hy⟩ := Option.isSome_iff_exists.mp hi
        exact hs.put (hs.lt_of_get? hy) x
      · exact hs

theorem get?_insert (hs : s.Sound) (i : Nat) (x : α) :
    (s.insert i x).get? = Function.update s.get? i (some x) := by
  funext j
  rw [get?, insert, find?_put _ _ _ _ hs.ascending, Function.update_apply]
  simp only [get?, eq_comm]

theorem get?_erase (hs : s.Sound) (i : Nat) :
    (s.erase i).get? = Function.update s.get? i none := by
  funext j
  rw [get?, erase, find?_drop hs.ascending, Function.update_apply]
  simp only [get?, eq_comm]

/-- An operation does to the content what it does to a finite map. -/
theorem get?_apply (hs : s.Sound) (e : Edit α) : (e.apply s).get? = e.update s.get? := by
  cases e with
  | insert i x => exact get?_insert hs i x
  | erase i => exact get?_erase hs i
  | get i => rfl
  | ensure i x =>
      simp only [Edit.apply, Edit.update, get?_insert hs]
      cases s.get? i <;> rfl
  | replace i x =>
      cases hi : s.get? i with
      | none =>
          have hkeep : Function.update s.get? i none = s.get? := by
            rw [← hi, Function.update_eq_self]
          simp [Edit.apply, Edit.update, hi, hkeep]
      | some y =>
          have hput : ({ s with items := put s.items i x } : Sparse α).get? =
              (s.insert i x).get? := rfl
          simp [Edit.apply, Edit.update, hi, hput, get?_insert hs]

end Steps

section Runs

variable {s : Sparse α}

theorem Sound.run (hs : s.Sound) (es : List (Edit α)) : (s.run es).Sound := by
  induction es generalizing s with
  | nil => exact hs
  | cons e es ih => exact ih (hs.apply e)

theorem get?_run (hs : s.Sound) (es : List (Edit α)) :
    (s.run es).get? = es.foldl Edit.update s.get? := by
  induction es generalizing s with
  | nil => rfl
  | cons e es ih =>
      rw [List.foldl_cons, ← get?_apply hs]
      exact ih (hs.apply e)

theorem span_run (s : Sparse α) (es : List (Edit α)) :
    (s.run es).span = (es.map Edit.reach).foldl max s.span := by
  induction es generalizing s with
  | nil => rfl
  | cons e es ih =>
      rw [List.map_cons, List.foldl_cons, ← span_apply]
      exact ih (e.apply s)

theorem span_le_span_run (s : Sparse α) (es : List (Edit α)) : s.span ≤ (s.run es).span := by
  induction es generalizing s with
  | nil => exact Nat.le_refl _
  | cons e es ih =>
      have hstep : s.span ≤ (e.apply s).span := by
        rw [span_apply]
        exact Nat.le_max_left _ _
      exact hstep.trans (ih (e.apply s))

theorem run_append (s : Sparse α) (es es' : List (Edit α)) :
    s.run (es ++ es') = (s.run es).run es' :=
  List.foldl_append

end Runs

section Content

variable {s : Sparse α} {m : Nat → Option α} {n : Nat}

theorem mem_held {i : Nat} {x : α} : (i, x) ∈ held m n ↔ i < n ∧ m i = some x := by
  simp only [held, List.mem_filterMap, List.mem_range, Option.map_eq_some_iff, Prod.mk.injEq]
  constructor
  · rintro ⟨j, hj, y, hy, rfl, rfl⟩
    exact ⟨hj, hy⟩
  · rintro ⟨hi, hx⟩
    exact ⟨i, hi, x, hx, rfl, rfl⟩

theorem pairwise_held (m : Nat → Option α) (n : Nat) :
    (held m n).Pairwise fun a b => a.1 < b.1 := by
  rw [held, List.pairwise_filterMap]
  refine List.pairwise_lt_range.imp ?_
  intro i j hij a ha b hb
  obtain ⟨x, -, rfl⟩ := Option.map_eq_some_iff.mp ha
  obtain ⟨y, -, rfl⟩ := Option.map_eq_some_iff.mp hb
  exact hij

/-- The elements are what the content holds below the span. -/
theorem Sound.items_eq (hs : s.Sound) : s.items = held s.get? s.span := by
  apply eq_of_find? hs.ascending (pairwise_held _ _)
  intro i
  apply Option.ext
  intro x
  rw [find?_eq_some_iff (pairwise_held _ _), mem_held]
  exact ⟨fun h => ⟨hs.lt_of_get? h, h⟩, fun h => h.2⟩

end Content

theorem Start.sound (start : Start α) : start.sparse.Sound := by
  cases start with
  | empty => exact sound_ofLength 0
  | ofLength n => exact sound_ofLength n
  | ofList xs => exact sound_ofList xs

theorem Start.get?_sparse (start : Start α) : start.sparse.get? = start.content := by
  cases start with
  | empty => rfl
  | ofLength n => rfl
  | ofList xs =>
      funext i
      exact find?_ofList xs i

theorem Start.span_sparse (start : Start α) : start.sparse.span = start.length := by
  cases start <;> rfl

/-- All that is read from a sparse sequence is read from a finite map and a length: the elements,
which lie below the length, the span, the elements from the last to the first, and the value, which
closes the gaps or is a map from the numerals of the positions. -/
structure Shows (s : Sparse Node) (m : Nat → Option Node) (n : Nat) : Prop where
  get?_eq : s.get? = m
  span_eq : s.span = n
  lt_length : ∀ i x, m i = some x → i < n
  descending_eq : s.descending = (held m n).reverse
  mem_populated : ∀ i, i ∈ s.populated ↔ (m i).isSome
  decreasing : s.populated.Pairwise (· > ·)
  compact : (Node.sparse s).toValue false = .seq ((held m n).map fun p => p.2.toValue false)
  numbered : (Node.sparse s).toValue true =
    .map ((held m n).map fun p => (Numeral.natText p.1, p.2.toValue true))
  numbered_child? : ∀ i, ((Node.sparse s).toValue true).child? (.name (Numeral.natText i)) =
    (m i).map (Node.toValue true)

theorem Sound.shows {s : Sparse Node} (hs : s.Sound) : s.Shows s.get? s.span where
  get?_eq := rfl
  span_eq := rfl
  lt_length _ _ h := hs.lt_of_get? h
  descending_eq := by rw [descending, ← hs.items_eq]
  mem_populated _ := mem_populated_iff hs
  decreasing := hs.pairwise_populated
  compact := by
    rw [Node.toValue, if_neg (by simp), Node.toCompact_eq_map, ← hs.items_eq]
  numbered := by
    rw [Node.toValue, if_pos rfl, Node.toNamed_eq_map, ← hs.items_eq, named, List.map_map]
    rfl
  numbered_child? i := by
    rw [Node.toValue, if_pos rfl, Node.toNamed_eq_map, Value.child?, Key.text_name,
      Entries.get?_map, get?_named]
    rfl

/-- After any operations a sparse sequence shows the finite map that they make of the first
content, with the greatest length that one of them asked for, and the next operation answers from
this map. Further operations never lower the span. -/
theorem run_shows (start : Start Node) (es : List (Edit Node)) :
    (start.sparse.run es).Shows (es.foldl Edit.update start.content)
        ((es.map Edit.reach).foldl max start.length) ∧
      (∀ e : Edit Node,
        e.answer (start.sparse.run es) = e.reply (es.foldl Edit.update start.content)) ∧
      ∀ es' : List (Edit Node), (start.sparse.run es).span ≤ (start.sparse.run (es ++ es')).span := by
  have hget : (start.sparse.run es).get? = es.foldl Edit.update start.content := by
    rw [get?_run start.sound, start.get?_sparse]
  have hspan : (start.sparse.run es).span = (es.map Edit.reach).foldl max start.length := by
    rw [span_run, start.span_sparse]
  refine ⟨?_, fun e => ?_, fun es' => ?_⟩
  · rw [← hget, ← hspan]
    exact (start.sound.run es).shows
  · rw [answer_eq_reply, hget]
  · rw [run_append]
    exact span_le_span_run _ es'

end Sparse

end PathRules
