import PathRules.Match

/-!
# Matches on demand

A cursor hands out the matches of a path one by one. It keeps the steps that are still to be taken
on a stack, so nothing is searched before it is asked for. Every step costs more than the steps it
puts in its place, which is why the cursor always comes to the next match or to the end.
-/

namespace PathRules

/-- A pending step of the search: `visit` is at a node with segments left, and `descend` searches
a node that a recursive segment walked to, and the containers below it. -/
inductive Pending (α : Type) where
  | visit (number : Nat) (segments : List Segment) (node : α) (found : Match)
  | descend (number : Nat) (key : Matcher) (value : Option Matcher) (rest : List Segment)
      (node : α) (found : Match) (walked : Address)

namespace Pending

variable {α : Type} [Tree α]

/-- The search of the containers just below a node. -/
def deeper (number : Nat) (key : Matcher) (value : Option Matcher) (rest : List Segment)
    (node : α) (found : Match) (walked : Address) : List (Pending α) :=
  ((Tree.children node).filter fun p => Tree.isContainer p.2).map fun (k, child) =>
    descend number key value rest child found (walked ++ [k])

/-- The children of a node that a step accepts, with the segments that follow. -/
def visits (number : Nat) (key : Matcher) (value : Option Matcher) (rest : List Segment)
    (node : α) (found : Match) : List (Pending α) :=
  (Path.hits key value node found).map fun (m, child) => visit (number + 1) rest child m

/-- The steps that take the place of a step, first to last. A visit without segments is a match,
which nothing replaces. -/
def unfold (root : α) : Pending α → List (Pending α)
  | visit _ [] _ _ => []
  | visit number (.parent :: rest) _ found =>
      match found.up? with
      | none => []
      | some up =>
          match Tree.lookup root up.keys with
          | none => []
          | some node => [visit (number + 1) rest node up]
  | visit number (.step key value false :: rest) node found =>
      visits number key value rest node found
  | visit number (.step key value true :: rest) node found =>
      [descend number key value rest node found []]
  | descend number key value rest node found walked =>
      deeper number key value rest node found walked ++
        visits number key value rest node (found.walk number walked)

/-- Segments left, with a recursive search that has begun counting less than one to begin. -/
def stage : Pending α → Nat
  | visit _ segments _ _ => 2 * segments.length
  | descend _ _ _ rest _ _ _ => 2 * rest.length + 1

def nodeHeight : Pending α → Nat
  | visit .. => 0
  | descend _ _ _ _ node _ _ => Tree.height node

theorem stage_visits {number : Nat} {key : Matcher} {value : Option Matcher}
    {rest : List Segment} {node : α} {found : Match} {p : Pending α}
    (h : p ∈ visits number key value rest node found) : p.stage = 2 * rest.length := by
  simp only [visits, List.mem_map, Prod.exists] at h
  obtain ⟨m, child, -, rfl⟩ := h
  rfl

theorem unfold_decreases (root : α) {s p : Pending α} (h : p ∈ unfold root s) :
    p.stage < s.stage ∨ (p.stage = s.stage ∧ p.nodeHeight < s.nodeHeight) := by
  match s with
  | visit _ [] _ _ => simp [unfold] at h
  | visit number (.parent :: rest) _ found =>
      simp only [unfold] at h
      split at h
      · simp at h
      · split at h
        · simp at h
        · simp only [List.mem_singleton] at h
          subst h
          left
          simp [stage]
  | visit number (.step key value false :: rest) node found =>
      left
      rw [stage_visits h]
      simp [stage]
  | visit number (.step key value true :: rest) node found =>
      simp only [unfold, List.mem_singleton] at h
      subst h
      left
      simp [stage]
      omega
  | descend number key value rest node found walked =>
      simp only [unfold, List.mem_append] at h
      rcases h with h | h
      · simp only [deeper, List.mem_map, List.mem_filter, Prod.exists] at h
        obtain ⟨k, child, ⟨hm, -⟩, rfl⟩ := h
        right
        exact ⟨rfl, Tree.height_lt_of_mem_children hm⟩
      · left
        rw [stage_visits h]
        simp [stage]

/-- The number of steps that a step comes to in the end. -/
def cost (root : α) (s : Pending α) : Nat :=
  1 + ((unfold root s).attach.map fun ⟨p, _⟩ => cost root p).foldr (· + ·) 0
termination_by (s.stage, s.nodeHeight)
decreasing_by
  rcases unfold_decreases root (by assumption) with h | ⟨h, h'⟩
  · exact Prod.Lex.left _ _ h
  · rw [h]
    exact Prod.Lex.right _ h'

def totalCost (root : α) (stack : List (Pending α)) : Nat :=
  (stack.map (cost root)).foldr (· + ·) 0

theorem cost_eq (root : α) (s : Pending α) :
    cost root s = 1 + totalCost root (unfold root s) := by
  rw [cost, totalCost]
  congr 2
  exact List.attach_map_val (l := unfold root s) (f := cost root)

theorem totalCost_append (root : α) (stack stack' : List (Pending α)) :
    totalCost root (stack ++ stack') = totalCost root stack + totalCost root stack' := by
  induction stack with
  | nil => simp [totalCost]
  | cons s stack ih =>
      simp only [totalCost, List.cons_append, List.map_cons, List.foldr_cons] at ih ⊢
      omega

theorem totalCost_unfold_lt (root : α) (s : Pending α) (stack : List (Pending α)) :
    totalCost root (unfold root s ++ stack) < totalCost root (s :: stack) := by
  have hs : totalCost root (s :: stack) = cost root s + totalCost root stack := rfl
  rw [totalCost_append, hs, cost_eq]
  omega

end Pending

structure Cursor (α : Type) where
  root : α
  stack : List (Pending α)

namespace Cursor

variable {α : Type} [Tree α]

/-- A cursor before the first match. -/
def start (path : Path) (root : α) : Cursor α :=
  ⟨root, [.visit 0 path.segments root {}]⟩

/-- The next match from a stack of pending steps, and the steps that are left. -/
def advance (root : α) : List (Pending α) → Option (Match × List (Pending α))
  | [] => none
  | .visit _ [] _ found :: stack => some (found, stack)
  | s :: stack => advance root (s.unfold root ++ stack)
termination_by stack => Pending.totalCost root stack
decreasing_by exact Pending.totalCost_unfold_lt root s stack

/-- The next match, and the cursor after it. -/
def next? (c : Cursor α) : Option (Match × Cursor α) :=
  (advance c.root c.stack).map fun (m, stack) => (m, { c with stack })

/-- The next matches, no more than a number of them. -/
def take (c : Cursor α) : Nat → List Match
  | 0 => []
  | n + 1 =>
      match c.next? with
      | none => []
      | some (m, rest) => m :: rest.take n

end Cursor

end PathRules
