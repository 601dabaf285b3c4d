import Mathlib.Data.List.Basic
import PathRules.Cursor

/-!
# The cursor hands out the matches in the order of the recursion

`reading` follows the segments of a path by recursion, and says at each step which keys, captures
and splats it adds: `..` goes back to the root and follows the shortened address, a step goes on at
each child that it accepts, and a recursive step first descends into the containers among the
children and then takes the children themselves. The cursor works through one stack of pending
steps instead. Every step stands for the results that it comes to in the end, and the results of a
stack are those of its steps from the top down. Unfolding a step keeps them, so the cursor yields
exactly what the recursion lists, and then ends.
-/

namespace PathRules

namespace Tree

variable {α : Type} [Tree α]

/-- Induction from the children to their parent. -/
theorem induction {P : α → Prop}
    (step : ∀ node, (∀ key child, (key, child) ∈ children node → P child) → P node) (node : α) :
    P node :=
  step node fun _ child _ => induction step child
termination_by height node
decreasing_by exact height_lt_of_mem_children (by assumption)

end Tree

namespace Path

variable {α : Type} [Tree α]

/-- The captures of the value part of a step, if it accepts the child. A step without a value part
accepts every child. -/
def valueCaptures? (value : Option Matcher) (child : α) : Option (List String) :=
  match value with
  | none => some []
  | some m => m.matchValue? child

/-- The results of a step at a node, child by child in their order: where the step accepts both the
key and the value, what follows from the child on, with the key and all captures added. -/
def atAccepted (key : Matcher) (value : Option Matcher) (next : Match → α → List Match)
    (found : Match) (node : α) : List Match :=
  (Tree.children node).flatMap fun (k, child) =>
    match key.matchKey? k (Tree.seqLength? node), valueCaptures? value child with
    | some ofKey, some ofValue =>
        next { found with
          keys := found.keys ++ [k]
          captures := found.captures ++ ofKey ++ ofValue } child
    | _, _ => []

/-- The results of a recursive step at a node that it walked to: first those of the containers
among the children, each with its key added to the keys walked, and then those of the children
that the step accepts, with the keys walked as the splat of the step. -/
def descent (number : Nat) (key : Matcher) (value : Option Matcher)
    (next : Match → α → List Match) (found : Match) (node : α) (walked : Address) : List Match :=
  ((Tree.children node).attach.flatMap fun ⟨(k, child), _⟩ =>
    if Tree.isContainer child then descent number key value next found child (walked ++ [k])
    else []) ++
  atAccepted key value next
    { found with
      keys := found.keys ++ walked
      splats := found.splats ++ [(number, walked)] } node
termination_by Tree.height node
decreasing_by exact Tree.height_lt_of_mem_children (by assumption)

/-- All matches of the segments from a node on, by recursion. `number` is the number of the first
segment. -/
def readingFrom (root : α) : List Segment → Nat → α → Match → List Match
  | [], _, _, found => [found]
  | .parent :: rest, number, _, found =>
      -- the root has no parent
      if found.keys = [] then []
      else
        match Tree.lookup root found.keys.dropLast with
        | none => []
        | some node =>
            readingFrom root rest (number + 1) node { found with keys := found.keys.dropLast }
  | .step key value false :: rest, number, node, found =>
      atAccepted key value (fun m child => readingFrom root rest (number + 1) child m) found node
  | .step key value true :: rest, number, node, found =>
      descent number key value (fun m child => readingFrom root rest (number + 1) child m)
        found node []

def reading (path : Path) (root : α) : List Match :=
  readingFrom root path.segments 0 root {}

section Steps

variable (root : α) (number : Nat) (key : Matcher) (value : Option Matcher)
  (next : Match → α → List Match) (found : Match) (node : α) (walked : Address)

theorem stepCaptures?_eq (length : Option Nat) (k : Key) (child : α) :
    stepCaptures? key value length k child =
      (key.matchKey? k length).bind fun ofKey =>
        (valueCaptures? value child).map fun ofValue => ofKey ++ ofValue := by
  cases value with
  | none => simp [stepCaptures?, valueCaptures?]
  | some m =>
      simp only [stepCaptures?, valueCaptures?, Option.bind_eq_bind, Option.pure_def,
        Option.map_eq_bind]
      rfl

/-- The children that a step accepts are its hits. -/
theorem atAccepted_eq_hits :
    atAccepted key value next found node =
      (hits key value node found).flatMap fun (m, child) => next m child := by
  rw [atAccepted, hits, List.filterMap_eq_flatMap_toList, List.flatMap_assoc]
  apply List.flatMap_congr
  rintro ⟨k, child⟩ -
  cases hkey : key.matchKey? k (Tree.seqLength? node) with
  | none => simp [stepCaptures?_eq, hkey]
  | some ofKey =>
      cases hvalue : valueCaptures? value child with
      | none => simp [stepCaptures?_eq, hkey, hvalue]
      | some ofValue => simp [stepCaptures?_eq, hkey, hvalue, Match.extend]

/-- The results of `..`, for a search that goes to the match one level up. -/
theorem readingFrom_parent (rest : List Segment) :
    readingFrom root (.parent :: rest) number node found =
      match found.up? with
      | none => []
      | some up =>
          match Tree.lookup root up.keys with
          | none => []
          | some node => readingFrom root rest (number + 1) node up := by
  by_cases hkeys : found.keys = [] <;> simp [readingFrom, Match.up?, hkeys]

theorem descent_eq :
    descent number key value next found node walked =
      ((Tree.children node).flatMap fun (k, child) =>
        if Tree.isContainer child then descent number key value next found child (walked ++ [k])
        else []) ++
      atAccepted key value next (found.walk number walked) node := by
  rw [descent]
  congr 1
  let below := fun p : Key × α =>
    if Tree.isContainer p.2 then descent number key value next found p.2 (walked ++ [p.1]) else []
  calc
    _ = (Tree.children node).attach.flatMap fun p => below p.1 := rfl
    _ = ((Tree.children node).attach.map Subtype.val).flatMap below := by rw [List.flatMap_map]
    _ = _ := by rw [List.attach_map_subtype_val]

/-- Descending into a node is the same as taking the step at each container that is reached. -/
theorem descent_eq_reach :
    descent number key value next found node walked =
      (Tree.reach node).flatMap fun (w, n) =>
        atAccepted key value next (found.walk number (walked ++ w)) n := by
  induction node using Tree.induction generalizing walked with
  | step node ih =>
      rw [descent_eq, Tree.reach_eq, List.flatMap_append, List.flatMap_assoc]
      congr 1
      · apply List.flatMap_congr
        rintro ⟨k, child⟩ hmem
        by_cases hc : Tree.isContainer child
        · simp only [hc, if_true, List.flatMap_map]
          rw [ih k child hmem]
          simp only [List.append_assoc, List.singleton_append]
        · simp [hc]
      · simp

end Steps

/-- The search that plans use is the recursion. -/
theorem findFrom_eq_readingFrom (root : α) (segments : List Segment) (number : Nat) (node : α)
    (found : Match) :
    findFrom root segments number node found = readingFrom root segments number node found := by
  induction segments generalizing number node found with
  | nil => rfl
  | cons segment rest ih =>
      match segment with
      | .parent =>
          rw [findFrom, readingFrom_parent]
          cases found.up? with
          | none => rfl
          | some up =>
              cases hl : Tree.lookup root up.keys with
              | none => simp [hl]
              | some node => simp [hl, ih]
      | .step key value false => simp only [findFrom, readingFrom, atAccepted_eq_hits, ih]
      | .step key value true =>
          simp only [findFrom, readingFrom, descent_eq_reach, atAccepted_eq_hits, ih,
            List.nil_append]

end Path

namespace Pending

variable {α : Type} [Tree α]

theorem flatMap_filter {β γ : Type} (p : β → Bool) (f : β → List γ) (l : List β) :
    (l.filter p).flatMap f = l.flatMap fun x => if p x then f x else [] := by
  induction l with
  | nil => rfl
  | cons x l ih => by_cases hx : p x <;> simp [hx, ih]

/-- The matches that a pending step comes to in the end. -/
def results (root : α) : Pending α → List Match
  | visit number segments node found => Path.readingFrom root segments number node found
  | descend number key value rest node found walked =>
      Path.descent number key value
        (fun m child => Path.readingFrom root rest (number + 1) child m) found node walked

section Steps

variable (root : α) (number : Nat) (key : Matcher) (value : Option Matcher) (rest : List Segment)
  (node : α) (found : Match)

theorem results_visits :
    (visits number key value rest node found).flatMap (results root) =
      Path.atAccepted key value
        (fun m child => Path.readingFrom root rest (number + 1) child m) found node := by
  rw [visits, List.flatMap_map, Path.atAccepted_eq_hits]
  rfl

theorem results_deeper (walked : Address) :
    (deeper number key value rest node found walked).flatMap (results root) =
      (Tree.children node).flatMap fun (k, child) =>
        if Tree.isContainer child then
          Path.descent number key value
            (fun m child => Path.readingFrom root rest (number + 1) child m) found child
            (walked ++ [k])
        else [] := by
  rw [deeper, List.flatMap_map, flatMap_filter]
  rfl

end Steps

/-- A step that is no match yet has the results of the steps that take its place. -/
theorem results_unfold (root : α) {s : Pending α}
    (hs : ∀ number node found, s ≠ visit number [] node found) :
    (unfold root s).flatMap (results root) = results root s := by
  match s with
  | visit number [] node found => exact absurd rfl (hs number node found)
  | visit number (.parent :: rest) node found =>
      rw [unfold, results, Path.readingFrom_parent]
      cases found.up? with
      | none => rfl
      | some up =>
          cases hl : Tree.lookup root up.keys with
          | none => simp [hl]
          | some node => simp [hl, results]
  | visit number (.step key value false :: rest) node found =>
      rw [unfold, results_visits, results, Path.readingFrom]
  | visit number (.step key value true :: rest) node found =>
      simp [unfold, results, Path.readingFrom]
  | descend number key value rest node found walked =>
      rw [unfold, List.flatMap_append, results_deeper, results_visits, results, Path.descent_eq]

end Pending

namespace Cursor

variable {α : Type} [Tree α]

/-- The cursor hands out exactly these matches, one after the other, and then ends. -/
inductive Yields : Cursor α → List Match → Prop
  | done {c : Cursor α} (h : c.next? = none) : Yields c []
  | more {c rest : Cursor α} {m : Match} {ms : List Match} (h : c.next? = some (m, rest))
      (hrest : Yields rest ms) : Yields c (m :: ms)

theorem advance_results (root : α) (stack : List (Pending α)) :
    stack.flatMap (Pending.results root) =
      match advance root stack with
      | none => []
      | some (m, rest) => m :: rest.flatMap (Pending.results root) := by
  induction stack using advance.induct root with
  | case1 => simp [advance]
  | case2 number node found stack =>
      simp [advance, Pending.results, Path.readingFrom]
  | case3 s stack hs ih =>
      have hstep : advance root (s :: stack) = advance root (s.unfold root ++ stack) := by
        rw [advance]
        exact hs
      rw [hstep, ← ih, List.flatMap_append, List.flatMap_cons, Pending.results_unfold root]
      intro number node found h
      exact hs number node found h

theorem yields_results (root : α) (stack : List (Pending α)) :
    (Cursor.mk root stack).Yields (stack.flatMap (Pending.results root)) := by
  generalize hms : stack.flatMap (Pending.results root) = ms
  induction ms generalizing stack with
  | nil =>
      have h := advance_results root stack
      rw [hms] at h
      apply Yields.done
      cases ha : advance root stack with
      | none => simp [next?, ha]
      | some p => simp [ha] at h
  | cons m ms ih =>
      have h := advance_results root stack
      rw [hms] at h
      cases ha : advance root stack with
      | none => simp [ha] at h
      | some p =>
          obtain ⟨m', rest⟩ := p
          simp only [ha, List.cons.injEq] at h
          obtain ⟨rfl, hrest⟩ := h
          exact Yields.more (by simp [next?, ha]) (ih rest hrest.symm)

/-- The cursor refines the recursion: it hands out the matches of the recursion in their order,
and then it ends. The search that plans use lists the same matches. -/
theorem start_yields_reading (path : Path) (root : α) :
    (Cursor.start path root).Yields (path.reading root) ∧ path.find root = path.reading root := by
  have h := yields_results root [.visit 0 path.segments root {}]
  rw [List.flatMap_singleton] at h
  exact ⟨h, Path.findFrom_eq_readingFrom root path.segments 0 root {}⟩

end Cursor

end PathRules
