import PathRules.Key
import PathRules.Spelling

/-!
# Reading trees

Paths are followed in any kind of tree that can list its children. Sequences list theirs from the
last position to the first, so that removing the locations found in this order never moves one
that is still to come. Every child is lower than its parent, which bounds the search below a node.
-/

namespace PathRules

class Tree (α : Type) where
  /-- The direct children in the order in which they are visited. -/
  children : α → List (Key × α)
  child? : α → Key → Option α
  isContainer : α → Bool
  /-- The number of positions of a sequence. -/
  seqLength? : α → Option Nat
  /-- The text that matchers compare and capture. -/
  spelling : α → String
  height : α → Nat
  height_lt_of_mem_children :
    ∀ {node : α} {key : Key} {child : α}, (key, child) ∈ children node → height child < height node

namespace Tree

variable {α : Type} [Tree α]

/-- Follows an address. -/
def lookup (node : α) : Address → Option α
  | [] => some node
  | key :: rest => (child? node key).bind fun c => lookup c rest

@[simp] theorem lookup_nil (node : α) : lookup node [] = some node := rfl

@[simp] theorem lookup_cons (node : α) (key : Key) (rest : Address) :
    lookup node (key :: rest) = (child? node key).bind fun c => lookup c rest := rfl

/-- The node and the containers below it with the keys that lead to them, deeper levels first. -/
def reach (node : α) : List (Address × α) :=
  ((children node).attach.flatMap fun ⟨(key, c), _⟩ =>
    if isContainer c then (reach c).map fun (walked, n) => (key :: walked, n) else []) ++
  [([], node)]
termination_by height node
decreasing_by exact height_lt_of_mem_children (by assumption)

theorem reach_eq (node : α) :
    reach node = ((children node).flatMap fun (key, c) =>
      if isContainer c then (reach c).map fun (walked, n) => (key :: walked, n) else []) ++
      [([], node)] := by
  rw [reach]
  congr 1
  let below := fun p : Key × α =>
    if isContainer p.2 then (reach p.2).map fun q => (p.1 :: q.1, q.2) else []
  calc
    _ = (children node).attach.flatMap fun p => below p.1 := rfl
    _ = ((children node).attach.map Subtype.val).flatMap below := by rw [List.flatMap_map]
    _ = _ := by rw [List.attach_map_subtype_val]

end Tree

namespace Value

/-- Elements with their positions, the last first. -/
def countDown {α : Type} (items : List α) : List (Key × α) :=
  items.zipIdx.reverse.map fun (x, i) => (.index i, x)

def children : Value → List (Key × Value)
  | scalar _ => []
  | seq items => countDown items
  | map es => es.map fun (k, x) => (.name k, x)

def child? : Value → Key → Option Value
  | scalar _, _ => none
  | seq items, key => key.asIndex?.bind (items[·]?)
  | map es, key => Entries.get? es key.text

def seqLength? : Value → Option Nat
  | seq items => some items.length
  | _ => none

theorem mem_of_mem_countDown {α : Type} {items : List α} {key : Key} {x : α}
    (h : (key, x) ∈ countDown items) : x ∈ items := by
  simp only [countDown, List.mem_map, List.mem_reverse, Prod.mk.injEq, Prod.exists] at h
  obtain ⟨y, i, hm, -, rfl⟩ := h
  exact List.fst_mem_of_mem_zipIdx hm

theorem height_lt_of_mem_children {v : Value} {key : Key} {c : Value}
    (h : (key, c) ∈ v.children) : c.height < v.height := by
  cases v with
  | scalar s => simp [children] at h
  | seq items =>
      simp only [height]
      have := height_le_of_mem_items (mem_of_mem_countDown h)
      omega
  | map es =>
      simp only [children, List.mem_map, Prod.mk.injEq, Prod.exists] at h
      obtain ⟨k, x, hm, -, rfl⟩ := h
      simp only [height]
      have := height_le_of_mem_entries hm
      omega

instance : Tree Value where
  children := children
  child? := child?
  isContainer := isContainer
  seqLength? := seqLength?
  spelling := spelling
  height := height
  height_lt_of_mem_children := height_lt_of_mem_children

end Value

end PathRules
