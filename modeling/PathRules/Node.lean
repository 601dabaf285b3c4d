import PathRules.Sparse
import PathRules.Tree

/-!
# Working trees

A plan runs on a tree in which a sequence may be sparse, because only some of its elements were
copied, or some were removed or written. An element of a sparse sequence keeps the position that
it had in the body until the end, when the tree is turned back into a value.
-/

namespace PathRules

inductive Node where
  | scalar (s : Scalar)
  | seq (items : List Node)
  | sparse (s : Sparse Node)
  | map (entries : List (String × Node))
  deriving Inhabited

namespace Node

def null : Node := scalar .null

mutual

def height : Node → Nat
  | scalar _ => 0
  | seq items => heightItems items + 1
  | sparse ⟨_, items⟩ => heightSparse items + 1
  | map es => heightEntries es + 1

def heightItems : List Node → Nat
  | [] => 0
  | x :: xs => max (height x) (heightItems xs)

def heightSparse : List (Nat × Node) → Nat
  | [] => 0
  | (_, x) :: xs => max (height x) (heightSparse xs)

def heightEntries : List (String × Node) → Nat
  | [] => 0
  | (_, x) :: es => max (height x) (heightEntries es)

end

mutual

/-- The working tree of a value. -/
def ofValue : Value → Node
  | .scalar s => scalar s
  | .seq items => seq (ofItems items)
  | .map es => map (ofEntries es)

def ofItems : List Value → List Node
  | [] => []
  | x :: xs => ofValue x :: ofItems xs

def ofEntries : List (String × Value) → List (String × Node)
  | [] => []
  | (k, x) :: es => (k, ofValue x) :: ofEntries es

end

mutual

/-- The value of a working tree. A sparse sequence closes its gaps, or becomes a map from the
numerals of its positions if `keepIndices` is set. -/
def toValue (keepIndices : Bool) : Node → Value
  | scalar s => .scalar s
  | seq items => .seq (toItems keepIndices items)
  | sparse ⟨_, items⟩ =>
      if keepIndices then .map (toNamed keepIndices items) else .seq (toCompact keepIndices items)
  | map es => .map (toEntries keepIndices es)

def toItems (keepIndices : Bool) : List Node → List Value
  | [] => []
  | x :: xs => toValue keepIndices x :: toItems keepIndices xs

def toCompact (keepIndices : Bool) : List (Nat × Node) → List Value
  | [] => []
  | (_, x) :: xs => toValue keepIndices x :: toCompact keepIndices xs

def toNamed (keepIndices : Bool) : List (Nat × Node) → List (String × Value)
  | [] => []
  | (i, x) :: xs => (Numeral.natText i, toValue keepIndices x) :: toNamed keepIndices xs

def toEntries (keepIndices : Bool) : List (String × Node) → List (String × Value)
  | [] => []
  | (k, x) :: es => (k, toValue keepIndices x) :: toEntries keepIndices es

end

def isContainer : Node → Bool
  | scalar _ => false
  | _ => true

def children : Node → List (Key × Node)
  | scalar _ => []
  | seq items => Value.countDown items
  | sparse s => s.descending.map fun (i, x) => (.index i, x)
  | map es => es.map fun (k, x) => (.name k, x)

def child? : Node → Key → Option Node
  | scalar _, _ => none
  | seq items, key => key.asIndex?.bind (items[·]?)
  | sparse s, key => key.asIndex?.bind s.get?
  | map es, key => Entries.get? es key.text

def seqLength? : Node → Option Nat
  | seq items => some items.length
  | sparse s => some s.span
  | _ => none

def spelling : Node → String
  | scalar s => s.spelling
  | node => (node.toValue false).spelling

theorem height_le_of_mem_items {x : Node} {xs : List Node} (h : x ∈ xs) :
    x.height ≤ heightItems xs := by
  induction xs with
  | nil => simp at h
  | cons y ys ih =>
      simp only [heightItems]
      rcases List.mem_cons.mp h with rfl | hm
      · exact Nat.le_max_left _ _
      · exact Nat.le_trans (ih hm) (Nat.le_max_right _ _)

theorem height_le_of_mem_sparse {i : Nat} {x : Node} {xs : List (Nat × Node)} (h : (i, x) ∈ xs) :
    x.height ≤ heightSparse xs := by
  induction xs with
  | nil => simp at h
  | cons y ys ih =>
      obtain ⟨j, y⟩ := y
      simp only [heightSparse]
      rcases List.mem_cons.mp h with he | hm
      · cases he
        exact Nat.le_max_left _ _
      · exact Nat.le_trans (ih hm) (Nat.le_max_right _ _)

theorem height_le_of_mem_entries {k : String} {x : Node} {es : List (String × Node)}
    (h : (k, x) ∈ es) : x.height ≤ heightEntries es := by
  induction es with
  | nil => simp at h
  | cons e es ih =>
      obtain ⟨k', y⟩ := e
      simp only [heightEntries]
      rcases List.mem_cons.mp h with he | hm
      · cases he
        exact Nat.le_max_left _ _
      · exact Nat.le_trans (ih hm) (Nat.le_max_right _ _)

theorem height_lt_of_mem_children {node : Node} {key : Key} {c : Node}
    (h : (key, c) ∈ node.children) : c.height < node.height := by
  cases node with
  | scalar s => simp [children] at h
  | seq items =>
      simp only [height]
      have := height_le_of_mem_items (Value.mem_of_mem_countDown h)
      omega
  | sparse s =>
      obtain ⟨span, items⟩ := s
      simp only [children, Sparse.descending, List.mem_map, List.mem_reverse, Prod.mk.injEq,
        Prod.exists] at h
      obtain ⟨i, x, hm, -, rfl⟩ := h
      simp only [height]
      have := height_le_of_mem_sparse hm
      omega
  | map es =>
      simp only [children, List.mem_map, Prod.mk.injEq, Prod.exists] at h
      obtain ⟨k, x, hm, -, rfl⟩ := h
      simp only [height]
      have := height_le_of_mem_entries hm
      omega

instance : Tree Node where
  children := children
  child? := child?
  isContainer := isContainer
  seqLength? := seqLength?
  spelling := spelling
  height := height
  height_lt_of_mem_children := height_lt_of_mem_children

/-- An empty container in place of the node in a partial copy. A sequence becomes sparse, since
only some of its positions get filled. -/
def emptyLike : Node → Node
  | scalar s => scalar s
  | seq items => sparse (.ofLength items.length)
  | sparse s => sparse (.ofLength s.span)
  | map _ => map []

/-- An empty container that can hold a key. -/
def containerFor : Key → Node
  | .index _ => sparse .empty
  | .name _ => map []

/-- Changes the shape of a node so that it can hold a key. A scalar gives way to an empty
container. A sequence becomes sparse for a position, and a map from numerals for a name. -/
def prepare (node : Node) (key : Key) : Node :=
  match node, key.asIndex? with
  | scalar _, _ => containerFor key
  | seq items, some _ => sparse (.ofList items)
  | seq items, none => map (Sparse.named (Sparse.ofList items).items)
  | sparse s, none => map (Sparse.named s.items)
  | node, _ => node

/-- Changes the child at a key of a prepared node, which is made first if there is none. Preparing
leaves a map or a sparse sequence. Any other node would have to give way to an empty container and
be prepared again; that is no case here, and the node stays. -/
def alterPrepared (node : Node) (key : Key) (fresh : Node) (f : Node → Node) : Node :=
  match node with
  | map es => map (Entries.insert es key.text (f ((Entries.get? es key.text).getD fresh)))
  | sparse s =>
      let i := key.asIndex?.getD 0
      sparse (s.insert i (f ((s.get? i).getD fresh)))
  | node => node

/-- Changes the child at a key. A child that is missing is made first, and the node takes the shape
that can hold it. -/
def alter (node : Node) (key : Key) (fresh : Node) (f : Node → Node) : Node :=
  (node.prepare key).alterPrepared key fresh f

/-- Makes room for a key: the child that is there stays, and a missing one is made. -/
def ensure (node : Node) (key : Key) (fresh : Node) : Node :=
  node.alter key fresh id

/-- Writes at a key. -/
def set (node : Node) (key : Key) (child : Node) : Node :=
  node.alter key null fun _ => child

/-- Replaces a child that is there, without changing the shape of the node. -/
def replace (node : Node) (key : Key) (child : Node) : Node :=
  match node, key.asIndex? with
  | map es, _ => map (Entries.insert es key.text child)
  | seq items, some i => seq (items.set i child)
  | sparse s, some i => sparse { s with items := Sparse.put s.items i child }
  | node, _ => node

/-- Takes a child out. The other children of a sequence keep their positions. -/
def removeChild? (key : Key) (node : Node) : Option (Node × Node) := do
  let child ← node.child? key
  match node with
  | scalar _ => none
  | seq items => return (child, sparse ((Sparse.ofList items).erase (← key.asIndex?)))
  | sparse s => return (child, sparse (s.erase (← key.asIndex?)))
  | map es => return (child, map (Entries.erase es key.text))

/-- Takes out the node at an address, with the tree that is left. There is nothing to take out at
the root or where the address leads nowhere. -/
def remove? (node : Node) : Address → Option (Node × Node)
  | [] => none
  | [key] => node.removeChild? key
  | key :: rest => do
      let child ← node.child? key
      let (taken, child') ← child.remove? rest
      return (taken, node.replace key child')

/-- The tree without an address. -/
def remove (node : Node) (address : Address) : Node :=
  match node.remove? address with
  | some (_, rest) => rest
  | none => node

/-- Changes the node at an address that the tree has. -/
def modify? (f : Node → Node) (node : Node) : Address → Option Node
  | [] => some (f node)
  | key :: rest => do
      let child ← node.child? key
      return node.replace key (← child.modify? f rest)

/-- Changes the node at an address and makes the containers that lead to it. -/
def alterAt (f : Node → Node) : Address → Node → Node
  | [], node => f node
  | [key], node => node.alter key null f
  | key :: next :: rest, node => node.alter key (containerFor next) (alterAt f (next :: rest))

/-- Copies the node at an address of `source` into `target`. Ancestors that `target` lacks are made
as empty containers like those of `source`. -/
def copyInto (source : Node) (target : Node) : Address → Node
  | [] => source
  | [key] =>
      match source.child? key with
      | some leaf => target.set key leaf
      | none => target
  | key :: rest =>
      match source.child? key with
      | some next => target.alter key next.emptyLike fun t => copyInto next t rest
      | none => target

end Node

end PathRules
