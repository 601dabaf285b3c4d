import PathRules.Binary64
import PathRules.Entries

/-!
# Values

A document is a tree of maps and sequences with scalars at the leaves. Only the order of a sequence
has a meaning; the order of the entries of a map is kept for printing. Equality of values follows
this reading: it ignores the order of entries, and floats compare as numbers.
-/

namespace PathRules

inductive Scalar where
  | null
  | bool (b : Bool)
  | int (i : Int64)
  | float (x : Binary64)
  | text (s : String)
  deriving DecidableEq, Inhabited

/-- Integers and floats are never equal to each other. -/
def Scalar.same : Scalar → Scalar → Bool
  | float x, float y => x.sameNumber y
  | a, b => a == b

inductive Value where
  | scalar (s : Scalar)
  | seq (items : List Value)
  | map (entries : List (String × Value))
  deriving Inhabited

/-- The shape of a value as messages name it. -/
inductive Kind where
  | map
  | sequence
  | null
  | boolean
  | number
  | string
  deriving DecidableEq

def Kind.word : Kind → String
  | map => "map"
  | sequence => "sequence"
  | null => "null"
  | boolean => "boolean"
  | number => "number"
  | string => "string"

namespace Value

def null : Value := scalar .null

def kind : Value → Kind
  | map _ => .map
  | seq _ => .sequence
  | scalar .null => .null
  | scalar (.bool _) => .boolean
  | scalar (.int _) | scalar (.float _) => .number
  | scalar (.text _) => .string

def isContainer : Value → Bool
  | scalar _ => false
  | _ => true

mutual

/-- Equality up to the order of entries. -/
def same : Value → Value → Bool
  | scalar a, scalar b => a.same b
  | seq xs, seq ys => sameItems xs ys
  | map es, map fs => es.length == fs.length && sameEntries es fs
  | _, _ => false

def sameItems : List Value → List Value → Bool
  | [], [] => true
  | x :: xs, y :: ys => same x y && sameItems xs ys
  | _, _ => false

/-- Whether every entry of the first map has an equal one in the second. -/
def sameEntries : Entries Value → Entries Value → Bool
  | [], _ => true
  | (k, x) :: es, fs =>
      (match Entries.get? fs k with
        | some y => same x y
        | none => false) && sameEntries es fs

end

mutual

/-- Levels of nesting: a scalar has none, a container one more than its deepest child. -/
def height : Value → Nat
  | scalar _ => 0
  | seq items => heightItems items + 1
  | map es => heightEntries es + 1

def heightItems : List Value → Nat
  | [] => 0
  | x :: xs => max (height x) (heightItems xs)

def heightEntries : Entries Value → Nat
  | [] => 0
  | (_, x) :: es => max (height x) (heightEntries es)

end

theorem height_le_of_mem_items {x : Value} {xs : List Value} (h : x ∈ xs) :
    x.height ≤ heightItems xs := by
  induction xs with
  | nil => simp at h
  | cons y ys ih =>
      simp only [heightItems]
      rcases List.mem_cons.mp h with rfl | hm
      · exact Nat.le_max_left _ _
      · exact Nat.le_trans (ih hm) (Nat.le_max_right _ _)

theorem height_le_of_mem_entries {k : String} {x : Value} {es : List (String × Value)}
    (h : (k, x) ∈ es) : x.height ≤ heightEntries es := by
  induction es with
  | nil => simp at h
  | cons e es ih =>
      obtain ⟨k', y⟩ := e
      simp only [heightEntries]
      rcases List.mem_cons.mp h with he | hm
      · cases he
        exact Nat.le_max_left _ _
      · exact Nat.le_trans (ih hm) (Nat.le_max_right _ _)

end Value

end PathRules
