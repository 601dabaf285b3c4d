import PathRules.Decimal.Shortest
import PathRules.Json.Number

/-!
# YAML values

A YAML value is a scalar with a type, a sequence, or a mapping whose keys may be any values. Plain
scalars get their type from their spelling, by the core schema of YAML 1.2. Keys that are equal in
type and value cannot stand in one mapping.
-/

namespace PathRules.Yaml

inductive Node where
  | null
  | bool (b : Bool)
  | int (i : Int)
  | float (x : Binary64)
  | text (s : String)
  | seq (items : List Node)
  | map (entries : List (Node × Node))
  | tagged (tag : String) (content : Node)
  deriving Inhabited

namespace Node

/-- Integers are those of 64 bits, with a sign or without. -/
def isIntValue (i : Int) : Bool :=
  -(Nat.pow 2 63 : Nat) ≤ i && i < (Nat.pow 2 64 : Nat)

/-- Integers beyond 64 bits are refused up to this size; larger ones are read as floats. -/
def isHugeInt (i : Int) : Bool :=
  -(Nat.pow 2 127 : Nat) ≤ i && i < (Nat.pow 2 128 : Nat)

/-- The type that the spelling of a plain scalar gives it. -/
inductive Resolved where
  | null
  | bool (b : Bool)
  | int (i : Int)
  | float (x : Binary64)
  | text

def digitValue? (base : Nat) (c : Char) : Option Nat :=
  let v : Option Nat :=
    if c.isDigit then some (c.toNat - '0'.toNat)
    else if 'a' ≤ c ∧ c ≤ 'z' then some (c.toNat - 'a'.toNat + 10)
    else if 'A' ≤ c ∧ c ≤ 'Z' then some (c.toNat - 'A'.toNat + 10)
    else none
  v.filter (· < base)

/-- The number that digits of a base spell; at least one is needed. -/
def readBase? (base : Nat) (cs : List Char) : Option Nat :=
  if cs.isEmpty then none
  else cs.foldlM (fun n c => (digitValue? base c).map (n * base + ·)) 0

/-- The magnitude of an integer, in one of four bases. -/
def readMagnitude? : List Char → Option Nat
  | '0' :: 'x' :: cs => readBase? 16 cs
  | '0' :: 'o' :: cs => readBase? 8 cs
  | '0' :: 'b' :: cs => readBase? 2 cs
  | cs => readBase? 10 cs

/-- Digits that start with a zero, with a sign or without. They are text. -/
def isZeroPadded (cs : List Char) : Bool :=
  let ds := match cs with
    | '-' :: ds | '+' :: ds => ds
    | ds => ds
  match ds with
  | '0' :: d :: ds => (d :: ds).all Char.isDigit
  | _ => false

def readInt? (cs : List Char) : Option Int :=
  if isZeroPadded cs then none
  else match cs with
    | '-' :: ds => (readMagnitude? ds).map fun n => -(n : Int)
    | '+' :: ds | ds => (readMagnitude? ds).map fun n => (n : Int)

/-- Decimal floats have digits before the point or after it, and may have an exponent. -/
def readDecimal? (negative : Bool) (cs : List Char) : Option Binary64 := do
  let whole := cs.takeWhile Char.isDigit
  let (fraction, rest) := match cs.dropWhile Char.isDigit with
    | '.' :: cs => (cs.takeWhile Char.isDigit, cs.dropWhile Char.isDigit)
    | cs => ([], cs)
  guard (!(whole.isEmpty && fraction.isEmpty))
  let exponent ← Json.readTail? rest
  let x := Binary64.ofDecimal negative (Nat.ofDigitChars 10 (whole ++ fraction) 0)
    (exponent.getD 0 - fraction.length)
  guard x.isFinite
  return x

def readFloat? (s : String) : Option Binary64 :=
  if s ∈ [".inf", ".Inf", ".INF", "+.inf", "+.Inf", "+.INF"] then some (.infinite false)
  else if s ∈ ["-.inf", "-.Inf", "-.INF"] then some (.infinite true)
  else if s ∈ [".nan", ".NaN", ".NAN"] then some .nan
  else match s.toList with
    | '+' :: cs => readDecimal? false cs
    | '-' :: cs => readDecimal? true cs
    | cs => readDecimal? false cs

def isNullWord (s : String) : Bool :=
  s ∈ ["null", "Null", "NULL", "~"]

def readBool? (s : String) : Option Bool :=
  if s ∈ ["true", "True", "TRUE"] then some true
  else if s ∈ ["false", "False", "FALSE"] then some false
  else none

/-- Resolves a float, unless the scalar is digits that start with a zero. -/
def resolveFloat (s : String) : Resolved :=
  if isZeroPadded s.toList then .text
  else match readFloat? s with
    | some x => .float x
    | none => .text

def resolve (s : String) : Resolved :=
  if s.isEmpty || isNullWord s then .null
  else match readBool? s with
    | some b => .bool b
    | none =>
        match readInt? s.toList with
        | some i => if isHugeInt i then .int i else resolveFloat s
        | none => resolveFloat s

/-- The value of a plain scalar. Integers that do not fit are refused. -/
def ofPlain? (s : String) : Option Node :=
  match resolve s with
  | .null => some null
  | .bool b => some (bool b)
  | .int i => if isIntValue i then some (int i) else none
  | .float x => some (float x)
  | .text => some (text s)

def tagOf (name : String) : List Char :=
  ("tag:yaml.org,2002:" ++ name).toList

/-- The value of a scalar with a tag or without. The tags of the core schema ask for a type; a
scalar that is not plain, or has any other tag, is text. -/
def ofScalar? (tag : Option (List Char)) (s : String) (plain : Bool) : Option Node :=
  match tag with
  | none => if plain then ofPlain? s else some (text s)
  | some t =>
      if t = tagOf "bool" then (readBool? s).map bool
      else if t = tagOf "int" then do
        let i ← readInt? s.toList
        guard (isIntValue i)
        return int i
      else if t = tagOf "float" then (readFloat? s).map float
      else if t = tagOf "null" then if isNullWord s then some null else none
      else some (text s)

mutual

/-- Equality of keys. Not-a-number equals itself here, the zeros are equal, and mappings are
compared without regard to order. -/
def same : Node → Node → Bool
  | null, null => true
  | bool a, bool b => a == b
  | int i, int j => i == j
  | float x, float y => x == y || x.sameNumber y
  | text s, text t => s == t
  | seq xs, seq ys => sameItems xs ys
  | map es, map fs => es.length == fs.length && sameEntries es fs
  | tagged t x, tagged u y => t == u && same x y
  | _, _ => false

def sameItems : List Node → List Node → Bool
  | [], [] => true
  | x :: xs, y :: ys => same x y && sameItems xs ys
  | _, _ => false

/-- Whether each entry of the first mapping has an equal one in the second. -/
def sameEntries : List (Node × Node) → List (Node × Node) → Bool
  | [], _ => true
  | (k, x) :: es, fs => fs.any (fun f => same k f.1 && same x f.2) && sameEntries es fs

end

end Node

end PathRules.Yaml
