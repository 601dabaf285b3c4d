import PathRules.Gzip.Bits

/-!
# Prefix codes

A code assigns words of bits to symbols, and no word begins another. It is given by the lengths of
the words alone: words of one length are consecutive numbers in the order of their symbols, and
shorter words come first. The words are kept in a binary tree.
-/

namespace PathRules.Gzip

inductive Code where
  /-- No word begins this way. -/
  | missing
  | symbol (n : Nat)
  | branch (zero one : Code)

namespace Code

/-- Enters a word. -/
def insert (n : Nat) : List Bool → Code → Code
  | [], _ => symbol n
  | false :: word, branch zero one => branch (insert n word zero) one
  | true :: word, branch zero one => branch zero (insert n word one)
  | false :: word, _ => branch (insert n word missing) missing
  | true :: word, _ => branch missing (insert n word missing)

/-- The bits of a word, the highest first. -/
def word (length number : Nat) : List Bool :=
  (List.range length).reverse.map fun i => number.testBit i

/-- The longest word. -/
def maxLength : Nat := 15

/-- The symbols with words of a length. -/
def symbolsOf (lengths : List Nat) (length : Nat) : List Nat :=
  (lengths.zipIdx.filter fun p => p.1 == length).map Prod.snd

/-- Enters the words of each length in turn. `first` is the number of the first word. -/
def build (lengths : List Nat) : Nat → List Nat → Code → Code
  | _, [], code => code
  | first, length :: rest, code =>
      let symbols := symbolsOf lengths length
      let enter := fun (code : Code) ((n, i) : Nat × Nat) => code.insert n (word length (first + i))
      build lengths (2 * (first + symbols.length)) rest (symbols.zipIdx.foldl enter code)

/-- The part of all words of the greatest length that begin with a word of the code. -/
def weight (lengths : List Nat) : Nat :=
  lengths.foldl (fun n l => if l = 0 then n else n + Nat.pow 2 (maxLength - l)) 0

def wordCount (lengths : List Nat) : Nat :=
  (lengths.filter (· ≠ 0)).length

/-- The code of the lengths; zero stands for a symbol without a word. Words must leave no room,
except in a code of one word or none where `sparse` allows it. -/
def ofLengths? (sparse : Bool) (lengths : List Nat) : Option Code :=
  if weight lengths = Nat.pow 2 maxLength || (sparse && wordCount lengths ≤ 1) then
    some (build lengths 0 ((List.range maxLength).map (· + 1)) missing)
  else none

/-- Follows a word to its symbol. -/
def follow : Code → Bits → Except Trouble (Nat × Bits)
  | missing, _ => .error .corrupt
  | symbol n, b => .ok (n, b)
  | branch zero one, b => do
      let (bit, b) ← b.next
      if bit then one.follow b else zero.follow b

end Code

end PathRules.Gzip
