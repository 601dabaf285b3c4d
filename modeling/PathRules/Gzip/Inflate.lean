import PathRules.Gzip.Code

/-!
# Compressed blocks

Compressed data is a sequence of blocks. A block is stored as it is, or holds the words of two
codes: one for bytes and for the lengths of copies, and one for the distances that copies reach
back. The codes are fixed, or the block begins with the lengths of their words, which are
compressed too.
-/

namespace PathRules.Gzip

/-- What was read, and whether it came to the end of the last block. -/
structure Inflated where
  content : Array UInt8
  ending : Except Trouble Bits

/-- Appends bytes that stand a distance back. A copy may run into its own output. -/
def copyBack (distance : Nat) : Nat → Array UInt8 → Array UInt8
  | 0, out => out
  | count + 1, out => copyBack distance count (out.push ((out[out.size - distance]?).getD 0))

/-- Base and number of further bits of the lengths from symbol 257 on. -/
def copyLengths : List (Nat × Nat) :=
  [(3, 0), (4, 0), (5, 0), (6, 0), (7, 0), (8, 0), (9, 0), (10, 0), (11, 1), (13, 1), (15, 1),
    (17, 1), (19, 2), (23, 2), (27, 2), (31, 2), (35, 3), (43, 3), (51, 3), (59, 3), (67, 4),
    (83, 4), (99, 4), (115, 4), (131, 5), (163, 5), (195, 5), (227, 5), (258, 0)]

/-- Base and number of further bits of the distances. -/
def copyDistances : List (Nat × Nat) :=
  [(1, 0), (2, 0), (3, 0), (4, 0), (5, 1), (7, 1), (9, 2), (13, 2), (17, 3), (25, 3), (33, 4),
    (49, 4), (65, 5), (97, 5), (129, 6), (193, 6), (257, 7), (385, 7), (513, 8), (769, 8),
    (1025, 9), (1537, 9), (2049, 10), (3073, 10), (4097, 11), (6145, 11), (8193, 12), (12289, 12),
    (16385, 13), (24577, 13)]

/-- A number given by a base and further bits. -/
def takeFrom (table : List (Nat × Nat)) (i : Nat) (b : Bits) : Except Trouble (Nat × Bits) :=
  match table[i]? with
  | none => .error .corrupt
  | some (base, count) => do
      let (n, b) ← b.take count
      return (base + n, b)

/-- One word of a block, and what its copy needs. -/
inductive Item where
  | byte (b : UInt8)
  | stop
  | copy (length distance : Nat)

def takeItem (letters distances : Code) (b : Bits) : Except Trouble (Item × Bits) := do
  let (n, b) ← letters.follow b
  if n < 256 then return (.byte (UInt8.ofNat n), b)
  else if n = 256 then return (.stop, b)
  else
    let (length, b) ← takeFrom copyLengths (n - 257) b
    let (i, b) ← distances.follow b
    let (distance, b) ← takeFrom copyDistances i b
    return (.copy length distance, b)

/-- The words of a block up to its stop. -/
def inflateItems (letters distances : Code) (out : Array UInt8) (b : Bits) : Inflated :=
  match takeItem letters distances b with
  | .error e => ⟨out, .error e⟩
  | .ok (item, c) =>
      if _h : c.size < b.size then
        match item with
        | .byte x => inflateItems letters distances (out.push x) c
        | .stop => ⟨out, .ok c⟩
        | .copy length distance =>
            if distance ≤ out.size then
              inflateItems letters distances (copyBack distance length out) c
            else ⟨out, .error .corrupt⟩
      else ⟨out, .error .corrupt⟩
termination_by b.size

/-- A block that is stored as it is: its length, the complement of its length, and its bytes. -/
def inflateStored (out : Array UInt8) (b : Bits) : Inflated :=
  match (do
    let (length, b) ← b.align.take 16
    let (complement, b) ← b.take 16
    if length + complement = 65535 then return (length, b) else throw Trouble.corrupt) with
  | .error e => ⟨out, .error e⟩
  | .ok (length, c) =>
      let (bytes, c) := c.takeBytes length
      ⟨out ++ bytes.toArray, if bytes.length = length then .ok c else .error .ended⟩

def fixedLetters : List Nat :=
  List.replicate 144 8 ++ List.replicate 112 9 ++ List.replicate 24 7 ++ List.replicate 8 8

def fixedDistances : List Nat :=
  List.replicate 32 5

/-- The order in which a block gives the lengths for its code of lengths. -/
def lengthOrder : List Nat :=
  [16, 17, 18, 0, 8, 7, 9, 6, 10, 5, 11, 4, 12, 3, 13, 2, 14, 1, 15]

def takeMany (bits : Nat) : Nat → Bits → Except Trouble (List Nat × Bits)
  | 0, b => .ok ([], b)
  | count + 1, b => do
      let (n, b) ← b.take bits
      let (ns, b) ← takeMany bits count b
      return (n :: ns, b)

/-- Lengths up to a count, the last of those so far first. Symbols from 16 on repeat a length. -/
def takeLengths (code : Code) (count : Nat) (lengths : List Nat) (b : Bits) :
    Except Trouble (List Nat × Bits) :=
  if _full : count ≤ lengths.length then
    if lengths.length = count then .ok (lengths.reverse, b) else .error .corrupt
  else match code.follow b with
    | .error e => .error e
    | .ok (n, b) =>
        if n < 16 then takeLengths code count (n :: lengths) b
        else
          let repeated := if n = 16 then lengths.head? else some 0
          let counted := if n = 16 then (b.take 2).map fun (k, b) => (k + 2, b)
            else if n = 17 then (b.take 3).map fun (k, b) => (k + 2, b)
            else (b.take 7).map fun (k, b) => (k + 10, b)
          match repeated, counted with
          | none, _ => .error .corrupt
          | _, .error e => .error e
          | some l, .ok (k, b) => takeLengths code count (l :: (List.replicate k l ++ lengths)) b
termination_by count - lengths.length
decreasing_by all_goals simp only [List.length_cons, List.length_append]; omega

def orCorrupt {α : Type} : Option α → Except Trouble α
  | some a => .ok a
  | none => .error .corrupt

/-- The codes at the start of a block that has its own. -/
def takeCodes (b : Bits) : Except Trouble ((Code × Code) × Bits) := do
  let (letters, b) ← b.take 5
  let (distances, b) ← b.take 5
  let (count, b) ← b.take 4
  let (given, b) ← takeMany 3 (count + 4) b
  if 286 < letters + 257 || 30 < distances + 1 then throw .corrupt
  let lengths := (List.range 19).map fun i => ((lengthOrder.zip given).lookup i).getD 0
  let code ← orCorrupt (Code.ofLengths? false lengths)
  let (lengths, b) ← takeLengths code (letters + distances + 258) [] b
  let letterCode ← orCorrupt (Code.ofLengths? true (lengths.take (letters + 257)))
  let distanceCode ← orCorrupt (Code.ofLengths? true (lengths.drop (letters + 257)))
  return ((letterCode, distanceCode), b)

/-- One block, after the bits that tell its kind. -/
def inflateBlock (kind : Nat) (out : Array UInt8) (b : Bits) : Inflated :=
  if kind = 0 then inflateStored out b
  else if kind = 1 then
    match Code.ofLengths? false fixedLetters, Code.ofLengths? false fixedDistances with
    | some letters, some distances => inflateItems letters distances out b
    | _, _ => ⟨out, .error .corrupt⟩
  else if kind = 2 then
    match takeCodes b with
    | .error e => ⟨out, .error e⟩
    | .ok ((letters, distances), b) => inflateItems letters distances out b
  else ⟨out, .error .corrupt⟩

/-- Blocks up to the one that is marked as the last. -/
def inflateBlocks (out : Array UInt8) (b : Bits) : Inflated :=
  match b.take 3 with
  | .error e => ⟨out, .error e⟩
  | .ok (mark, c) =>
      let r := inflateBlock (mark / 2) out c
      if mark % 2 = 1 then r
      else match r.ending with
        | .error _ => r
        | .ok rest =>
            if _h : rest.size < b.size then inflateBlocks r.content rest
            else ⟨r.content, .error .corrupt⟩
termination_by b.size

def inflate (bytes : List UInt8) : Inflated :=
  inflateBlocks #[] (.ofBytes bytes)

end PathRules.Gzip
