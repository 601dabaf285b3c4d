/-!
# Bits of a byte sequence

Compressed data is read bit by bit, from the lowest bit of each byte to the highest. Reading can
come to the end of the data, and the data can be wrong; the two are told apart, because what was
read before the end is still good.
-/

namespace PathRules.Gzip

inductive Trouble where
  | ended
  | corrupt
  deriving DecidableEq

/-- What is left to read. -/
structure Bits where
  /-- The bits left of a byte that was begun. -/
  pending : List Bool
  bytes : List UInt8

namespace Bits

def ofBytes (bytes : List UInt8) : Bits := ⟨[], bytes⟩

def size (b : Bits) : Nat :=
  b.pending.length + 8 * b.bytes.length

def next : Bits → Except Trouble (Bool × Bits)
  | ⟨bit :: pending, bytes⟩ => .ok (bit, ⟨pending, bytes⟩)
  | ⟨[], byte :: bytes⟩ =>
      .ok (byte.toNat.testBit 0, ⟨(List.range 7).map fun i => byte.toNat.testBit (i + 1), bytes⟩)
  | ⟨[], []⟩ => .error .ended

/-- The number that bits spell, the lowest first. -/
def take : Nat → Bits → Except Trouble (Nat × Bits)
  | 0, b => .ok (0, b)
  | count + 1, b => do
      let (bit, b) ← b.next
      let (n, b) ← take count b
      return (bit.toNat + 2 * n, b)

/-- Drops what is left of a byte. -/
def align (b : Bits) : Bits :=
  { b with pending := [] }

/-- Whole bytes, as many of them as there are up to a count. -/
def takeBytes (count : Nat) (b : Bits) : List UInt8 × Bits :=
  (b.bytes.take count, ⟨[], b.bytes.drop count⟩)

end Bits

end PathRules.Gzip
