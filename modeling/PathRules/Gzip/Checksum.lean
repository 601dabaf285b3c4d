/-!
# Checksums

The cyclic redundancy check of 32 bits that ends a compressed file, taken bit by bit with the
lowest bit first.
-/

namespace PathRules.Gzip

/-- The generator polynomial, its bits reversed. -/
def polynomial : UInt32 := 0xEDB88320

def shiftOnce (crc : UInt32) : UInt32 :=
  if crc &&& 1 = 1 then (crc >>> 1) ^^^ polynomial else crc >>> 1

/-- The register after one more byte. -/
def absorb (crc : UInt32) (b : UInt8) : UInt32 :=
  Nat.repeat shiftOnce 8 (crc ^^^ b.toUInt32)

def checksum (bytes : List UInt8) : UInt32 :=
  bytes.foldl absorb 0xFFFFFFFF ^^^ 0xFFFFFFFF

/-- Bytes of a number, the lowest first. -/
def littleEndian : Nat → Nat → List UInt8
  | 0, _ => []
  | count + 1, n => UInt8.ofNat n :: littleEndian count (n / 256)

def ofLittleEndian : List UInt8 → Nat
  | [] => 0
  | b :: bs => b.toNat + 256 * ofLittleEndian bs

theorem length_littleEndian (count n : Nat) : (littleEndian count n).length = count := by
  induction count generalizing n with
  | zero => rfl
  | succ count ih => simp [littleEndian, ih]

end PathRules.Gzip
