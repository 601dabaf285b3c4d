import Mathlib.Tactic.Ring
import PathRules.Gzip

/-!
# Packed content is unpacked again

A packed file is a header, stored blocks and a trailer. Numbers in it are read bit by bit, but they
fill whole bytes, so a byte that is read from its first bit gives its number and leaves the bytes
after it. A block then gives the bytes that were stored in it, the blocks of a content one after the
other give all of it, and the trailer has the checksum and the length that are asked for.
-/

namespace PathRules.Gzip

namespace Bits

theorem take_succ {b c d : Bits} {bit : Bool} {n count : Nat} (hbit : b.next = .ok (bit, c))
    (hrest : c.take count = .ok (n, d)) : b.take (count + 1) = .ok (bit.toNat + 2 * n, d) := by
  rw [take, hbit]
  simp only [bind, Except.bind, hrest, pure, Except.pure]

theorem exists_of_take_succ {b d : Bits} {n count : Nat} (h : b.take (count + 1) = .ok (n, d)) :
    ∃ bit c m, b.next = .ok (bit, c) ∧ c.take count = .ok (m, d) ∧ n = bit.toNat + 2 * m := by
  rw [take] at h
  cases hbit : b.next with
  | error e => simp [hbit, bind, Except.bind] at h
  | ok first =>
      cases hrest : first.2.take count with
      | error e => simp [hbit, hrest, bind, Except.bind] at h
      | ok rest =>
          simp only [hbit, hrest, bind, Except.bind, pure, Except.pure, Except.ok.injEq,
            Prod.mk.injEq] at h
          obtain ⟨rfl, rfl⟩ := h
          exact ⟨_, _, _, rfl, hrest, rfl⟩

theorem take_add {b c d : Bits} {low high m n : Nat} (hlow : b.take m = .ok (low, c))
    (hhigh : c.take n = .ok (high, d)) : b.take (m + n) = .ok (low + 2 ^ m * high, d) := by
  induction m generalizing b low with
  | zero =>
      cases hlow
      simpa using hhigh
  | succ m ih =>
      obtain ⟨bit, b', low, hbit, hrest, rfl⟩ := exists_of_take_succ hlow
      have hvalue : bit.toNat + 2 * low + 2 ^ (m + 1) * high =
          bit.toNat + 2 * (low + 2 ^ m * high) := by ring
      rw [Nat.succ_add, hvalue]
      exact take_succ hbit (ih hrest)

theorem sum_testBit : ∀ n < 256, (decide (n % 2 = 1)).toNat + 2 * ((n.testBit 1).toNat +
    2 * ((n.testBit 2).toNat + 2 * ((n.testBit 3).toNat + 2 * ((n.testBit 4).toNat +
    2 * ((n.testBit 5).toNat + 2 * ((n.testBit 6).toNat + 2 * (n.testBit 7).toNat)))))) = n := by
  decide +kernel

theorem take_byte (byte : UInt8) (bytes : List UInt8) :
    take 8 ⟨[], byte :: bytes⟩ = .ok (byte.toNat, ⟨[], bytes⟩) := by
  simpa [take, next, List.range_succ, bind, Except.bind, pure, Except.pure] using
    sum_testBit byte.toNat byte.toNat_lt

theorem take_littleEndian (count n : Nat) (bytes : List UInt8) :
    take (8 * count) ⟨[], littleEndian count n ++ bytes⟩ = .ok (n % 256 ^ count, ⟨[], bytes⟩) := by
  induction count generalizing n with
  | zero => simp [take, littleEndian, Nat.mod_one]
  | succ count ih =>
      have hbits : 8 * (count + 1) = 8 + 8 * count := by ring
      have hvalue : n % 256 ^ (count + 1) =
          (UInt8.ofNat n).toNat + 2 ^ 8 * (n / 256 % 256 ^ count) := by
        rw [pow_succ', Nat.mod_mul, UInt8.toNat_ofNat']
        rfl
      rw [hbits, hvalue]
      exact take_add (take_byte _ _) (ih (n / 256))

theorem take_word {n : Nat} (h : n < 65536) (bytes : List UInt8) :
    take 16 ⟨[], littleEndian 2 n ++ bytes⟩ = .ok (n, ⟨[], bytes⟩) := by
  have hword := take_littleEndian 2 n bytes
  rwa [Nat.mod_eq_of_lt (show n < 256 ^ 2 from h)] at hword

end Bits

theorem inflateStored_block (out : Array UInt8) (pending : List Bool) (part rest : List UInt8)
    (h : part.length ≤ blockLength) :
    inflateStored out ⟨pending, littleEndian 2 part.length ++
      (littleEndian 2 (blockLength - part.length) ++ (part ++ rest))⟩ =
        ⟨out ++ part.toArray, .ok ⟨[], rest⟩⟩ := by
  rw [blockLength] at h ⊢
  have hsum : part.length + (65535 - part.length) = 65535 := by omega
  simp only [inflateStored, Bits.align, Bits.take_word (show part.length < 65536 by omega),
    Bits.take_word (show 65535 - part.length < 65536 by omega), bind, Except.bind, hsum, if_true,
    pure, Except.pure, Bits.takeBytes, List.take_left, List.drop_left]

/-- A stored block: its mark, its length, the complement of its length, and its bytes. -/
def storedBlock (mark : UInt8) (part : List UInt8) : List UInt8 :=
  mark :: (littleEndian 2 part.length ++ (littleEndian 2 (blockLength - part.length) ++ part))

theorem storedBlocks_last {content : List UInt8} (h : content.length ≤ blockLength) :
    storedBlocks content = storedBlock 1 content := by
  rw [storedBlocks, dif_pos h]
  simp [storedBlock]

theorem storedBlocks_first {content : List UInt8} (h : ¬ content.length ≤ blockLength) :
    storedBlocks content = storedBlock 0 (content.take blockLength) ++
      storedBlocks (content.drop blockLength) := by
  rw [storedBlocks, dif_neg h]
  simp [storedBlock]

theorem inflateBlocks_last (out : Array UInt8) (part rest : List UInt8)
    (h : part.length ≤ blockLength) :
    inflateBlocks out ⟨[], storedBlock 1 part ++ rest⟩ = ⟨out ++ part.toArray, .ok ⟨[], rest⟩⟩ := by
  have hmark : ∀ bytes, Bits.take 3 ⟨[], 1 :: bytes⟩ = .ok (1, ⟨List.replicate 5 false, bytes⟩) :=
    fun _ => rfl
  rw [storedBlock, List.cons_append, List.append_assoc, List.append_assoc, inflateBlocks, hmark]
  simp [inflateBlock, inflateStored_block _ _ _ _ h]

theorem inflateBlocks_more (out : Array UInt8) (part rest : List UInt8)
    (h : part.length ≤ blockLength) :
    inflateBlocks out ⟨[], storedBlock 0 part ++ rest⟩ =
      inflateBlocks (out ++ part.toArray) ⟨[], rest⟩ := by
  have hmark : ∀ bytes, Bits.take 3 ⟨[], 0 :: bytes⟩ = .ok (0, ⟨List.replicate 5 false, bytes⟩) :=
    fun _ => rfl
  rw [storedBlock, List.cons_append, List.append_assoc, List.append_assoc]
  conv_lhs => rw [inflateBlocks, hmark]
  simp [inflateBlock, inflateStored_block _ _ _ _ h, Bits.size]
  omega

theorem inflateBlocks_storedBlocks (out : Array UInt8) (content rest : List UInt8) :
    inflateBlocks out ⟨[], storedBlocks content ++ rest⟩ =
      ⟨out ++ content.toArray, .ok ⟨[], rest⟩⟩ := by
  induction hlength : content.length using Nat.strongRecOn generalizing out content with
  | ind n ih =>
      by_cases h : content.length ≤ blockLength
      · rw [storedBlocks_last h, inflateBlocks_last out content rest h]
      · have hdrop : (content.drop blockLength).length < n := by
          rw [List.length_drop, ← hlength]
          rw [blockLength] at h ⊢
          omega
        have hjoin : out ++ (content.take blockLength).toArray ++
            (content.drop blockLength).toArray = out ++ content.toArray := by simp
        rw [storedBlocks_first h, List.append_assoc,
          inflateBlocks_more out _ _ (List.length_take_le _ _), ih _ hdrop _ _ rfl, hjoin]

theorem skipHeader?_header (bytes : List UInt8) : skipHeader? (header ++ bytes) = some bytes :=
  rfl

theorem verifies_trailer (content : List UInt8) : verifies content
    (littleEndian 4 (checksum content).toNat ++ littleEndian 4 content.length) := by
  rw [verifies, List.take_of_length_le (by simp [length_littleEndian])]
  exact beq_self_eq_true _

/-- Unpacking gives the content that was packed, as much of it as the limit allows. -/
theorem unpack?_pack (limit : Nat) (content : List UInt8) :
    unpack? limit (pack content) = some (content.take limit) := by
  rw [unpack?, pack, List.append_assoc, List.append_assoc, skipHeader?_header]
  simp [inflate, Bits.ofBytes, inflateBlocks_storedBlocks, verifies_trailer]

end PathRules.Gzip
