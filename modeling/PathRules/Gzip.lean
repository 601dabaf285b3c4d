import PathRules.Gzip.Checksum
import PathRules.Gzip.Inflate

/-!
# Compressed files

A compressed file has a header, compressed data, and a checksum and a length of the content. What
follows is ignored. Files are written with stored blocks, which every reader takes.
-/

namespace PathRules.Gzip

/-- The bytes that every compressed file starts with. -/
def magic : List UInt8 := [0x1F, 0x8B]

def isPacked (bytes : List UInt8) : Bool :=
  magic.isPrefixOf bytes

/-- The bytes after the first zero. -/
def skipString? (bytes : List UInt8) : Option (List UInt8) :=
  match bytes.dropWhile (· ≠ 0) with
  | [] => none
  | _ :: rest => some rest

/-- The bytes after a field that starts with its length. -/
def skipField? : List UInt8 → Option (List UInt8)
  | low :: high :: rest =>
      let count := ofLittleEndian [low, high]
      if count ≤ rest.length then some (rest.drop count) else none
  | _ => none

/-- The bytes after the checksum of the header, which has to be right. -/
def skipHeaderCheck? (whole : List UInt8) (bytes : List UInt8) : Option (List UInt8) :=
  match bytes with
  | low :: high :: rest =>
      let header := whole.take (whole.length - bytes.length)
      if ofLittleEndian [low, high] = (checksum header).toNat % 65536 then some rest else none
  | _ => none

/-- The bytes after the header. Its fourth byte tells which fields it has. -/
def skipHeader? (bytes : List UInt8) : Option (List UInt8) :=
  match bytes with
  | 0x1F :: 0x8B :: 8 :: marks :: _ :: _ :: _ :: _ :: _ :: _ :: rest => do
      let marked := fun (i : Nat) => marks.toNat.testBit i
      if 32 ≤ marks.toNat then none
      let rest ← if marked 2 then skipField? rest else some rest
      let rest ← if marked 3 then skipString? rest else some rest
      let rest ← if marked 4 then skipString? rest else some rest
      if marked 1 then skipHeaderCheck? bytes rest else some rest
  | _ => none

/-- Whether the bytes after the data have the checksum and the length of the content. -/
def verifies (content : List UInt8) (trailer : List UInt8) : Bool :=
  trailer.take 8 ==
    littleEndian 4 (checksum content).toNat ++ littleEndian 4 content.length

/-- The content, or as much of it as a limit allows. A file that ends early or fails its checksum
still yields content that reaches the limit, as this is seen only at the end. -/
def unpack? (limit : Nat) (bytes : List UInt8) : Option (List UInt8) := do
  let body ← skipHeader? bytes
  let r := inflate body
  let content := r.content.toList
  let taken := content.take limit
  match r.ending with
  | .error .corrupt => none
  | .error .ended => if limit ≤ content.length then some taken else none
  | .ok rest => if limit ≤ content.length || verifies content rest.bytes then some taken else none

/-- The greatest length of a stored block. -/
def blockLength : Nat := 65535

/-- Stored blocks with the bytes. The last one carries the mark of the end. -/
def storedBlocks (bytes : List UInt8) : List UInt8 :=
  let block := fun (mark : UInt8) (part : List UInt8) =>
    mark :: (littleEndian 2 part.length ++ littleEndian 2 (blockLength - part.length) ++ part)
  if _h : bytes.length ≤ blockLength then block 1 bytes
  else block 0 (bytes.take blockLength) ++ storedBlocks (bytes.drop blockLength)
termination_by bytes.length
decreasing_by simp [blockLength] at *; omega

def header : List UInt8 :=
  magic ++ [8, 0, 0, 0, 0, 0, 0, 255]

/-- A compressed file with the content. -/
def pack (content : List UInt8) : List UInt8 :=
  header ++ storedBlocks content ++ littleEndian 4 (checksum content).toNat ++
    littleEndian 4 content.length

end PathRules.Gzip
