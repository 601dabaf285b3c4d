import PathRules.Directory
import PathRules.Format
import PathRules.Gzip

/-!
# Loading documents

Input is a file or a stream of bytes, compressed or not. Its size is held to a limit before and
after it is unpacked; only then is it read as a text in UTF-8 and as a document.
-/

namespace PathRules

def decodeUtf8? (bytes : List UInt8) : Option (List Char) :=
  (String.fromUTF8? ⟨bytes.toArray⟩).map String.toList

def checkSize (size limit : Nat) : Except Cause Unit :=
  if limit < size then .error (.tooLarge size limit) else .ok ()

/-- The text of packed bytes. One byte more than the limit allows is unpacked, so that an excess is
noticed. -/
def unpackText (limit : Nat) (bytes : List UInt8) : Except Cause (List Char) :=
  match Gzip.unpack? (limit + 1) bytes with
  | none => .error .corruptArchive
  | some content =>
      match decodeUtf8? content with
      | none => .error .corruptArchive
      | some text => do
          checkSize content.length limit
          return text

/-- The text of bytes. -/
def decodeText (limit : Nat) (bytes : List UInt8) : Except Cause (List Char) :=
  if Gzip.isPacked bytes then unpackText limit bytes
  else match decodeUtf8? bytes with
    | none => .error .notText
    | some text => .ok text

/-- The text of bytes that are held to a limit. -/
def boundedText (limit : Nat) (bytes : List UInt8) : Except Failure (List Char) :=
  (checkSize bytes.length limit >>= fun _ => decodeText limit bytes).mapError Failure.ofCause

/-- The document in a file. The name of the file tells its format. -/
def Directory.load (d : Directory) (name : String) (limit : Nat) : Except Failure Value :=
  match d.read? name with
  | none => .error (.ofCause (.unreadable name))
  | some bytes => do
      let text ← boundedText limit bytes
      (readDocument (Format.ofName? name) text).mapError (Failure.during (.loading name))

/-- The document in a stream, of which no more is taken than is needed to notice an excess. -/
def loadStream (limit : Nat) (bytes : List UInt8) : Except Failure Value := do
  let text ← boundedText limit (bytes.take (limit + 1))
  (readDocument none text).mapError (Failure.during .readingInput)

end PathRules
