import PathRules.Entries

/-!
# Directories

A directory holds files under their names. A name may lead through folders; a folder is there if it
holds a file. Names are resolved first, so that a name and the same name with idle parts mean one
file.
-/

namespace PathRules

structure Directory where
  files : Entries (List UInt8) := []
  deriving Inhabited

namespace Directory

/-- The parts of a name between the slashes. -/
def parts (name : String) : List String :=
  (name.toList.splitOnP (· == '/')).map String.ofList

def isIdle (part : String) : Bool :=
  part == "" || part == "."

/-- The parts of a name that matter. A slash in front counts as a part without characters. Names
that can only mean a folder are refused. -/
def resolve? (name : String) : Option (List String) :=
  match parts name with
  | [] => none
  | first :: rest =>
      if (rest.getLastD first == "..") || isIdle (rest.getLastD first) then none
      else
        let kept := rest.filter fun p => !isIdle p
        some (if first == "." then kept else first :: kept)

def join (ps : List String) : String :=
  "/".intercalate ps

/-- Whether a folder is there; the directory itself always is. -/
def hasFolder (d : Directory) (ps : List String) : Bool :=
  ps.isEmpty || d.files.any fun (name, _) =>
    decide (ps.length < (parts name).length) && ps.isPrefixOf (parts name)

def read? (d : Directory) (name : String) : Option (List UInt8) :=
  (resolve? name).bind fun ps => Entries.get? d.files (join ps)

/-- Puts bytes into a file. The folder that the name leads to has to be there, and the name must
not be taken by a folder. -/
def write? (d : Directory) (name : String) (bytes : List UInt8) : Option Directory :=
  (resolve? name).bind fun ps =>
    if d.hasFolder ps.dropLast && !d.hasFolder ps then
      some ⟨Entries.insert d.files (join ps) bytes⟩
    else none

/-- Whether a file can stand under a name once the missing folders are made: no folder that the name
leads to is a file, and the name is not taken by a folder. -/
def isFree (d : Directory) (ps : List String) : Bool :=
  !d.hasFolder ps && !d.files.any fun (name, _) =>
    decide ((parts name).length < ps.length) && (parts name).isPrefixOf ps

/-- Puts bytes into a file, after making the folders that the name leads to. -/
def put? (d : Directory) (name : String) (bytes : List UInt8) : Option Directory :=
  (resolve? name).bind fun ps =>
    if d.isFree ps then some ⟨Entries.insert d.files (join ps) bytes⟩ else none

/-- Gives a file another name, in place of the file that had it. The folder that the name leads to
has to be there, and the name must not be taken by a folder. -/
def rename? (d : Directory) (source target : String) : Option Directory := do
  let bytes ← d.read? source
  let old ← resolve? source
  let new ← resolve? target
  if old = new then return d
  else if d.hasFolder new.dropLast && !d.hasFolder new then
    return ⟨Entries.insert (Entries.erase d.files (join old)) (join new) bytes⟩
  else none

/-- The directory that holds the given files. -/
def ofFiles (files : List (String × List UInt8)) : Directory :=
  ⟨files.foldl (fun es (name, bytes) =>
    Entries.insert es (join ((resolve? name).getD [name])) bytes) []⟩

end Directory

end PathRules
