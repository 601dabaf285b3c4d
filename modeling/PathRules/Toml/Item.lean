import PathRules.Binary64
import PathRules.Entries

/-!
# TOML documents as data

A document is a table. Tables come about in four ways, and that decides what may still be added to
them: a table with a header of its own is complete after it, a table that a header only passes
through may get its own header later, a table made by a dotted key may be extended by further
dotted keys, and an inline table is complete at once.
-/

namespace PathRules.Toml

inductive Origin where
  | header
  | passed
  | dotted
  | inline
  deriving DecidableEq

inductive Item where
  | text (s : String)
  | integer (i : Int64)
  | float (x : Binary64)
  | boolean (b : Bool)
  /-- A date, a time, or both. -/
  | moment (text : String)
  | array (items : List Item)
  | table (origin : Origin) (entries : List (String × Item))
  /-- The tables that share a header in double brackets, the last one first. -/
  | tables (last : List (String × Item)) (before : List (List (String × Item)))

/-- The entries of a table. -/
abbrev Fields := List (String × Item)

namespace Fields

/-- Adds an entry under a key that is free. -/
def add? (fields : Fields) (key : String) (item : Item) : Option Fields :=
  if (Entries.get? fields key).isSome then none else some (Entries.insert fields key item)

/-- Adds an entry under a dotted key, whose parts but the last are given as a list. The tables on
the way are made, or they allow dotted keys. `here` tells whether the table reached allows it. -/
def addDotted? (here : Bool) : List String → String → Item → Fields → Option Fields
  | [], key, item, fields => if here then fields.add? key item else none
  | part :: rest, key, item, fields => do
      let changed ← match Entries.get? fields part with
        | none => (addDotted? true rest key item []).map (.table .dotted)
        | some (.table .dotted es) => (addDotted? true rest key item es).map (.table .dotted)
        | some (.table .passed es) => (addDotted? false rest key item es).map (.table .passed)
        | some (.tables last before) => (addDotted? false rest key item last).map (.tables · before)
        | _ => none
      return Entries.insert fields part changed

/-- Changes the table at the path of a header. Tables on the way are made if they are missing; of
tables that share a header the last one is meant. -/
def alterAt? (f : Fields → Option Fields) : List String → Fields → Option Fields
  | [], fields => f fields
  | part :: rest, fields => do
      let changed ← match Entries.get? fields part with
        | none => (alterAt? f rest []).map (.table .passed)
        | some (.table .inline _) => none
        | some (.table origin es) => (alterAt? f rest es).map (.table origin)
        | some (.tables last before) => (alterAt? f rest last).map (.tables · before)
        | _ => none
      return Entries.insert fields part changed

/-- Opens the table of a header. -/
def openTable? (key : String) (fields : Fields) : Option Fields :=
  match Entries.get? fields key with
  | none => some (Entries.insert fields key (.table .header []))
  | some (.table .passed es) => some (Entries.insert fields key (.table .header es))
  | _ => none

/-- Opens one more table of a header in double brackets. -/
def openNext? (key : String) (fields : Fields) : Option Fields :=
  match Entries.get? fields key with
  | none => some (Entries.insert fields key (.tables [] []))
  | some (.tables last before) =>
      some (Entries.insert fields key (.tables [] (last :: before)))
  | _ => none

end Fields

end PathRules.Toml
