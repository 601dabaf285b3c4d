import PathRules.Directory
import PathRules.Proofs.SparseEntries

/-!
# Files in a directory

Two names mean one file if they are kept under the same key. Putting bytes into a file changes what
is read under the names that mean this file and under no other name, and giving a file another name
is taking its bytes away under the old key and putting them under the new one.
-/

namespace PathRules

theorem Entries.erase_insert_of_not_mem {α : Type} {es : Entries α} {key : String} (x : α)
    (h : key ∉ es.keys) : (es.insert key x).erase key = es := by
  induction es with
  | nil => simp [insert, erase]
  | cons e es ih =>
      obtain ⟨hne, hrest⟩ := not_or.mp (mt List.mem_cons.mpr h)
      rw [insert, if_neg (Ne.symm hne), erase, if_neg (Ne.symm hne), ih hrest]

namespace Directory

variable {d d' : Directory} {name source target : String} {bytes : List UInt8}

/-- The name under which a file is kept, the same for all names that mean the file. -/
def place? (name : String) : Option String :=
  (resolve? name).map join

/-- Whether a file can be written under a name. -/
def takes (d : Directory) (name : String) : Bool :=
  (resolve? name).any fun ps => d.hasFolder ps.dropLast && !d.hasFolder ps

theorem read?_eq (d : Directory) (name : String) :
    d.read? name = (place? name).bind (Entries.get? d.files) := by
  rw [read?, place?, Option.bind_map]
  rfl

theorem resolve?_bind_insert {p : List String → Bool} :
    (resolve? name).bind (fun ps =>
        if p ps then some ⟨Entries.insert d.files (join ps) bytes⟩ else none) = some d' ↔
      (resolve? name).any p ∧
        ∃ key, place? name = some key ∧ d' = ⟨Entries.insert d.files key bytes⟩ := by
  rw [place?]
  cases resolve? name with
  | none => simp
  | some ps =>
      rw [Option.bind_some, Option.any_some, Option.map_some, Option.ite_none_right_eq_some]
      constructor
      · rintro ⟨hp, hd⟩
        exact ⟨hp, _, rfl, (Option.some.inj hd).symm⟩
      · rintro ⟨hp, key, hkey, rfl⟩
        cases hkey
        exact ⟨hp, rfl⟩

theorem write?_eq_some_iff : d.write? name bytes = some d' ↔
    d.takes name ∧ ∃ key, place? name = some key ∧ d' = ⟨Entries.insert d.files key bytes⟩ :=
  resolve?_bind_insert

theorem put?_eq_some_iff : d.put? name bytes = some d' ↔
    (resolve? name).any d.isFree ∧
      ∃ key, place? name = some key ∧ d' = ⟨Entries.insert d.files key bytes⟩ :=
  resolve?_bind_insert

theorem rename?_eq_some (h : d.rename? source target = some d')
    (hne : place? source ≠ place? target) :
    ∃ bytes old new, d.read? source = some bytes ∧ place? source = some old ∧
      place? target = some new ∧ d' = ⟨Entries.insert (Entries.erase d.files old) new bytes⟩ := by
  obtain ⟨bytes, hread, h⟩ := Option.bind_eq_some_iff.mp h
  obtain ⟨old, hold, h⟩ := Option.bind_eq_some_iff.mp h
  obtain ⟨new, hnew, h⟩ := Option.bind_eq_some_iff.mp h
  have hparts : old ≠ new := by
    rintro rfl
    exact hne (by rw [place?, place?, hold, hnew])
  rw [if_neg hparts] at h
  obtain ⟨-, h⟩ := Option.ite_none_right_eq_some.mp h
  exact ⟨bytes, join old, join new, hread, by rw [place?, hold]; rfl, by rw [place?, hnew]; rfl,
    (Option.some.inj h).symm⟩

/-- A file that is written holds the bytes, and no other file changes. -/
theorem read?_insert {key : String} (hkey : place? name = some key) (d : Directory)
    (bytes : List UInt8) (other : String) :
    read? ⟨Entries.insert d.files key bytes⟩ other =
      if place? other = place? name then some bytes else d.read? other := by
  rw [read?_eq, read?_eq, hkey]
  cases hother : place? other with
  | none => simp
  | some key' => simp [Entries.get?_insert, eq_comm]

theorem not_mem_keys_of_read? {key : String} (hkey : place? name = some key)
    (h : d.read? name = none) : key ∉ Entries.keys d.files := by
  rw [read?_eq, hkey] at h
  exact Entries.get?_eq_none_iff.mp h

end Directory

end PathRules
