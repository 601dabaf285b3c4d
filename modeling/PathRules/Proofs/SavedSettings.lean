import PathRules.Proofs.DirectoryFiles
import PathRules.Proofs.DocumentValues
import PathRules.Proofs.TextBytes
import PathRules.Settings

/-!
# Saved settings are read back

A document of settings is a list of lines, each with a bare key and a value. Reading a line adds its
entry to the table and leaves the lines after it, so a document of lines with different keys reads
as the table of their entries, and there the settings are found again. What is loaded can always be
saved: a size that a document holds is a number of 64 bits, and so is the default.
-/

namespace PathRules.Settings

open Toml

section Lines

variable {key : String} {value rest : List Char} {item : Item}

/-- Whether a key can stand without quotes. -/
def IsBare (key : String) : Prop :=
  key.toList.isEmpty = false ∧ key.toList.all isKeyChar

theorem isBlank_of_isKeyChar {c : Char} (h : isKeyChar c) : isBlank c = false := by
  rw [isBlank, Bool.or_eq_false_iff, beq_eq_false_iff_ne, beq_eq_false_iff_ne]
  exact ⟨ne_of_holds h rfl, ne_of_holds h rfl⟩

theorem IsBare.head (hkey : IsBare key) : ∃ c cs, key.toList = c :: cs ∧ isKeyChar c := by
  obtain ⟨hne, hall⟩ := hkey
  obtain ⟨c, cs, hcs⟩ := List.exists_cons_of_ne_nil (List.isEmpty_eq_false_iff.mp hne)
  exact ⟨c, cs, hcs, List.all_eq_true.mp hall c (by simp [hcs])⟩

theorem readPart?_bare (hkey : IsBare key) (rest : List Char) :
    readPart? (key.toList ++ ' ' :: rest) = some (key, ' ' :: rest) := by
  have hchars := List.all_eq_true.mp hkey.2
  have hblank : ¬isKeyChar ' ' := by decide
  have htake : (key.toList ++ ' ' :: rest).takeWhile isKeyChar = key.toList := by
    rw [List.takeWhile_append_of_pos hchars, List.takeWhile_cons_of_neg hblank, List.append_nil]
  have hdrop : (key.toList ++ ' ' :: rest).dropWhile isKeyChar = ' ' :: rest := by
    rw [List.dropWhile_append_of_pos hchars, List.dropWhile_cons_of_neg hblank]
  obtain ⟨c, cs, hcs, hc⟩ := hkey.head
  rw [readPart?]
  · simp only [htake, hdrop]
    rw [hkey.1, if_neg Bool.false_ne_true, String.ofList_toList]
  all_goals
    intro ds heq
    rw [hcs] at heq
    exact ne_of_holds hc rfl (List.cons.inj heq).1

theorem readKey?_bare (hkey : IsBare key) (rest : List Char) :
    readKey? (key.toList ++ ' ' :: '=' :: rest) = some ([key], '=' :: rest) := by
  obtain ⟨c, cs, hcs, hc⟩ := hkey.head
  have hstart : skipBlanks (key.toList ++ ' ' :: '=' :: rest) =
      key.toList ++ ' ' :: '=' :: rest := by
    rw [hcs, List.cons_append, skipBlanks, List.dropWhile_cons_of_neg]
    simp [isBlank_of_isKeyChar hc]
  rw [readKey?, readParts?, hstart, readPart?_bare hkey]
  rfl

theorem readPair?_line (hkey : IsBare key) (hvalue : Spells value item) (rest : List Char) :
    readPair? (readValue? nestingBound) (line key value ++ rest) =
      some (([key], item), '\n' :: rest) := by
  obtain ⟨c, cs, hcs, hblank, hread⟩ := hvalue
  have hline : line key value ++ rest =
      key.toList ++ ' ' :: '=' :: ' ' :: (value ++ '\n' :: rest) := by simp [line]
  have hstart : skipBlanks (' ' :: (value ++ '\n' :: rest)) = value ++ '\n' :: rest := by
    rw [skipBlanks, List.dropWhile_cons_of_pos (by decide), hcs, List.cons_append,
      List.dropWhile_cons_of_neg (by simp [hblank])]
  rw [hline, readPair?, readKey?_bare hkey]
  change (readValue? nestingBound (skipBlanks (' ' :: (value ++ '\n' :: rest)))).bind _ = _
  rw [hstart, nestingBound, hread 77]
  rfl

theorem addPair?_new {fields : Fields} (hnew : key ∉ Entries.keys fields) (item : Item) :
    Document.addPair? ⟨fields, []⟩ [key] item = some ⟨fields ++ [(key, item)], []⟩ := by
  have hfree : Entries.get? fields key = none := Entries.get?_eq_none_iff.mpr hnew
  have hadd : fields.add? key item = some (fields ++ [(key, item)]) := by
    rw [Fields.add?, hfree, Entries.insert_of_not_mem hnew]
    rfl
  change (fields.add? key item).map _ = _
  rw [hadd]
  rfl

/-- Reading a line adds its entry to the table. -/
theorem readLines?_line {fields : Fields} (hkey : IsBare key) (hvalue : Spells value item)
    (hnew : key ∉ Entries.keys fields) (rest : List Char) :
    readLines? ⟨fields, []⟩ (line key value ++ rest) =
      readLines? ⟨fields ++ [(key, item)], []⟩ rest := by
  obtain ⟨c, cs, hcs, hc⟩ := hkey.head
  have hother : ∀ d, isKeyChar d = false → c ≠ d := fun _ => ne_of_holds hc
  have hline : line key value ++ rest = c :: (cs ++ " = ".toList ++ value ++ ['\n'] ++ rest) := by
    rw [line, hcs]
    rfl
  have hidle : skipIdle? false (line key value ++ rest) = some (line key value ++ rest) := by
    rw [hline, skipIdle?_cons (not_mem_of_holds hc rfl)]
  have hstatement : readStatement? ⟨fields, []⟩ (line key value ++ rest) =
      some (⟨fields ++ [(key, item)], []⟩, '\n' :: rest) := by
    have hpair := readPair?_line hkey hvalue rest
    rw [hline] at hpair ⊢
    rw [readStatement?, hpair]
    · change (Document.addPair? ⟨fields, []⟩ [key] item).bind _ = _
      rw [addPair?_new hnew]
      rfl
    · exact fun _ heq => hother _ rfl (List.cons.inj heq).1
    · exact fun _ heq => hother _ rfl (List.cons.inj heq).1
  have hlt : rest.length < (line key value ++ rest).length := by
    simp only [line, List.length_append, List.length_cons]
    omega
  rw [readLines?, hidle, Option.bind_some, if_neg (by rw [hline]; nofun), hstatement]
  change (if _h : rest.length < (line key value ++ rest).length then
    readLines? ⟨fields ++ [(key, item)], []⟩ rest else none) = _
  rw [dif_pos hlt]

/-- A line of a document, with the item that its value stands for. -/
structure Entry where
  key : String
  value : List Char
  item : Item
  isBare : IsBare key
  spells : Spells value item

theorem readLines?_lines (entries : List Entry) {fields : Fields}
    (hkeys : (Entries.keys fields ++ entries.map Entry.key).Nodup) :
    readLines? ⟨fields, []⟩ (entries.flatMap fun e => line e.key e.value) =
      some ⟨fields ++ entries.map fun e => (e.key, e.item), []⟩ := by
  induction entries generalizing fields with
  | nil =>
      rw [readLines?]
      simp [skipIdle?]
  | cons e entries ih =>
      have hnew : e.key ∉ Entries.keys fields := fun hmem =>
        List.disjoint_of_nodup_append hkeys hmem List.mem_cons_self
      have hrest : (Entries.keys (fields ++ [(e.key, e.item)]) ++ entries.map Entry.key).Nodup := by
        simpa [Entries.keys] using hkeys
      rw [List.flatMap_cons, readLines?_line e.isBare e.spells hnew, ih hrest, List.append_assoc]
      rfl

end Lines

section Fields

theorem spells_boolWord (b : Bool) : Spells (boolWord b) (.boolean b) := by
  cases b with
  | true => exact spells_word rfl nofun rfl
  | false => exact spells_word rfl nofun rfl

theorem spells_printTexts (texts : List String) :
    Spells (printTexts texts) (.array (texts.map .text)) := by
  unfold printTexts
  split
  · exact spells_array fun inner rest => by
      rw [readItems?]
      rfl
  · next s =>
      refine spells_array fun inner rest => ?_
      have hread := readItems?_quote inner (skipIdle?_quote s.toList (']' :: rest)) (.inr rfl)
      rw [if_pos rfl, String.ofList_toList] at hread
      exact (congrArg (readItems? _) (List.append_assoc ..)).trans hread
  · exact spells_array fun inner rest =>
      (congrArg (readItems? _) (List.append_assoc ..)).trans (readItems?_texts _ rest)

theorem readTexts?_map (texts : List String) :
    readTexts? (.array (texts.map .text)) = some texts := by
  induction texts with
  | nil => rfl
  | cons s texts ih =>
      rw [readTexts?] at ih
      rw [readTexts?, List.map_cons, List.mapM_cons, ih]
      rfl

theorem readSize?_ofInt {n : Nat} (h : n < Numeral.int64Bound) :
    readSize? (.integer (Int64.ofInt n)) = some n := by
  have hvalue : (Int64.ofInt n).toInt = n := Int64.toInt_ofInt_of_le (by omega) (by simp; omega)
  simp [readSize?, hvalue]

/-- Sizes that are read have 64 bits with a sign. -/
theorem lt_of_readSize? {item : Item} {n : Nat} (h : readSize? item = some n) :
    n < Numeral.int64Bound := by
  unfold readSize? at h
  split at h
  · next i =>
      obtain ⟨-, h⟩ := Option.ite_none_right_eq_some.mp h
      have hlt := i.toInt_lt
      rw [← Option.some.inj h, Numeral.int64Bound]
      omega
  · cases h

/-- The lines of the document with the settings. -/
def lines (s : Settings) (h : s.maxBytes < Numeral.int64Bound) : List Entry :=
  [⟨"output_format", _, _, ⟨rfl, rfl⟩, spells_quote (formatWord s.format)⟩,
    ⟨"pretty", _, _, ⟨rfl, rfl⟩, spells_boolWord s.pretty⟩,
    ⟨"preserve_indices", _, _, ⟨rfl, rfl⟩, spells_boolWord s.keepIndices⟩,
    ⟨"log_level", _, _, ⟨rfl, rfl⟩, spells_quote s.logLevel⟩,
    ⟨"max_input_bytes", _, _, ⟨rfl, rfl⟩, spells_natDigits h⟩,
    ⟨"only", _, _, ⟨rfl, rfl⟩, spells_printTexts s.only⟩,
    ⟨"ignore", _, _, ⟨rfl, rfl⟩, spells_printTexts s.ignore⟩]

theorem print_eq (s : Settings) (h : s.maxBytes < Numeral.int64Bound) :
    s.print = (lines s h).flatMap fun e => line e.key e.value := by
  simp [print, lines]

theorem readFormat?_formatWord (format : OutputFormat) :
    readFormat? (.text (formatWord format)) = some format := by
  cases format <;> rfl

theorem ofFields?_lines (s : Settings) (h : s.maxBytes < Numeral.int64Bound) :
    ofFields? ((lines s h).map fun e => (e.key, e.item)) = some s := by
  simp [lines, ofFields?, setting?, Entries.get?, readFormat?_formatWord, readBool?, readText?,
    readTexts?_map, readSize?_ofInt h]

theorem read?_print (s : Settings) (h : s.maxBytes < Numeral.int64Bound) :
    read? s.print = some s := by
  have hhead : s.print.head? ≠ some '\uFEFF' := by
    have hfirst : s.print.head? = some 'o' := rfl
    rw [hfirst]
    decide
  have hkeys : (Entries.keys ([] : Fields) ++ (lines s h).map Entry.key).Nodup := by
    change ["output_format", "pretty", "preserve_indices", "log_level", "max_input_bytes", "only",
      "ignore"].Nodup
    decide
  have hread : Toml.read? s.print = some ((lines s h).map fun e => (e.key, e.item)) := by
    rw [Toml.read?, if_neg hhead, print_eq s h, readLines?_lines _ hkeys]
    rfl
  rw [read?, hread, Option.bind_some, ofFields?_lines]

end Fields

section Saving

/-- Settings that survive saving: wherever a file can be put they can be saved, and what is loaded
from the file afterwards are the same settings. -/
def Survives (s : Settings) : Prop :=
  ∀ (d : Directory) (name : String), (Directory.resolve? name).any d.isFree →
    ∃ d', s.save? d name = some d' ∧ load d' name = .ok s

theorem survives_of_lt {s : Settings} (h : s.maxBytes < Numeral.int64Bound) : s.Survives := by
  intro d name hfree
  obtain ⟨ps, hps, -⟩ := (Option.any_eq_true _ _).mp hfree
  have hkey : Directory.place? name = some (Directory.join ps) := by
    rw [Directory.place?, hps, Option.map_some]
  refine ⟨⟨Entries.insert d.files (Directory.join ps) (utf8Bytes s.print)⟩, ?_, ?_⟩
  · rw [save?, if_pos h]
    exact Directory.put?_eq_some_iff.mpr ⟨hfree, _, hkey, rfl⟩
  · rw [load, Directory.read?_insert hkey, if_pos rfl, Option.bind_some, decodeUtf8?_utf8Bytes]
    simp only [read?_print s h]

/-- A document holds every number of 64 bits with a sign and no larger one, so these are the sizes
that survive; everything else about the settings always does. -/
theorem survives_iff (s : Settings) : s.Survives ↔ s.maxBytes < Numeral.int64Bound := by
  refine ⟨fun h => ?_, survives_of_lt⟩
  obtain ⟨d', hsave, -⟩ := h {} "settings" (by decide)
  exact (Option.ite_none_right_eq_some.mp hsave).1

/-- What fields that are left out mean for the settings. -/
structure KeepsDefaults (fields : Fields) (s : Settings) : Prop where
  format : Entries.get? fields "output_format" = none → s.format = ({} : Settings).format
  pretty : Entries.get? fields "pretty" = none → s.pretty = ({} : Settings).pretty
  keepIndices :
    Entries.get? fields "preserve_indices" = none → s.keepIndices = ({} : Settings).keepIndices
  logLevel : Entries.get? fields "log_level" = none → s.logLevel = ({} : Settings).logLevel
  maxBytes : Entries.get? fields "max_input_bytes" = none → s.maxBytes = ({} : Settings).maxBytes
  only : Entries.get? fields "only" = none → s.only = ({} : Settings).only
  ignore : Entries.get? fields "ignore" = none → s.ignore = ({} : Settings).ignore

variable {fields : Fields} {α : Type} {key : String} {read : Item → Option α} {standard value : α}

theorem eq_of_setting? (h : setting? fields key read standard = some value)
    (hout : Entries.get? fields key = none) : value = standard := by
  rw [setting?, hout] at h
  exact (Option.some.inj h).symm

theorem exists_of_setting? (h : setting? fields key read standard = some value) :
    value = standard ∨ ∃ item, read item = some value := by
  rw [setting?] at h
  split at h
  · exact .inl (Option.some.inj h).symm
  · exact .inr ⟨_, h⟩

theorem keepsDefaults_of_ofFields? {s : Settings} (h : ofFields? fields = some s) :
    KeepsDefaults fields s ∧ s.maxBytes < Numeral.int64Bound := by
  simp only [ofFields?, Option.bind_eq_bind, Option.bind_eq_some_iff, Option.pure_def,
    Option.some.injEq] at h
  obtain ⟨format, hformat, pretty, hpretty, keepIndices, hkeep, logLevel, hlevel, maxBytes, hmax,
    only, honly, ignore, hignore, rfl⟩ := h
  refine ⟨⟨eq_of_setting? hformat, eq_of_setting? hpretty, eq_of_setting? hkeep,
    eq_of_setting? hlevel, eq_of_setting? hmax, eq_of_setting? honly, eq_of_setting? hignore⟩, ?_⟩
  obtain rfl | ⟨item, hitem⟩ := exists_of_setting? hmax
  · change ({} : Settings).maxBytes < Numeral.int64Bound
    decide
  · exact lt_of_readSize? hitem

theorem load_eq_ok {d : Directory} {name : String} {s : Settings} (h : load d name = .ok s) :
    ∃ cs fields, (d.read? name).bind decodeUtf8? = some cs ∧ Toml.read? cs = some fields ∧
      ofFields? fields = some s := by
  rw [load] at h
  split at h
  · cases h
  · next cs hcs =>
      split at h
      · cases h
      · next s' hread =>
          cases h
          obtain ⟨fields, hfields, hs⟩ := Option.bind_eq_some_iff.mp hread
          exact ⟨cs, fields, hcs, hfields, hs⟩

/-- Settings that were loaded survive saving, and so do the default settings and all with a size of
64 bits; what the loaded text leaves out has its default. -/
theorem load_survives {d : Directory} {name : String} {s : Settings}
    (h : load d name = .ok s ∨ s = {}) :
    s.Survives ∧ (∀ t : Settings, t.Survives ↔ t.maxBytes < Numeral.int64Bound) ∧
      ∀ cs fields, (d.read? name).bind decodeUtf8? = some cs → Toml.read? cs = some fields →
        KeepsDefaults fields s := by
  obtain h | rfl := h
  · obtain ⟨cs, fields, hcs, hfields, hs⟩ := load_eq_ok h
    obtain ⟨hkeeps, hlt⟩ := keepsDefaults_of_ofFields? hs
    refine ⟨survives_of_lt hlt, survives_iff, fun cs' fields' hcs' hfields' => ?_⟩
    rw [hcs] at hcs'
    cases hcs'
    rw [hfields] at hfields'
    cases hfields'
    exact hkeeps
  · exact ⟨survives_of_lt (by decide), survives_iff, fun _ _ _ _ => ⟨fun _ => rfl, fun _ => rfl,
      fun _ => rfl, fun _ => rfl, fun _ => rfl, fun _ => rfl, fun _ => rfl⟩⟩

/-- A text with paths that hold backslashes, quotes and line breaks, and that leaves fields out. -/
def pathsText : List Char :=
  "output_format = 'yaml'\nmax_input_bytes = 0x10\nonly = ['a\\b', \"c\\\"'\\n\\u0001\"]\n".toList

def pathsSettings : Settings :=
  { format := .yaml, maxBytes := 16, only := ["a\\b", "c\"'\n\x01"] }

def pathsFolder : Directory :=
  .ofFiles [("in.toml", utf8Bytes pathsText)]

theorem load_survives_pathsText :
    load pathsFolder "in.toml" = .ok pathsSettings ∧
      ∃ d', pathsSettings.save? pathsFolder "new/out.toml" = some d' ∧
        load d' "new/out.toml" = .ok pathsSettings := by
  have hread : read? pathsText = some pathsSettings := by
    decide +kernel
  have hfile : pathsFolder.read? "in.toml" = some (utf8Bytes pathsText) := rfl
  have hload : load pathsFolder "in.toml" = .ok pathsSettings := by
    rw [load, hfile, Option.bind_some, decodeUtf8?_utf8Bytes]
    simp only [hread]
  exact ⟨hload, (load_survives (.inl hload)).1 pathsFolder "new/out.toml" (by decide)⟩

end Saving

end PathRules.Settings
