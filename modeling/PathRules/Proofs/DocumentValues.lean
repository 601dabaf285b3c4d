import PathRules.Proofs.PrintedJson
import PathRules.Proofs.QuotedStrings
import PathRules.Toml.Reader

/-!
# Values of a document

A value is read off the front of whatever follows it on the next line. Strings close by themselves,
a word ends at the line feed, and the items of an array are read one after the other. A numeral is
all digits, and every other kind of word needs a character that is no digit, so it is an integer.
-/

namespace PathRules.Toml

variable {c : Char} {cs word rest : List Char} {inner : Option (Reader Item)}

/-- A character of a class is none of the characters outside it. -/
theorem not_mem_of_holds {p : Char → Bool} (hc : p c) (hout : cs.any p = false) : c ∉ cs :=
  fun hmem => List.any_eq_false.mp hout c hmem hc

theorem ne_of_holds {p : Char → Bool} {d : Char} (hc : p c) (hd : p d = false) : c ≠ d := by
  rintro rfl
  rw [hc] at hd
  cases hd

section Strings

theorem quote_head (cs : List Char) : ∃ d ds, quote cs = d :: ds ∧ (d = '"' ∨ d = '\'') := by
  rw [quote]
  cases QuoteStyle.ofText cs with
  | basic => exact ⟨_, _, rfl, .inl rfl⟩
  | literal => exact ⟨_, _, rfl, .inr rfl⟩
  | longBasic => exact ⟨_, _, rfl, .inl rfl⟩
  | longLiteral => exact ⟨_, _, rfl, .inr rfl⟩

theorem readValueWith?_quote (hrest : ∀ d ∈ rest.head?, d ≠ '"' ∧ d ≠ '\'') :
    readValueWith? inner (quote cs ++ rest) = some (.text (String.ofList cs), rest) := by
  obtain ⟨d, ds, hhead, hd⟩ := quote_head cs
  have hread := readString?_quote cs hrest
  rw [hhead, List.cons_append] at hread ⊢
  rw [readValueWith?, if_pos hd, hread]
  · rfl
  all_goals
    rintro rfl
    simp at hd

theorem skipIdle?_cons (h : c ∉ ['\n', '\r', ' ', '\t', '#']) :
    skipIdle? false (c :: cs) = some (c :: cs) := by
  simp only [List.mem_cons, List.not_mem_nil, or_false, not_or] at h
  obtain ⟨hfeed, hreturn, hspace, htab, hcomment⟩ := h
  rw [skipIdle?]
  · simp [isBlank, hspace, htab, hcomment]
  all_goals grind

theorem skipIdle?_quote (cs rest : List Char) :
    skipIdle? false (quote cs ++ rest) = some (quote cs ++ rest) := by
  obtain ⟨d, ds, hhead, rfl | rfl⟩ := quote_head cs <;>
    rw [hhead, List.cons_append, skipIdle?_cons (by simp)]

/-- The first item of an array, with what follows it. -/
theorem readItems?_quote (inner : Option (Reader Item))
    (hidle : skipIdle? false cs = some (quote word ++ c :: rest))
    (hc : c = ',' ∨ c = ']') :
    readItems? (readValueWith? inner) cs =
      if c = ']' then some ([.text (String.ofList word)], rest)
      else if rest.length < cs.length then
        (readItems? (readValueWith? inner) rest).map fun (items, rest) =>
          (.text (String.ofList word) :: items, rest)
      else none := by
  have hread : readValueWith? inner (quote word ++ c :: rest) =
      some (.text (String.ofList word), c :: rest) :=
    readValueWith?_quote (by rintro d ⟨⟩; obtain rfl | rfl := hc <;> decide)
  have hnext : skipIdle? false (c :: rest) = some (c :: rest) := by
    obtain rfl | rfl := hc <;>
      exact skipIdle?_cons (by simp)
  obtain ⟨d, ds, hhead, hd⟩ := quote_head word
  rw [readItems?, hidle, Option.bind_some]
  split
  · next hclose =>
      rw [hhead] at hclose
      obtain rfl | rfl := hd <;> cases hclose
  · simp only [hread, hnext, Option.bind_eq_bind, Option.bind_some]
    obtain rfl | rfl := hc
    · rw [if_neg (by decide)]
      change (if _h : rest.length < cs.length then
        (readItems? (readValueWith? inner) rest).bind _ else none) = _
      split_ifs
      · exact Option.map_eq_bind.symm
      · rfl
    · rfl

/-- Items that stand on a line each. -/
theorem readItems?_texts (texts : List String) (rest : List Char) :
    readItems? (readValueWith? inner)
      (texts.flatMap (fun s => "\n    ".toList ++ quote s.toList ++ [',']) ++ '\n' :: ']' :: rest) =
      some (texts.map .text, rest) := by
  induction texts with
  | nil =>
      rw [readItems?]
      rfl
  | cons s texts ih =>
      have hidle : ∀ next, skipIdle? false ("\n    ".toList ++ (quote s.toList ++ ',' :: next)) =
          some (quote s.toList ++ ',' :: next) := fun _ => skipIdle?_quote _ _
      rw [List.flatMap_cons, List.append_assoc, List.append_assoc, List.append_assoc,
        List.singleton_append, readItems?_quote _ (hidle _) (.inl rfl), if_neg (by decide),
        if_pos (by simp only [List.length_append, List.length_cons]; omega), ih,
        String.ofList_toList]
      rfl

end Strings

section Words

theorem takeWord_append (hword : word.all isWordChar) (rest : List Char) :
    takeWord (word ++ '\n' :: rest) = (word, '\n' :: rest) := by
  rw [List.all_eq_true] at hword
  have hfeed : ¬isWordChar '\n' := by decide
  rw [takeWord, List.takeWhile_append_of_pos hword, List.dropWhile_append_of_pos hword,
    List.takeWhile_cons_of_neg hfeed, List.dropWhile_cons_of_neg hfeed, List.append_nil]
  rfl

theorem readValueWith?_word (hword : word.all isWordChar) (hne : word ≠ []) :
    readValueWith? inner (word ++ '\n' :: rest) =
      (wordItem? word).map fun item => (item, '\n' :: rest) := by
  have htake := takeWord_append hword rest
  cases word with
  | nil => exact absurd rfl hne
  | cons c cs =>
      have hother : ∀ d, isWordChar d = false → c ≠ d := fun _ =>
        ne_of_holds (List.all_eq_true.mp hword c List.mem_cons_self)
      rw [List.cons_append] at htake ⊢
      rw [readValueWith?, if_neg, htake]
      · exact not_or.mpr ⟨hother _ rfl, hother _ rfl⟩
      · exact hother _ rfl
      · exact hother _ rfl

end Words

section Digits

variable (h : ∀ c ∈ cs, c.isDigit)
include h

theorem ne_of_digits (hword : word.all Char.isDigit = false) : cs ≠ word := by
  rintro rfl
  rw [List.all_eq_true.mpr h] at hword
  cases hword

theorem isDate_digits : isDate cs = false := by
  unfold isDate
  split
  · have hminus := h '-' (by simp)
    cases hminus
  · rfl

theorem isTime_digits (zoned : Bool) : isTime zoned cs = false := by
  unfold isTime
  split
  · have hcolon := h ':' (by simp)
    cases hcolon
  · rfl

theorem isMoment_digits : isMoment cs = false := by
  have htake : isDate (cs.take 10) = false :=
    isDate_digits fun c hc => h c (List.mem_of_mem_take hc)
  rw [isMoment, isTime_digits h, isDate_digits h, htake]
  rfl

theorem splitSign_digits : splitSign cs = (false, cs) := by
  unfold splitSign
  split
  · cases h '-' List.mem_cons_self
  · cases h '+' List.mem_cons_self
  · rfl

theorem readFloat?_digits : readFloat? cs = none := by
  have hexponent : splitAt? (fun c => c == 'e' || c == 'E') cs = none := by
    have hdrop : cs.dropWhile (fun c => !(c == 'e' || c == 'E')) = [] := by
      rw [List.dropWhile_eq_nil_iff]
      intro c hc
      by_contra hmark
      rw [Bool.not_eq_true', Bool.not_eq_false, Bool.or_eq_true, beq_iff_eq, beq_iff_eq] at hmark
      obtain rfl | rfl := hmark <;> cases h _ hc
    rw [splitAt?, hdrop]
  have hpoint : cs.contains '.' = false := by
    rw [List.contains_eq_mem, decide_eq_false_iff_not]
    exact fun hc => by cases h _ hc
  rw [readFloat?, splitSign_digits h]
  simp only
  rw [if_neg (ne_of_digits h rfl), if_neg (ne_of_digits h rfl), readMagnitude?, hexponent, hpoint]
  rfl

theorem dropUnderscores?_digits (hne : cs ≠ []) : dropUnderscores? Char.isDigit cs = some cs := by
  induction cs with
  | nil => exact absurd rfl hne
  | cons c cs ih =>
      obtain ⟨hc, hcs⟩ := List.forall_mem_cons.mp h
      cases cs with
      | nil => rw [dropUnderscores?, if_pos hc]
      | cons d ds =>
          have hd : d ≠ '_' := by
            rintro rfl
            cases hcs '_' List.mem_cons_self
          rw [dropUnderscores?, if_pos hc, ih hcs (by simp)]
          · rfl
          · simp
          · simpa using hd

theorem readInteger?_digits : readInteger? cs =
    (wholeDigits? cs).bind fun ds => (Numeral.readNat? ds).bind fun n => Numeral.toInt64? n := by
  unfold readInteger?
  split
  · cases h 'x' (by simp)
  · cases h 'o' (by simp)
  · cases h 'b' (by simp)
  · rw [splitSign_digits h]
    rfl

end Digits

section Numerals

theorem toInt64?_natCast {n : Nat} (h : n < Numeral.int64Bound) :
    Numeral.toInt64? (n : Int) = some (Int64.ofInt n) :=
  if_pos ⟨by omega, by omega⟩

theorem wordItem?_natDigits {n : Nat} (h : n < Numeral.int64Bound) :
    wordItem? (Numeral.natDigits n) = some (.integer (Int64.ofInt n)) := by
  have hdigits : ∀ c ∈ Numeral.natDigits n, c.isDigit := fun _ => Numeral.isDigit_of_mem_natDigits
  have hne : Numeral.natDigits n ≠ [] := Nat.toDigits_ne_nil
  have hwhole : wholeDigits? (Numeral.natDigits n) = some (Numeral.natDigits n) := by
    rw [wholeDigits?, dropUnderscores?_digits hdigits hne]
    obtain ⟨-, heq⟩ | ⟨-, d, ds, heq, hd, -⟩ := Numeral.natDigits_cases n
    · rw [heq]; rfl
    · simp [heq, hd]
  have hread : readInteger? (Numeral.natDigits n) = some (Int64.ofInt n) := by
    rw [readInteger?_digits hdigits, hwhole, Option.bind_some, Numeral.readNat?_natDigits,
      Option.bind_some, toInt64?_natCast h]
  rw [wordItem?, if_neg (ne_of_digits hdigits rfl), if_neg (ne_of_digits hdigits rfl),
    isMoment_digits hdigits, readFloat?_digits hdigits, hread]
  rfl

end Numerals

section Lines

/-- What stands for an item on a line of its own, wherever a container may still stand. -/
def Spells (cs : List Char) (item : Item) : Prop :=
  ∃ c ds, cs = c :: ds ∧ isBlank c = false ∧
    ∀ depth rest, readValue? (depth + 2) (cs ++ '\n' :: rest) = some (item, '\n' :: rest)

theorem spells_quote (s : String) : Spells (quote s.toList) (.text s) := by
  obtain ⟨d, ds, hhead, hd⟩ := quote_head s.toList
  refine ⟨d, ds, hhead, by obtain rfl | rfl := hd <;> rfl, fun depth rest => ?_⟩
  rw [readValue?, readValueWith?_quote (by simp), String.ofList_toList]

theorem spells_array {items : List Item}
    (h : ∀ inner rest, readItems? (readValueWith? inner) (cs ++ rest) = some (items, rest)) :
    Spells ('[' :: cs) (.array items) := by
  refine ⟨_, _, rfl, rfl, fun depth rest => ?_⟩
  rw [readValue?, List.cons_append, readValueWith?, Option.bind_some, readValue?, h]
  rfl

theorem spells_word {item : Item} (hword : word.all isWordChar) (hne : word ≠ [])
    (hitem : wordItem? word = some item) : Spells word item := by
  obtain ⟨c, cs, hcs⟩ := List.exists_cons_of_ne_nil hne
  have hc : isWordChar c := List.all_eq_true.mp hword c (by simp [hcs])
  refine ⟨c, cs, hcs, ?_, fun depth rest => ?_⟩
  · rw [isBlank, Bool.or_eq_false_iff, beq_eq_false_iff_ne, beq_eq_false_iff_ne]
    exact ⟨ne_of_holds hc rfl, ne_of_holds hc rfl⟩
  · rw [readValue?, readValueWith?_word hword hne, hitem]
    rfl

theorem spells_natDigits {n : Nat} (h : n < Numeral.int64Bound) :
    Spells (Numeral.natDigits n) (.integer (Int64.ofInt n)) := by
  refine spells_word ?_ Nat.toDigits_ne_nil (wordItem?_natDigits h)
  rw [List.all_eq_true]
  intro c hc
  simp [isWordChar, Char.isAlphanum, Numeral.isDigit_of_mem_natDigits hc]

end Lines

end PathRules.Toml
