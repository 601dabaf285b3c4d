import Mathlib.Data.List.Chain
import PathRules.Plan

/-!
# Escaped texts

With every character escaped, a text stands for itself in paths and templates: it holds no
separator, no wildcard and no reference, and as a part of a path it is no range, since it begins
with a backslash.
-/

namespace PathRules

namespace Token

/-- A text with every character escaped. -/
def escapeText (s : String) : String :=
  String.ofList (s.toList.flatMap fun c => ['\\', c])

/-- The tokens of escaped characters. -/
def quoted (cs : List Char) : List Token :=
  cs.map fun c => ⟨c, true⟩

variable {cs : List Char}

theorem is_of_mem_quoted {t : Token} (ht : t ∈ quoted cs) (c : Char) : t.is c = false := by
  obtain ⟨d, -, rfl⟩ := List.mem_map.mp ht
  rfl

theorem print_quoted (cs : List Char) : print (quoted cs) = cs.flatMap fun c => ['\\', c] := by
  simp [print, quoted, List.flatMap_map]

end Token

namespace Matcher

theorem splitAtWord_backslash {w : Char} {word cs before after : List Char} (hw : w ≠ '\\')
    (h : splitAtWord (w :: word) ('\\' :: cs) = some (before, after)) :
    ∃ rest, before = '\\' :: rest := by
  simp only [splitAtWord, List.isPrefixOf, beq_false_of_ne hw, Bool.false_and, Bool.false_eq_true,
    if_false] at h
  obtain ⟨⟨rest, after'⟩, -, heq⟩ := Option.map_eq_some_iff.mp h
  cases heq
  exact ⟨rest, rfl⟩

theorem readRange?_backslash (cs : List Char) : readRange? ('\\' :: cs) = none := by
  simp only [readRange?]
  split
  · rename_i start length hsplit
    obtain ⟨rest, rfl⟩ := splitAtWord_backslash (by decide) hsplit
    rfl
  · split
    · rename_i start stop hsplit
      obtain ⟨rest, rfl⟩ := splitAtWord_backslash (by decide) hsplit
      rfl
    · cases hsplit : splitAtWord ['.', '.'] ('\\' :: cs) with
      | none => rfl
      | some bounds =>
          obtain ⟨start, stop⟩ := bounds
          obtain ⟨rest, rfl⟩ := splitAtWord_backslash (by decide) hsplit
          rfl

theorem ofTokens_quoted {cs : List Char} (hcs : cs ≠ []) :
    ofTokens {} (Token.quoted cs) = .ok (.literal (String.ofList cs)) := by
  have hwild : (Token.quoted cs).all isWildcard = false := by
    cases cs with
    | nil => exact absurd rfl hcs
    | cons c cs => rfl
  have hrange : readRange? (Token.print (Token.quoted cs)) = none := by
    rw [Token.print_quoted]
    cases cs with
    | nil => exact absurd rfl hcs
    | cons c cs => exact readRange?_backslash _
  have hspecial : (Token.quoted cs).any isSpecial = false := by
    rw [List.any_eq_false]
    intro t ht
    simp [isSpecial, isWildcard, Token.is_of_mem_quoted ht]
  have hchars : (Token.quoted cs).map Token.char = cs := by
    simp [Token.quoted, Function.comp_def]
  simp [ofTokens, hwild, hrange, hspecial, hchars, Flags.isEmpty]

end Matcher

namespace Path

variable {cs : List Char}

theorem lastDoubleSlash?_eq_none {ts : List Token}
    (h : ts.IsChain fun a b => (a.is '/' && b.is '/') = false) : lastDoubleSlash? ts = none := by
  rw [lastDoubleSlash?, List.find?_eq_none]
  intro i hi
  have hlt : i + 1 < ts.length := by
    have := List.mem_range.mp (List.mem_reverse.mp hi)
    omega
  have hchain := List.isChain_iff_getElem.mp h i hlt
  have hi : i < ts.length := by omega
  simpa [List.getElem?_eq_getElem hi, List.getElem?_eq_getElem hlt] using hchain

theorem trimSlashes_eq {ts : List Token} (hhead : ∀ t ∈ ts.head?, t.is '/' = false)
    (hlast : ∀ t ∈ ts.getLast?, t.is '/' = false) : trimSlashes ts = ts := by
  have hlead : dropLeading ts = ts := by
    cases ts with
    | nil => rfl
    | cons t ts => simp [dropLeading, hhead t rfl]
  rw [trimSlashes, hlead, dropTrailing]
  cases ht : ts.getLast? with
  | none => rfl
  | some t => simp [hlast t ht]

end Path

namespace Template

theorem foldl_step_escape (cs : List Char) (s : Scan) (hs : s.reading = .text) :
    (cs.flatMap fun c => ['\\', c]).foldl Scan.step s =
      { s with collected := cs.reverse ++ s.collected } := by
  induction cs generalizing s with
  | nil => rfl
  | cons c cs ih =>
      obtain ⟨pieces, collected, reading⟩ := s
      cases hs
      have hone : Scan.step (Scan.step ⟨pieces, collected, .text⟩ '\\') c =
          ⟨pieces, c :: collected, .text⟩ := rfl
      rw [List.flatMap_cons, List.foldl_append, List.foldl_cons, List.foldl_cons, List.foldl_nil,
        hone, ih _ rfl]
      simp

/-- A name that is escaped after `%%` is put behind the keys of the splat as it is. -/
theorem parse_splat {k : String} (hk : k ≠ "") :
    Template.parse ("%%/" ++ Token.escapeText k) =
      ⟨"%%/" ++ Token.escapeText k, [.splat, .separator, .text k.toList]⟩ := by
  have hcs : k.toList ≠ [] := by simpa using hk
  have hscan : ("%%/" ++ Token.escapeText k).toList.foldl Scan.step Scan.start =
      ⟨[.separator, .splat], k.toList.reverse, .text⟩ := by
    have hhead : "%%/".toList.foldl Scan.step Scan.start = ⟨[.separator, .splat], [], .text⟩ := by
      rfl
    rw [String.toList_append, List.foldl_append, hhead, Token.escapeText, String.toList_ofList,
      foldl_step_escape _ _ rfl, List.append_nil]
  have hfinish : (⟨[.separator, .splat], k.toList.reverse, .text⟩ : Scan).finish =
      [.splat, .separator, .text k.toList] := by
    simp [Scan.finish, flush, hcs]
  rw [Template.parse, hscan, hfinish]
  rfl

end Template

end PathRules
