import PathRules.Filter
import PathRules.Proofs.PathGrammar

/-!
# Escapes in mappings

A mapping is split at its first `>` that is not escaped. Which characters are escaped can be told
from the text alone: those with an odd number of backslashes directly before them. The splitter
carries a flag and the scanner of paths takes two characters at a time, but both keep to this rule:
whatever they have read, the next character is escaped for them exactly if what was read ends in an
odd number of backslashes. So a mapping is never cut inside an escape, and its source is a
text that the scanner accepts and in which it sees no `>` with its meaning.
-/

namespace PathRules

namespace Token

/-- A character stands somewhere in a text where it is not escaped. -/
def Unescaped (c : Char) (cs : List Char) : Prop :=
  ∃ before after, cs = before ++ c :: after ∧ ¬ EndsOpen before

/-- A character stands in a text where it is not escaped, another text having been read before. -/
def UnescapedAfter (read : List Char) (c : Char) (cs : List Char) : Prop :=
  ∃ before after, cs = before ++ c :: after ∧ ¬ EndsOpen (read ++ before)

variable {cs read : List Char} {c d : Char}

theorem unescaped_iff_after_nil : Unescaped c cs ↔ UnescapedAfter [] c cs :=
  Iff.rfl

theorem endsOpen_concat_backslash : EndsOpen (cs ++ ['\\']) ↔ ¬ EndsOpen cs := by
  simp only [EndsOpen, List.rtakeWhile_concat, decide_true, if_true, List.length_append,
    List.length_singleton]
  omega

theorem not_endsOpen_concat (hc : c ≠ '\\') (cs : List Char) : ¬ EndsOpen (cs ++ [c]) := by
  simp [EndsOpen, hc]

/-- A character after a backslash that is not escaped completes the escape. -/
theorem not_endsOpen_pair (hread : ¬ EndsOpen read) (c : Char) :
    ¬ EndsOpen (read ++ ['\\', c]) := by
  have hback : EndsOpen (read ++ ['\\']) := endsOpen_concat_backslash.mpr hread
  have hpair : read ++ ['\\', c] = read ++ ['\\'] ++ [c] := by simp
  rw [hpair]
  by_cases hc : c = '\\'
  · rw [hc, endsOpen_concat_backslash]
    exact not_not_intro hback
  · exact not_endsOpen_concat hc _

theorem not_unescapedAfter_nil : ¬ UnescapedAfter read c [] := by
  rintro ⟨before, after, h, -⟩
  simp at h

/-- The character is the first of the text, or it comes after the first has been read. -/
theorem unescapedAfter_cons_iff :
    UnescapedAfter read c (d :: cs) ↔
      d = c ∧ ¬ EndsOpen read ∨ UnescapedAfter (read ++ [d]) c cs := by
  constructor
  · rintro ⟨before, after, h, hends⟩
    cases before with
    | nil =>
        rw [List.append_nil] at hends
        exact Or.inl ⟨(List.cons.inj h).1, hends⟩
    | cons e before =>
        obtain ⟨rfl, hcs⟩ := List.cons.inj h
        exact Or.inr ⟨before, after, hcs, by simpa using hends⟩
  · rintro (⟨rfl, hends⟩ | ⟨before, after, rfl, hends⟩)
    · exact ⟨[], cs, rfl, by simpa using hends⟩
    · exact ⟨d :: before, after, rfl, by simpa using hends⟩

/-- The scanner sees a character with its meaning where it is not escaped. -/
theorem exists_is_iff_after {ts : List Token} (hread : ¬ EndsOpen read) (hd : d ≠ '\\')
    (h : scan? cs = some ts) : (∃ t ∈ ts, t.is d) ↔ UnescapedAfter read d cs := by
  fun_induction scan? cs generalizing read ts with
  | case1 =>
      cases h
      simpa using not_unescapedAfter_nil
  | case2 => cases h
  | case3 c cs ih =>
      obtain ⟨us, hus, rfl⟩ := Option.map_eq_some_iff.mp h
      have hback : EndsOpen (read ++ ['\\']) := endsOpen_concat_backslash.mpr hread
      have hpair : read ++ ['\\'] ++ [c] = read ++ ['\\', c] := by simp
      rw [unescapedAfter_cons_iff, unescapedAfter_cons_iff, hpair,
        ← ih (not_endsOpen_pair hread c) hus]
      simp [hback, is, hd.symm]
  | case4 c cs hlast hpair ih =>
      obtain ⟨us, hus, rfl⟩ := Option.map_eq_some_iff.mp h
      have hc := ne_backslash_of_unpaired hlast hpair
      rw [unescapedAfter_cons_iff, ← ih (not_endsOpen_concat hc read) hus]
      simp [hread, is]

end Token

namespace Rule

open Token

/-- The first `>` of a text that is not escaped, another text having been read before, has these
texts before and after it. -/
def Cuts (read cs source target : List Char) : Prop :=
  cs = source ++ '>' :: target ∧ ¬ EndsOpen (read ++ source) ∧ ¬ UnescapedAfter read '>' source

variable {read cs source target : List Char} {c : Char} {escaped : Bool}

theorem not_cuts_nil : ¬ Cuts read [] source target := by
  rintro ⟨h, -⟩
  simp at h

/-- A text is cut at its first character, or after it has been read. -/
theorem cuts_cons_iff :
    Cuts read (c :: cs) source target ↔
      if c = '>' ∧ ¬ EndsOpen read then source = [] ∧ cs = target
      else ∃ source', source = c :: source' ∧ Cuts (read ++ [c]) cs source' target := by
  cases source with
  | nil =>
      have hhere : Cuts read (c :: cs) [] target ↔
          (c = '>' ∧ ¬ EndsOpen read) ∧ cs = target := by
        simp [Cuts, not_unescapedAfter_nil, and_right_comm]
      rw [hhere]
      split <;> simp [*]
  | cons d source =>
      have hlater : Cuts read (c :: cs) (d :: source) target ↔
          ¬ (c = '>' ∧ ¬ EndsOpen read) ∧ c = d ∧ Cuts (read ++ [c]) cs source target := by
        simp only [Cuts, unescapedAfter_cons_iff, List.cons_append, List.cons.injEq,
          List.append_assoc, List.nil_append]
        constructor
        · rintro ⟨⟨rfl, hcs⟩, hends, hbare⟩
          exact ⟨fun h => hbare (Or.inl h), rfl, hcs, hends, fun h => hbare (Or.inr h)⟩
        · rintro ⟨hcut, rfl, hcs, hends, hbare⟩
          exact ⟨⟨rfl, hcs⟩, hends, not_or.mpr ⟨hcut, hbare⟩⟩
      rw [hlater]
      split
      · rename_i hcut
        simp [hcut]
      · rename_i hcut
        rw [and_iff_right hcut]
        constructor
        · rintro ⟨rfl, h⟩
          exact ⟨source, rfl, h⟩
        · rintro ⟨source', heq, h⟩
          obtain ⟨rfl, rfl⟩ := List.cons.inj heq
          exact ⟨rfl, h⟩

/-- One character of the splitter: it is the cut, or it is kept and the flag is set anew. -/
theorem splitMapping?_cons (escaped : Bool) (c : Char) (cs : List Char) :
    splitMapping? escaped (c :: cs) =
      if c = '>' ∧ escaped = false then some ([], cs)
      else (splitMapping? (c == '\\' && !escaped) cs).map fun (source, target) =>
        (c :: source, target) := by
  rw [splitMapping?]
  by_cases hback : c = '\\'
  · subst hback
    cases escaped <;> simp
  · simp [hback, beq_false_of_ne hback]

/-- The flag tells whether what was read ends in an escape, and goes on doing so. -/
theorem flag_iff (hread : escaped ↔ EndsOpen read) (c : Char) :
    (c == '\\' && !escaped) ↔ EndsOpen (read ++ [c]) := by
  by_cases hback : c = '\\'
  · subst hback
    rw [endsOpen_concat_backslash, ← hread]
    simp
  · simp [hback, not_endsOpen_concat hback]

theorem cut_iff (hread : escaped ↔ EndsOpen read) (c : Char) :
    c = '>' ∧ escaped = false ↔ c = '>' ∧ ¬ EndsOpen read := by
  rw [← hread, Bool.not_eq_true]

theorem splitMapping?_eq_none_iff (hread : escaped ↔ EndsOpen read) :
    splitMapping? escaped cs = none ↔ ¬ UnescapedAfter read '>' cs := by
  induction cs generalizing read escaped with
  | nil => simpa [splitMapping?] using not_unescapedAfter_nil
  | cons c cs ih =>
      rw [splitMapping?_cons, unescapedAfter_cons_iff, ← cut_iff hread]
      split
      · rename_i hcut
        simp [hcut]
      · rename_i hcut
        rw [Option.map_eq_none_iff, ih (flag_iff hread c), or_iff_right hcut]

theorem splitMapping?_eq_some_iff (hread : escaped ↔ EndsOpen read) :
    splitMapping? escaped cs = some (source, target) ↔ Cuts read cs source target := by
  induction cs generalizing read escaped source with
  | nil => simpa [splitMapping?] using not_cuts_nil
  | cons c cs ih =>
      rw [splitMapping?_cons, cuts_cons_iff]
      simp only [cut_iff hread]
      split
      · simp [eq_comm]
      · simp only [← ih (flag_iff hread c), Option.map_eq_some_iff, Prod.exists, Prod.mk.injEq]
        constructor
        · rintro ⟨source', target', h, rfl, rfl⟩
          exact ⟨source', rfl, h⟩
        · rintro ⟨source', rfl, h⟩
          exact ⟨source', target, h, rfl, rfl⟩

theorem parseMapping_eq_ok_iff {mapping source target : String} :
    parseMapping mapping = .ok (source, target) ↔
      splitMapping? false mapping.toList = some (source.toList, target.toList) := by
  unfold parseMapping
  cases splitMapping? false mapping.toList with
  | none => simp
  | some p =>
      simp [Prod.ext_iff, ← String.toList_inj]

theorem parseMapping_eq_error_iff {mapping : String} {e : PathError} :
    parseMapping mapping = .error e ↔
      e = .malformed mapping mapping .noMapping ∧
        splitMapping? false mapping.toList = none := by
  unfold parseMapping
  cases splitMapping? false mapping.toList with
  | none => simp [eq_comm]
  | some p => simp

/-- A mapping is split into the texts around its first `>` that is not escaped, and it fails to
split exactly if it has none. The source is a text that the scanner of paths accepts and in which it
sees no `>` with its meaning. -/
theorem parseMapping_cuts :
    (∀ mapping source target, parseMapping mapping = .ok (source, target) ↔
      mapping = source ++ ">" ++ target ∧ ¬ EndsOpen source.toList ∧
        ¬ Unescaped '>' source.toList) ∧
    (∀ mapping e, parseMapping mapping = .error e ↔
      e = .malformed mapping mapping .noMapping ∧ ¬ Unescaped '>' mapping.toList) ∧
    (∀ source, scan? source = none ↔ EndsOpen source) ∧
    ∀ source, (∃ ts, scan? source = some ts ∧ ¬ ∃ t ∈ ts, t.is '>') ↔
      ¬ EndsOpen source ∧ ¬ Unescaped '>' source := by
  have hnil : ¬ EndsOpen [] := by decide
  have hstart : (false : Bool) ↔ EndsOpen [] := by simpa using hnil
  refine ⟨?_, ?_, scan?_eq_none_iff, ?_⟩
  · intro mapping source target
    rw [parseMapping_eq_ok_iff, splitMapping?_eq_some_iff hstart, Cuts, List.nil_append,
      ← unescaped_iff_after_nil, ← String.toList_inj]
    simp
  · intro mapping e
    rw [parseMapping_eq_error_iff, splitMapping?_eq_none_iff hstart, unescaped_iff_after_nil]
  · intro source
    rw [← scan?_eq_none_iff, ← ne_eq, Option.ne_none_iff_exists', ← exists_and_right]
    refine exists_congr fun ts => and_congr_right fun hts => ?_
    rw [exists_is_iff_after hnil (by decide) hts, unescaped_iff_after_nil]

end Rule

end PathRules
