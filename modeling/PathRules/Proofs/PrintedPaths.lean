import PathRules.Proofs.EscapedText

/-!
# Printed paths

A segment is printed as its key and, after an equals sign, its value; a recursive one has `**/` in
front. A literal is printed with every character escaped, a range with its bounds in decimal. The
text is read back token by token: inside of a part there is no separator that is not escaped, no
part is empty, and none is one of the words `**` and `..`. So the slashes that the compiler finds
are the ones that were printed, it finds no flags, and every part gives its matcher again.
-/

namespace PathRules

theorem intercalate_append {α : Type} {sep : List α} {xs ys : List (List α)} (hxs : xs ≠ [])
    (hys : ys ≠ []) :
    sep.intercalate (xs ++ ys) = sep.intercalate xs ++ sep ++ sep.intercalate ys := by
  induction xs with
  | nil => exact absurd rfl hxs
  | cons x xs ih =>
      by_cases hnil : xs = []
      · subst hnil
        simp [List.intercalate_cons_of_ne_nil hys]
      · rw [List.cons_append, List.intercalate_cons_of_ne_nil (by simp [hnil]), ih hnil,
          List.intercalate_cons_of_ne_nil hnil]
        simp

namespace Token

/-- Characters that are not escaped. -/
def bare (cs : List Char) : List Token :=
  cs.map fun c => ⟨c, false⟩

theorem print_bare (cs : List Char) : print (bare cs) = cs := by
  simp [print, bare, List.flatMap_map]

theorem print_append (ts us : List Token) : print (ts ++ us) = print ts ++ print us := by
  simp [print]

/-- Scanning what was printed, where no backslash stands for itself. -/
theorem scan?_print {ts : List Token} (h : ∀ t ∈ ts, t.escaped = false → t.char ≠ '\\') :
    scan? (print ts) = some ts := by
  induction ts with
  | nil => rfl
  | cons t ts ih =>
      obtain ⟨ht, hts⟩ := List.forall_mem_cons.mp h
      obtain ⟨c, escaped⟩ := t
      have hprint : print (⟨c, escaped⟩ :: ts) =
          (if escaped then ['\\', c] else [c]) ++ print ts := rfl
      rw [hprint]
      cases escaped with
      | true => simp [scan?, ih hts]
      | false =>
          have hc : c ≠ '\\' := ht rfl
          simp [scan?, hc, ih hts]

/-- A token that neither separates nor escapes. -/
def Inner (t : Token) : Prop :=
  t.escaped = false → t.char ≠ '/' ∧ t.char ≠ '=' ∧ t.char ≠ '\\'

theorem inner_quoted (cs : List Char) : ∀ t ∈ quoted cs, t.Inner := by
  intro t ht hbare
  obtain ⟨c, -, rfl⟩ := List.mem_map.mp ht
  cases hbare

/-- Parts with slashes between them. -/
def join (parts : List (List Token)) : List Token :=
  [⟨'/', false⟩].intercalate parts

/-- A part that is not empty and holds no slash. -/
def Part (part : List Token) : Prop :=
  part ≠ [] ∧ ∀ t ∈ part, t.is '/' = false

variable {part : List Token} {parts : List (List Token)} {t : Token}

theorem join_singleton (part : List Token) : join [part] = part :=
  List.intercalate_singleton

theorem join_cons_of_ne_nil (part : List Token) (hparts : parts ≠ []) :
    join (part :: parts) = part ++ ⟨'/', false⟩ :: join parts := by
  simp [join, List.intercalate_cons_of_ne_nil hparts]

theorem join_ne_nil (hpart : part ≠ []) (parts : List (List Token)) :
    join (part :: parts) ≠ [] := by
  by_cases hnil : parts = []
  · rwa [hnil, join_singleton]
  · simp [join_cons_of_ne_nil part hnil]

theorem mem_join (ht : t ∈ join parts) : t = ⟨'/', false⟩ ∨ ∃ part ∈ parts, t ∈ part := by
  induction parts with
  | nil => cases ht
  | cons part parts ih =>
      by_cases hnil : parts = []
      · rw [hnil, join_singleton] at ht
        exact Or.inr ⟨part, List.mem_cons_self, ht⟩
      · rw [join_cons_of_ne_nil part hnil, List.mem_append, List.mem_cons] at ht
        rcases ht with ht | ht | ht
        · exact Or.inr ⟨part, List.mem_cons_self, ht⟩
        · exact Or.inl ht
        · rcases ih ht with ht | ⟨part', hpart', ht⟩
          · exact Or.inl ht
          · exact Or.inr ⟨part', List.mem_cons_of_mem _ hpart', ht⟩

theorem is_of_mem_head?_join (hparts : ∀ part ∈ parts, Part part)
    (ht : t ∈ (join parts).head?) : t.is '/' = false := by
  cases parts with
  | nil => cases ht
  | cons part parts =>
      obtain ⟨hne, hslash⟩ := hparts part List.mem_cons_self
      by_cases hnil : parts = []
      · rw [hnil, join_singleton] at ht
        exact hslash t (List.mem_of_mem_head? ht)
      · rw [join_cons_of_ne_nil part hnil, List.head?_append_of_ne_nil _ hne] at ht
        exact hslash t (List.mem_of_mem_head? ht)

theorem is_of_mem_getLast?_join (hparts : ∀ part ∈ parts, Part part)
    (ht : t ∈ (join parts).getLast?) : t.is '/' = false := by
  induction parts with
  | nil => cases ht
  | cons part parts ih =>
      obtain ⟨⟨-, hslash⟩, hrest⟩ := List.forall_mem_cons.mp hparts
      cases parts with
      | nil =>
          rw [join_singleton] at ht
          exact hslash t (List.mem_of_getLast? ht)
      | cons part' parts =>
          have hne := join_ne_nil (hrest part' List.mem_cons_self).1 parts
          rw [join_cons_of_ne_nil part (by simp), List.getLast?_append_of_ne_nil _ (by simp),
            List.getLast?_cons_of_ne_nil hne] at ht
          exact ih hrest ht

/-- Slashes do not stand side by side between parts that are not empty. -/
theorem isChain_join (hparts : ∀ part ∈ parts, Part part) :
    (join parts).IsChain fun a b => (a.is '/' && b.is '/') = false := by
  induction parts with
  | nil => exact List.isChain_nil
  | cons part parts ih =>
      obtain ⟨⟨-, hslash⟩, hrest⟩ := List.forall_mem_cons.mp hparts
      have hinner : part.IsChain fun a b => (a.is '/' && b.is '/') = false := by
        apply List.Pairwise.isChain
        apply List.pairwise_of_forall_mem_list
        intro a ha b _
        rw [hslash a ha, Bool.false_and]
      by_cases hnil : parts = []
      · rwa [hnil, join_singleton]
      · rw [join_cons_of_ne_nil part hnil, List.isChain_append, List.isChain_cons]
        refine ⟨hinner, ⟨?_, ih hrest⟩, ?_⟩
        · intro b hb
          rw [is_of_mem_head?_join hrest hb, Bool.and_false]
        · intro a ha b _
          rw [hslash a (List.mem_of_getLast? ha), Bool.false_and]

end Token

namespace Path

variable {parts : List (List Token)}

theorem rawSegments_join (hparts : ∀ part ∈ parts, Token.Part part) :
    rawSegments (Token.join parts) = parts := by
  induction parts with
  | nil => rfl
  | cons part parts ih =>
      obtain ⟨⟨hne, hslash⟩, hrest⟩ := List.forall_mem_cons.mp hparts
      rw [rawSegments, if_neg (by simpa using Token.join_ne_nil hne parts)]
      cases parts with
      | nil => rw [Token.join_singleton, List.splitOnP_eq_singleton hslash]
      | cons part' parts =>
          have hne' := Token.join_ne_nil (hrest part' List.mem_cons_self).1 parts
          have hsplit := ih hrest
          rw [rawSegments, if_neg (by simpa using hne')] at hsplit
          rw [Token.join_cons_of_ne_nil part (by simp),
            List.splitOnP_append_cons_of_forall_mem hslash ⟨'/', false⟩ rfl, hsplit]

/-- Parts between slashes are compiled one after the other, without flags. -/
theorem compileTokens_join (hparts : ∀ part ∈ parts, Token.Part part) {segments : List Segment}
    (h : compileSegments {} false parts = .ok segments) :
    compileTokens (Token.join parts) = .ok (segments, {}) := by
  simp only [compileTokens, splitFlags, lastDoubleSlash?_eq_none (Token.isChain_join hparts),
    trimSlashes_eq (fun _ ht => Token.is_of_mem_head?_join hparts ht)
      (fun _ ht => Token.is_of_mem_getLast?_join hparts ht),
    rawSegments_join hparts, h]
  rfl

end Path

namespace Matcher

/-- The text of a matcher. Patterns are not printed. -/
def print : Matcher → String
  | literal s => Token.escapeText s
  | pattern _ => ""
  | range start stop inclusive =>
      Numeral.intText start.toInt ++ (if inclusive then ".." else "...") ++
        Numeral.intText stop.toInt
  | any => "*"

def Printable : Matcher → Prop
  | literal s => s ≠ ""
  | pattern _ => False
  | range .. => True
  | any => True

/-- The characters of a range. -/
def rangeText (start stop : Int64) (inclusive : Bool) : List Char :=
  Numeral.intDigits start.toInt ++
    ((if inclusive then ['.', '.'] else ['.', '.', '.']) ++ Numeral.intDigits stop.toInt)

/-- The text of a matcher as it is scanned. -/
def tokens : Matcher → List Token
  | literal s => Token.quoted s.toList
  | pattern _ => []
  | range start stop inclusive => Token.bare (rangeText start stop inclusive)
  | any => Token.bare ['*']

theorem toList_print (m : Matcher) : m.print.toList = Token.print m.tokens := by
  cases m with
  | literal s => simp [print, tokens, Token.print_quoted, Token.escapeText]
  | pattern p => rfl
  | range start stop inclusive =>
      cases inclusive <;> simp [print, tokens, Token.print_bare, rangeText, Numeral.intText]
  | any => rfl

end Matcher

namespace Numeral

variable {cs : List Char}

theorem isDigit_of_mem_of_readNat? {n : Nat} (h : readNat? cs = some n) :
    cs ≠ [] ∧ ∀ c ∈ cs, c.isDigit := by
  unfold readNat? at h
  split at h
  · cases h
  · rename_i hcs
    simpa using hcs

/-- An integer is read from digits, with a minus in front or without. -/
theorem isDigit_of_mem_of_readInt64? {i : Int64} (h : readInt64? cs = some i) :
    cs ≠ [] ∧ ∀ c ∈ cs, c = '-' ∨ c.isDigit := by
  obtain ⟨j, hj, -⟩ := Option.bind_eq_some_iff.mp h
  unfold readInt? at hj
  split at hj
  · rename_i ds
    obtain ⟨n, hn⟩ : ∃ n, readNat? ds = some n := by
      cases hds : readNat? ds with
      | none => simp [hds] at hj
      | some n => exact ⟨n, rfl⟩
    refine ⟨List.cons_ne_nil _ _, List.forall_mem_cons.mpr ⟨Or.inl rfl, ?_⟩⟩
    exact fun c hc => Or.inr ((isDigit_of_mem_of_readNat? hn).2 c hc)
  · obtain ⟨n, hn⟩ : ∃ n, readNat? cs = some n := by
      cases hcs : readNat? cs with
      | none => simp [hcs] at hj
      | some n => exact ⟨n, rfl⟩
    obtain ⟨hne, hdigits⟩ := isDigit_of_mem_of_readNat? hn
    exact ⟨hne, fun c hc => Or.inr (hdigits c hc)⟩

theorem not_mem_of_readInt64? {i : Int64} (h : readInt64? cs = some i) {c : Char}
    (hminus : c ≠ '-') (hdigit : c.isDigit = false) : c ∉ cs := by
  intro hc
  rcases (isDigit_of_mem_of_readInt64? h).2 c hc with rfl | hc
  · exact hminus rfl
  · rw [hdigit] at hc
    cases hc

end Numeral

namespace Matcher

section Words

variable {w : Char} {word cs ds : List Char}

theorem splitAtWord_append (hcs : w ∉ cs) (ds : List Char) :
    splitAtWord (w :: word) (cs ++ ds) =
      (splitAtWord (w :: word) ds).map fun (a, b) => (cs ++ a, b) := by
  induction cs with
  | nil => simp
  | cons c cs ih =>
      obtain ⟨hc, hcs⟩ := List.ne_and_not_mem_of_not_mem_cons hcs
      rw [List.cons_append, splitAtWord, if_neg (by simp [hc]), ih hcs, Option.map_map]
      rfl

theorem splitAtWord_of_not_mem (hcs : w ∉ cs) : splitAtWord (w :: word) cs = none := by
  have hnil : splitAtWord (w :: word) [] = none := rfl
  rw [← List.append_nil cs, splitAtWord_append hcs, hnil, Option.map_none]

end Words

section Ranges

variable {a b : List Char} {m n : Int64}

/-- Two integers with dots between them are read as a range. -/
theorem readRange?_dots (ha : Numeral.readInt64? a = some m) (hb : Numeral.readInt64? b = some n)
    (inclusive : Bool) :
    readRange? (a ++ ((if inclusive then ['.', '.'] else ['.', '.', '.']) ++ b)) =
      some (.range m n inclusive) := by
  have hdota := Numeral.not_mem_of_readInt64? ha (c := '.') (by decide) (by decide)
  have hdotb := Numeral.not_mem_of_readInt64? hb (c := '.') (by decide) (by decide)
  have hslice :
      splitAtWord [','] (a ++ ((if inclusive then ['.', '.'] else ['.', '.', '.']) ++ b)) =
      none := by
    have hcommaa := Numeral.not_mem_of_readInt64? ha (c := ',') (by decide) (by decide)
    have hcommab := Numeral.not_mem_of_readInt64? hb (c := ',') (by decide) (by decide)
    apply splitAtWord_of_not_mem
    cases inclusive <;> simp [hcommaa, hcommab]
  have hbounds : ∀ inclusive, readBounds? a b inclusive = some (.range m n inclusive) := by
    intro inclusive
    simp [readBounds?, ha, hb]
  cases inclusive with
  | false =>
      have hthree : splitAtWord ['.', '.', '.'] (a ++ (['.', '.', '.'] ++ b)) = some (a, b) := by
        rw [splitAtWord_append hdota]
        simp [splitAtWord]
      simp only [Bool.false_eq_true, if_false] at hslice ⊢
      simp only [readRange?, hslice, hthree, hbounds]
  | true =>
      have hthree : splitAtWord ['.', '.', '.'] (a ++ (['.', '.'] ++ b)) = none := by
        obtain ⟨c, cs, rfl⟩ :=
          List.exists_cons_of_ne_nil (Numeral.isDigit_of_mem_of_readInt64? hb).1
        obtain ⟨hc, hcs⟩ := List.ne_and_not_mem_of_not_mem_cons hdotb
        rw [splitAtWord_append hdota]
        simp [splitAtWord, hc, splitAtWord_of_not_mem hcs]
      have htwo : splitAtWord ['.', '.'] (a ++ (['.', '.'] ++ b)) = some (a, b) := by
        rw [splitAtWord_append hdota]
        simp [splitAtWord]
      simp only [if_true] at hslice ⊢
      simp only [readRange?, hslice, hthree, htwo, Option.bind_some, hbounds]

end Ranges

theorem readRange?_rangeText (start stop : Int64) (inclusive : Bool) :
    readRange? (rangeText start stop inclusive) = some (.range start stop inclusive) :=
  readRange?_dots (Numeral.readInt64?_intDigits start) (Numeral.readInt64?_intDigits stop) inclusive

end Matcher

namespace Matcher

variable {m : Matcher} {t : Token}

theorem inner_of_mem_tokens (ht : t ∈ m.tokens) : t.Inner := by
  cases m with
  | literal s => exact Token.inner_quoted _ t ht
  | pattern p => cases ht
  | any =>
      rw [List.mem_singleton.mp ht]
      intro _
      decide
  | range start stop inclusive =>
      obtain ⟨c, hc, rfl⟩ := List.mem_map.mp ht
      intro _
      have hclass : c = '.' ∨ c = '-' ∨ c.isDigit := by
        have hdots : c ∈ (if inclusive then ['.', '.'] else ['.', '.', '.']) → c = '.' := by
          cases inclusive <;> simp
        simp only [rangeText, List.mem_append] at hc
        rcases hc with hc | hc | hc
        · exact Or.inr (Numeral.isDigit_of_mem_intDigits hc)
        · exact Or.inl (hdots hc)
        · exact Or.inr (Numeral.isDigit_of_mem_intDigits hc)
      rcases hclass with rfl | rfl | hdigit
      · decide
      · decide
      · refine ⟨?_, ?_, ?_⟩ <;> rintro rfl <;> revert hdigit <;> decide

/-- The tokens of a matcher are a star, or the first of them has no meaning of its own. -/
theorem tokens_cases (hm : m.Printable) :
    m.tokens = [⟨'*', false⟩] ∨
      ∃ t ts, m.tokens = t :: ts ∧ t.is '*' = false ∧ t.is '?' = false ∧ t.is '.' = false := by
  cases m with
  | pattern p => exact hm.elim
  | any => exact Or.inl rfl
  | literal s =>
      have hs : s ≠ "" := hm
      obtain ⟨c, cs, hcs⟩ := List.exists_cons_of_ne_nil (by simpa using hs : s.toList ≠ [])
      exact Or.inr ⟨⟨c, true⟩, Token.quoted cs, by simp [tokens, hcs, Token.quoted], rfl, rfl, rfl⟩
  | range start stop inclusive =>
      obtain ⟨c, cs, hcs⟩ := List.exists_cons_of_ne_nil (Numeral.intDigits_ne_nil start.toInt)
      have hc : c = '-' ∨ c.isDigit :=
        Numeral.isDigit_of_mem_intDigits (hcs ▸ List.mem_cons_self)
      have hplain : ∀ d, d ≠ '-' → d.isDigit = false → (⟨c, false⟩ : Token).is d = false := by
        intro d hminus hdigit
        rcases hc with rfl | hc
        · simpa [Token.is] using Ne.symm hminus
        · have hne : c ≠ d := by
            rintro rfl
            rw [hc] at hdigit
            cases hdigit
          simpa [Token.is] using hne
      refine Or.inr ⟨⟨c, false⟩, _, by rw [tokens, rangeText, hcs]; rfl, ?_, ?_, ?_⟩ <;>
        exact hplain _ (by decide) (by decide)

/-- A part gives its matcher again. -/
theorem ofTokens_tokens (hm : m.Printable) : ofTokens {} m.tokens = .ok m := by
  cases m with
  | pattern p => exact hm.elim
  | any => rfl
  | literal s =>
      have hs : s ≠ "" := hm
      rw [tokens, ofTokens_quoted (by simpa using hs), String.ofList_toList]
  | range start stop inclusive =>
      have hwild : (tokens (.range start stop inclusive)).all isWildcard = false := by
        rcases tokens_cases hm with h | ⟨t, ts, h, hstar, hmark, -⟩
        · have hread := readRange?_rangeText start stop inclusive
          rw [← Token.print_bare (rangeText start stop inclusive)] at hread
          rw [tokens] at h
          rw [h] at hread
          cases hread
        · rw [h, List.all_cons, isWildcard, hstar, hmark]
          rfl
      rw [ofTokens, hwild, tokens, Token.print_bare, readRange?_rangeText]
      rfl

end Matcher

namespace Segment

/-- The text of a segment: its key, and its value after an equals sign. -/
def print : Segment → String
  | parent => ".."
  | step key value recursive =>
      (if recursive then "**/" else "") ++ key.print ++
        match value with
        | none => ""
        | some m => "=" ++ m.print

def Printable : Segment → Prop
  | parent => True
  | step key value _ => key.Printable ∧ ∀ m ∈ value, m.Printable

/-- The tokens of a step apart from the mark of a recursive one. -/
def stepTokens (key : Matcher) : Option Matcher → List Token
  | none => key.tokens
  | some m => key.tokens ++ ⟨'=', false⟩ :: m.tokens

/-- The parts between slashes that a segment consists of. -/
def parts : Segment → List (List Token)
  | parent => [Token.bare ['.', '.']]
  | step key value true => [Token.bare ['*', '*'], stepTokens key value]
  | step key value false => [stepTokens key value]

theorem parts_ne_nil (segment : Segment) : segment.parts ≠ [] := by
  match segment with
  | parent => simp [parts]
  | step key value true => simp [parts]
  | step key value false => simp [parts]

theorem toList_print (segment : Segment) :
    segment.print.toList = Token.print (Token.join segment.parts) := by
  have hstep : ∀ key value, Token.print (stepTokens key value) =
      key.print.toList ++ (match value with
        | none => ""
        | some m => "=" ++ m.print : String).toList := by
    intro key value
    cases value with
    | none => simp [stepTokens, Matcher.toList_print]
    | some m =>
        simp [stepTokens, Matcher.toList_print, Token.print_append]
        rfl
  match segment with
  | parent => rfl
  | step key value false => simp [print, parts, Token.join_singleton, hstep]
  | step key value true =>
      have hjoin : Token.join [Token.bare ['*', '*'], stepTokens key value] =
          Token.bare ['*', '*', '/'] ++ stepTokens key value := by
        rw [Token.join_cons_of_ne_nil _ (by simp), Token.join_singleton]
        rfl
      rw [parts, hjoin, Token.print_append, Token.print_bare, hstep]
      simp [print]

variable {key : Matcher} {value : Option Matcher} {recursive : Bool} {t : Token}

theorem inner_of_mem_stepTokens (ht : t ∈ stepTokens key value) :
    t.Inner ∨ t = ⟨'=', false⟩ := by
  cases value with
  | none => exact Or.inl (Matcher.inner_of_mem_tokens ht)
  | some m =>
      rw [stepTokens, List.mem_append, List.mem_cons] at ht
      rcases ht with ht | ht | ht
      · exact Or.inl (Matcher.inner_of_mem_tokens ht)
      · exact Or.inr ht
      · exact Or.inl (Matcher.inner_of_mem_tokens ht)

/-- Inside of a part there is no slash with its meaning, and no backslash that is not escaped. -/
theorem of_mem_parts {segment : Segment} {part : List Token} (hpart : part ∈ segment.parts)
    (ht : t ∈ part) : t.is '/' = false ∧ (t.escaped = false → t.char ≠ '\\') := by
  have hbare : ∀ c : Char, c ≠ '/' → c ≠ '\\' → (⟨c, false⟩ : Token).is '/' = false ∧
      ((⟨c, false⟩ : Token).escaped = false → (⟨c, false⟩ : Token).char ≠ '\\') := by
    intro c hslash hback
    exact ⟨by simpa [Token.is] using hslash, fun _ => hback⟩
  have hstep : ∀ key value, t ∈ stepTokens key value →
      t.is '/' = false ∧ (t.escaped = false → t.char ≠ '\\') := by
    intro key value ht
    rcases inner_of_mem_stepTokens ht with hinner | rfl
    · refine ⟨?_, fun h => (hinner h).2.2⟩
      cases he : t.escaped with
      | true => simp [Token.is, he]
      | false => simpa [Token.is, he] using (hinner he).1
    · exact hbare '=' (by decide) (by decide)
  match segment with
  | parent =>
      rw [List.mem_singleton.mp hpart] at ht
      simp only [Token.bare, List.map_cons, List.map_nil, List.mem_cons, List.not_mem_nil,
        or_false, or_self] at ht
      rw [ht]
      exact hbare '.' (by decide) (by decide)
  | step key value false =>
      rw [List.mem_singleton.mp hpart] at ht
      exact hstep key value ht
  | step key value true =>
      rcases List.mem_pair.mp hpart with rfl | rfl
      · simp only [Token.bare, List.map_cons, List.map_nil, List.mem_cons, List.not_mem_nil,
          or_false, or_self] at ht
        rw [ht]
        exact hbare '*' (by decide) (by decide)
      · exact hstep key value ht

theorem spell_stepTokens (hkey : key.Printable) (value : Option Matcher) :
    stepTokens key value ≠ [] ∧ Token.spell (stepTokens key value) ['*', '*'] = false ∧
      Token.spell (stepTokens key value) ['.', '.'] = false := by
  rcases Matcher.tokens_cases hkey with h | ⟨t, ts, h, hstar, -, hdot⟩
  · cases value <;> simp [stepTokens, h, Token.spell]
  · have hword : ∀ us : List Token, ∀ c word, t.is c = false →
        Token.spell (t :: us) (c :: word) = false := by
      intro us c word hc
      have hne : t ≠ ⟨c, false⟩ := by
        rintro rfl
        simp [Token.is] at hc
      simp [Token.spell, hne]
    cases value <;> simp [stepTokens, h, hword, hstar, hdot]

theorem part_of_mem_parts {segment : Segment} (hsegment : segment.Printable) {part : List Token}
    (hpart : part ∈ segment.parts) : Token.Part part := by
  refine ⟨?_, fun t ht => (of_mem_parts hpart ht).1⟩
  match segment with
  | parent => simp [List.mem_singleton.mp hpart, Token.bare]
  | step key value false =>
      rw [List.mem_singleton.mp hpart]
      exact (spell_stepTokens hsegment.1 value).1
  | step key value true =>
      rcases List.mem_pair.mp hpart with rfl | rfl
      · simp [Token.bare]
      · exact (spell_stepTokens hsegment.1 value).1

end Segment

namespace Path

variable {key : Matcher} {value : Option Matcher} {segments : List Segment}

/-- A part that is printed for a step is compiled to the step. -/
theorem compileSegment_stepTokens (hkey : key.Printable) (hvalue : ∀ m ∈ value, m.Printable)
    (recursive : Bool) :
    compileSegment {} recursive (Segment.stepTokens key value) =
      .ok (.step key value recursive) := by
  have hequals : ∀ m : Matcher, ∀ t ∈ m.tokens, t.is '=' = false := by
    intro m t ht
    cases he : t.escaped with
    | true => simp [Token.is, he]
    | false => simpa [Token.is, he] using (Matcher.inner_of_mem_tokens ht he).2.1
  have hpart : ∀ m : Matcher, m.Printable → compilePart {} m.tokens = .ok m := by
    intro m hm
    rw [compilePart, Matcher.ofTokens_tokens hm]
    rfl
  cases value with
  | none =>
      have hsplit : key.tokens.splitOnP (·.is '=') = [key.tokens] :=
        List.splitOnP_eq_singleton (hequals key)
      simp only [compileSegment, Segment.stepTokens, hsplit, hpart key hkey]
      rfl
  | some m =>
      have hsplit : (key.tokens ++ ⟨'=', false⟩ :: m.tokens).splitOnP (·.is '=') =
          [key.tokens, m.tokens] := by
        rw [List.splitOnP_append_cons_of_forall_mem (hequals key) ⟨'=', false⟩ rfl,
          List.splitOnP_eq_singleton (hequals m)]
      have hword := (Segment.spell_stepTokens hkey none).2.1
      rw [Segment.stepTokens] at hword
      simp only [compileSegment, Segment.stepTokens, hsplit, hword, hpart key hkey,
        hpart m (hvalue m rfl)]
      rfl

theorem compileSegments_parts (h : ∀ segment ∈ segments, segment.Printable) :
    compileSegments {} false (segments.flatMap Segment.parts) = .ok segments := by
  induction segments with
  | nil => rfl
  | cons segment segments ih =>
      obtain ⟨hsegment, hrest⟩ := List.forall_mem_cons.mp h
      have ih := ih hrest
      rw [List.flatMap_cons]
      match segment with
      | .parent =>
          have hstars : Token.spell (Token.bare ['.', '.']) ['*', '*'] = false := rfl
          have hdots : Token.spell (Token.bare ['.', '.']) ['.', '.'] = true := rfl
          simp only [Segment.parts, List.singleton_append, compileSegments, hstars, hdots, ih]
          rfl
      | .step key value false =>
          obtain ⟨-, hstars, hdots⟩ := Segment.spell_stepTokens hsegment.1 value
          simp only [Segment.parts, List.singleton_append, compileSegments, hstars, hdots, ih,
            compileSegment_stepTokens hsegment.1 hsegment.2]
          rfl
      | .step key value true =>
          have hword : Token.spell (Token.bare ['*', '*']) ['*', '*'] = true := rfl
          obtain ⟨-, hstars, hdots⟩ := Segment.spell_stepTokens hsegment.1 value
          simp only [Segment.parts, List.cons_append, List.nil_append, compileSegments, hword,
            hstars, hdots, ih, compileSegment_stepTokens hsegment.1 hsegment.2]
          rfl

/-- The text of a path: its segments with slashes between them. -/
def print (segments : List Segment) : String :=
  "/".intercalate (segments.map Segment.print)

theorem toList_print (segments : List Segment) :
    (print segments).toList = Token.print (Token.join (segments.flatMap Segment.parts)) := by
  induction segments with
  | nil => rfl
  | cons segment segments ih =>
      by_cases hnil : segments = []
      · subst hnil
        simp [print, Segment.toList_print]
      · have hparts : segments.flatMap Segment.parts ≠ [] := by
          obtain ⟨s, rest, rfl⟩ := List.exists_cons_of_ne_nil hnil
          simp [Segment.parts_ne_nil]
        have hhead : print (segment :: segments) = segment.print ++ "/" ++ print segments := by
          rw [print, List.map_cons, String.intercalate_cons_of_ne_nil (by simpa using hnil), print]
        rw [hhead, List.flatMap_cons, Token.join,
          intercalate_append (Segment.parts_ne_nil segment) hparts, Token.print_append,
          Token.print_append, String.toList_append, String.toList_append, ih,
          Segment.toList_print]
        rfl

theorem scan?_print (segments : List Segment) :
    Token.scan? (print segments).toList = some (Token.join (segments.flatMap Segment.parts)) := by
  rw [toList_print, Token.scan?_print]
  intro t ht
  rcases Token.mem_join ht with rfl | ⟨part, hpart, ht⟩
  · intro _
    decide
  · obtain ⟨segment, -, hpart⟩ := List.mem_flatMap.mp hpart
    exact (Segment.of_mem_parts hpart ht).2

theorem compileTokens_parts (h : ∀ segment ∈ segments, segment.Printable) :
    compileTokens (Token.join (segments.flatMap Segment.parts)) = .ok (segments, {}) := by
  refine compileTokens_join ?_ (compileSegments_parts h)
  intro part hpart
  obtain ⟨segment, hsegment, hpart⟩ := List.mem_flatMap.mp hpart
  exact Segment.part_of_mem_parts (h segment hsegment) hpart

theorem compile_eq_of_print {text : String} (htext : print segments = text)
    (h : ∀ segment ∈ segments, segment.Printable) :
    Path.compile text = .ok ⟨text, segments, {}⟩ := by
  subst htext
  simp only [Path.compile, scan?_print, compileTokens_parts h]

/-- A name that is escaped after `**` is matched literally at every depth. -/
theorem compile_everywhere {k : String} (hk : k ≠ "") :
    Path.compile ("**/" ++ Token.escapeText k) =
      .ok ⟨"**/" ++ Token.escapeText k, [.step (.literal k) none true], {}⟩ := by
  have hprint : print [.step (.literal k) none true] = "**/" ++ Token.escapeText k := by
    simp [print, Segment.print, Matcher.print]
  exact compile_eq_of_print hprint (by simpa [Segment.Printable, Matcher.Printable] using hk)

/-- Compiling the text of segments gives back the segments, without flags. -/
theorem compile_print (h : ∀ segment ∈ segments, segment.Printable) :
    Path.compile (print segments) = .ok ⟨print segments, segments, {}⟩ :=
  compile_eq_of_print rfl h

/-- A literal that spells a word, a range with a negative bound, and a value with separators. -/
theorem compile_print_words :
    (∀ segment ∈ [Segment.step (.literal "**") (some (.range (-1) 3 false)) true, .parent,
      .step .any (some (.literal "a/=")) false], segment.Printable) ∧
    Path.compile "**/\\*\\*=-1...3/../*=\\a\\/\\=" =
      .ok ⟨"**/\\*\\*=-1...3/../*=\\a\\/\\=",
        [.step (.literal "**") (some (.range (-1) 3 false)) true, .parent,
          .step .any (some (.literal "a/=")) false], {}⟩ := by
  have hprintable : ∀ segment ∈ [Segment.step (.literal "**") (some (.range (-1) 3 false)) true,
      .parent, .step .any (some (.literal "a/=")) false], segment.Printable := by
    simp [Segment.Printable, Matcher.Printable]
  have htext : print [.step (.literal "**") (some (.range (-1) 3 false)) true, .parent,
      .step .any (some (.literal "a/=")) false] = "**/\\*\\*=-1...3/../*=\\a\\/\\=" := by
    decide
  have h := compile_print hprintable
  rw [htext] at h
  exact ⟨hprintable, h⟩

end Path

end PathRules
