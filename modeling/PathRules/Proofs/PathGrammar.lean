import Mathlib.Data.List.DropRight
import PathRules.Proofs.PatternParentheses
import PathRules.Proofs.PrintedPaths

/-!
# The grammar of paths

The grammar is stated on characters that know whether they were escaped, without the compiler: a
text must not end in an open escape, its flags and one slash at each end are taken off, and every
segment between the slashes is reserved or a key with at most one value. A part that is no range and
not made only of wildcards is a pattern if it has special characters or the path has flags, and then
its parentheses have to be balanced.

Each condition is then met by the function that checks it: the scanner refuses open escapes, the
reader of ranges finds one where one is spelled, the matcher of a part compiles where the part is
accepted, and the flags that are split off are those that a path can end in.
-/

namespace PathRules

theorem length_rtakeWhile_cons {α : Type} (p : α → Bool) (x : α) (xs : List α) :
    ((x :: xs).rtakeWhile p).length =
      if xs.all p && p x then xs.length + 1 else (xs.rtakeWhile p).length := by
  simp only [List.rtakeWhile, List.reverse_cons, List.takeWhile_append, List.length_reverse]
  by_cases hxs : xs.all p
  · have hrun : xs.reverse.takeWhile p = xs.reverse := by
      simpa using hxs
    by_cases hx : p x <;> simp [hrun, hxs, hx, List.takeWhile]
  · have hrun : (xs.reverse.takeWhile p).length ≠ xs.length := by
      intro hlength
      have hprefix : xs.reverse.takeWhile p <+: xs.reverse := List.takeWhile_prefix p
      have heq := hprefix.eq_of_length (by simpa using hlength)
      exact hxs (by simpa using heq)
    simp [hrun, hxs]

namespace Token

/-- Whether a text ends in a backslash that escapes nothing. Backslashes pair up from the left, so
one is left over at the end if the run of them there is odd. -/
def EndsOpen (cs : List Char) : Prop :=
  (cs.rtakeWhile (· = '\\')).length % 2 = 1

instance (cs : List Char) : Decidable (EndsOpen cs) :=
  inferInstanceAs (Decidable (_ = _))

theorem endsOpen_cons {c : Char} (hc : c ≠ '\\') (cs : List Char) :
    EndsOpen (c :: cs) ↔ EndsOpen cs := by
  simp [EndsOpen, length_rtakeWhile_cons, hc]

theorem endsOpen_cons_cons (c : Char) (cs : List Char) :
    EndsOpen ('\\' :: c :: cs) ↔ EndsOpen cs := by
  by_cases hcs : cs.all (· = '\\')
  · have hrun : cs.rtakeWhile (· = '\\') = cs :=
      List.rtakeWhile_eq_self_iff.mpr (List.all_eq_true.mp hcs)
    by_cases hc : c = '\\' <;> simp [EndsOpen, length_rtakeWhile_cons, hrun, hcs, hc, Nat.add_assoc]
  · simp [EndsOpen, length_rtakeWhile_cons, hcs]

theorem ne_backslash_of_unpaired {c : Char} {cs : List Char} (hlast : c = '\\' → cs = [] → False)
    (hpair : ∀ d ds, c = '\\' → cs = d :: ds → False) : c ≠ '\\' := by
  rintro rfl
  cases cs with
  | nil => exact hlast rfl rfl
  | cons d ds => exact hpair d ds rfl rfl

theorem scan?_eq_none_iff (cs : List Char) : scan? cs = none ↔ EndsOpen cs := by
  fun_induction scan? cs with
  | case1 => decide
  | case2 => decide
  | case3 c cs ih => rw [Option.map_eq_none_iff, ih, endsOpen_cons_cons]
  | case4 c cs hlast hpair ih =>
      rw [Option.map_eq_none_iff, ih, endsOpen_cons (ne_backslash_of_unpaired hlast hpair)]

theorem eq_of_is {t : Token} {c : Char} (h : t.is c) : t = ⟨c, false⟩ := by
  obtain ⟨d, escaped⟩ := t
  simp only [is, Bool.and_eq_true, Bool.not_eq_true', beq_iff_eq] at h
  rw [h.1, h.2]

/-- The tokens that a text spells: with their escapes they are the text, and a backslash is never
a token of its own. -/
def Spells (ts : List Token) (cs : List Char) : Prop :=
  print ts = cs ∧ ∀ t ∈ ts, t.escaped = false → t.char ≠ '\\'

theorem ne_backslash_of_scan? {cs : List Char} {ts : List Token} (h : scan? cs = some ts) :
    ∀ t ∈ ts, t.escaped = false → t.char ≠ '\\' := by
  fun_induction scan? cs generalizing ts with
  | case1 =>
      cases h
      simp
  | case2 => cases h
  | case3 c cs ih =>
      obtain ⟨us, hus, rfl⟩ := Option.map_eq_some_iff.mp h
      exact List.forall_mem_cons.mpr ⟨by simp, ih hus⟩
  | case4 c cs hlast hpair ih =>
      obtain ⟨us, hus, rfl⟩ := Option.map_eq_some_iff.mp h
      exact List.forall_mem_cons.mpr ⟨fun _ => ne_backslash_of_unpaired hlast hpair, ih hus⟩

theorem scan?_eq_some_iff {cs : List Char} {ts : List Token} :
    scan? cs = some ts ↔ Spells ts cs := by
  constructor
  · exact fun h => ⟨print_scan? h, ne_backslash_of_scan? h⟩
  · rintro ⟨rfl, h⟩
    exact scan?_print h

end Token

namespace Numeral

/-- Whether 64 bits hold an integer. -/
def FitsInt64 (i : Int) : Prop :=
  Int64.minValue.toInt ≤ i ∧ i ≤ Int64.maxValue.toInt

theorem isSome_toInt64?_iff {i : Int} : (toInt64? i).isSome ↔ FitsInt64 i := by
  have hmin : Int64.minValue.toInt = -9223372036854775808 := rfl
  have hmax : Int64.maxValue.toInt = 9223372036854775807 := rfl
  unfold toInt64? FitsInt64 int64Bound
  split
  · simp only [Option.isSome_some, true_iff]
    omega
  · simp only [Option.isSome_none, Bool.false_eq_true, false_iff]
    omega

end Numeral

namespace Matcher

variable {word cs before after a b : List Char} {m n : Int64}

theorem eq_append_of_splitAtWord (h : splitAtWord word cs = some (before, after)) :
    cs = before ++ (word ++ after) := by
  induction cs generalizing before after with
  | nil =>
      unfold splitAtWord at h
      split at h
      · rename_i hword
        cases h
        simpa using hword
      · cases h
  | cons c cs ih =>
      unfold splitAtWord at h
      split at h
      · rename_i hprefix
        cases h
        rw [List.nil_append]
        exact (List.prefix_iff_eq_append.mp (List.isPrefixOf_iff_prefix.mp hprefix)).symm
      · obtain ⟨⟨a, b⟩, hab, heq⟩ := Option.map_eq_some_iff.mp h
        cases heq
        rw [ih hab, List.cons_append]

theorem splitAtWord_comma (ha : Numeral.readInt64? a = some m) (b : List Char) :
    splitAtWord [','] (a ++ ([','] ++ b)) = some (a, b) := by
  have hcomma := Numeral.not_mem_of_readInt64? ha (c := ',') (by decide) (by decide)
  rw [splitAtWord_append hcomma]
  simp [splitAtWord]

theorem readRange?_comma (ha : Numeral.readInt64? a = some m) :
    readRange? (a ++ ([','] ++ b)) = readSlice? a b := by
  simp only [readRange?, splitAtWord_comma ha]

/-- A text that spells a range: two integers with dots between them, two if the range has its end
and three if not, or with a comma between them if 64 bits hold their sum. -/
def SpellsRange (cs : List Char) : Prop :=
  ∃ a b m n, Numeral.readInt64? a = some m ∧ Numeral.readInt64? b = some n ∧
    (cs = a ++ ['.', '.'] ++ b ∨ cs = a ++ ['.', '.', '.'] ++ b ∨
      cs = a ++ [','] ++ b ∧ Numeral.FitsInt64 (m.toInt + n.toInt))

theorem isSome_readSlice?_iff {a b : List Char} :
    (readSlice? a b).isSome ↔ ∃ m n, Numeral.readInt64? a = some m ∧
      Numeral.readInt64? b = some n ∧ Numeral.FitsInt64 (m.toInt + n.toInt) := by
  cases ha : Numeral.readInt64? a with
  | none => simp [readSlice?, ha]
  | some m =>
      cases hb : Numeral.readInt64? b with
      | none => simp [readSlice?, ha, hb]
      | some n =>
          have hslice : (readSlice? a b).isSome =
              (Numeral.toInt64? (m.toInt + n.toInt)).isSome := by
            cases hsum : Numeral.toInt64? (m.toInt + n.toInt) <;> simp [readSlice?, ha, hb, hsum]
          rw [hslice, Numeral.isSome_toInt64?_iff]
          simp only [Option.some.injEq, exists_eq_left', exists_and_left]

theorem isSome_readBounds?_iff {a b : List Char} {inclusive : Bool} :
    (readBounds? a b inclusive).isSome ↔
      ∃ m n, Numeral.readInt64? a = some m ∧ Numeral.readInt64? b = some n := by
  cases ha : Numeral.readInt64? a with
  | none => simp [readBounds?, ha]
  | some m => cases hb : Numeral.readInt64? b <;> simp [readBounds?, ha, hb]

theorem isSome_readRange?_iff (cs : List Char) : (readRange? cs).isSome ↔ SpellsRange cs := by
  constructor
  · intro h
    simp only [readRange?] at h
    split at h
    · rename_i a b hsplit
      obtain ⟨m, n, ha, hb, hsum⟩ := isSome_readSlice?_iff.mp h
      refine ⟨a, b, m, n, ha, hb, Or.inr (Or.inr ⟨?_, hsum⟩)⟩
      rw [eq_append_of_splitAtWord hsplit, List.append_assoc]
    · split at h
      · rename_i a b hsplit
        obtain ⟨m, n, ha, hb⟩ := isSome_readBounds?_iff.mp h
        refine ⟨a, b, m, n, ha, hb, Or.inr (Or.inl ?_)⟩
        rw [eq_append_of_splitAtWord hsplit, List.append_assoc]
      · cases hsplit : splitAtWord ['.', '.'] cs with
        | none => simp [hsplit] at h
        | some bounds =>
            obtain ⟨a, b⟩ := bounds
            rw [hsplit, Option.bind_some] at h
            obtain ⟨m, n, ha, hb⟩ := isSome_readBounds?_iff.mp h
            refine ⟨a, b, m, n, ha, hb, Or.inl ?_⟩
            rw [eq_append_of_splitAtWord hsplit, List.append_assoc]
  · rintro ⟨a, b, m, n, ha, hb, rfl | rfl | ⟨rfl, hsum⟩⟩
    · have hread := readRange?_dots ha hb true
      rw [if_pos rfl, ← List.append_assoc] at hread
      rw [hread]
      rfl
    · have hread := readRange?_dots ha hb false
      rw [if_neg Bool.false_ne_true, ← List.append_assoc] at hread
      rw [hread]
      rfl
    · rw [List.append_assoc, readRange?_comma ha]
      exact isSome_readSlice?_iff.mpr ⟨m, n, ha, hb, hsum⟩

end Matcher

namespace Token

/-- A token with the special meaning of a wildcard, a bar or a parenthesis. -/
def Special (t : Token) : Prop :=
  t.is '*' ∨ t.is '?' ∨ t.is '|' ∨ t.is '(' ∨ t.is ')'

end Token

namespace Path

/-- What the key or the value of a segment has to be: only wildcards, a range, or a text whose
parentheses are balanced. They need not be if nothing is special in the text and the path has no
flags. -/
def PartAccepted (flagged : Bool) (part : List Token) : Prop :=
  (∀ t ∈ part, t.is '*' ∨ t.is '?') ∨ Matcher.SpellsRange (Token.print part) ∨
    (flagged ∨ (∃ t ∈ part, t.Special) → Token.Balanced part)

/-- What a segment has to be: `**`, `..`, or a key with at most one value, which an equals sign
separates. -/
def SegmentAccepted (flagged : Bool) (raw : List Token) : Prop :=
  raw = Token.bare ['*', '*'] ∨ raw = Token.bare ['.', '.'] ∨
    raw.countP (·.is '=') ≤ 1 ∧ ∀ part ∈ raw.splitOnP (·.is '='), PartAccepted flagged part

/-- Flags at the end of a path: two slashes and at least one letter. -/
def FlagSuffix (suffix : List Token) : Prop :=
  ∃ letters, letters ≠ [] ∧ (∀ c ∈ letters, c ∈ ['i', 'm', 'x', 'n']) ∧
    suffix = Token.bare ('/' :: '/' :: letters)

/-- The tokens in front of the flags of a path, and whether it has flags. -/
inductive WithoutFlags (ts : List Token) : List Token → Bool → Prop
  | flagged {body suffix : List Token} (hts : ts = body ++ suffix) (hsuffix : FlagSuffix suffix) :
      WithoutFlags ts body true
  | plain (h : ∀ suffix, suffix <:+ ts → ¬ FlagSuffix suffix) : WithoutFlags ts ts false

/-- The tokens between one slash at the start and one at the end, where there are such. -/
def WithoutSlashes (body inner : List Token) : Prop :=
  ∃ rest, (body = ⟨'/', false⟩ :: rest ∨ body = rest ∧ rest.head? ≠ some ⟨'/', false⟩) ∧
    (rest = inner ++ [⟨'/', false⟩] ∨ rest = inner ∧ rest.getLast? ≠ some ⟨'/', false⟩)

/-- The grammar of paths. -/
def Grammatical (s : String) : Prop :=
  ¬ Token.EndsOpen s.toList ∧ ∃ ts body flagged inner, Token.Spells ts s.toList ∧
    WithoutFlags ts body flagged ∧ WithoutSlashes body inner ∧
    ∀ raw ∈ inner.splitOnP (·.is '/'), SegmentAccepted flagged raw

end Path

namespace Matcher

theorem isSpecial_iff {t : Token} : isSpecial t ↔ t.Special := by
  simp [isSpecial, isWildcard, Token.Special, or_assoc]

/-- What a part compiles to: the first of its readings that it can have. -/
inductive Reading (flags : Flags) (part : List Token) : Matcher → Prop
  | any (hwild : part.all isWildcard = true) : Reading flags part any
  | range {r : Matcher} (hwild : part.all isWildcard = false)
      (hrange : readRange? (Token.print part) = some r) : Reading flags part r
  | pattern {p : Pattern} (hwild : part.all isWildcard = false)
      (hrange : readRange? (Token.print part) = none)
      (hcond : flags.isEmpty = false ∨ ∃ t ∈ part, t.Special)
      (hp : Pattern.compile flags part = .ok p) : Reading flags part (pattern p)
  | literal (hwild : part.all isWildcard = false)
      (hrange : readRange? (Token.print part) = none) (hempty : flags.isEmpty = true)
      (hplain : ∀ t ∈ part, ¬ t.Special) :
      Reading flags part (literal (String.ofList (part.map Token.char)))

theorem ofTokens_eq_ok_iff {flags : Flags} {part : List Token} {m : Matcher} :
    ofTokens flags part = .ok m ↔ Reading flags part m := by
  have hspecial : (!flags.isEmpty || part.any isSpecial) = true ↔
      flags.isEmpty = false ∨ ∃ t ∈ part, t.Special := by
    simp [isSpecial_iff]
  constructor
  · intro h
    unfold ofTokens at h
    split at h
    · rename_i hwild
      cases h
      exact .any hwild
    rename_i hwild
    have hwild : part.all isWildcard = false := eq_false_of_ne_true hwild
    split at h
    · rename_i r hrange
      cases h
      exact .range hwild hrange
    rename_i hrange
    split at h
    · rename_i hcond
      cases hp : Pattern.compile flags part with
      | error fault =>
          rw [hp] at h
          cases h
      | ok p =>
          rw [hp] at h
          cases h
          exact .pattern hwild hrange (hspecial.mp hcond) hp
    · rename_i hcond
      obtain ⟨hempty, hplain⟩ := not_or.mp (mt hspecial.mpr hcond)
      cases h
      exact .literal hwild hrange (by simpa using hempty) (by simpa using hplain)
  · intro h
    cases h with
    | any hwild => rw [ofTokens, if_pos hwild]
    | range hwild hrange => simp only [ofTokens, hwild, hrange, Bool.false_eq_true, if_false]
    | pattern hwild hrange hcond hp =>
        simp only [ofTokens, hwild, hrange, Bool.false_eq_true, if_false,
          if_pos (hspecial.mpr hcond), hp]
        rfl
    | literal hwild hrange hempty hplain =>
        have hcond : ¬ (!flags.isEmpty || part.any isSpecial) = true := by
          rw [hspecial]
          simpa [hempty] using hplain
        simp only [ofTokens, hwild, hrange, Bool.false_eq_true, if_false, if_neg hcond]

theorem exists_ofTokens_iff (flags : Flags) (part : List Token) :
    (∃ m, ofTokens flags part = .ok m) ↔ Path.PartAccepted (!flags.isEmpty) part := by
  have hwild : part.all isWildcard ↔ ∀ t ∈ part, t.is '*' ∨ t.is '?' := by
    simp [isWildcard]
  rw [Path.PartAccepted, ← hwild, ← isSome_readRange?_iff]
  unfold ofTokens
  split
  · rename_i hall
    exact iff_of_true ⟨_, rfl⟩ (Or.inl hall)
  · rename_i hall
    rw [or_iff_right hall]
    cases hrange : readRange? (Token.print part) with
    | some m => simp
    | none =>
        have hspecial : (!flags.isEmpty || part.any isSpecial) = true ↔
            (!flags.isEmpty) = true ∨ ∃ t ∈ part, t.Special := by
          simp [isSpecial_iff]
        simp only [Option.isSome_none, Bool.false_eq_true, false_or]
        by_cases hcond : !flags.isEmpty || part.any isSpecial
        · rw [if_pos hcond, forall_prop_of_true (hspecial.mp hcond),
            ← Pattern.exists_compile_iff flags]
          cases Pattern.compile flags part <;> simp [Except.map]
        · rw [if_neg hcond]
          exact iff_of_true ⟨_, rfl⟩ fun h => absurd (hspecial.mpr h) hcond

/-- A part whose text is scanned again compiles as it did before: where every escape is closed, this
scan has no error of its own. -/
theorem compile_rescanned {part : List Token} (h : ∀ t ∈ part, t.escaped = false → t.char ≠ '\\')
    (flags : Flags) :
    compile (String.ofList (Token.print part)) flags =
      (ofTokens flags part).mapError fun fault =>
        .malformed (String.ofList (Token.print part)) (String.ofList (Token.print part)) fault := by
  have hscan : Token.scan? (String.ofList (Token.print part)).toList = some part := by
    rw [String.toList_ofList, Token.scan?_print h]
  cases hpart : ofTokens flags part <;> simp only [compile, hscan, hpart] <;> rfl

end Matcher

namespace Flags

theorem exists_add? (f : Flags) {c : Char} (hc : c ∈ ['i', 'm', 'x', 'n']) :
    ∃ g, f.add? c = some g := by
  simp only [List.mem_cons, List.not_mem_nil, or_false] at hc
  rcases hc with rfl | rfl | rfl | rfl <;> exact ⟨_, rfl⟩

theorem mem_of_add? {f g : Flags} {c : Char} (h : f.add? c = some g) :
    c ∈ ['i', 'm', 'x', 'n'] ∧ g.isEmpty = false := by
  unfold add? at h
  split at h <;> cases h <;> simp [isEmpty, BEq.beq]

variable {f g : Flags} {letters : List Char}

theorem exists_foldlM_add? (f : Flags) (h : ∀ c ∈ letters, c ∈ ['i', 'm', 'x', 'n']) :
    ∃ g, letters.foldlM add? f = some g := by
  induction letters generalizing f with
  | nil => exact ⟨f, rfl⟩
  | cons c cs ih =>
      obtain ⟨hc, hcs⟩ := List.forall_mem_cons.mp h
      obtain ⟨g, hg⟩ := exists_add? f hc
      rw [List.foldlM_cons, hg]
      exact ih g hcs

theorem mem_of_foldlM_add? (h : letters.foldlM add? f = some g) :
    (∀ c ∈ letters, c ∈ ['i', 'm', 'x', 'n']) ∧ (letters ≠ [] → g.isEmpty = false) := by
  induction letters generalizing f with
  | nil => simp
  | cons c cs ih =>
      rw [List.foldlM_cons] at h
      obtain ⟨f', hf', hrest⟩ := Option.bind_eq_some_iff.mp h
      obtain ⟨hc, hne⟩ := mem_of_add? hf'
      obtain ⟨hcs, hlater⟩ := ih hrest
      refine ⟨List.forall_mem_cons.mpr ⟨hc, hcs⟩, fun _ => ?_⟩
      by_cases hnil : cs = []
      · subst hnil
        cases hrest
        exact hne
      · exact hlater hnil

/-- Letters name flags if each of them does, and then at least one flag is set. -/
theorem ofLetters?_eq_some (hne : letters ≠ []) (h : ∀ c ∈ letters, c ∈ ['i', 'm', 'x', 'n']) :
    ∃ g, ofLetters? letters = some g ∧ g.isEmpty = false := by
  obtain ⟨g, hg⟩ := exists_foldlM_add? {} h
  exact ⟨g, hg, (mem_of_foldlM_add? hg).2 hne⟩

end Flags

/-- The search from the end finds the last number that passes. -/
theorem find?_reverse_range {P : Nat → Bool} {m i : Nat} (him : i < m) (hi : P i)
    (hlast : ∀ j, i < j → j < m → P j = false) : (List.range m).reverse.find? P = some i := by
  induction m with
  | zero => omega
  | succ m ih =>
      rw [List.range_succ, List.reverse_append, List.reverse_singleton, List.singleton_append]
      by_cases heq : i = m
      · rw [List.find?_cons_of_pos (heq ▸ hi), heq]
      · have hm : ¬ P m := by simp [hlast m (by omega) (by omega)]
        rw [List.find?_cons_of_neg hm]
        exact ih (by omega) fun j hij hj => hlast j hij (by omega)

namespace Path

variable {ts body suffix : List Token} {letters : List Char}

theorem lastDoubleSlash?_append {a b : Token} (ha : a.is '/') (hb : b.is '/')
    (hsuffix : ∀ t ∈ suffix, t.is '/' = false) :
    lastDoubleSlash? (body ++ a :: b :: suffix) = some body.length := by
  apply find?_reverse_range
  · simp
  · simp [ha, hb]
  · intro j hj hlt
    obtain ⟨k, rfl⟩ : ∃ k, j = body.length + 1 + k := ⟨j - (body.length + 1), by omega⟩
    have hk : k < suffix.length := by
      simp only [List.length_append, List.length_cons] at hlt
      omega
    have hnext : (body ++ a :: b :: suffix)[body.length + 1 + k + 1]? = some suffix[k] := by
      rw [List.getElem?_append_right (by omega)]
      have hindex : body.length + 1 + k + 1 - body.length = k + 2 := by omega
      simp [hindex]
    rw [hnext]
    have hslash := hsuffix _ (List.getElem_mem hk)
    split
    · rename_i heq
      cases heq
      rw [hslash, Bool.and_false]
    · rfl

theorem eq_of_lastDoubleSlash? {i : Nat} (h : lastDoubleSlash? ts = some i) :
    ts = ts.take i ++ Token.bare ['/', '/'] ++ ts.drop (i + 2) := by
  have hi := List.find?_some h
  split at hi
  · rename_i a b ha hb
    simp only [Bool.and_eq_true] at hi
    obtain ⟨hlt, ha⟩ := List.getElem?_eq_some_iff.mp ha
    obtain ⟨hlt', hb⟩ := List.getElem?_eq_some_iff.mp hb
    have hdrop : ts.drop i = a :: b :: ts.drop (i + 2) := by
      rw [List.drop_eq_getElem_cons hlt, List.drop_eq_getElem_cons hlt', ha, hb]
    rw [Token.eq_of_is hi.1, Token.eq_of_is hi.2] at hdrop
    rw [List.append_assoc]
    exact (List.take_append_drop i ts).symm.trans (congrArg _ hdrop)
  · cases hi

theorem not_slash_of_flag {c : Char} (hc : c ∈ ['i', 'm', 'x', 'n']) :
    (⟨c, false⟩ : Token).is '/' = false := by
  simp only [List.mem_cons, List.not_mem_nil, or_false] at hc
  rcases hc with rfl | rfl | rfl | rfl <;> rfl

/-- Flags at the end are split off. -/
theorem splitFlags_letters (body : List Token) {flags : Flags} (hne : letters ≠ [])
    (hflags : Flags.ofLetters? letters = some flags) :
    splitFlags (body ++ Token.bare ('/' :: '/' :: letters)) = (body, flags) := by
  have hletters : ∀ c ∈ letters, c ∈ ['i', 'm', 'x', 'n'] := (Flags.mem_of_foldlM_add? hflags).1
  have hlast : lastDoubleSlash? (body ++ Token.bare ('/' :: '/' :: letters)) =
      some body.length := by
    refine lastDoubleSlash?_append rfl rfl fun t ht => ?_
    obtain ⟨c, hc, rfl⟩ := List.mem_map.mp ht
    exact not_slash_of_flag (hletters c hc)
  have hdrop : (body ++ Token.bare ('/' :: '/' :: letters)).drop (body.length + 2) =
      Token.bare letters := by
    rw [← List.drop_drop, List.drop_left]
    rfl
  have htake : (body ++ Token.bare ('/' :: '/' :: letters)).take body.length = body :=
    List.take_left
  have hescaped : (Token.bare letters).any Token.escaped = false := by
    simp [Token.bare]
  have hchars : (Token.bare letters).map Token.char = letters := by
    simp [Token.bare, Function.comp_def]
  have hempty : (Token.bare letters).isEmpty = false := by
    simpa [Token.bare] using hne
  simp only [splitFlags, hlast, hdrop, htake, hescaped, hempty, hchars, hflags, Bool.or_false,
    Bool.false_eq_true, if_false]

theorem splitFlags_append (body : List Token) (hsuffix : FlagSuffix suffix) :
    ∃ flags, splitFlags (body ++ suffix) = (body, flags) ∧ flags.isEmpty = false := by
  obtain ⟨letters, hne, hletters, rfl⟩ := hsuffix
  obtain ⟨flags, hflags, hset⟩ := Flags.ofLetters?_eq_some hne hletters
  exact ⟨flags, splitFlags_letters body hne hflags, hset⟩

/-- What is split off are flags, and otherwise nothing is. -/
theorem splitFlags_cases (ts : List Token) :
    splitFlags ts = (ts, {}) ∨
      ∃ suffix, FlagSuffix suffix ∧ ts = (splitFlags ts).1 ++ suffix := by
  unfold splitFlags
  split
  · exact Or.inl rfl
  · rename_i i hi
    dsimp only
    split
    · exact Or.inl rfl
    · rename_i hplain
      split
      · rename_i flags hflags
        simp only [Bool.or_eq_true, not_or] at hplain
        obtain ⟨hne, hescaped⟩ := hplain
        have hbare : ts.drop (i + 2) = Token.bare ((ts.drop (i + 2)).map Token.char) := by
          rw [Token.bare, List.map_map]
          refine (List.map_id _).symm.trans (List.map_congr_left fun t ht => ?_)
          obtain ⟨c, escaped⟩ := t
          have : escaped = false := by
            by_contra hesc
            exact hescaped (List.any_eq_true.mpr ⟨_, ht, by simpa using hesc⟩)
          rw [this]
          rfl
        refine Or.inr ⟨Token.bare ['/', '/'] ++ ts.drop (i + 2),
          ⟨(ts.drop (i + 2)).map Token.char, by simpa using hne,
            (Flags.mem_of_foldlM_add? hflags).1, ?_⟩, ?_⟩
        · conv_lhs => rw [hbare]
          rfl
        · rw [← List.append_assoc]
          exact eq_of_lastDoubleSlash? hi
      · exact Or.inl rfl

theorem withoutFlags_iff {flagged : Bool} :
    WithoutFlags ts body flagged ↔
      (splitFlags ts).1 = body ∧ (!(splitFlags ts).2.isEmpty) = flagged := by
  constructor
  · rintro (⟨rfl, hsuffix⟩ | hplain)
    · obtain ⟨flags, hsplit, hset⟩ := splitFlags_append _ hsuffix
      rw [hsplit, hset]
      exact ⟨rfl, rfl⟩
    · rcases splitFlags_cases ts with hsplit | ⟨suffix, hsuffix, hts⟩
      · rw [hsplit]
        exact ⟨rfl, rfl⟩
      · exact absurd hsuffix (hplain suffix ⟨_, hts.symm⟩)
  · rintro ⟨rfl, rfl⟩
    rcases splitFlags_cases ts with hsplit | ⟨suffix, hsuffix, hts⟩
    · rw [hsplit]
      refine .plain fun suffix hsuffix hflags => ?_
      obtain ⟨body, rfl⟩ := hsuffix
      obtain ⟨flags, hsplit', hset⟩ := splitFlags_append body hflags
      rw [hsplit] at hsplit'
      rw [← (Prod.mk.inj hsplit').2] at hset
      cases hset
    · obtain ⟨flags, hsplit, hset⟩ := splitFlags_append (splitFlags ts).1 hsuffix
      rw [← hts] at hsplit
      have hflagged : (!(splitFlags ts).2.isEmpty) = true := by
        rw [hsplit, hset]
        rfl
      rw [hflagged]
      exact .flagged hts hsuffix

theorem dropLeading_eq_iff {rest : List Token} :
    dropLeading ts = rest ↔
      ts = ⟨'/', false⟩ :: rest ∨ ts = rest ∧ rest.head? ≠ some ⟨'/', false⟩ := by
  cases ts with
  | nil =>
      change [] = rest ↔ _
      grind
  | cons t ts =>
      by_cases ht : t.is '/'
      · rw [dropLeading, if_pos ht, Token.eq_of_is ht]
        grind
      · have hne : t ≠ ⟨'/', false⟩ := by
          rintro rfl
          exact ht rfl
        rw [dropLeading, if_neg ht]
        grind

theorem dropTrailing_eq_iff {inner : List Token} :
    dropTrailing ts = inner ↔
      ts = inner ++ [⟨'/', false⟩] ∨ ts = inner ∧ ts.getLast? ≠ some ⟨'/', false⟩ := by
  rcases List.eq_nil_or_concat ts with rfl | ⟨us, t, rfl⟩
  · change [] = inner ↔ _
    grind
  · rw [dropTrailing, List.concat_eq_append, List.getLast?_concat, List.dropLast_concat]
    by_cases ht : t.is '/'
    · dsimp only
      rw [if_pos ht, Token.eq_of_is ht]
      constructor
      · rintro rfl
        exact Or.inl rfl
      · rintro (h | ⟨-, h⟩)
        · exact List.append_cancel_right h
        · exact absurd rfl h
    · have hne : t ≠ ⟨'/', false⟩ := by
        rintro rfl
        exact ht rfl
      dsimp only
      rw [if_neg ht]
      constructor
      · exact fun h => Or.inr ⟨h, by simpa using hne⟩
      · rintro (h | ⟨h, -⟩)
        · exact absurd (List.cons.inj (List.append_inj' h rfl).2).1 hne
        · exact h

theorem trimSlashes_eq_iff {inner : List Token} :
    trimSlashes body = inner ↔ WithoutSlashes body inner := by
  rw [trimSlashes, dropTrailing_eq_iff, WithoutSlashes]
  simp only [← dropLeading_eq_iff, exists_eq_left']

end Path

end PathRules
