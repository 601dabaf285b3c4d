import Mathlib.Logic.Basic
import Mathlib.Tactic.SplitIfs
import PathRules.Toml.Quoted

/-!
# Quoted strings are read back

Each of the four kinds of strings is closed by quotes, and the text before them must not close it
too early. On one line the text has no such quote, or it is escaped. Over many lines up to two
quotes in a row are part of the text, so the reader is followed with the quotes that are pending:
the next character is no quote and the pending ones stand for themselves, or it is one more, and the
writer leaves it as it is only up to two. At the end the pending quotes and the three that close the
string are told apart by their number, as long as no further quote follows.
-/

namespace PathRules.Toml

variable {c e : Char} {cs rest : List Char}

theorem ne_of_isPlain (h : isPlain c) : c ≠ '\n' ∧ c ≠ '\r' := by
  constructor <;> rintro rfl <;> cases h

theorem toNat_lt_of_not_isPlain (h : isPlain c = false) : c.toNat < 128 := by
  simp only [isPlain, Bool.or_eq_false_iff, Bool.and_eq_false_iff, decide_eq_false_iff_not,
    bne_eq_false_iff_eq] at h
  omega

section Escapes

/-- A short escape is no number and does not end its line. -/
theorem ne_of_shortEscape? (h : shortEscape? e = some c) :
    e ≠ 'u' ∧ e ≠ 'U' ∧ e ≠ ' ' ∧ e ≠ '\t' ∧ e ≠ '\n' ∧ e ≠ '\r' := by
  refine ⟨?_, ?_, ?_, ?_, ?_, ?_⟩
  all_goals
    rintro rfl
    cases h

theorem readScalar?_upperHex : ∀ n < 128,
    readScalar? ['0', '0', upperHex (n / 16), upperHex n] = some (Char.ofNat n) := by
  decide +kernel

/-- A character is written as a short escape, as itself, or with its number. -/
theorem escapeChar_cases (c : Char) :
    (∃ e, escapeChar c = ['\\', e] ∧ shortEscape? e = some c) ∨
    (escapeChar c = [c] ∧ isPlain c ∧ c ≠ '\\') ∨
    ∃ h l, escapeChar c = ['\\', 'u', '0', '0', h, l] ∧
      readScalar? ['0', '0', h, l] = some c := by
  rw [escapeChar]
  split_ifs with hslash hb ht hn hf hr hplain
  · exact .inl ⟨'\\', rfl, by rw [hslash]; rfl⟩
  · exact .inl ⟨'b', rfl, by rw [hb]; rfl⟩
  · exact .inl ⟨'t', rfl, by rw [ht]; rfl⟩
  · exact .inl ⟨'n', rfl, by rw [hn]; rfl⟩
  · exact .inl ⟨'f', rfl, by rw [hf]; rfl⟩
  · exact .inl ⟨'r', rfl, by rw [hr]; rfl⟩
  · exact .inr (.inl ⟨rfl, hplain, hslash⟩)
  · have hlt := toNat_lt_of_not_isPlain (eq_false_of_ne_true hplain)
    refine .inr (.inr ⟨_, _, rfl, ?_⟩)
    rw [readScalar?_upperHex _ hlt, Char.ofNat_toNat]

/-- What is written for a character other than a quote begins with no quote and no line break. -/
theorem escapeChar_head (hquote : c ≠ '"') :
    ∃ d ds, escapeChar c = d :: ds ∧ d ≠ '"' ∧ d ≠ '\n' ∧ d ≠ '\r' := by
  obtain ⟨e, h, -⟩ | ⟨h, hplain, -⟩ | ⟨a, b, h, -⟩ := escapeChar_cases c
  · exact ⟨_, _, h, by decide, by decide, by decide⟩
  · exact ⟨_, _, h, hquote, ne_of_isPlain hplain⟩
  · exact ⟨_, _, h, by decide, by decide, by decide⟩

/-- What the two readers of strings with escapes have in common. -/
structure ReadsEscapes (read : List Char → Option (List Char × List Char)) : Prop where
  short : ∀ {e c}, shortEscape? e = some c → ∀ cs, read ('\\' :: e :: cs) = consText c (read cs)
  plain : ∀ {c}, isPlain c → c ≠ '"' → c ≠ '\\' → ∀ cs, read (c :: cs) = consText c (read cs)
  number : ∀ {a b d e c}, readScalar? [a, b, d, e] = some c → ∀ cs,
    read ('\\' :: 'u' :: a :: b :: d :: e :: cs) = consText c (read cs)

theorem ReadsEscapes.read_escapeChar {read : List Char → Option (List Char × List Char)}
    (h : ReadsEscapes read) (hquote : c ≠ '"') (cs : List Char) :
    read (escapeChar c ++ cs) = consText c (read cs) := by
  obtain ⟨e, hchar, hread⟩ | ⟨hchar, hplain, hslash⟩ | ⟨a, b, hchar, hread⟩ := escapeChar_cases c
  · rw [hchar]
    exact h.short hread cs
  · rw [hchar]
    exact h.plain hplain hquote hslash cs
  · rw [hchar]
    exact h.number hread cs

end Escapes

section OneLine

theorem readsEscapes_readBasic? : ReadsEscapes readBasic? where
  short h cs := by
    obtain ⟨hu, hU, -⟩ := ne_of_shortEscape? h
    rw [readBasic?]
    · rw [h, Option.bind_some]
    all_goals grind
  plain hplain hquote hslash cs := by
    rw [readBasic?]
    · simp [hplain, hslash]
    all_goals grind
  number h cs := by rw [readBasic?, h, Option.bind_some]

theorem readBasic?_escapeText (cs rest : List Char) :
    readBasic? (escapeText false 0 0 cs ++ '"' :: rest) = some (cs, rest) := by
  induction cs with
  | nil => rfl
  | cons c cs ih =>
      by_cases hquote : c = '"'
      · subst hquote
        have hread := readsEscapes_readBasic?.short (e := '"') rfl
          (escapeText false 0 0 cs ++ '"' :: rest)
        rw [ih] at hread
        exact hread
      · rw [escapeText, if_neg hquote, Bool.false_and, if_neg Bool.false_ne_true,
          List.append_assoc, readsEscapes_readBasic?.read_escapeChar hquote, ih]
        rfl

theorem readLiteral?_append (h : ∀ c ∈ cs, isPlain c ∧ c ≠ '\'') :
    readLiteral? (cs ++ '\'' :: rest) = some (cs, rest) := by
  induction cs with
  | nil => rfl
  | cons c cs ih =>
      obtain ⟨⟨hplain, hquote⟩, hcs⟩ := List.forall_mem_cons.mp h
      rw [List.cons_append, readLiteral?, if_pos hplain, ih hcs]
      · rfl
      · exact hquote

end OneLine

section ManyLines

/-- What the two readers of strings over many lines have in common. -/
structure ClosedByThree (quote : Char) (read : List Char → Option (List Char × List Char)) :
    Prop where
  five : ∀ cs, read (quote :: quote :: quote :: quote :: quote :: cs) = some ([quote, quote], cs)
  four : ∀ {cs}, cs.head? ≠ some quote →
    read (quote :: quote :: quote :: quote :: cs) = some ([quote], cs)
  three : ∀ {cs}, cs.head? ≠ some quote → read (quote :: quote :: quote :: cs) = some ([], cs)
  pending : ∀ {cs}, cs.head? ≠ some quote → read (quote :: cs) = consText quote (read cs)
  twoPending : ∀ {cs}, cs.head? ≠ some quote →
    read (quote :: quote :: cs) = consText quote (read (quote :: cs))

/-- Texts and what is written for them, after some quotes in a row. Quotes are left as they are up
to two in a row. What is written for other characters does not begin with a quote. -/
inductive Written (quote : Char) (read : List Char → Option (List Char × List Char)) :
    Nat → List Char → List Char → Prop
  | nil (run : Nat) : Written quote read run [] []
  | quote {run : Nat} {cs ds : List Char} (hrun : run < 2)
      (h : Written quote read (run + 1) cs ds) :
      Written quote read run (quote :: cs) (quote :: ds)
  | spelled {run : Nat} {c d : Char} {word cs ds : List Char} (hhead : d ≠ quote)
      (hread : ∀ rest, read (d :: word ++ rest) = consText c (read rest))
      (h : Written quote read 0 cs ds) :
      Written quote read run (c :: cs) (d :: word ++ ds)

variable {quote : Char} {read : List Char → Option (List Char × List Char)}

theorem ClosedByThree.read_replicate (h : ClosedByThree quote read) {run : Nat} (hrun : run ≤ 2)
    (hcs : cs.head? ≠ some quote) {text : List Char} (hread : read cs = some (text, rest)) :
    read (List.replicate run quote ++ cs) = some (List.replicate run quote ++ text, rest) := by
  have hone : read (quote :: cs) = some (quote :: text, rest) := by
    rw [h.pending hcs, hread]
    rfl
  obtain rfl | rfl | rfl : run = 0 ∨ run = 1 ∨ run = 2 := by omega
  · exact hread
  · exact hone
  · exact (h.twoPending hcs).trans (by rw [hone]; rfl)

theorem ClosedByThree.read_close (h : ClosedByThree quote read) {run : Nat} (hrun : run ≤ 2)
    (hrest : rest.head? ≠ some quote) :
    read (List.replicate run quote ++ [quote, quote, quote] ++ rest) =
      some (List.replicate run quote, rest) := by
  obtain rfl | rfl | rfl : run = 0 ∨ run = 1 ∨ run = 2 := by omega
  · exact h.three hrest
  · exact h.four hrest
  · exact h.five rest

/-- The reader undoes what was written, with the quotes that are pending. -/
theorem Written.read_eq (hclosed : ClosedByThree quote read) {run : Nat} {ds : List Char}
    (h : Written quote read run cs ds) (hrun : run ≤ 2) (hrest : rest.head? ≠ some quote) :
    read (List.replicate run quote ++ (ds ++ ([quote, quote, quote] ++ rest))) =
      some (List.replicate run quote ++ cs, rest) := by
  induction h with
  | nil run =>
      rw [List.nil_append, List.append_nil, ← List.append_assoc, hclosed.read_close hrun hrest]
  | @quote run cs ds hlt _ ih =>
      have hcons : ∀ es, List.replicate run quote ++ quote :: es =
          List.replicate (run + 1) quote ++ es := by simp [List.replicate_succ']
      rw [List.cons_append, hcons, hcons, ih hlt]
  | @spelled run c d word cs ds hhead hread _ ih =>
      have hrest : read (ds ++ ([quote, quote, quote] ++ rest)) = some (cs, rest) := ih (by omega)
      rw [List.append_assoc]
      refine hclosed.read_replicate hrun (by simpa using hhead) ?_
      rw [hread, hrest]
      rfl

theorem readsEscapes_readLongBasic? : ReadsEscapes (readLongBasic? false) where
  short {e c} h cs := by
    obtain ⟨hu, hU, hspace, htab, hfeed, hreturn⟩ := ne_of_shortEscape? h
    have hbreak : blankToBreak (e :: cs) = false := by
      simp [blankToBreak, skipBlanks, isBlank, hspace, htab, breakAt?, hfeed, hreturn]
    rw [readLongBasic?]
    · rw [hbreak, if_neg Bool.false_ne_true, h, Option.bind_some]
    all_goals grind
  plain hplain hquote hslash cs := by
    obtain ⟨hfeed, hreturn⟩ := ne_of_isPlain hplain
    rw [readLongBasic?]
    · simp [hplain, hslash]
    all_goals grind
  number h cs := by rw [readLongBasic?, h, Option.bind_some]

theorem closedByThree_readLongBasic? : ClosedByThree '"' (readLongBasic? false) where
  five _ := rfl
  four h := by
    rw [readLongBasic?]
    grind
  three h := by
    rw [readLongBasic?]
    all_goals grind
  pending h := by
    rw [readLongBasic?]
    · rfl
    all_goals grind
  twoPending h := by
    rw [readLongBasic?]
    · rfl
    all_goals grind

theorem closedByThree_readLongLiteral? : ClosedByThree '\'' readLongLiteral? where
  five _ := rfl
  four h := by
    rw [readLongLiteral?]
    grind
  three h := by
    rw [readLongLiteral?]
    all_goals grind
  pending h := by
    rw [readLongLiteral?]
    · rfl
    all_goals grind
  twoPending h := by
    rw [readLongLiteral?]
    · rfl
    all_goals grind

theorem written_escapeText (run : Nat) (cs : List Char) :
    Written '"' (readLongBasic? false) run cs (escapeText true 2 run cs) := by
  induction cs generalizing run with
  | nil => exact .nil run
  | cons c cs ih =>
      by_cases hquote : c = '"'
      · subst hquote
        by_cases hrun : run < 2
        · rw [escapeText, if_pos rfl, if_pos hrun]
          exact .quote hrun (ih (run + 1))
        · have hread := readsEscapes_readLongBasic?.short (e := '"') rfl
          rw [escapeText, if_pos rfl, if_neg hrun]
          change Written _ _ _ _ ('\\' :: ['"'] ++ _)
          exact .spelled (by decide) hread (ih 0)
      · rw [escapeText, if_neg hquote, Bool.true_and]
        by_cases hfeed : c = '\n'
        · subst hfeed
          change Written _ _ _ _ ('\n' :: [] ++ _)
          exact .spelled (by decide) (fun _ => rfl) (ih 0)
        · rw [if_neg (by simpa using hfeed)]
          obtain ⟨d, ds, h, hhead, -⟩ := escapeChar_head hquote
          rw [h]
          refine .spelled hhead (fun rest => ?_) (ih 0)
          rw [← h, readsEscapes_readLongBasic?.read_escapeChar hquote]

/-- Whether no run of a character grows longer than two, with a run under way. -/
def RunsFit (c : Char) : Nat → List Char → Prop
  | _, [] => True
  | run, d :: ds => if d = c then run < 2 ∧ RunsFit c (run + 1) ds else RunsFit c 0 ds

theorem runsFit_of_longestRun (best : Nat) {run : Nat}
    (h : (cs.foldl (fun (best, run) d =>
      let run := if d = c then run + 1 else 0
      (max best run, run)) (best, run)).1 ≤ 2) : best ≤ 2 ∧ RunsFit c run cs := by
  induction cs generalizing best run with
  | nil => exact ⟨h, trivial⟩
  | cons d ds ih =>
      obtain ⟨hbest, hfit⟩ := ih _ h
      rw [RunsFit]
      split_ifs at hbest hfit ⊢ with hd
      · exact ⟨by omega, by omega, hfit⟩
      · exact ⟨by omega, hfit⟩

theorem readLongLiteral?_plain (hplain : isPlain c) (hquote : c ≠ '\'') (cs : List Char) :
    readLongLiteral? (c :: cs) = consText c (readLongLiteral? cs) := by
  obtain ⟨hfeed, hreturn⟩ := ne_of_isPlain hplain
  rw [readLongLiteral?]
  · rw [if_pos hplain]
  all_goals grind

theorem written_self {run : Nat} (hall : ∀ c ∈ cs, needsEscape c = false)
    (hrun : RunsFit '\'' run cs) : Written '\'' readLongLiteral? run cs cs := by
  induction cs generalizing run with
  | nil => exact .nil run
  | cons c cs ih =>
      obtain ⟨hc, hcs⟩ := List.forall_mem_cons.mp hall
      rw [RunsFit] at hrun
      split_ifs at hrun with hquote
      · subst hquote
        exact .quote hrun.1 (ih hcs hrun.2)
      · change Written _ _ _ _ (c :: [] ++ cs)
        refine .spelled hquote ?_ (ih hcs hrun)
        by_cases hfeed : c = '\n'
        · subst hfeed
          exact fun _ => rfl
        · have hplain : isPlain c := by simpa [needsEscape, hfeed] using hc
          exact readLongLiteral?_plain hplain hquote

end ManyLines

section Kinds

/-- The line break after the opening is dropped again, and a text without line breaks has none
there. -/
theorem dropBreak_opening {ds : List Char}
    (h : '\n' ∉ cs → ∀ d ∈ ds.head?, d ≠ '\n' ∧ d ≠ '\r') : dropBreak (opening cs ++ ds) = ds := by
  by_cases hfeed : '\n' ∈ cs
  · rw [opening, if_pos (List.contains_iff_mem.mpr hfeed)]
    rfl
  · rw [opening, if_neg (mt List.contains_iff_mem.mp hfeed), List.nil_append, dropBreak]
    cases ds with
    | nil => rfl
    | cons d ds =>
        obtain ⟨hd, hr⟩ := h hfeed d rfl
        rw [breakAt?, Option.getD_none]
        · exact fun _ heq => hd (List.cons.inj heq).1
        · exact fun _ heq => hr (List.cons.inj heq).1

theorem QuoteStyle.literal_spec (h : ofText cs = .literal) : ∀ c ∈ cs, isPlain c ∧ c ≠ '\'' := by
  rw [ofText] at h
  split_ifs at h with hbasic hliteral
  simp only [Bool.and_eq_true, Bool.not_eq_true', List.any_eq_false, List.contains_eq_mem,
    decide_eq_false_iff_not] at hliteral
  obtain ⟨⟨hcoded, hquote⟩, hfeed⟩ := hliteral
  intro c hc
  have hneeds := hcoded c hc
  rw [needsEscape, Bool.and_eq_true, not_and_or, Bool.not_eq_true', Bool.not_eq_false,
    bne_iff_ne, not_not] at hneeds
  exact ⟨hneeds.resolve_right (fun heq => hfeed (heq ▸ hc)), fun heq => hquote (heq ▸ hc)⟩

theorem QuoteStyle.longLiteral_spec (h : ofText cs = .longLiteral) :
    (∀ c ∈ cs, needsEscape c = false) ∧ RunsFit '\'' 0 cs := by
  rw [ofText] at h
  split_ifs at h with hbasic hliteral hlong hlongLiteral
  simp only [Bool.and_eq_true, Bool.not_eq_true', List.any_eq_false, Bool.not_eq_true,
    decide_eq_true_eq] at hlongLiteral
  exact ⟨hlongLiteral.1, (runsFit_of_longestRun 0 hlongLiteral.2).2⟩

theorem append_quote_ne {quote : Char} {ds : List Char} (hds : ds.head? ≠ some quote)
    (hrest : rest.head? ≠ some quote) (es : List Char) :
    ds ++ quote :: rest ≠ quote :: quote :: es := by
  cases ds with
  | nil =>
      intro heq
      exact hrest (by rw [(List.cons.inj heq).2]; rfl)
  | cons d ds =>
      intro heq
      exact hds (by rw [(List.cons.inj heq).1]; rfl)

theorem escapeText_head (long : Bool) (room : Nat) (c : Char) (cs : List Char) :
    ∃ d ds, escapeText long room 0 (c :: cs) = d :: ds ∧
      (room = 0 → d ≠ '"') ∧ (c ≠ '\n' → d ≠ '\n' ∧ d ≠ '\r') := by
  rw [escapeText]
  split_ifs with hquote hroom hfeed
  · exact ⟨_, _, rfl, by omega, fun _ => by decide⟩
  · exact ⟨_, _, rfl, fun _ => by decide, fun _ => by decide⟩
  · rw [Bool.and_eq_true, decide_eq_true_eq] at hfeed
    exact ⟨_, _, rfl, fun _ => by decide, fun h => absurd hfeed.2 h⟩
  · obtain ⟨d, ds, h, hd⟩ := escapeChar_head hquote
    exact ⟨d, ds ++ escapeText long room 0 cs, by rw [h]; rfl, fun _ => hd.1, fun _ => hd.2⟩

section

variable (hdouble : rest.head? ≠ some '"')
include hdouble

theorem readString?_basic (cs : List Char) :
    readString? ('"' :: escapeText false 0 0 cs ++ ['"'] ++ rest) = some (cs, rest) := by
  have hhead : (escapeText false 0 0 cs).head? ≠ some '"' := by
    cases cs with
    | nil => nofun
    | cons c cs =>
        obtain ⟨d, ds, h, hd, -⟩ := escapeText_head false 0 c cs
        rw [h]
        exact fun heq => hd rfl (Option.some.inj heq)
  rw [List.append_assoc, List.singleton_append, List.cons_append, readString?,
    readBasic?_escapeText]
  exact append_quote_ne hhead hdouble

theorem readString?_longBasic (cs : List Char) :
    readString? (['"', '"', '"'] ++ opening cs ++ escapeText true 2 0 cs ++ ['"', '"', '"'] ++
      rest) = some (cs, rest) := by
  have hread := (written_escapeText 0 cs).read_eq closedByThree_readLongBasic? (by omega) hdouble
  have hhead : '\n' ∉ cs → ∀ d ∈ (escapeText true 2 0 cs ++ (['"', '"', '"'] ++ rest)).head?,
      d ≠ '\n' ∧ d ≠ '\r' := by
    intro hfeed e he
    cases cs with
    | nil =>
        cases he
        decide
    | cons c cs =>
        obtain ⟨d, ds, h, -, hd⟩ := escapeText_head true 2 c cs
        rw [h] at he
        cases he
        exact hd fun heq => hfeed (by simp [heq])
  simp only [List.append_assoc]
  change readLongBasic? false (dropBreak (opening cs ++ _)) = _
  rw [dropBreak_opening hhead]
  exact hread

end

section

variable (hsingle : rest.head? ≠ some '\'')
include hsingle

theorem readString?_literal (hall : ∀ c ∈ cs, isPlain c ∧ c ≠ '\'') :
    readString? ('\'' :: cs ++ ['\''] ++ rest) = some (cs, rest) := by
  have hhead : cs.head? ≠ some '\'' := fun h => (hall _ (List.mem_of_head? h)).2 rfl
  rw [List.append_assoc, List.singleton_append, List.cons_append, readString?,
    readLiteral?_append hall]
  exact append_quote_ne hhead hsingle

theorem readString?_longLiteral (hall : ∀ c ∈ cs, needsEscape c = false)
    (hruns : RunsFit '\'' 0 cs) :
    readString? (['\'', '\'', '\''] ++ opening cs ++ cs ++ ['\'', '\'', '\''] ++ rest) =
      some (cs, rest) := by
  have hread := (written_self hall hruns).read_eq closedByThree_readLongLiteral? (by omega) hsingle
  have hhead : '\n' ∉ cs → ∀ d ∈ (cs ++ (['\'', '\'', '\''] ++ rest)).head?,
      d ≠ '\n' ∧ d ≠ '\r' := by
    intro hfeed d hd
    cases cs with
    | nil =>
        cases hd
        decide
    | cons c cs =>
        cases hd
        have hd : d ≠ '\n' := fun heq => hfeed (by simp [heq])
        have hplain : isPlain d := by simpa [needsEscape, hd] using hall d List.mem_cons_self
        exact ne_of_isPlain hplain
  simp only [List.append_assoc]
  change readLongLiteral? (dropBreak (opening cs ++ _)) = _
  rw [dropBreak_opening hhead]
  exact hread

end

theorem readString?_quote (cs : List Char) (hrest : ∀ d ∈ rest.head?, d ≠ '"' ∧ d ≠ '\'') :
    readString? (quote cs ++ rest) = some (cs, rest) := by
  have hdouble : rest.head? ≠ some '"' := fun h => (hrest _ h).1 rfl
  have hsingle : rest.head? ≠ some '\'' := fun h => (hrest _ h).2 rfl
  rw [quote]
  cases hstyle : QuoteStyle.ofText cs with
  | basic => exact readString?_basic hdouble cs
  | longBasic => exact readString?_longBasic hdouble cs
  | literal => exact readString?_literal hsingle (QuoteStyle.literal_spec hstyle)
  | longLiteral =>
      obtain ⟨hall, hruns⟩ := QuoteStyle.longLiteral_spec hstyle
      exact readString?_longLiteral hsingle hall hruns

end Kinds

end PathRules.Toml
