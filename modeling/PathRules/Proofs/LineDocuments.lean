import PathRules.Proofs.PrintedJson

/-!
# Documents of one value a line

A document of lines is read line by line: the values of the lines that are not blank make a
sequence, and the first of these lines that is no JSON makes the failure. When the format has to be
found out, the text is tried as one JSON value before it is tried as lines, so lines are found only
if the text as a whole is no JSON. This follows from what the reader is after the first value: once
a value is complete and its line has ended, the grammar takes no further token, and blanks are all
that may follow. Whatever else stands on a later line takes the reader out of the gap, and it never
comes back to it.
-/

namespace PathRules

theorem Failure.message_ofCause (cause : Cause) : (ofCause cause).message = cause.message := by
  have hlayers : (ofCause cause).layers = [cause.message] := rfl
  rw [message, hlayers, String.intercalate_singleton]

namespace Text

theorem lines_nil : lines [] = [] := rfl

theorem lines_last {line : List Char} (hline : '\n' ∉ line) (hne : line ≠ []) :
    lines line = [line] := by
  have hsplit : line.splitOnP (· == '\n') = [line] :=
    List.splitOnP_eq_singleton fun c hc => by
      simpa using ne_of_mem_of_not_mem hc hline
  obtain ⟨c, cs, rfl⟩ := List.exists_cons_of_ne_nil hne
  simp [lines, hsplit]

theorem lines_cons {line : List Char} (hline : '\n' ∉ line) (rest : List Char) :
    lines (line ++ '\n' :: rest) = dropReturn line :: lines rest := by
  have hsplit : (line ++ '\n' :: rest).splitOnP (· == '\n') =
      line :: rest.splitOnP (· == '\n') :=
    List.splitOnP_append_cons_of_forall_mem
      (fun c hc => by simpa using ne_of_mem_of_not_mem hc hline) '\n' rfl rest
  obtain ⟨part, parts, hparts⟩ :=
    List.exists_cons_of_ne_nil (List.splitOnP_ne_nil (· == '\n') rest)
  simp only [lines, hsplit, hparts]
  rw [List.dropLast_cons_of_ne_nil (List.cons_ne_nil _ _), List.getLast?_cons_cons, List.map_cons]
  split <;> rfl

/-- A text is empty, or one line without an ending, or goes on after the ending of a line. -/
@[elab_as_elim]
theorem lineInduction {motive : List Char → Prop} (nil : motive [])
    (last : ∀ line, '\n' ∉ line → line ≠ [] → motive line)
    (cons : ∀ line rest, '\n' ∉ line → motive rest → motive (line ++ '\n' :: rest))
    (cs : List Char) : motive cs := by
  induction hlength : cs.length using Nat.strongRecOn generalizing cs with
  | ind n ih =>
      by_cases hbreak : '\n' ∈ cs
      · obtain ⟨line, rest, rfl, hline⟩ := List.eq_append_cons_of_mem hbreak
        refine cons line rest hline (ih rest.length ?_ rest rfl)
        rw [← hlength, List.length_append, List.length_cons]
        omega
      · by_cases hne : cs = []
        · rw [hne]
          exact nil
        · exact last cs hbreak hne

theorem exists_eq_dropReturn (line : List Char) :
    ∃ ending, (∀ c ∈ ending, c = '\r') ∧ line = dropReturn line ++ ending := by
  rw [dropReturn]
  split
  · next hlast =>
      obtain ⟨front, rfl⟩ := List.getLast?_eq_some_iff.mp hlast
      exact ⟨['\r'], by simp, by simp⟩
  · exact ⟨[], by simp, by simp⟩

end Text

namespace Json.Reader

variable {r : Reader} {g : Grammar} {v : Value} {c : Char} {cs : List Char}

theorem toNat_of_isAlphanum (h : c.isAlphanum) : 0x30 ≤ c.toNat ∧ c.toNat ≤ 0x7A := by
  have hranges : (decide (65 ≤ c.val ∧ c.val ≤ 90) ||
      (decide (97 ≤ c.val) && decide (c.val ≤ 122)) ||
      (decide (48 ≤ c.val) && decide (c.val ≤ 57))) = true := h
  simp only [Bool.or_eq_true, Bool.and_eq_true, decide_eq_true_eq, UInt32.le_iff_toNat_le]
    at hranges
  rw [Char.toNat]
  simp only [UInt32.reduceToNat] at hranges
  omega

theorem toNat_of_isWordChar (h : isWordChar c) : 0x21 ≤ c.toNat ∧ c.toNat ≤ 0x7E := by
  simp only [isWordChar, Bool.or_eq_true, beq_iff_eq] at h
  rcases h with ((halphanum | rfl) | rfl) | rfl
  · have hrange := toNat_of_isAlphanum halphanum
    omega
  all_goals decide

theorem stepGap_of_toNat (hspace : isSpace c = false) (hc : c.toNat < 0x21 ∨ 0x7E < c.toNat)
    (g : Grammar) : stepGap g c = none := by
  have hword : isWordChar c = false := by
    rw [Bool.eq_false_iff]
    intro hword
    have hrange := toNat_of_isWordChar hword
    omega
  have hne : ∀ d : Char, 0x21 ≤ d.toNat → d.toNat ≤ 0x7E → c ≠ d := by
    rintro d hlow hhigh rfl
    omega
  simp [stepGap, hspace, hword, hne]

theorem isBlank_of_isSpace (h : isSpace c) : Text.isBlank c := by
  simp only [isSpace, Bool.or_eq_true, beq_iff_eq] at h
  rcases h with ((rfl | rfl) | rfl) | rfl <;> decide

/-- Of the blanks only those of JSON are passed over where no word or string is open. -/
theorem feed_isBlank (hcs : ∀ c ∈ cs, Text.isBlank c) (h : feed ⟨.gap, g⟩ cs = some r) :
    r = ⟨.gap, g⟩ := by
  induction cs with
  | nil => exact (Option.some.inj h).symm
  | cons c cs ih =>
      obtain ⟨hc, hcs⟩ := List.forall_mem_cons.mp hcs
      cases hspace : isSpace c with
      | false =>
          have hrange : c.toNat < 0x21 ∨ 0x7E < c.toNat := by
            simp only [Text.isBlank, Bool.or_eq_true, decide_eq_true_eq, Bool.and_eq_true,
              beq_iff_eq] at hc
            omega
          have hnone : step ⟨.gap, g⟩ c = none := stepGap_of_toNat hspace hrange g
          simp [hnone] at h
      | true =>
          have hgap : step ⟨.gap, g⟩ c = some ⟨.gap, g⟩ := by simp [step, stepGap, hspace]
          rw [feed_cons, hgap] at h
          exact ih hcs h

theorem want_of_result? (h : result? g = some v) : g.want = .nothing v := by
  unfold result? at h
  split at h
  · next w hwant => rw [hwant, Option.some.inj h]
  · cases h

theorem exists_settled_of_finish (h : r.finish = some v) :
    ∃ g, r.Settled g ∧ g.want = .nothing v := by
  obtain ⟨mode, g⟩ := r
  cases mode with
  | gap => exact ⟨g, .gap g, want_of_result? h⟩
  | word taken =>
      obtain ⟨g', hend, hresult⟩ := Option.bind_eq_some_iff.mp h
      exact ⟨g', .word hend, want_of_result? hresult⟩
  | _ => cases h

theorem endUnicode_ne_gap (taken : List Char) (high : Option Nat) (value : Nat) :
    endUnicode taken high value ≠ some .gap := by
  unfold endUnicode
  split <;> split_ifs <;> simp

section Complete

variable (hg : g.want = .nothing v)

include hg

theorem push_of_nothing (t : Token) : g.push t = none := by
  simp [Grammar.push, hg]

theorem endWord_of_nothing (taken : List Char) : endWord g taken = none := by
  simp [endWord, push_of_nothing hg]

theorem stepGap_of_nothing (h : stepGap g c = some r) :
    r.grammar = g ∧ (r.mode = .gap → isSpace c) := by
  cases hspace : isSpace c with
  | true =>
      rw [stepGap, if_pos hspace] at h
      cases h
      exact ⟨rfl, fun _ => rfl⟩
  | false =>
      simp only [stepGap, hspace, Bool.false_eq_true, if_false, push, push_of_nothing hg,
        Option.map_none, ite_self] at h
      split_ifs at h <;> cases h <;> exact ⟨rfl, fun hgap => by cases hgap⟩

/-- Once the value is complete no token is taken: a blank leaves the reader in the gap, anything
else leads it into a word or a string, and there it stays. -/
theorem step_of_nothing {mode : Mode} (h : step ⟨mode, g⟩ c = some r) :
    r.grammar = g ∧ (r.mode = .gap → mode = .gap ∧ isSpace c) := by
  cases mode with
  | gap =>
      obtain ⟨hgrammar, hspace⟩ := stepGap_of_nothing hg h
      exact ⟨hgrammar, fun hgap => ⟨rfl, hspace hgap⟩⟩
  | word taken =>
      simp only [step, endWord_of_nothing hg] at h
      split_ifs at h
      · cases h
        exact ⟨rfl, fun hgap => by cases hgap⟩
      · cases h
  | text taken =>
      simp only [step, push, push_of_nothing hg, Option.map_none] at h
      split_ifs at h <;> cases h <;> exact ⟨rfl, fun hgap => by cases hgap⟩
  | escape taken =>
      simp only [step] at h
      split_ifs at h
      · cases h
        exact ⟨rfl, fun hgap => by cases hgap⟩
      · obtain ⟨d, -, rfl⟩ := Option.map_eq_some_iff.mp h
        exact ⟨rfl, fun hgap => by cases hgap⟩
  | unicode taken high value left =>
      obtain ⟨d, -, h⟩ := Option.bind_eq_some_iff.mp h
      split_ifs at h
      · obtain ⟨mode, hmode, h⟩ := Option.bind_eq_some_iff.mp h
        cases h
        refine ⟨rfl, ?_⟩
        rintro rfl
        exact absurd hmode (endUnicode_ne_gap _ _ _)
      · cases h
        exact ⟨rfl, fun hgap => by cases hgap⟩
  | afterHigh taken high =>
      obtain ⟨-, h⟩ := Option.ite_none_right_eq_some.mp h
      cases h
      exact ⟨rfl, fun hgap => by cases hgap⟩
  | escapeAfterHigh taken high =>
      obtain ⟨-, h⟩ := Option.ite_none_right_eq_some.mp h
      cases h
      exact ⟨rfl, fun hgap => by cases hgap⟩

theorem feed_of_nothing {mode : Mode} (h : feed ⟨mode, g⟩ cs = some r) :
    r.grammar = g ∧ (r.mode = .gap → mode = .gap ∧ ∀ c ∈ cs, isSpace c) := by
  induction cs generalizing mode with
  | nil =>
      cases h
      exact ⟨rfl, fun hgap => ⟨hgap, by simp⟩⟩
  | cons c cs ih =>
      obtain ⟨⟨mode', g'⟩, hstep, hfeed⟩ := Option.bind_eq_some_iff.mp h
      obtain ⟨hgrammar, hmode⟩ := step_of_nothing hg hstep
      obtain rfl : g' = g := hgrammar
      obtain ⟨hgrammar, hgap⟩ := ih hfeed
      refine ⟨hgrammar, fun hr => ?_⟩
      obtain ⟨hgap, hcs⟩ := hgap hr
      obtain ⟨hgap, hc⟩ := hmode hgap
      exact ⟨hgap, List.forall_mem_cons.mpr ⟨hc, hcs⟩⟩

/-- Nothing but blanks may follow a complete value. -/
theorem isSpace_of_finish {w : Value} (h : feed ⟨.gap, g⟩ cs = some r)
    (hfinish : r.finish = some w) : ∀ c ∈ cs, isSpace c := by
  obtain ⟨hgrammar, hgap⟩ := feed_of_nothing hg h
  obtain ⟨g', hsettled, -⟩ := exists_settled_of_finish hfinish
  cases hsettled with
  | gap => exact (hgap rfl).2
  | word hend =>
      obtain rfl : _ = g := hgrammar
      rw [endWord_of_nothing hg] at hend
      cases hend

end Complete

end Json.Reader

namespace Json

open Reader

variable {v w : Value} {cs line rest : List Char}

theorem read?_eq_some_iff :
    read? cs = some v ↔ ∃ r, Reader.start.feed cs = some r ∧ r.finish = some v :=
  Option.bind_eq_some_iff

/-- A text that goes on after a value and a line break is a JSON text only if it goes on with
blanks. -/
theorem isSpace_of_read?_append {ending : List Char} (hline : read? line = some v)
    (hending : ∀ c ∈ ending, isSpace c) (hne : ending ≠ [])
    (h : read? (line ++ ending ++ rest) = some w) : ∀ c ∈ rest, isSpace c := by
  obtain ⟨r, hfeed, hfinish⟩ := read?_eq_some_iff.mp hline
  obtain ⟨g, hsettled, hg⟩ := exists_settled_of_finish hfinish
  obtain ⟨r', hfeed', hfinish'⟩ := read?_eq_some_iff.mp h
  obtain ⟨c, cs, rfl⟩ := List.exists_cons_of_ne_nil hne
  obtain ⟨hc, hcs⟩ := List.forall_mem_cons.mp hending
  have hended : Reader.start.feed (line ++ c :: cs) = some ⟨.gap, g⟩ := by
    rw [feed_append, hfeed, Option.bind_some, feed_cons,
      hsettled.step_eq (isWordChar_of_isSpace hc), stepGap, if_pos hc, Option.bind_some,
      feed_blanks hcs]
  rw [feed_append, hended, Option.bind_some] at hfeed'
  exact isSpace_of_finish hg hfeed' hfinish'

theorem read?_blanks_append (hcs : ∀ c ∈ cs, Text.isBlank c) (h : read? (cs ++ rest) = some v) :
    read? rest = some v := by
  obtain ⟨r, hfeed, hfinish⟩ := read?_eq_some_iff.mp h
  rw [feed_append] at hfeed
  obtain ⟨r', hblanks, hfeed⟩ := Option.bind_eq_some_iff.mp hfeed
  rw [feed_isBlank hcs hblanks] at hfeed
  exact read?_eq_some_iff.mpr ⟨r, hfeed, hfinish⟩

end Json

namespace Format

variable {cs : List Char} {ls : List (List Char)} {line : List Char}

/-- A line counts if it holds more than blanks. -/
def counts (line : List Char) : Bool :=
  !line.all Text.isBlank

/-- The lines of a text that count. -/
def countedLines (cs : List Char) : List (List Char) :=
  (Text.lines cs).filter counts

/-- A line that counts and is no JSON. -/
def isFaulty (line : List Char) : Bool :=
  counts line && (Json.read? line).isNone

theorem counts_eq_false_iff : counts line = false ↔ ∀ c ∈ line, Text.isBlank c := by
  simp [counts]

theorem readLines_blank (n : Nat) (h : counts line = false) :
    readLines n (line :: ls) = readLines (n + 1) ls := by
  rw [readLines, if_pos]
  simpa [counts] using h

theorem readLines_value {v : Value} (n : Nat) (h : counts line) (hread : Json.read? line = some v) :
    readLines n (line :: ls) = (readLines (n + 1) ls).map (v :: ·) := by
  rw [readLines, if_neg, hread]
  simpa [counts] using h

theorem readLines_fault (n : Nat) (h : isFaulty line) :
    readLines n (line :: ls) = .error (.invalidLine (n + 1)) := by
  obtain ⟨hcounts, hread⟩ := Bool.and_eq_true_iff.mp h
  rw [readLines, if_neg, Option.isNone_iff_eq_none.mp hread]
  simpa [counts] using hcounts

/-- Whether the values are those of the lines, one after the other. -/
def Hold (ls : List (List Char)) (vs : List Value) : Prop :=
  List.Forall₂ (fun line v => Json.read? line = some v) ls vs

/-- The first line that counts and is no JSON gives the number of the failure; blank lines before
it are counted. -/
theorem readLines_append_fault (n : Nat) {before : List (List Char)} (after : List (List Char))
    (hbefore : ∀ line ∈ before, isFaulty line = false) (hline : isFaulty line) :
    readLines n (before ++ line :: after) = .error (.invalidLine (n + before.length + 1)) := by
  induction before generalizing n with
  | nil => exact readLines_fault n hline
  | cons first before ih =>
      obtain ⟨hfirst, hbefore⟩ := List.forall_mem_cons.mp hbefore
      have hnumber : n + 1 + before.length + 1 = n + (first :: before).length + 1 := by
        rw [List.length_cons]
        omega
      rw [List.cons_append]
      cases hcounts : counts first with
      | false => rw [readLines_blank n hcounts, ih _ hbefore, hnumber]
      | true =>
          obtain ⟨v, hread⟩ : ∃ v, Json.read? first = some v := by
            rw [isFaulty, hcounts, Bool.true_and] at hfirst
            exact Option.isSome_iff_exists.mp (by simpa using hfirst)
          rw [readLines_value n hcounts hread, ih _ hbefore, hnumber]
          rfl

/-- The values of the lines that count, one after the other. -/
theorem readLines_eq_ok {vs : List Value} (n : Nat) (h : Hold (ls.filter counts) vs) :
    readLines n ls = .ok vs := by
  induction ls generalizing n vs with
  | nil =>
      cases h
      rfl
  | cons line ls ih =>
      cases hcounts : counts line with
      | false =>
          rw [List.filter_cons_of_neg (by simp [hcounts])] at h
          rw [readLines_blank n hcounts, ih _ h]
      | true =>
          rw [List.filter_cons_of_pos hcounts] at h
          obtain ⟨v, vs, hread, hrest, rfl⟩ := List.forall₂_cons_left_iff.mp h
          rw [readLines_value n hcounts hread, ih _ hrest]
          rfl

theorem Hold.isSome {vs : List Value} (h : Hold ls vs) :
    ∀ line ∈ ls, (Json.read? line).isSome := by
  induction h with
  | nil => simp
  | cons hread _ ih => exact List.forall_mem_cons.mpr ⟨by rw [hread]; rfl, ih⟩

theorem exists_hold (h : ∀ line ∈ ls, (Json.read? line).isSome) : ∃ vs, Hold ls vs := by
  induction ls with
  | nil => exact ⟨[], .nil⟩
  | cons line ls ih =>
      obtain ⟨hline, hls⟩ := List.forall_mem_cons.mp h
      obtain ⟨v, hread⟩ := Option.isSome_iff_exists.mp hline
      obtain ⟨vs, hvs⟩ := ih hls
      exact ⟨v :: vs, .cons hread hvs⟩

/-- Either a first line is at fault, or the lines that count hold values. -/
theorem fault_or_hold (ls : List (List Char)) :
    (∃ before line after, ls = before ++ line :: after ∧ isFaulty line ∧
      ∀ l ∈ before, isFaulty l = false) ∨ ∃ vs, Hold (ls.filter counts) vs := by
  cases hfind : ls.find? isFaulty with
  | some line =>
      obtain ⟨hline, before, after, hls, hbefore⟩ := List.find?_eq_some_iff_append.mp hfind
      exact Or.inl ⟨before, line, after, hls, hline, by simpa using hbefore⟩
  | none =>
      refine Or.inr (exists_hold fun line hline => ?_)
      obtain ⟨hmem, hcounts⟩ := List.mem_filter.mp hline
      have hfaulty := List.find?_eq_none.mp hfind line hmem
      simpa [isFaulty, hcounts, Option.isSome_iff_ne_none] using hfaulty

section Whole

theorem countedLines_cons (hline : '\n' ∉ line) (rest : List Char) :
    countedLines (line ++ '\n' :: rest) =
      if counts line then Text.dropReturn line :: countedLines rest else countedLines rest := by
  have hcounts : counts (Text.dropReturn line) = counts line := by
    obtain ⟨ending, hending, heq⟩ := Text.exists_eq_dropReturn line
    have hblank : ∀ c ∈ ending, Text.isBlank c := by
      intro c hc
      rw [hending c hc]
      decide
    conv_rhs => rw [heq]
    simp [counts, List.all_append, List.all_eq_true.mpr hblank]
  rw [countedLines, Text.lines_cons hline, List.filter_cons, hcounts]
  rfl

theorem countedLines_eq_nil (h : ∀ c ∈ cs, Text.isBlank c) : countedLines cs = [] := by
  induction cs using Text.lineInduction with
  | nil => rfl
  | last line hline hne =>
      rw [countedLines, Text.lines_last hline hne,
        List.filter_cons_of_neg (by simp [counts_eq_false_iff.mpr h]), List.filter_nil]
  | cons line rest hline ih =>
      obtain ⟨hblank, hrest⟩ := List.forall_mem_append.mp h
      rw [countedLines_cons hline, counts_eq_false_iff.mpr hblank]
      exact ih (List.forall_mem_cons.mp hrest).2

/-- A text is no JSON as a whole if more than one of its lines count and each of them is JSON by
itself. -/
theorem read?_eq_none_of_countedLines (h : 2 ≤ (countedLines cs).length)
    (hvalid : ∀ line ∈ countedLines cs, (Json.read? line).isSome) : Json.read? cs = none := by
  rw [Option.eq_none_iff_forall_ne_some]
  intro w hwhole
  induction cs using Text.lineInduction with
  | nil => simp [countedLines, Text.lines_nil] at h
  | last line hline hne =>
      have hlength : (countedLines line).length ≤ [line].length := by
        rw [countedLines, Text.lines_last hline hne]
        exact List.length_filter_le _ _
      simp only [List.length_singleton] at hlength
      omega
  | cons line rest hline ih =>
      rw [countedLines_cons hline] at h hvalid
      cases hcounts : counts line with
      | false =>
          rw [hcounts] at h hvalid
          have hblank : ∀ c ∈ line ++ ['\n'], Text.isBlank c :=
            List.forall_mem_append.mpr ⟨counts_eq_false_iff.mp hcounts, by simp [Text.isBlank]⟩
          exact ih h hvalid (Json.read?_blanks_append hblank (by simpa using hwhole))
      | true =>
          rw [hcounts, if_pos rfl] at h hvalid
          obtain ⟨v, hread⟩ := Option.isSome_iff_exists.mp (hvalid _ List.mem_cons_self)
          obtain ⟨ending, hending, heq⟩ := Text.exists_eq_dropReturn line
          have hspace : ∀ c ∈ ending ++ ['\n'], Json.Reader.isSpace c := by
            refine List.forall_mem_append.mpr ⟨fun c hc => ?_, by simp [Json.Reader.isSpace]⟩
            rw [hending c hc]
            rfl
          have htext : line ++ '\n' :: rest =
              Text.dropReturn line ++ (ending ++ ['\n']) ++ rest := by
            conv_lhs => rw [heq]
            simp
          rw [htext] at hwhole
          have hrest := Json.isSpace_of_read?_append hread hspace (by simp) hwhole
          rw [countedLines_eq_nil fun c hc => Json.Reader.isBlank_of_isSpace (hrest c hc)] at h
          simp at h

end Whole

theorem read_eq_noLines (h : countedLines cs = []) : read .jsonLines cs = .error .noLines := by
  have hvalues : Hold (countedLines cs) [] := by
    rw [h]
    exact .nil
  have hlines : readLines 0 (Text.lines cs) = .ok [] := readLines_eq_ok 0 hvalues
  simp [read, hlines, bind, Except.bind]

theorem read_eq_seq {vs : List Value} (hne : countedLines cs ≠ []) (h : Hold (countedLines cs) vs) :
    read .jsonLines cs = .ok (.seq vs) := by
  have hlines : readLines 0 (Text.lines cs) = .ok vs := readLines_eq_ok 0 h
  have hvs : vs ≠ [] := by
    rintro rfl
    exact hne (List.eq_nil_of_length_eq_zero h.length_eq)
  simp [read, hlines, hvs, bind, Except.bind]

theorem read_eq_invalidLine {before after : List (List Char)}
    (hlines : Text.lines cs = before ++ line :: after)
    (hbefore : ∀ line ∈ before, isFaulty line = false) (hline : isFaulty line) :
    read .jsonLines cs = .error (.invalidLine (before.length + 1)) := by
  have hfault := readLines_append_fault 0 after hbefore hline
  rw [← hlines, Nat.zero_add] at hfault
  simp [read, hfault, bind, Except.bind]

/-- A document of lines is a sequence exactly if a line counts and all that do are JSON, and the
sequence has their values in order; otherwise the first line at fault is named by its number. If at
least two lines count and all that do are JSON, the format is found out: the text as a whole is no
JSON, and so it is read as lines. -/
theorem readDocument_lines (cs : List Char) :
    (∀ v, readDocument (some .jsonLines) cs = .ok v ↔
      countedLines cs ≠ [] ∧ ∃ vs, Hold (countedLines cs) vs ∧ v = .seq vs) ∧
    (∀ failure, countedLines cs ≠ [] → readDocument (some .jsonLines) cs = .error failure →
      ∃ before line after, Text.lines cs = before ++ line :: after ∧ isFaulty line ∧
        (∀ l ∈ before, isFaulty l = false) ∧
        failure.message = "Invalid JSON on line " ++ Numeral.natText (before.length + 1)) ∧
    (∀ vs, 2 ≤ (countedLines cs).length → Hold (countedLines cs) vs →
      Json.read? cs = none ∧ readDocument none cs = .ok (.seq vs)) := by
  refine ⟨fun v => ⟨fun h => ?_, ?_⟩, fun failure hne h => ?_, fun vs hlength h => ?_⟩
  · have hne : countedLines cs ≠ [] := by
      intro hnil
      rw [readDocument, read_eq_noLines hnil] at h
      cases h
    obtain ⟨before, line, after, hlines, hline, hbefore⟩ | ⟨vs, hvs⟩ :=
      fault_or_hold (Text.lines cs)
    · rw [readDocument, read_eq_invalidLine hlines hbefore hline] at h
      cases h
    · rw [readDocument, read_eq_seq hne hvs] at h
      cases h
      exact ⟨hne, vs, hvs, rfl⟩
  · rintro ⟨hne, vs, hvs, rfl⟩
    rw [readDocument, read_eq_seq hne hvs]
    rfl
  · obtain ⟨before, line, after, hlines, hline, hbefore⟩ | ⟨vs, hvs⟩ :=
      fault_or_hold (Text.lines cs)
    · rw [readDocument, read_eq_invalidLine hlines hbefore hline] at h
      cases h
      exact ⟨before, line, after, hlines, hline, hbefore, Failure.message_ofCause _⟩
    · rw [readDocument, read_eq_seq hne hvs] at h
      cases h
  · have hne : countedLines cs ≠ [] := by
      intro hnil
      rw [hnil] at hlength
      cases hlength
    have hwhole := read?_eq_none_of_countedLines hlength h.isSome
    have hjson : read .json cs = .error .invalidJson := by
      rw [read, hwhole]
      rfl
    exact ⟨hwhole, by rw [readDocument, detect, hjson, read_eq_seq hne h]⟩

/-- Lines of numbers, which a line break does not join, among blanks of all kinds. -/
def numberLines : List Char :=
  "\u0085\n1\r\n \t\n2".toList

/-- Lines of which the fourth is the first at fault, after a blank one. -/
def faultyLines : List Char :=
  "1\n\n[2]\n]\n3 4\n".toList

theorem readDocument_lines_numbers :
    (2 ≤ (countedLines numberLines).length ∧
      Hold (countedLines numberLines) [.scalar (.int 1), .scalar (.int 2)] ∧
      Json.read? numberLines = none ∧
      readDocument none numberLines = .ok (.seq [.scalar (.int 1), .scalar (.int 2)])) ∧
    countedLines faultyLines ≠ [] ∧
      readDocument (some .jsonLines) faultyLines = .error (.ofCause (.invalidLine 4)) ∧
      ∃ before line after, Text.lines faultyLines = before ++ line :: after ∧ isFaulty line ∧
        (∀ l ∈ before, isFaulty l = false) ∧
        (Failure.ofCause (.invalidLine 4)).message =
          "Invalid JSON on line " ++ Numeral.natText (before.length + 1) := by
  have hlines : countedLines numberLines = [['1'], ['2']] := by decide
  have hlength : 2 ≤ (countedLines numberLines).length := by rw [hlines]; decide
  have hhold : Hold (countedLines numberLines) [.scalar (.int 1), .scalar (.int 2)] := by
    rw [hlines]
    exact .cons rfl (.cons rfl .nil)
  have hne : countedLines faultyLines ≠ [] := by decide
  have hfault : readDocument (some .jsonLines) faultyLines =
      .error (.ofCause (.invalidLine 4)) := rfl
  exact ⟨⟨hlength, hhold, (readDocument_lines numberLines).2.2 _ hlength hhold⟩, hne, hfault,
    (readDocument_lines faultyLines).2.1 _ hne hfault⟩

end Format

end PathRules
