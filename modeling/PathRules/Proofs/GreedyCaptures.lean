import PathRules.Proofs.PatternLanguage

/-!
# Greedy captures

A pattern without bars and parentheses is a mask: literal texts with wildcards between them. A text
that fits into it can often be split in several ways. The search gives each wildcard the longest
run with which the rest of the mask can still be met, from the left to the right. So of all ways to
split the text it returns the one whose lengths, read as a word, are the greatest: a longer capture
on the left counts more than any capture after it. The argument follows the mask; at a wildcard the
rest of the mask succeeds behind a shorter run only if that run was tried after all longer ones.
-/

namespace PathRules

/-- A character that stands for itself in a pattern. -/
abbrev Ordinary :=
  { t : Token // ¬ t.Special }

inductive Wildcard where
  | run
  | one

namespace Wildcard

def token : Wildcard → Token
  | run => ⟨'*', false⟩
  | one => ⟨'?', false⟩

/-- The texts for which a wildcard stands: `*` for any without line feeds, and `?` for those of one
character. -/
def Takes (w : Wildcard) (us : List Char) : Prop :=
  '\n' ∉ us ∧ (w = one → us.length = 1)

def regex : Wildcard → Regex
  | run => .group (.anyRun false)
  | one => .group (.anyChar false)

theorem exists_token_eq {t : Token} (h : t.is '*' ∨ t.is '?') : ∃ w : Wildcard, w.token = t := by
  rcases h with h | h
  · exact ⟨run, (Token.eq_of_is h).symm⟩
  · exact ⟨one, (Token.eq_of_is h).symm⟩

end Wildcard

namespace Ordinary

/-- The text of literal characters. -/
def text (l : List Ordinary) : List Char :=
  l.map fun t => t.val.char

def regexes (l : List Ordinary) : List Regex :=
  l.map fun t => .letter t.val.char false

@[simp] theorem text_nil : text [] = [] := rfl

@[simp] theorem text_cons (t : Ordinary) (l : List Ordinary) :
    text (t :: l) = t.val.char :: text l := rfl

end Ordinary

/-- Literal texts with wildcards between them. -/
inductive Mask where
  | last (l : List Ordinary)
  | hole (l : List Ordinary) (w : Wildcard) (rest : Mask)

namespace Mask

/-- How the mask is spelled. -/
def tokens : Mask → List Token
  | last l => l.map Subtype.val
  | hole l w rest => l.map Subtype.val ++ w.token :: rest.tokens

/-- A text is split into the literals of a mask and a piece for each of its wildcards. -/
inductive Splits : Mask → List Char → List (List Char) → Prop
  | last {l} : Splits (last l) (Ordinary.text l) []
  | hole {l w rest us cs pieces} (hus : w.Takes us) (h : Splits rest cs pieces) :
      Splits (hole l w rest) (Ordinary.text l ++ (us ++ cs)) (us :: pieces)

/-- The way to split a text in which the lengths of the pieces are lexicographically greatest. -/
structure Greatest (m : Mask) (cs : List Char) (pieces : List (List Char)) : Prop where
  splits : m.Splits cs pieces
  lt_lengths : ∀ others, m.Splits cs others → others ≠ pieces →
    others.map List.length < pieces.map List.length

/-- What a test of a text answers: captures if the text can be split, and then the pieces of the
greatest way to split it. -/
structure Answers (m : Mask) (text : String) (answer : Option (List String)) : Prop where
  isSome_iff : answer.isSome ↔ ∃ pieces, m.Splits text.toList pieces
  greatest : ∀ captures ∈ answer, ∃ pieces, m.Greatest text.toList pieces ∧
    captures = pieces.map String.ofList

theorem splits_last_iff {l : List Ordinary} {cs : List Char} {pieces : List (List Char)} :
    (last l).Splits cs pieces ↔ cs = Ordinary.text l ∧ pieces = [] := by
  constructor
  · rintro ⟨⟩
    exact ⟨rfl, rfl⟩
  · rintro ⟨rfl, rfl⟩
    exact .last

/-- A part without bars and parentheses spells a mask. -/
theorem exists_tokens {ts : List Token}
    (h : ∀ t ∈ ts, ¬ (t.is '|' ∨ t.is '(' ∨ t.is ')')) : ∃ m : Mask, m.tokens = ts := by
  induction ts with
  | nil => exact ⟨last [], rfl⟩
  | cons t ts ih =>
      obtain ⟨ht, hts⟩ := List.forall_mem_cons.mp h
      obtain ⟨m, rfl⟩ := ih hts
      by_cases hspecial : t.Special
      · have hwild : t.is '*' ∨ t.is '?' := by
          rcases hspecial with hrun | hone | hother
          · exact Or.inl hrun
          · exact Or.inr hone
          · exact absurd hother ht
        obtain ⟨w, rfl⟩ := Wildcard.exists_token_eq hwild
        exact ⟨hole [] w m, rfl⟩
      · cases m with
        | last l => exact ⟨last (⟨t, hspecial⟩ :: l), rfl⟩
        | hole l w rest => exact ⟨hole (⟨t, hspecial⟩ :: l) w rest, rfl⟩

/-- The expressions of a mask, the first one first. -/
def regexes : Mask → List Regex
  | last l => Ordinary.regexes l
  | hole l w rest => Ordinary.regexes l ++ w.regex :: rest.regexes

end Mask

section Search

variable {β : Type} {length : Nat} {items : List Regex} {cs us : List Char} {b : β}
  {k : List String → List Char → Option β}

namespace Regex

theorem between_append (us cs : List Char) : between (us ++ cs) cs = us := by
  simp [between]

/-- The items of a group are kept from the last to the first, and tried from the first to the
last. -/
theorem tryAt_sequence_concat (r : Regex) (items : List Regex) :
    tryAt length (OpenGroup.sequence (items ++ [r])) cs k =
      tryAt length r cs fun xs ds =>
        tryAt length (OpenGroup.sequence items) ds fun ys es => k (xs ++ ys) es := by
  cases items with
  | nil => simp [OpenGroup.sequence, tryAt]
  | cons r' items =>
      simp only [List.cons_append, OpenGroup.sequence, List.foldl_append, List.foldl_cons,
        List.foldl_nil, tryAt]

theorem tryAt_literal (l : List Ordinary) :
    tryAt length (OpenGroup.sequence (items ++ (Ordinary.regexes l).reverse))
        (Ordinary.text l ++ cs) k =
      tryAt length (OpenGroup.sequence items) cs k := by
  induction l with
  | nil => simp [Ordinary.regexes]
  | cons t l ih =>
      have hitems : items ++ (Ordinary.regexes (t :: l)).reverse =
          items ++ (Ordinary.regexes l).reverse ++ [.letter t.val.char false] := by
        simp [Ordinary.regexes]
      rw [hitems, tryAt_sequence_concat]
      simpa [tryAt] using ih

theorem exists_append_of_tryAt_literal (items : List Regex) {l : List Ordinary}
    (h : tryAt length (OpenGroup.sequence (items ++ (Ordinary.regexes l).reverse)) cs k = some b) :
    ∃ ds, cs = Ordinary.text l ++ ds := by
  induction l generalizing cs k with
  | nil => exact ⟨cs, rfl⟩
  | cons t l ih =>
      have hitems : items ++ (Ordinary.regexes (t :: l)).reverse =
          items ++ (Ordinary.regexes l).reverse ++ [.letter t.val.char false] := by
        simp [Ordinary.regexes]
      rw [hitems, tryAt_sequence_concat] at h
      cases cs with
      | nil => cases h
      | cons c cs =>
          unfold tryAt at h
          split at h
          · rename_i hc
            obtain rfl : t.val.char = c := by simpa using hc
            obtain ⟨ds, rfl⟩ := ih h
            exact ⟨ds, rfl⟩
          · cases h

end Regex

namespace Wildcard

variable {w : Wildcard}

theorem isSome_tryAt (hus : w.Takes us) (hk : (k [String.ofList us] cs).isSome) :
    (Regex.tryAt length w.regex (us ++ cs) k).isSome := by
  obtain ⟨hfree, hone⟩ := hus
  cases w with
  | run =>
      apply Regex.isSome_tryRun (Or.inr hfree)
      simpa only [Regex.between_append] using hk
  | one =>
      obtain ⟨c, rfl⟩ := List.length_eq_one_iff.mp (hone rfl)
      have hc : c ≠ '\n' := Ne.symm (by simpa using hfree)
      have hbetween : Regex.between (c :: cs) cs = [c] := Regex.between_append [c] cs
      simpa [regex, Regex.tryAt, hc, hbetween] using hk

/-- A wildcard takes the longest text behind which the search goes on to succeed. -/
theorem longest_of_tryAt (h : Regex.tryAt length w.regex cs k = some b) :
    ∃ us ds, cs = us ++ ds ∧ w.Takes us ∧ k [String.ofList us] ds = some b ∧
      ∀ vs es, cs = vs ++ es → w.Takes vs → (k [String.ofList vs] es).isSome →
        vs.length ≤ us.length := by
  cases w with
  | run =>
      obtain ⟨us, ds, rfl, hfree, hk, hlongest⟩ := Regex.longest_of_tryRun h
      simp only [Regex.between_append] at hk
      refine ⟨us, ds, rfl, ⟨by simpa using hfree, nofun⟩, hk, fun vs es hvs htakes hes => ?_⟩
      refine hlongest vs es hvs (Or.inr htakes.1) ?_
      simpa only [hvs, Regex.between_append] using hes
  | one =>
      cases cs with
      | nil => cases h
      | cons c cs =>
          have hbetween : Regex.between (c :: cs) cs = [c] := Regex.between_append [c] cs
          simp only [regex, Regex.tryAt, hbetween] at h
          split at h
          · rename_i hc
            have hc : c ≠ '\n' := by simpa using hc
            refine ⟨[c], cs, rfl, ⟨by simpa using hc.symm, fun _ => rfl⟩, h, ?_⟩
            exact fun vs es _ htakes _ => Nat.le_of_eq (htakes.2 rfl)
          · cases h

end Wildcard

namespace Mask

/-- The search for the expressions of a mask, up to the end of the text. -/
def tryAt (m : Mask) (length : Nat) (cs : List Char) (f : List String → β) : Option β :=
  Regex.tryAt length (OpenGroup.sequence m.regexes.reverse) cs fun xs ds =>
    if ds.isEmpty then some (f xs) else none

variable {m rest : Mask} {l : List Ordinary} {w : Wildcard} {f : List String → β}
  {pieces : List (List Char)}

theorem tryAt_last : (last l).tryAt length (Ordinary.text l ++ cs) f =
    if cs.isEmpty then some (f []) else none := by
  have hitems : (last l).regexes.reverse = [] ++ (Ordinary.regexes l).reverse := rfl
  rw [tryAt, hitems, Regex.tryAt_literal]
  rfl

/-- Behind a literal the wildcard is tried, and behind it the rest of the mask. -/
theorem tryAt_hole : (hole l w rest).tryAt length (Ordinary.text l ++ cs) f =
    Regex.tryAt length w.regex cs fun xs ds => rest.tryAt length ds fun ys => f (xs ++ ys) := by
  have hitems : (hole l w rest).regexes.reverse =
      rest.regexes.reverse ++ [w.regex] ++ (Ordinary.regexes l).reverse := by
    simp [regexes]
  rw [tryAt, hitems, Regex.tryAt_literal, Regex.tryAt_sequence_concat]
  rfl

/-- If a text can be split then the search succeeds. -/
theorem Splits.isSome_tryAt (h : m.Splits cs pieces) : (m.tryAt length cs f).isSome := by
  induction h generalizing f with
  | @last l =>
      rw [← List.append_nil (Ordinary.text l), tryAt_last]
      rfl
  | hole hus _ ih =>
      rw [tryAt_hole]
      exact Wildcard.isSome_tryAt hus ih

/-- What the search returns are the pieces of the greatest way to split the text. -/
theorem greatest_of_tryAt (h : m.tryAt length cs f = some b) :
    ∃ pieces, m.Greatest cs pieces ∧ b = f (pieces.map String.ofList) := by
  induction m generalizing cs f with
  | last l =>
      obtain ⟨ds, rfl⟩ := Regex.exists_append_of_tryAt_literal [] h
      rw [tryAt_last] at h
      split at h
      · rename_i hnil
        cases h
        rw [List.isEmpty_iff.mp hnil, List.append_nil]
        refine ⟨[], ⟨.last, fun others hothers hne => ?_⟩, rfl⟩
        exact absurd (splits_last_iff.mp hothers).2 hne
      · cases h
  | hole l w rest ih =>
      obtain ⟨ds, rfl⟩ : ∃ ds, cs = Ordinary.text l ++ ds := by
        apply Regex.exists_append_of_tryAt_literal (rest.regexes.reverse ++ [w.regex])
        simpa [tryAt, regexes] using h
      rw [tryAt_hole] at h
      obtain ⟨us, es, rfl, hus, hrest, hlongest⟩ := Wildcard.longest_of_tryAt h
      obtain ⟨pieces, hpieces, rfl⟩ := ih hrest
      refine ⟨us :: pieces, ⟨.hole hus hpieces.splits, fun others hothers hne => ?_⟩, rfl⟩
      generalize htext : Ordinary.text l ++ (us ++ es) = text at hothers
      cases hothers with
      | @hole _ _ _ vs gs others hvs hsplits =>
          have htail : us ++ es = vs ++ gs := List.append_cancel_left htext
          have hle := hlongest vs gs htail hvs hsplits.isSome_tryAt
          rw [List.map_cons, List.map_cons, List.cons_lt_cons_iff]
          rcases Nat.lt_or_eq_of_le hle with hlt | heq
          · exact Or.inl hlt
          · obtain ⟨rfl, rfl⟩ := List.append_inj htail heq.symm
            exact Or.inr ⟨rfl, hpieces.lt_lengths others hsplits fun h => hne (by rw [h])⟩

end Mask

end Search

namespace OpenGroup

theorem items_foldl_add (rs : List Regex) (g : OpenGroup) :
    rs.foldl add g = { g with items := rs.reverse ++ g.items } := by
  induction rs generalizing g with
  | nil => rfl
  | cons r rs ih => simp [ih, add]

end OpenGroup

namespace Pairing

theorem pushPart_literal (l : List Ordinary) (p : Pairing) :
    p.pushPart {} (l.map Subtype.val) =
      .ok { p with inner := (Ordinary.regexes l).foldl OpenGroup.add p.inner } := by
  induction l generalizing p with
  | nil => rfl
  | cons t l ih =>
      rw [List.map_cons, pushPart_cons, Glyph.ofToken_eq_char t.property]
      exact ih { p with inner := p.inner.add (.letter t.val.char false) }

/-- The tokens of a mask put its expressions behind the items of the group around it. -/
theorem pushPart_mask (m : Mask) (p : Pairing) :
    p.pushPart {} m.tokens = .ok { p with inner := m.regexes.foldl OpenGroup.add p.inner } := by
  induction m generalizing p with
  | last l => exact pushPart_literal l p
  | hole l w rest ih =>
      rw [Mask.tokens, Mask.regexes, pushPart_append, pushPart_literal, List.foldl_append]
      cases w with
      | run => exact ih _
      | one => exact ih _

end Pairing

namespace Mask

variable {m : Mask} {p : Pattern}

/-- The expression of a pattern that spells a mask has the expressions of the mask, between the two
anchors. -/
theorem regex_of_compile (h : Pattern.compile {} m.tokens = .ok p) :
    p.regex = .seq .textStart (.seq (OpenGroup.sequence m.regexes.reverse) .textEnd) := by
  rw [Pattern.compile_eq, Pairing.pushPart_mask, OpenGroup.items_foldl_add] at h
  cases h
  simp [Pairing.opened, OpenGroup.close, OpenGroup.add, OpenGroup.alternatives,
    OpenGroup.sequence]

theorem search_of_compile (h : Pattern.compile {} m.tokens = .ok p) (cs : List Char) :
    p.regex.search cs = m.tryAt cs.length cs (Regex.Hit.mk cs) := by
  rw [regex_of_compile h, Regex.search_anchored_eq]
  rfl

/-- A pattern that spells a mask matches the texts that the mask splits. -/
theorem isSome_captures?_iff (h : Pattern.compile {} m.tokens = .ok p) (text : String) :
    (p.captures? text).isSome ↔ ∃ pieces, m.Splits text.toList pieces := by
  rw [Pattern.captures?, Option.isSome_map, search_of_compile h]
  constructor
  · intro hsome
    obtain ⟨hit, hhit⟩ := Option.isSome_iff_exists.mp hsome
    obtain ⟨pieces, hpieces, -⟩ := greatest_of_tryAt hhit
    exact ⟨pieces, hpieces.splits⟩
  · rintro ⟨pieces, hpieces⟩
    exact hpieces.isSome_tryAt

theorem answers_captures? (h : Pattern.compile {} m.tokens = .ok p) (hgroups : p.groups ≠ 0)
    (text : String) : m.Answers text (p.captures? text) := by
  refine ⟨isSome_captures?_iff h text, fun captures hcaptures => ?_⟩
  obtain ⟨hit, hhit, rfl⟩ := Option.map_eq_some_iff.mp hcaptures
  rw [search_of_compile h] at hhit
  obtain ⟨pieces, hpieces, rfl⟩ := greatest_of_tryAt hhit
  exact ⟨pieces, hpieces, if_neg hgroups⟩

end Mask

namespace Matcher

/-- The matcher finds the texts that a mask splits, as keys and as values, and captures the pieces
of the greatest way to split them. -/
structure CapturesPieces (matcher : Matcher) (m : Mask) : Prop where
  key : ∀ key length, m.Answers key.text (matcher.matchKey? key length)
  value : ∀ {α : Type} [Tree α] (v : α), Tree.isContainer v = false →
    m.Answers (Tree.spelling v) (matcher.matchValue? v)

/-- A part without bars and parentheses spells a mask, and if it is a pattern then it captures the
pieces of every mask that it spells. -/
theorem captures_greatest {part : String} {ts : List Token} {p : Pattern}
    (hscan : Token.scan? part.toList = some ts)
    (hplain : ∀ t ∈ ts, ¬ (t.is '|' ∨ t.is '(' ∨ t.is ')'))
    (hcompile : compile part {} = .ok (pattern p)) :
    (∃ m : Mask, m.tokens = ts) ∧ ∀ m : Mask, m.tokens = ts → (pattern p).CapturesPieces m := by
  refine ⟨Mask.exists_tokens hplain, ?_⟩
  rintro m rfl
  obtain ⟨hpattern, hcond⟩ := compile_of_ofTokens (ofTokens_of_compile hscan hcompile)
  have hgroups : p.groups ≠ 0 := by
    obtain ⟨t, ht, hspecial⟩ := hcond.resolve_left (by decide)
    have hcaptures : t.captures := by
      have hother := hplain t ht
      simp only [Token.Special] at hspecial
      simp only [Token.captures, Bool.or_eq_true]
      tauto
    rw [Pattern.groups_compile hpattern]
    exact Nat.ne_of_gt (List.countP_pos_iff.mpr ⟨t, ht, hcaptures⟩)
  refine ⟨fun key length => Mask.answers_captures? hpattern hgroups key.text, fun v hv => ?_⟩
  have htext : matchValue? (pattern p) v = p.captures? (Tree.spelling v) := by
    simp [matchValue?, matchText?, hv]
  rw [htext]
  exact Mask.answers_captures? hpattern hgroups (Tree.spelling v)

theorem not_special_a : ¬ Token.Special ⟨'a', false⟩ := by
  simp [Token.Special, Token.is]

/-- An `a` between two runs, and a single character at the end. -/
def beforeLast : Mask :=
  .hole [] .run (.hole [⟨⟨'a', false⟩, not_special_a⟩] .run (.hole [] .one (.last [])))

theorem captures_greatest_beforeLast :
    Token.scan? "*a*?".toList = some beforeLast.tokens ∧
      (∀ t ∈ beforeLast.tokens, ¬ (t.is '|' ∨ t.is '(' ∨ t.is ')')) ∧
      ∃ p, compile "*a*?" {} = .ok (pattern p) ∧ (pattern p).CapturesPieces beforeLast ∧
        (pattern p).matchKey? (.name "banana") none = some ["ban", "n", "a"] := by
  have hscan : Token.scan? "*a*?".toList = some beforeLast.tokens := rfl
  have hplain : ∀ t ∈ beforeLast.tokens, ¬ (t.is '|' ∨ t.is '(' ∨ t.is ')') := by
    intro t ht
    have hts : beforeLast.tokens = [⟨'*', false⟩, ⟨'a', false⟩, ⟨'*', false⟩, ⟨'?', false⟩] := rfl
    rw [hts] at ht
    revert t
    decide
  exact ⟨hscan, hplain, _, rfl, (captures_greatest hscan hplain rfl).2 beforeLast rfl, rfl⟩

end Matcher

end PathRules
