import Mathlib.Computability.Language
import PathRules.Proofs.CaptureCounts
import PathRules.Proofs.PathGrammar

/-!
# The language of a pattern

A pattern is read as a tree of what its symbols mean: a bar joins alternatives and binds weakest,
parentheses group, and everything else is written one after the other. Every part whose parentheses
are nested spells such a tree, and the tree has a language by recursion.

While the symbols of a tree are pushed, the open group around it goes on reading languages: those of
the alternatives that ended, together, and that of the items of the last one. A tree without bars
adds to the items, and a tree with bars, started with no item, adds to all the group has read. At
the closing parenthesis both are what the group reads. So the expression of a pattern reads the
language of its tree between the two anchors, and the search finds a text if it belongs to it.
-/

namespace PathRules

/-- A pattern as a tree, with or without bars outside of groups. Bars bind weaker than writing one
after the other, so only a tree without them is written next to another one. -/
inductive Glob : (bars : Bool) → Type
  | empty : Glob false
  | char (t : Token) (ordinary : ¬ t.Special) : Glob false
  | run : Glob false
  | one : Glob false
  | seq (a b : Glob false) : Glob false
  | group (a : Glob true) : Glob false
  | plain (a : Glob false) : Glob true
  | alt (a b : Glob true) : Glob true

namespace Glob

/-- How the tree is spelled. -/
def tokens {bars : Bool} : Glob bars → List Token
  | empty => []
  | char t _ => [t]
  | run => [⟨'*', false⟩]
  | one => [⟨'?', false⟩]
  | seq a b => a.tokens ++ b.tokens
  | group a => ⟨'(', false⟩ :: (a.tokens ++ [⟨')', false⟩])
  | plain a => a.tokens
  | alt a b => a.tokens ++ ⟨'|', false⟩ :: b.tokens

/-- The texts that the tree describes. -/
def language {bars : Bool} : Glob bars → Language Char
  | empty => 1
  | char t _ => {[t.char]}
  | run => {us | '\n' ∉ us}
  | one => {us | ∃ c, us = [c] ∧ c ≠ '\n'}
  | seq a b => a.language * b.language
  | group a => a.language
  | plain a => a.language
  | alt a b => a.language + b.language

/-- The tree with something written in front of its first alternative. -/
def prepend (a : Glob false) : Glob true → Glob true
  | plain b => plain (seq a b)
  | alt b c => alt (prepend a b) c

theorem tokens_prepend (a : Glob false) :
    ∀ g : Glob true, (prepend a g).tokens = a.tokens ++ g.tokens
  | plain b => by rw [prepend, tokens, tokens, tokens]
  | alt b c => by rw [prepend, tokens, tokens, tokens_prepend a b, List.append_assoc]

/-- A symbol that is no bar and no parenthesis is a tree of its own. -/
theorem exists_tokens_singleton {t : Token} (hbar : t.is '|' = false) (hopen : t.is '(' = false)
    (hclose : t.is ')' = false) : ∃ a : Glob false, a.tokens = [t] := by
  cases hrun : t.is '*' with
  | true => exact ⟨run, by rw [Token.eq_of_is hrun, tokens]⟩
  | false =>
      cases hone : t.is '?' with
      | true => exact ⟨one, by rw [Token.eq_of_is hone, tokens]⟩
      | false => exact ⟨char t (by simp [Token.Special, hrun, hone, hbar, hopen, hclose]), rfl⟩

/-- Read from its end, a part whose parentheses are nested is a tree and one more for each group
that is still to be closed. -/
theorem exists_tokens_of_nested {depth : Nat} {ts : List Token} (hnested : Token.Nested depth ts)
    (hcount : depth + ts.countP (·.is '(') = ts.countP (·.is ')')) :
    ∃ (g : Glob true) (gs : List (Glob true)), gs.length = depth ∧
      ts = g.tokens ++ gs.flatMap fun h => ⟨')', false⟩ :: h.tokens := by
  induction ts generalizing depth with
  | nil =>
      obtain rfl : depth = 0 := by simpa using hcount
      exact ⟨plain empty, [], rfl, rfl⟩
  | cons t ts ih =>
      rw [List.countP_cons, List.countP_cons] at hcount
      cases hopen : t.is '(' with
      | true =>
          have hclose : t.is ')' = false := Token.is_eq_false_of_is hopen (by decide)
          rw [Token.nested_cons_open hopen hclose] at hnested
          simp only [hopen, hclose, if_true, Bool.false_eq_true, if_false] at hcount
          obtain ⟨g, gs, hlength, rfl⟩ := ih hnested (by omega)
          obtain ⟨h, gs, rfl⟩ := List.exists_cons_of_length_eq_add_one hlength
          refine ⟨prepend (group g) h, gs, by simpa using hlength, ?_⟩
          simp [tokens_prepend, tokens, Token.eq_of_is hopen]
      | false =>
          cases hclose : t.is ')' with
          | true =>
              cases depth with
              | zero => exact absurd hnested (Token.not_nested_zero_cons_close hclose hopen)
              | succ depth =>
                  rw [Token.nested_succ_cons_close hclose hopen] at hnested
                  simp only [hopen, hclose, if_true, Bool.false_eq_true, if_false] at hcount
                  obtain ⟨g, gs, hlength, rfl⟩ := ih hnested (by omega)
                  refine ⟨plain empty, g :: gs, by rw [List.length_cons, hlength], ?_⟩
                  simp [tokens, Token.eq_of_is hclose]
          | false =>
              rw [Token.nested_cons_level hopen hclose] at hnested
              simp only [hopen, hclose, Bool.false_eq_true, if_false] at hcount
              obtain ⟨g, gs, hlength, rfl⟩ := ih hnested (by omega)
              cases hbar : t.is '|' with
              | true =>
                  refine ⟨alt (plain empty) g, gs, hlength, ?_⟩
                  simp [tokens, Token.eq_of_is hbar]
              | false =>
                  obtain ⟨a, ha⟩ := exists_tokens_singleton hbar hopen hclose
                  refine ⟨prepend a g, gs, hlength, ?_⟩
                  simp [tokens_prepend, ha]

/-- A part that can be compiled and whose parentheses are nested spells a tree. -/
theorem exists_tokens {ts : List Token} (hnested : Token.Nested 0 ts)
    (hcount : ts.countP (·.is '(') = ts.countP (·.is ')')) : ∃ g : Glob true, g.tokens = ts := by
  obtain ⟨g, gs, hlength, rfl⟩ := exists_tokens_of_nested hnested (by omega)
  rw [List.eq_nil_of_length_eq_zero hlength]
  exact ⟨g, (List.append_nil _).symm⟩

end Glob

namespace OpenGroup

variable {g : OpenGroup} {r : Regex} {D C L : Language Char}

/-- What an open group has read: the language of the alternatives that ended, and that of the items
of the one that has not. -/
structure Reads (g : OpenGroup) (ended item : Language Char) : Prop where
  items : (sequence g.items).Reads item
  /-- One more item is read after the others. -/
  next : ∀ {r L}, Regex.Reads r L → (sequence (r :: g.items)).Reads (item * L)
  /-- A last alternative is read beside those that ended. -/
  last : ∀ {r L}, Regex.Reads r L → (alternatives r g.ended).Reads (ended + L)

theorem reads_start (captures : Bool) : Reads ⟨captures, [], []⟩ 0 1 where
  items := .empty
  next hr := by rwa [one_mul]
  last hr := by rwa [zero_add]

theorem Reads.add (h : g.Reads D C) (hr : r.Reads L) : (g.add r).Reads D (C * L) where
  items := h.next hr
  next hr' := by
    rw [mul_assoc]
    exact h.next (hr.seq hr')
  last := h.last

theorem Reads.split (h : g.Reads D C) : g.split.Reads (D + C) 1 where
  items := .empty
  next hr := by rwa [one_mul]
  last hr := by
    rw [add_assoc]
    exact h.last (h.items.alt hr)

theorem Reads.close (h : g.Reads D C) : g.close.Reads (D + C) := by
  unfold OpenGroup.close
  split
  · exact (h.last h.items).group
  · exact h.last h.items

/-- Reading a language inside of an open group. Without bars it is read after the items; with bars,
where there are no items yet, it is another alternative. -/
def Extends : (bars : Bool) → OpenGroup → OpenGroup → Language Char → Prop
  | false, g, g', L => ∀ D C, g.Reads D C → g'.Reads D (C * L)
  | true, g, g', L => ∀ D, g.Reads D 1 → ∃ D' C', g'.Reads D' C' ∧ D' + C' = D + L

end OpenGroup

theorem Glyph.ofToken_eq_char {t : Token} (h : ¬ t.Special) : ofToken t = .char t.char := by
  obtain ⟨c, escaped⟩ := t
  cases escaped with
  | true => rfl
  | false =>
      simp only [ofToken, Bool.false_eq_true, if_false]
      split <;> simp_all [Token.Special, Token.is]

namespace Pairing

theorem pushPart_singleton (t : Token) (flags : Flags) (p : Pairing) :
    p.pushPart flags [t] = ((Glyph.ofToken t).pieces flags).foldlM push p := by
  rw [pushPart_cons]
  exact bind_pure _

/-- Pushed inside of a group, a tree adds its language to what the group has read. -/
theorem pushPart_tokens {bars : Bool} (g : Glob bars) (inner : OpenGroup)
    (outer : List OpenGroup) : ∃ inner', pushPart {} g.tokens ⟨inner, outer⟩ =
      .ok ⟨inner', outer⟩ ∧ OpenGroup.Extends bars inner inner' g.language := by
  induction g generalizing inner outer with
  | empty => exact ⟨inner, rfl, fun D C h => by rwa [Glob.language, mul_one]⟩
  | char t ordinary =>
      refine ⟨inner.add (.letter t.char false), ?_, fun D C h => h.add (.letter t.char)⟩
      rw [Glob.tokens, pushPart_singleton, Glyph.ofToken_eq_char ordinary]
      rfl
  | run => exact ⟨inner.add (.group (.anyRun false)), rfl, fun D C h => h.add (.group .anyRun)⟩
  | one => exact ⟨inner.add (.group (.anyChar false)), rfl, fun D C h => h.add (.group .anyChar)⟩
  | seq a b iha ihb =>
      obtain ⟨inner', hpush, hread⟩ := iha inner outer
      obtain ⟨inner'', hpush', hread'⟩ := ihb inner' outer
      refine ⟨inner'', ?_, fun D C h => ?_⟩
      · rw [Glob.tokens, pushPart_append, hpush]
        exact hpush'
      · rw [Glob.language, ← mul_assoc]
        exact hread' D _ (hread D C h)
  | group a ih =>
      obtain ⟨body, hpush, hread⟩ := ih ⟨true, [], []⟩ (inner :: outer)
      refine ⟨inner.add body.close, ?_, fun D C h => ?_⟩
      · rw [Glob.tokens, pushPart_cons]
        change (pushPart {} (a.tokens ++ _) ⟨_, inner :: outer⟩) = _
        rw [pushPart_append, hpush]
        rfl
      · obtain ⟨D', C', hbody, hsum⟩ := hread 0 (OpenGroup.reads_start true)
        rw [Glob.language, ← zero_add a.language, ← hsum]
        exact h.add hbody.close
  | plain a ih =>
      obtain ⟨inner', hpush, hread⟩ := ih inner outer
      exact ⟨inner', hpush, fun D h => ⟨D, _, hread D 1 h, by rw [one_mul, Glob.language]⟩⟩
  | alt a b iha ihb =>
      obtain ⟨left, hpush, hread⟩ := iha inner outer
      obtain ⟨right, hpush', hread'⟩ := ihb left.split outer
      refine ⟨right, ?_, fun D h => ?_⟩
      · rw [Glob.tokens, pushPart_append, hpush]
        exact hpush'
      · obtain ⟨D', C', hleft, hsum⟩ := hread D h
        obtain ⟨D'', C'', hright, hsum'⟩ := hread' _ hleft.split
        exact ⟨D'', C'', hright, by rw [hsum', hsum, Glob.language, add_assoc]⟩

end Pairing

/-- The expression of a pattern reads the language of its tree, between the two anchors. -/
theorem Pattern.exists_anchored {g : Glob true} {p : Pattern}
    (h : Pattern.compile {} g.tokens = .ok p) :
    ∃ body, p.regex = .seq .textStart (.seq body .textEnd) ∧ body.Reads g.language := by
  obtain ⟨inner, hpush, hread⟩ :=
    Pairing.pushPart_tokens g ⟨false, [], []⟩ [⟨false, [], [.textStart]⟩]
  obtain ⟨D, C, hinner, hsum⟩ := hread 0 (OpenGroup.reads_start false)
  rw [Pattern.compile_eq, Pairing.opened, hpush] at h
  refine ⟨inner.close, ?_, ?_⟩
  · cases h
    rfl
  · rw [← zero_add g.language, ← hsum]
    exact hinner.close

namespace Matcher

/-- What a test of a text answers if a language is accepted: captures if the text belongs to it, in
the given number, each one a piece of the text; and the whole text if nothing captures. -/
structure Answers (L : Language Char) (count : Nat) (text : String)
    (answer : Option (List String)) : Prop where
  isSome_iff : answer.isSome ↔ text.toList ∈ L
  length : ∀ captures ∈ answer, captures.length = max count 1
  whole : count = 0 → ∀ captures ∈ answer, captures = [text]
  piece : ∀ captures ∈ answer, ∀ x ∈ captures, x.toList <:+: text.toList

/-- The matcher accepts the texts of a language, as keys and as values. -/
structure Accepts (m : Matcher) (L : Language Char) (count : Nat) : Prop where
  key : ∀ key length, Answers L count key.text (m.matchKey? key length)
  value : ∀ {α : Type} [Tree α] (v : α), Tree.isContainer v = false →
    Answers L count (Tree.spelling v) (m.matchValue? v)

theorem answers_captures? {g : Glob true} {p : Pattern} (h : Pattern.compile {} g.tokens = .ok p)
    (text : String) :
    Answers g.language (g.tokens.countP Token.captures) text (p.captures? text) := by
  have hgroups := Pattern.groups_compile h
  obtain ⟨body, hregex, hbody⟩ := Pattern.exists_anchored h
  have hhit : ∀ {hit : Regex.Hit}, p.regex.search text.toList = some hit →
      hit.whole = text.toList ∧ Regex.Run text.toList.length body text.toList hit.captures [] := by
    intro hit hhit
    rw [hregex] at hhit
    exact Regex.search_anchored hhit
  have hwhole : g.tokens.countP Token.captures = 0 →
      ∀ captures ∈ p.captures? text, captures = [text] := by
    intro hcount captures hcaptures
    obtain ⟨hit, hfound, rfl⟩ := Option.map_eq_some_iff.mp hcaptures
    rw [if_pos (hgroups.trans hcount), (hhit hfound).1, String.ofList_toList]
  refine ⟨?_, ?_, hwhole, ?_⟩
  · rw [Pattern.captures?, Option.isSome_map, hregex, hbody.isSome_search_anchored_iff]
  · intro captures hcaptures
    rw [← hgroups]
    exact length_captures? hcaptures
  · intro captures hcaptures x hx
    by_cases hcount : g.tokens.countP Token.captures = 0
    · obtain rfl := hwhole hcount captures hcaptures
      rw [List.mem_singleton.mp hx]
    · obtain ⟨hit, hfound, rfl⟩ := Option.map_eq_some_iff.mp hcaptures
      rw [if_neg (hgroups ▸ hcount)] at hx
      exact (hhit hfound).2.infix_of_mem x hx

/-- Only ranges are read as ranges. -/
theorem readRange?_ne_pattern (cs : List Char) (p : Pattern) :
    readRange? cs ≠ some (pattern p) := by
  have hbounds : ∀ {a b inclusive}, readBounds? a b inclusive ≠ some (pattern p) := by
    intro a b inclusive h
    obtain ⟨m, -, h⟩ := Option.bind_eq_some_iff.mp h
    obtain ⟨n, -, h⟩ := Option.bind_eq_some_iff.mp h
    cases h
  intro h
  unfold readRange? at h
  split at h
  · obtain ⟨m, -, h⟩ := Option.bind_eq_some_iff.mp h
    obtain ⟨n, -, h⟩ := Option.bind_eq_some_iff.mp h
    obtain ⟨stop, -, h⟩ := Option.bind_eq_some_iff.mp h
    cases h
  · split at h
    · exact hbounds h
    · obtain ⟨⟨a, b⟩, -, h⟩ := Option.bind_eq_some_iff.mp h
      exact hbounds h

/-- A part that compiles to a pattern has special characters or is under flags. -/
theorem compile_of_ofTokens {flags : Flags} {part : List Token} {p : Pattern}
    (h : ofTokens flags part = .ok (pattern p)) :
    Pattern.compile flags part = .ok p ∧ (flags.isEmpty = false ∨ ∃ t ∈ part, t.Special) := by
  cases ofTokens_eq_ok_iff.mp h with
  | range _ hrange => exact absurd hrange (readRange?_ne_pattern _ p)
  | pattern _ _ hcond hp => exact ⟨hp, hcond⟩

theorem ofTokens_of_compile {part : String} {flags : Flags} {ts : List Token} {m : Matcher}
    (hscan : Token.scan? part.toList = some ts) (h : compile part flags = .ok m) :
    ofTokens flags ts = .ok m := by
  unfold compile at h
  rw [hscan] at h
  dsimp only at h
  split at h
  · rename_i m hm
    cases h
    exact hm
  · cases h

theorem compile_pattern {part : String} {flags : Flags} {ts : List Token} {p : Pattern}
    (hscan : Token.scan? part.toList = some ts) (h : compile part flags = .ok (pattern p)) :
    Pattern.compile flags ts = .ok p :=
  (compile_of_ofTokens (ofTokens_of_compile hscan h)).1

/-- A part that compiles to a pattern and whose parentheses are nested spells a tree, and the
pattern accepts the language of every tree that it spells. -/
theorem accepts_language {part : String} {ts : List Token} {p : Pattern}
    (hscan : Token.scan? part.toList = some ts) (hnested : Token.Nested 0 ts)
    (hcompile : compile part {} = .ok (pattern p)) :
    (∃ g : Glob true, g.tokens = ts) ∧ ∀ g : Glob true, g.tokens = ts →
      (pattern p).Accepts g.language (ts.countP Token.captures) := by
  have hpattern := compile_pattern hscan hcompile
  have hbalanced : Token.Balanced ts := (Pattern.exists_compile_iff {} ts).mp ⟨p, hpattern⟩
  refine ⟨Glob.exists_tokens hnested hbalanced.2, ?_⟩
  rintro g rfl
  refine ⟨fun key length => answers_captures? hpattern key.text, fun v hv => ?_⟩
  have htext : matchValue? (pattern p) v = p.captures? (Tree.spelling v) := by
    simp [matchValue?, matchText?, hv]
  rw [htext]
  exact answers_captures? hpattern (Tree.spelling v)

/-- An `a`, or a group of a `b` and anything after it. -/
def orRest : Glob true :=
  .alt (.plain (.char ⟨'a', false⟩ (by simp [Token.Special, Token.is])))
    (.plain (.group (.plain
      (.seq (.char ⟨'b', false⟩ (by simp [Token.Special, Token.is])) .run))))

theorem accepts_language_orRest :
    Token.scan? "a|(b*)".toList = some orRest.tokens ∧ Token.Nested 0 orRest.tokens ∧
      ∃ p, compile "a|(b*)" {} = .ok (pattern p) ∧ (pattern p).Accepts orRest.language 2 ∧
        "bcd".toList ∈ orRest.language ∧ "ab".toList ∉ orRest.language := by
  have hscan : Token.scan? "a|(b*)".toList = some orRest.tokens := rfl
  have hnested : Token.Nested 0 orRest.tokens :=
    (Token.nested_cons_level rfl rfl).mpr <| (Token.nested_cons_level rfl rfl).mpr <|
      (Token.nested_cons_open rfl rfl).mpr <| (Token.nested_cons_level rfl rfl).mpr <|
        (Token.nested_cons_level rfl rfl).mpr <| (Token.nested_succ_cons_close rfl rfl).mpr <|
          Token.nested_nil 0
  refine ⟨hscan, hnested, _, rfl, (accepts_language hscan hnested rfl).2 orRest rfl, ?_, ?_⟩
  · have hrest : ['c', 'd'] ∈ Glob.run.language := by
      change '\n' ∉ ['c', 'd']
      simp
    exact Or.inr (Language.append_mem_mul (Set.mem_singleton ['b']) hrest)
  · rintro (h | h)
    · cases h
    · obtain ⟨us, rfl, vs, -, h⟩ := Language.mem_mul.mp h
      cases h

end Matcher

end PathRules
