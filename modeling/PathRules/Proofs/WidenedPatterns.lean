import PathRules.Proofs.GreedyCaptures

/-!
# Patterns under flags

A flag changes the pieces of a pattern, one by one: letters match in either case, and wildcards
match line feeds. It changes nothing in the way in which pieces are paired, so the expression of a
flagged pattern is the plain expression with its letters and wildcards widened. Every way through
an expression is a way through the widened one, so whatever the plain pattern matches, the flagged
one matches.

A part without special characters is compared as it stands, but with a flag it is a pattern too.
As a mask without wildcards this pattern matches the text of the part and no other. So a flag that
widens nothing changes no answer, whatever the way on which the part is matched.
-/

namespace PathRules

namespace Regex

/-- The expression with its letters and wildcards as flags want them. -/
def under (flags : Flags) : Regex → Regex
  | letter c anyCase => letter c (anyCase || flags.anyCase)
  | anyChar newline => anyChar (newline || flags.dotAll)
  | anyRun newline => anyRun (newline || flags.dotAll)
  | seq a b => seq (a.under flags) (b.under flags)
  | alt a b => alt (a.under flags) (b.under flags)
  | group a => group (a.under flags)
  | empty => empty
  | textStart => textStart
  | textEnd => textEnd

theorem groups_under (flags : Flags) (r : Regex) : (r.under flags).groups = r.groups := by
  induction r with
  | seq a b iha ihb => simp only [under, groups, iha, ihb]
  | alt a b iha ihb => simp only [under, groups, iha, ihb]
  | group a ih => simp only [under, groups, ih]
  | _ => rfl

theorem unset_under (flags : Flags) (r : Regex) : (r.under flags).unset = r.unset := by
  rw [unset, unset, groups_under]

theorem under_eq_self {flags : Flags} (hcase : flags.anyCase = false)
    (hdot : flags.dotAll = false) (r : Regex) : r.under flags = r := by
  induction r with
  | seq a b iha ihb => rw [under, iha, ihb]
  | alt a b iha ihb => rw [under, iha, ihb]
  | group a ih => rw [under, ih]
  | letter c anyCase => rw [under, hcase, Bool.or_false]
  | anyChar newline => rw [under, hdot, Bool.or_false]
  | anyRun newline => rw [under, hdot, Bool.or_false]
  | _ => rfl

variable {length : Nat} {r : Regex} {cs ds : List Char} {xs : List String}

/-- A way through an expression is one through the widened expression, with the same captures. -/
theorem Run.under (h : Run length r cs xs ds) (flags : Flags) :
    Run length (r.under flags) cs xs ds := by
  induction h with
  | empty => exact .empty
  | letter hc => exact .letter (hc.imp_right (And.imp_left fun hcase => by simp [hcase]))
  | anyChar hd => exact .anyChar (hd.imp_left fun hdot => by simp [hdot])
  | anyRun hus => exact .anyRun (hus.imp_left fun hdot => by simp [hdot])
  | textStart hlength => exact .textStart hlength
  | textEnd => exact .textEnd
  | seq _ _ iha ihb => exact .seq iha ihb
  | left _ ih =>
      rw [← unset_under flags]
      exact .left ih
  | right _ ih =>
      rw [← unset_under flags]
      exact .right ih
  | group _ ih => exact .group ih

theorem isSome_search_under (flags : Flags) (h : (r.search cs).isSome) :
    ((r.under flags).search cs).isSome := by
  obtain ⟨hit, hhit⟩ := Option.isSome_iff_exists.mp h
  obtain ⟨start, xs, ds, hstart, hrun, -⟩ := exists_run_of_searchFrom hhit
  exact (hrun.under flags).isSome_searchFrom hstart

end Regex

namespace OpenGroup

/-- The group with what has been read inside of it widened. -/
def under (flags : Flags) (g : OpenGroup) : OpenGroup :=
  ⟨g.captures, g.ended.map (Regex.under flags), g.items.map (Regex.under flags)⟩

theorem sequence_under (flags : Flags) (items : List Regex) :
    sequence (items.map (Regex.under flags)) = (sequence items).under flags := by
  have hfold : ∀ (rs : List Regex) (r : Regex),
      (rs.map (Regex.under flags)).foldl (fun tail item => .seq item tail) (r.under flags) =
        (rs.foldl (fun tail item => Regex.seq item tail) r).under flags := by
    intro rs
    induction rs with
    | nil => exact fun _ => rfl
    | cons r' rs ih => exact fun r => ih (.seq r' r)
  cases items with
  | nil => rfl
  | cons r rs => exact hfold rs r

theorem alternatives_under (flags : Flags) (last : Regex) (ended : List Regex) :
    alternatives (last.under flags) (ended.map (Regex.under flags)) =
      (alternatives last ended).under flags := by
  induction ended generalizing last with
  | nil => rfl
  | cons r rs ih => exact ih (.alt r last)

theorem split_under (flags : Flags) (g : OpenGroup) :
    (g.under flags).split = g.split.under flags := by
  simp only [split, under, sequence_under, List.map_cons, List.map_nil]

theorem close_under (flags : Flags) (g : OpenGroup) :
    (g.under flags).close = g.close.under flags := by
  simp only [close, under, sequence_under, alternatives_under]
  cases g.captures <;> rfl

end OpenGroup

def Piece.under (flags : Flags) : Piece → Piece
  | atom r => atom (r.under flags)
  | bar => bar
  | opening captures => opening captures
  | closing => closing

/-- Flags widen the pieces of a symbol. -/
theorem Glyph.pieces_under {flags : Flags} (hblank : flags.extended = false) (g : Glyph) :
    g.pieces flags = (g.pieces {}).map (Piece.under flags) := by
  cases g <;> simp [pieces, Piece.under, Regex.under, hblank]

namespace Pairing

def under (flags : Flags) (p : Pairing) : Pairing :=
  ⟨p.inner.under flags, p.outer.map (OpenGroup.under flags)⟩

/-- Pushing a widened piece widens the groups that are pushed to. -/
theorem push_under (flags : Flags) (p : Pairing) (piece : Piece) :
    (p.under flags).push (piece.under flags) = (p.push piece).map (under flags) := by
  obtain ⟨inner, outer⟩ := p
  cases piece with
  | atom r => rfl
  | opening captures => rfl
  | bar => exact congrArg Except.ok (congrArg (Pairing.mk · _) (OpenGroup.split_under flags inner))
  | closing =>
      cases outer with
      | nil => rfl
      | cons g gs =>
          have hadd : (g.under flags).add (inner.under flags).close =
              (g.add inner.close).under flags := by
            rw [OpenGroup.close_under]
            rfl
          exact congrArg Except.ok (congrArg (Pairing.mk · _) hadd)

theorem foldlM_push_under (flags : Flags) (pieces : List Piece) (p : Pairing) :
    (pieces.map (Piece.under flags)).foldlM push (p.under flags) =
      (pieces.foldlM push p).map (under flags) := by
  induction pieces generalizing p with
  | nil => rfl
  | cons piece pieces ih =>
      rw [List.map_cons, List.foldlM_cons, List.foldlM_cons, push_under]
      cases p.push piece with
      | error fault => rfl
      | ok q => exact ih q

theorem finish_under (flags : Flags) (p : Pairing) :
    (p.under flags).finish = p.finish.map (Regex.under flags) := by
  obtain ⟨inner, outer⟩ := p
  cases outer with
  | nil => exact congrArg Except.ok (OpenGroup.close_under flags inner)
  | cons g gs => rfl

end Pairing

namespace Pattern

variable {flags : Flags} {p : Pattern}

def under (flags : Flags) (p : Pattern) : Pattern :=
  { p with regex := p.regex.under flags }

/-- A pattern compiles under flags to the widened pattern. -/
theorem compile_under (hblank : flags.extended = false) (ts : List Token) :
    compile flags ts = (compile {} ts).map (under flags) := by
  have hpieces : pieces flags (ts.map Glyph.ofToken) =
      (pieces {} (ts.map Glyph.ofToken)).map (Piece.under flags) := by
    simp only [pieces, List.map_append, List.map_flatMap, ← Glyph.pieces_under hblank]
    rfl
  have hstart : Pairing.start.under flags = Pairing.start := rfl
  have hfold := Pairing.foldlM_push_under flags (pieces {} (ts.map Glyph.ofToken)) .start
  rw [← hpieces, hstart] at hfold
  simp only [compile, hfold]
  cases (pieces {} (ts.map Glyph.ofToken)).foldlM Pairing.push .start with
  | error fault => rfl
  | ok q =>
      change ((q.under flags).finish >>= fun r => .ok (Pattern.mk _ r)) =
        (q.finish >>= fun r => .ok (Pattern.mk _ r)).map (under flags)
      rw [Pairing.finish_under]
      cases q.finish <;> rfl

theorem isSome_captures?_under (flags : Flags) {s : String} (h : (p.captures? s).isSome) :
    ((p.under flags).captures? s).isSome := by
  rw [captures?, Option.isSome_map] at h ⊢
  exact Regex.isSome_search_under flags h

theorem under_eq_self (hcase : flags.anyCase = false) (hdot : flags.dotAll = false)
    (p : Pattern) : p.under flags = p := by
  rw [under, Regex.under_eq_self hcase hdot]

end Pattern

namespace Matcher

/-- Whatever key or value the first matcher matches, the second matches too. -/
structure Within (m m' : Matcher) : Prop where
  key (k : Key) (length : Option Nat) :
    (m.matchKey? k length).isSome → (m'.matchKey? k length).isSome
  value {α : Type} [Tree α] (v : α) : (m.matchValue? v).isSome → (m'.matchValue? v).isSome

theorem Within.refl (m : Matcher) : m.Within m :=
  ⟨fun _ _ => id, fun _ => id⟩

theorem Within.trans {m₁ m₂ m₃ : Matcher} (h : m₁.Within m₂) (h' : m₂.Within m₃) :
    m₁.Within m₃ :=
  ⟨fun k length hk => h'.key k length (h.key k length hk), fun v hv => h'.value v (h.value v hv)⟩

/-- A matcher that compares the text of a key or of a scalar. -/
inductive Textual : Matcher → Prop
  | literal (s : String) : Textual (literal s)
  | pattern (p : Pattern) : Textual (pattern p)

variable {m m' : Matcher} {flags : Flags} {ts : List Token}

theorem Textual.matchKey?_eq (hm : m.Textual) (k : Key) (length : Option Nat) :
    m.matchKey? k length = m.matchText? k.text := by
  cases hm <;> rfl

theorem Textual.matchValue?_eq {α : Type} [Tree α] (hm : m.Textual) (v : α) :
    m.matchValue? v =
      if Tree.isContainer v then none else m.matchText? (Tree.spelling v) := by
  cases hm <;> rfl

theorem Textual.within (hm : m.Textual) (hm' : m'.Textual)
    (h : ∀ s, (m.matchText? s).isSome → (m'.matchText? s).isSome) : m.Within m' where
  key k length := by
    rw [hm.matchKey?_eq, hm'.matchKey?_eq]
    exact h k.text
  value v := by
    rw [hm.matchValue?_eq, hm'.matchValue?_eq]
    split
    · exact id
    · exact h (Tree.spelling v)

theorem pattern_within_under (flags : Flags) (p : Pattern) :
    (pattern p).Within (pattern (p.under flags)) :=
  (Textual.pattern _).within (.pattern _) fun _ => Pattern.isSome_captures?_under flags

/-- A part without special characters is compared as it stands. As a pattern it matches the same
texts. -/
theorem exists_compile_of_plain (hts : ∀ t ∈ ts, ¬ t.Special) :
    ∃ p, Pattern.compile {} ts = .ok p ∧
      (literal (String.ofList (ts.map Token.char))).Within (pattern p) ∧
      (pattern p).Within (literal (String.ofList (ts.map Token.char))) := by
  obtain ⟨l, rfl⟩ : ∃ l : List Ordinary, l.map Subtype.val = ts :=
    ⟨ts.attach.map fun t => ⟨t.val, hts t.val t.property⟩, by simp [Function.comp_def]⟩
  obtain ⟨p, hp⟩ : ∃ p, Pattern.compile {} (Mask.last l).tokens = .ok p := by
    rw [Pattern.compile_eq, Pairing.pushPart_mask]
    exact ⟨_, rfl⟩
  have htext : ∀ s : String, (p.captures? s).isSome ↔
      ((literal (String.ofList ((l.map Subtype.val).map Token.char))).matchText? s).isSome := by
    intro s
    have hchars : (l.map Subtype.val).map Token.char = Ordinary.text l := List.map_map
    rw [Mask.isSome_captures?_iff hp, hchars]
    simp only [Mask.splits_last_iff, matchText?, exists_and_left, exists_eq, and_true]
    split
    · rename_i heq
      simp [← heq]
    · rename_i hne
      simp only [Option.isSome_none, Bool.false_eq_true, iff_false]
      rintro htext
      exact hne (by rw [← htext, String.ofList_toList])
  exact ⟨p, hp, (Textual.literal _).within (.pattern p) fun s => (htext s).mpr,
    (Textual.pattern p).within (.literal _) fun s => (htext s).mp⟩

/-- Under flags that leave blanks alone a part compiles to a matcher that matches no less, and if
the flags widen nothing, then no more either. -/
theorem exists_ofTokens_within (hblank : flags.extended = false) (h : ofTokens {} ts = .ok m) :
    ∃ m', ofTokens flags ts = .ok m' ∧ m.Within m' ∧
      (flags.anyCase = false → flags.dotAll = false → m'.Within m) := by
  have hself : ∀ p : Pattern, flags.anyCase = false → flags.dotAll = false →
      (pattern (p.under flags)).Within (pattern p) := by
    intro p hcase hdot
    rw [Pattern.under_eq_self hcase hdot]
    exact Within.refl _
  have hunder : ∀ p, Pattern.compile {} ts = .ok p →
      Pattern.compile flags ts = .ok (p.under flags) := by
    intro p hp
    rw [Pattern.compile_under hblank, hp]
    rfl
  cases ofTokens_eq_ok_iff.mp h with
  | any hwild =>
      exact ⟨any, ofTokens_eq_ok_iff.mpr (.any hwild), Within.refl _, fun _ _ => Within.refl _⟩
  | range hwild hrange =>
      exact ⟨m, ofTokens_eq_ok_iff.mpr (.range hwild hrange), Within.refl _,
        fun _ _ => Within.refl _⟩
  | @pattern p hwild hrange hcond hp =>
      have hspecial : ∃ t ∈ ts, t.Special := hcond.resolve_left (by decide)
      exact ⟨pattern (p.under flags),
        ofTokens_eq_ok_iff.mpr (.pattern hwild hrange (.inr hspecial) (hunder p hp)),
        pattern_within_under flags p, hself p⟩
  | literal hwild hrange _ hplain =>
      cases hempty : flags.isEmpty with
      | true =>
          exact ⟨_, ofTokens_eq_ok_iff.mpr (.literal hwild hrange hempty hplain), Within.refl _,
            fun _ _ => Within.refl _⟩
      | false =>
          -- the flag alone makes a pattern of a part that is compared as it stands without it
          obtain ⟨p, hp, hwithin, hback⟩ := exists_compile_of_plain hplain
          exact ⟨pattern (p.under flags),
            ofTokens_eq_ok_iff.mpr (.pattern hwild hrange (.inl hempty) (hunder p hp)),
            hwithin.trans (pattern_within_under flags p),
            fun hcase hdot => (hself p hcase hdot).trans hback⟩

end Matcher

end PathRules
