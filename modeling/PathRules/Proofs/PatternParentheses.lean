import PathRules.Pattern

/-!
# Parentheses of a pattern

A part of a path is put into a group of its own before its parentheses are paired, and they may
close that group and open another one in its place. So they are counted from depth one on. While a
part is pushed, the number of open groups is its depth: the part is refused at the first
parenthesis that would take the depth below zero, and at the end the depth has to be one again.
-/

namespace PathRules

/-- A computation with two steps returns what the second makes of the result of the first. -/
theorem bind_eq_ok_iff {ε α β : Type} {x : Except ε α} {f : α → Except ε β} {b : β} :
    (x >>= f) = .ok b ↔ ∃ a, x = .ok a ∧ f a = .ok b := by
  cases x with
  | error e => simp [bind, Except.bind]
  | ok a => simp [bind, Except.bind]

/-- A computation with two steps succeeds if both do. -/
theorem exists_bind_eq_ok_iff {ε α β : Type} {x : Except ε α} {f : α → Except ε β} :
    (∃ b, (x >>= f) = .ok b) ↔ ∃ a, x = .ok a ∧ ∃ b, f a = .ok b := by
  simp only [bind_eq_ok_iff]
  rw [exists_comm]
  exact exists_congr fun a => exists_and_left

namespace Token

/-- Whether parentheses, counted from a depth on, never go below zero. -/
def Nested (depth : Nat) (ts : List Token) : Prop :=
  ∀ us, us <+: ts → us.countP (·.is ')') ≤ depth + us.countP (·.is '(')

/-- Parentheses that, counted from depth one on, never go below zero and end at depth one. A part
stands in a group of its own, which its parentheses may close and open again. -/
def Balanced (ts : List Token) : Prop :=
  Nested 1 ts ∧ ts.countP (·.is '(') = ts.countP (·.is ')')

theorem is_eq_false_of_is {t : Token} {c d : Char} (ht : t.is c) (hcd : c ≠ d) :
    t.is d = false := by
  simp only [is, Bool.and_eq_true, Bool.not_eq_true', beq_iff_eq] at ht
  simp [is, ht, hcd]

section Nested

variable {t : Token} {ts : List Token} {depth : Nat}

theorem nested_nil (depth : Nat) : Nested depth [] := by
  intro us hus
  simp [List.prefix_nil.mp hus]

theorem nested_cons_iff : Nested depth (t :: ts) ↔ ∀ us, us <+: ts →
    (t :: us).countP (·.is ')') ≤ depth + (t :: us).countP (·.is '(') := by
  constructor
  · intro h us hus
    exact h (t :: us) ((List.prefix_cons_inj t).mpr hus)
  · intro h us hus
    rcases List.prefix_cons_iff.mp hus with rfl | ⟨vs, rfl, hvs⟩
    · simp
    · exact h vs hvs

theorem nested_cons_open (ht : t.is '(') (ht' : t.is ')' = false) :
    Nested depth (t :: ts) ↔ Nested (depth + 1) ts := by
  rw [nested_cons_iff, Nested]
  simp [ht, ht', Nat.add_assoc, Nat.add_comm 1]

theorem not_nested_zero_cons_close (ht : t.is ')') (ht' : t.is '(' = false) :
    ¬ Nested 0 (t :: ts) := by
  rw [nested_cons_iff]
  intro h
  simpa [ht, ht'] using h [] List.nil_prefix

theorem nested_succ_cons_close (ht : t.is ')') (ht' : t.is '(' = false) :
    Nested (depth + 1) (t :: ts) ↔ Nested depth ts := by
  rw [nested_cons_iff, Nested]
  simp only [List.countP_cons, ht, ht', if_true, Bool.false_eq_true, if_false]
  refine forall₂_congr fun us _ => ?_
  omega

theorem nested_cons_level (ht : t.is '(' = false) (ht' : t.is ')' = false) :
    Nested depth (t :: ts) ↔ Nested depth ts := by
  rw [nested_cons_iff, Nested]
  simp [ht, ht']

end Nested

end Token

theorem Glyph.ofToken_eq_opening_iff {t : Token} : ofToken t = .opening ↔ t.is '(' := by
  obtain ⟨c, escaped⟩ := t
  cases escaped with
  | true => simp [ofToken, Token.is]
  | false =>
      simp only [ofToken, Token.is, Bool.false_eq_true, if_false]
      split <;> simp_all

theorem Glyph.ofToken_eq_closing_iff {t : Token} : ofToken t = .closing ↔ t.is ')' := by
  obtain ⟨c, escaped⟩ := t
  cases escaped with
  | true => simp [ofToken, Token.is]
  | false =>
      simp only [ofToken, Token.is, Bool.false_eq_true, if_false]
      split <;> simp_all

namespace Pairing

/-- The pieces of a part, pushed one after the other. -/
def pushPart (flags : Flags) (part : List Token) (p : Pairing) : Except Fault Pairing :=
  ((part.map Glyph.ofToken).flatMap (Glyph.pieces flags)).foldlM push p

theorem pushPart_append (flags : Flags) (ts us : List Token) (p : Pairing) :
    p.pushPart flags (ts ++ us) = p.pushPart flags ts >>= fun q => q.pushPart flags us := by
  simp only [pushPart, List.map_append, List.flatMap_append, List.foldlM_append]

theorem pushPart_cons (flags : Flags) (t : Token) (ts : List Token) (p : Pairing) :
    p.pushPart flags (t :: ts) =
      ((Glyph.ofToken t).pieces flags).foldlM push p >>= fun q => q.pushPart flags ts := by
  simp only [pushPart, List.map_cons, List.flatMap_cons, List.foldlM_append]

/-- A symbol that is no parenthesis leaves the groups around it as they are. -/
theorem foldlM_push_level {g : Glyph} (hopen : g ≠ .opening) (hclose : g ≠ .closing)
    (flags : Flags) (p : Pairing) :
    ∃ p', (g.pieces flags).foldlM push p = .ok p' ∧ p'.outer = p.outer := by
  cases g with
  | char c =>
      rw [Glyph.pieces]
      split
      · exact ⟨p, rfl, rfl⟩
      · exact ⟨_, rfl, rfl⟩
  | run => exact ⟨_, rfl, rfl⟩
  | one => exact ⟨_, rfl, rfl⟩
  | bar => exact ⟨_, rfl, rfl⟩
  | opening => exact absurd rfl hopen
  | closing => exact absurd rfl hclose

/-- The pieces of a part, pushed inside of some groups: every parenthesis finds its group if the
part is nested, and then the depth at the end is known; else the first that does not is refused. -/
theorem pushPart_nested (flags : Flags) (part : List Token) (p : Pairing) :
    (Token.Nested p.outer.length part ∧ ∃ p', p.pushPart flags part = .ok p' ∧
      p'.outer.length + part.countP (·.is ')') = p.outer.length + part.countP (·.is '(')) ∨
    (¬ Token.Nested p.outer.length part ∧ p.pushPart flags part = .error .unopenedGroup) := by
  induction part generalizing p with
  | nil => exact Or.inl ⟨Token.nested_nil _, p, rfl, rfl⟩
  | cons t ts ih =>
      rw [pushPart_cons]
      cases hopen : t.is '(' with
      | true =>
          have hclose : t.is ')' = false := Token.is_eq_false_of_is hopen (by decide)
          rw [Glyph.ofToken_eq_opening_iff.mpr hopen, Token.nested_cons_open hopen hclose]
          refine (ih ⟨⟨true, [], []⟩, p.inner :: p.outer⟩).imp_left ?_
          rintro ⟨hnested, p', hp', hdepth⟩
          refine ⟨hnested, p', hp', ?_⟩
          simp only [List.length_cons] at hdepth
          simp [hopen, hclose]
          omega
      | false =>
          cases hclose : t.is ')' with
          | true =>
              rw [Glyph.ofToken_eq_closing_iff.mpr hclose]
              obtain ⟨inner, outer⟩ := p
              cases outer with
              | nil => exact Or.inr ⟨Token.not_nested_zero_cons_close hclose hopen, rfl⟩
              | cons g gs =>
                  rw [List.length_cons, Token.nested_succ_cons_close hclose hopen]
                  refine (ih ⟨g.add inner.close, gs⟩).imp_left ?_
                  rintro ⟨hnested, p', hp', hdepth⟩
                  refine ⟨hnested, p', hp', ?_⟩
                  simp only [List.countP_cons, hopen, hclose] at hdepth ⊢
                  simp only [if_true, Bool.false_eq_true, if_false]
                  omega
          | false =>
              obtain ⟨q, hq, houter⟩ := foldlM_push_level (g := Glyph.ofToken t)
                (by simp [Glyph.ofToken_eq_opening_iff, hopen])
                (by simp [Glyph.ofToken_eq_closing_iff, hclose]) flags p
              rw [Token.nested_cons_level hopen hclose, hq, ← houter]
              simp only [List.countP_cons, hopen, hclose, Bool.false_eq_true, if_false,
                Nat.add_zero]
              exact ih q

end Pairing

/-- The group around a part can be closed if it is the only one that is open. -/
theorem Pairing.exists_finish_iff (p : Pairing) :
    (∃ r, ([Piece.closing, .atom .textEnd].foldlM push p >>= finish) = .ok r) ↔
      p.outer.length = 1 := by
  obtain ⟨inner, outer⟩ := p
  match outer with
  | [] => exact iff_of_false (fun ⟨r, hr⟩ => nomatch hr) Nat.zero_ne_one
  | [g] => exact iff_of_true ⟨_, rfl⟩ rfl
  | g :: g' :: gs => exact iff_of_false (fun ⟨r, hr⟩ => nomatch hr) (by simp)

/-- The groups around a part: one of its own, after the anchor for the start. -/
def Pairing.opened : Pairing :=
  ⟨⟨false, [], []⟩, [⟨false, [], [.textStart]⟩]⟩

theorem Pattern.compile_eq (flags : Flags) (part : List Token) :
    Pattern.compile flags part =
      Pairing.opened.pushPart flags part >>= fun p =>
        ([Piece.closing, .atom .textEnd].foldlM Pairing.push p >>= Pairing.finish) >>=
          fun r => .ok ⟨part.map Glyph.ofToken, r⟩ := by
  simp only [Pattern.compile, Pattern.pieces, List.foldlM_append, bind_assoc]
  rfl

/-- A pattern compiles if its parentheses are balanced, and only then. -/
theorem Pattern.exists_compile_iff (flags : Flags) (part : List Token) :
    (∃ p, Pattern.compile flags part = .ok p) ↔ Token.Balanced part := by
  have hpairs : (∃ p, Pattern.compile flags part = .ok p) ↔
      ∃ p, Pairing.opened.pushPart flags part = .ok p ∧ p.outer.length = 1 := by
    simp [Pattern.compile_eq, exists_bind_eq_ok_iff, ← Pairing.exists_finish_iff]
  rw [hpairs]
  rcases Pairing.opened.pushPart_nested flags part with ⟨hnested, p, hp, hdepth⟩ | ⟨hnested, hfail⟩
  · have hlength : p.outer.length = 1 ↔ part.countP (·.is '(') = part.countP (·.is ')') := by
      change _ = 1 + _ at hdepth
      omega
    rw [hp, Token.Balanced, ← hlength]
    have hone : Token.Nested 1 part := hnested
    simpa using fun _ => hone
  · rw [hfail]
    exact iff_of_false (fun ⟨p, hp, _⟩ => nomatch hp) fun h => hnested h.1

end PathRules
