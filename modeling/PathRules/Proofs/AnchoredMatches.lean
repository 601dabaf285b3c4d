import PathRules.Proofs.PatternLanguage

/-!
# Anchored matches

A pattern is meant to match whole texts, so it stands in a group between an anchor for the start and
one for the end. But its parentheses may close that group, and a bar that then stands outside of all
groups makes alternatives of which the first has only the anchor for the start and the last only the
one for the end. Without such a bar every match covers the whole text. With such a bar, and without
the flag that lets wildcards match line feeds, there is always a text of which only a first part is
matched: what the first alternative matches, with enough line feeds after it.

While the parts of a pattern are pushed, the groups are a stack with the whole expression at its
bottom. The bottom begins with the anchor until a bar splits it, which happens when no other group
is open, and once it is split its first alternative stays.
-/

namespace PathRules

namespace Token

/-- Whether a bar stands outside of all groups, where a number of them is open at the start. -/
def BarOutside (depth : Nat) (ts : List Token) : Prop :=
  ∃ us vs, ts = us ++ ⟨'|', false⟩ :: vs ∧ us.countP (·.is ')') = depth + us.countP (·.is '(')

section BarOutside

variable {t : Token} {ts : List Token} {depth : Nat}

theorem not_barOutside_nil (depth : Nat) : ¬ BarOutside depth [] := by
  rintro ⟨us, vs, h, -⟩
  simp at h

theorem barOutside_cons_iff : BarOutside depth (t :: ts) ↔
    (t = ⟨'|', false⟩ ∧ depth = 0) ∨ ∃ us vs, ts = us ++ ⟨'|', false⟩ :: vs ∧
      (t :: us).countP (·.is ')') = depth + (t :: us).countP (·.is '(') := by
  constructor
  · rintro ⟨us, vs, hts, hcount⟩
    rcases List.cons_eq_append_iff.mp hts with ⟨rfl, hbar⟩ | ⟨us, rfl, rfl⟩
    · cases hbar
      exact Or.inl ⟨rfl, by simpa using hcount.symm⟩
    · exact Or.inr ⟨us, vs, rfl, hcount⟩
  · rintro (⟨rfl, rfl⟩ | ⟨us, vs, rfl, hcount⟩)
    · exact ⟨[], ts, rfl, rfl⟩
    · exact ⟨t :: us, vs, rfl, hcount⟩

theorem barOutside_cons_open (ht : t.is '(') (ht' : t.is ')' = false) :
    BarOutside depth (t :: ts) ↔ BarOutside (depth + 1) ts := by
  have hbar : t ≠ ⟨'|', false⟩ := by
    rintro rfl
    cases ht
  rw [barOutside_cons_iff, or_iff_right fun h => hbar h.1, BarOutside]
  simp [ht, ht', Nat.add_assoc, Nat.add_comm 1]

theorem barOutside_succ_cons_close (ht : t.is ')') (ht' : t.is '(' = false) :
    BarOutside (depth + 1) (t :: ts) ↔ BarOutside depth ts := by
  rw [barOutside_cons_iff, or_iff_right fun h => Nat.succ_ne_zero depth h.2, BarOutside]
  simp only [List.countP_cons, ht, ht', if_true, Bool.false_eq_true, if_false]
  refine exists₂_congr fun us vs => and_congr_right fun _ => ?_
  omega

theorem barOutside_cons_level (hopen : t.is '(' = false) (hclose : t.is ')' = false) :
    BarOutside depth (t :: ts) ↔ (t = ⟨'|', false⟩ ∧ depth = 0) ∨ BarOutside depth ts := by
  rw [barOutside_cons_iff, BarOutside]
  simp [hopen, hclose]

end BarOutside

end Token

theorem Glyph.ofToken_eq_bar_iff {t : Token} : ofToken t = .bar ↔ t = ⟨'|', false⟩ := by
  obtain ⟨c, escaped⟩ := t
  cases escaped with
  | true => simp [ofToken]
  | false =>
      simp only [ofToken, Bool.false_eq_true, if_false]
      split <;> simp_all

/-- A property of expressions that those of a pattern have if its characters and wildcards do. -/
structure Regex.Hereditary (flags : Flags) (Q : Regex → Prop) : Prop where
  empty : Q .empty
  letter : ∀ c, Q (.letter c flags.anyCase)
  anyChar : Q (.anyChar flags.dotAll)
  anyRun : Q (.anyRun flags.dotAll)
  seq : ∀ {a b}, Q a → Q b → Q (.seq a b)
  alt : ∀ {a b}, Q a → Q b → Q (.alt a b)
  group : ∀ {a}, Q a → Q (.group a)

namespace OpenGroup

variable {flags : Flags} {Q : Regex → Prop} {g : OpenGroup} {r : Regex}

/-- All that has been read inside of a group has a property. -/
def All (Q : Regex → Prop) (g : OpenGroup) : Prop :=
  (∀ r ∈ g.items, Q r) ∧ ∀ r ∈ g.ended, Q r

/-- The whole expression before it is split: it begins with the anchor. -/
def Single (Q : Regex → Prop) (g : OpenGroup) : Prop :=
  g.captures = false ∧ g.ended = [] ∧ ∃ items, g.items = items ++ [.textStart] ∧ ∀ r ∈ items, Q r

/-- The whole expression after it was split: its first alternative begins with the anchor. -/
def Several (Q : Regex → Prop) (g : OpenGroup) : Prop :=
  g.captures = false ∧ ∃ ended items, g.ended = ended ++ [sequence (items ++ [.textStart])] ∧
    ∀ r ∈ items, Q r

theorem of_sequence (hQ : Regex.Hereditary flags Q) {items : List Regex} (h : ∀ r ∈ items, Q r) :
    Q (sequence items) := by
  have hfold : ∀ (rs : List Regex) (r : Regex), Q r → (∀ r ∈ rs, Q r) →
      Q (rs.foldl (fun tail item => .seq item tail) r) := by
    intro rs
    induction rs with
    | nil => exact fun r hr _ => hr
    | cons r' rs ih =>
        intro r hr hrs
        obtain ⟨hr', hrs⟩ := List.forall_mem_cons.mp hrs
        exact ih _ (hQ.seq hr' hr) hrs
  cases items with
  | nil => exact hQ.empty
  | cons r rs =>
      obtain ⟨hr, hrs⟩ := List.forall_mem_cons.mp h
      exact hfold rs r hr hrs

theorem of_alternatives (hQ : Regex.Hereditary flags Q) {ended : List Regex} (hr : Q r)
    (h : ∀ r ∈ ended, Q r) : Q (alternatives r ended) := by
  unfold alternatives
  induction ended generalizing r with
  | nil => exact hr
  | cons r' ended ih =>
      obtain ⟨hr', hended⟩ := List.forall_mem_cons.mp h
      exact ih (hQ.alt hr' hr) hended

theorem All.close (hQ : Regex.Hereditary flags Q) (h : g.All Q) : Q g.close := by
  have hread := of_alternatives hQ (of_sequence hQ h.1) h.2
  unfold OpenGroup.close
  split
  · exact hQ.group hread
  · exact hread

theorem All.add (h : g.All Q) (hr : Q r) : (g.add r).All Q :=
  ⟨List.forall_mem_cons.mpr ⟨hr, h.1⟩, h.2⟩

theorem All.split (hQ : Regex.Hereditary flags Q) (h : g.All Q) : g.split.All Q :=
  ⟨by simp [OpenGroup.split], List.forall_mem_cons.mpr ⟨of_sequence hQ h.1, h.2⟩⟩

theorem Single.add (h : g.Single Q) (hr : Q r) : (g.add r).Single Q := by
  obtain ⟨hcaptures, hended, items, hitems, hall⟩ := h
  refine ⟨hcaptures, hended, r :: items, ?_, List.forall_mem_cons.mpr ⟨hr, hall⟩⟩
  rw [OpenGroup.add, hitems, List.cons_append]

theorem Single.split (h : g.Single Q) : g.split.Several Q := by
  obtain ⟨hcaptures, hended, items, hitems, hall⟩ := h
  exact ⟨hcaptures, [], items, by rw [OpenGroup.split, hended, hitems]; rfl, hall⟩

theorem Several.add (h : g.Several Q) : (g.add r).Several Q := h

theorem Several.split (h : g.Several Q) : g.split.Several Q := by
  obtain ⟨hcaptures, ended, items, hended, hall⟩ := h
  refine ⟨hcaptures, sequence g.items :: ended, items, ?_, hall⟩
  rw [OpenGroup.split, hended, List.cons_append]

end OpenGroup

namespace Pairing

variable {flags : Flags} {Q : Regex → Prop} {P : OpenGroup → Prop} {p q : Pairing}

/-- What holds of the group at the bottom, while the groups above it have read expressions with a
property. -/
def Bottom (Q : Regex → Prop) (P : OpenGroup → Prop) (p : Pairing) : Prop :=
  ∃ above bottom, p.inner :: p.outer = above ++ [bottom] ∧ (∀ g ∈ above, g.All Q) ∧ P bottom

theorem bottom_cons_iff {g g' : OpenGroup} {gs : List OpenGroup} :
    Bottom Q P ⟨g, g' :: gs⟩ ↔ g.All Q ∧ Bottom Q P ⟨g', gs⟩ := by
  constructor
  · rintro ⟨above, bottom, hgroups, habove, hbottom⟩
    cases above with
    | nil => cases hgroups
    | cons h above =>
        obtain ⟨rfl, hrest⟩ := List.cons.inj hgroups
        obtain ⟨hg, habove⟩ := List.forall_mem_cons.mp habove
        exact ⟨hg, above, bottom, hrest, habove, hbottom⟩
  · rintro ⟨hg, above, bottom, hgroups, habove, hbottom⟩
    refine ⟨g :: above, bottom, ?_, List.forall_mem_cons.mpr ⟨hg, habove⟩, hbottom⟩
    rw [List.cons_append, ← hgroups]

theorem bottom_singleton_iff {g : OpenGroup} : Bottom Q P ⟨g, []⟩ ↔ P g := by
  constructor
  · rintro ⟨above, bottom, hgroups, -, hbottom⟩
    cases above with
    | nil =>
        cases hgroups
        exact hbottom
    | cons h above =>
        have hlength := congrArg List.length hgroups
        simp at hlength
  · exact fun h => ⟨[], g, rfl, by simp, h⟩

/-- One more item in the innermost group. -/
theorem Bottom.add (hadd : ∀ {g r}, P g → Q r → P (g.add r)) {g : OpenGroup}
    {gs : List OpenGroup} {r : Regex} (h : Bottom Q P ⟨g, gs⟩) (hr : Q r) :
    Bottom Q P ⟨g.add r, gs⟩ := by
  cases gs with
  | nil => exact bottom_singleton_iff.mpr (hadd (bottom_singleton_iff.mp h) hr)
  | cons g' gs =>
      obtain ⟨hg, hrest⟩ := bottom_cons_iff.mp h
      exact bottom_cons_iff.mpr ⟨hg.add hr, hrest⟩

theorem Bottom.open (h : Bottom Q P p) (captures : Bool) :
    Bottom Q P ⟨⟨captures, [], []⟩, p.inner :: p.outer⟩ :=
  bottom_cons_iff.mpr ⟨⟨by simp, by simp⟩, h⟩

/-- A group that is closed becomes an item of the one around it. -/
theorem Bottom.close (hQ : Regex.Hereditary flags Q) (hadd : ∀ {g r}, P g → Q r → P (g.add r))
    {g g' : OpenGroup} {gs : List OpenGroup} (h : Bottom Q P ⟨g, g' :: gs⟩) :
    Bottom Q P ⟨g'.add g.close, gs⟩ := by
  obtain ⟨hg, hrest⟩ := bottom_cons_iff.mp h
  exact hrest.add hadd (hg.close hQ)

/-- A bar splits the innermost group, which is the bottom only if no other group is open. -/
theorem Bottom.split (hQ : Regex.Hereditary flags Q) {g g' : OpenGroup} {gs : List OpenGroup}
    (h : Bottom Q P ⟨g, g' :: gs⟩) : Bottom Q P ⟨g.split, g' :: gs⟩ := by
  obtain ⟨hg, hrest⟩ := bottom_cons_iff.mp h
  exact bottom_cons_iff.mpr ⟨hg.split hQ, hrest⟩

/-- A symbol that is no bar and no parenthesis adds items to the innermost group. -/
theorem Bottom.level (hQ : Regex.Hereditary flags Q) (hadd : ∀ {g r}, P g → Q r → P (g.add r))
    (h : Bottom Q P p) {glyph : Glyph} (hbar : glyph ≠ .bar) (hopen : glyph ≠ .opening)
    (hclose : glyph ≠ .closing) :
    ∃ g, (glyph.pieces flags).foldlM push p = .ok ⟨g, p.outer⟩ ∧ Bottom Q P ⟨g, p.outer⟩ := by
  have hitem : ∀ {r}, Q r → Bottom Q P ⟨p.inner.add r, p.outer⟩ := fun hr => h.add hadd hr
  cases glyph with
  | char c =>
      rw [Glyph.pieces]
      split
      · exact ⟨p.inner, rfl, h⟩
      · exact ⟨_, rfl, hitem (hQ.letter c)⟩
  | run => exact ⟨_, rfl, hitem (hQ.group hQ.anyRun)⟩
  | one => exact ⟨_, rfl, hitem (hQ.group hQ.anyChar)⟩
  | bar => exact absurd rfl hbar
  | opening => exact absurd rfl hopen
  | closing => exact absurd rfl hclose

/-- A symbol is a bar outside of all groups, or the bottom keeps whatever items keep, and bars are
outside of all groups after it where they were before. -/
theorem bottom_of_push (hQ : Regex.Hereditary flags Q) {t : Token}
    (hpush : ((Glyph.ofToken t).pieces flags).foldlM push p = .ok q) :
    (t = ⟨'|', false⟩ ∧ p.outer = [] ∧ q = ⟨p.inner.split, []⟩) ∨
      (∀ ts, Token.BarOutside p.outer.length (t :: ts) ↔ Token.BarOutside q.outer.length ts) ∧
      ∀ {P : OpenGroup → Prop}, (∀ {g r}, P g → Q r → P (g.add r)) → Bottom Q P p →
        Bottom Q P q := by
  obtain ⟨inner, outer⟩ := p
  cases hopen : t.is '(' with
  | true =>
      have hclose : t.is ')' = false := Token.is_eq_false_of_is hopen (by decide)
      rw [Glyph.ofToken_eq_opening_iff.mpr hopen] at hpush
      cases hpush
      exact Or.inr ⟨fun ts => Token.barOutside_cons_open hopen hclose, fun _ h => h.open true⟩
  | false =>
      cases hclose : t.is ')' with
      | true =>
          rw [Glyph.ofToken_eq_closing_iff.mpr hclose] at hpush
          cases outer with
          | nil => cases hpush
          | cons g gs =>
              cases hpush
              exact Or.inr ⟨fun ts => Token.barOutside_succ_cons_close hclose hopen,
                fun hadd h => h.close hQ hadd⟩
      | false =>
          by_cases hbar : t = ⟨'|', false⟩
          · rw [Glyph.ofToken_eq_bar_iff.mpr hbar] at hpush
            cases hpush
            cases outer with
            | nil => exact Or.inl ⟨hbar, rfl, rfl⟩
            | cons g gs =>
                refine Or.inr ⟨fun ts => ?_, fun _ h => h.split hQ⟩
                rw [Token.barOutside_cons_level hopen hclose]
                exact or_iff_right fun h => Nat.succ_ne_zero gs.length h.2
          · have hopen' : Glyph.ofToken t ≠ .opening := by
              simp [Glyph.ofToken_eq_opening_iff, hopen]
            have hclose' : Glyph.ofToken t ≠ .closing := by
              simp [Glyph.ofToken_eq_closing_iff, hclose]
            have hlevel : ∀ {P : OpenGroup → Prop}, (∀ {g r}, P g → Q r → P (g.add r)) →
                Bottom Q P ⟨inner, outer⟩ → q.outer = outer ∧ Bottom Q P q := by
              intro P hadd h
              obtain ⟨g, hg, hbottom⟩ :=
                h.level hQ hadd (mt Glyph.ofToken_eq_bar_iff.mp hbar) hopen' hclose'
              cases hg.symm.trans hpush
              exact ⟨rfl, hbottom⟩
            refine Or.inr ⟨fun ts => ?_, fun hadd h => (hlevel hadd h).2⟩
            obtain ⟨q', hq', houter⟩ := foldlM_push_level hopen' hclose' flags ⟨inner, outer⟩
            cases hq'.symm.trans hpush
            rw [Token.barOutside_cons_level hopen hclose, houter]
            exact or_iff_right fun h => hbar h.1

/-- Pushing a part, the bottom keeps what items and bars keep. -/
theorem Bottom.pushPart (hQ : Regex.Hereditary flags Q)
    (hadd : ∀ {g r}, P g → Q r → P (g.add r)) (hsplit : ∀ {g}, P g → P g.split)
    {ts : List Token} (h : Bottom Q P p) (hpush : p.pushPart flags ts = .ok q) :
    Bottom Q P q := by
  induction ts generalizing p with
  | nil =>
      cases hpush
      exact h
  | cons t ts ih =>
      rw [pushPart_cons] at hpush
      obtain ⟨p', hp', hrest⟩ := bind_eq_ok_iff.mp hpush
      rcases bottom_of_push hQ hp' with ⟨-, houter, rfl⟩ | ⟨-, hkeep⟩
      · obtain ⟨inner, outer⟩ := p
        obtain rfl : outer = [] := houter
        exact ih (bottom_singleton_iff.mpr (hsplit (bottom_singleton_iff.mp h))) hrest
      · exact ih (hkeep hadd h) hrest

/-- Pushing a part, the bottom is split if a bar stands outside of all groups, and only then. -/
theorem bottom_of_pushPart (hQ : Regex.Hereditary flags Q) {ts : List Token}
    (h : Bottom Q (OpenGroup.Single Q) p) (hpush : p.pushPart flags ts = .ok q) :
    (Token.BarOutside p.outer.length ts ∧ Bottom Q (OpenGroup.Several Q) q) ∨
      (¬ Token.BarOutside p.outer.length ts ∧ Bottom Q (OpenGroup.Single Q) q) := by
  induction ts generalizing p with
  | nil =>
      cases hpush
      exact Or.inr ⟨Token.not_barOutside_nil _, h⟩
  | cons t ts ih =>
      rw [pushPart_cons] at hpush
      obtain ⟨p', hp', hrest⟩ := bind_eq_ok_iff.mp hpush
      rcases bottom_of_push hQ hp' with ⟨rfl, houter, rfl⟩ | ⟨hbar, hkeep⟩
      · obtain ⟨inner, outer⟩ := p
        obtain rfl : outer = [] := houter
        have hsplit : Bottom Q (OpenGroup.Several Q) ⟨inner.split, []⟩ :=
          bottom_singleton_iff.mpr (bottom_singleton_iff.mp h).split
        exact Or.inl ⟨⟨[], ts, rfl, rfl⟩,
          hsplit.pushPart hQ (fun h _ => h.add) (fun h => h.split) hrest⟩
      · rw [hbar ts]
        exact ih (hkeep (fun h hr => h.add hr) h) hrest

end Pairing

/-- The expression of a pattern begins with the anchor and ends with the other one, or it is a
choice of which the first alternative begins with the anchor. -/
theorem Pattern.regex_cases {flags : Flags} {Q : Regex → Prop} (hQ : Regex.Hereditary flags Q)
    {ts : List Token} {p : Pattern} (h : Pattern.compile flags ts = .ok p) :
    (Token.BarOutside 1 ts ∧ ∃ items rest, (∀ r ∈ items, Q r) ∧
      p.regex = .alt (OpenGroup.sequence (items ++ [.textStart])) rest) ∨
    (¬ Token.BarOutside 1 ts ∧ ∃ items,
      p.regex = OpenGroup.sequence (.textEnd :: (items ++ [.textStart]))) := by
  rw [Pattern.compile_eq] at h
  obtain ⟨⟨inner, outer⟩, hpush, h⟩ := bind_eq_ok_iff.mp h
  obtain ⟨r, hr, hp⟩ := bind_eq_ok_iff.mp h
  cases hp
  have hopened : Pairing.opened.Bottom Q (OpenGroup.Single Q) :=
    Pairing.bottom_cons_iff.mpr ⟨⟨by simp, by simp⟩,
      Pairing.bottom_singleton_iff.mpr ⟨rfl, rfl, [], rfl, by simp⟩⟩
  have hbottom := Pairing.bottom_of_pushPart hQ hopened hpush
  match outer with
  | [] => cases hr
  | g :: g' :: gs => cases hr
  | [g] =>
      have hr : ((g.add inner.close).add .textEnd).close = r := Except.ok.inj hr
      have hgroup : ∀ {P}, Pairing.Bottom Q P ⟨inner, [g]⟩ → P g := fun h =>
        Pairing.bottom_singleton_iff.mp (Pairing.bottom_cons_iff.mp h).2
      refine hbottom.imp (fun hseveral => ?_) fun hsingle => ?_
      · obtain ⟨hcaptures, ended, items, hended, hitems⟩ := hgroup hseveral.2
        refine ⟨hseveral.1, items, OpenGroup.alternatives
          (OpenGroup.sequence (.textEnd :: inner.close :: g.items)) ended, hitems, ?_⟩
        rw [← hr, OpenGroup.close, OpenGroup.add, OpenGroup.add, hcaptures, hended,
          OpenGroup.alternatives, List.foldl_append]
        rfl
      · obtain ⟨hcaptures, hended, items, hitems, -⟩ := hgroup hsingle.2
        refine ⟨hsingle.1, inner.close :: items, ?_⟩
        rw [← hr, OpenGroup.close, OpenGroup.add, OpenGroup.add, hcaptures, hended, hitems]
        rfl

namespace Regex

variable {length : Nat} {r a b : Regex} {items : List Regex} {cs ds : List Char}
  {xs : List String}

/-- The items of a group are kept from the last to the first: what comes last is read first. -/
theorem run_sequence_concat_iff :
    Run length (OpenGroup.sequence (items ++ [r])) cs xs ds ↔ ∃ ys es zs, Run length r cs ys es ∧
      Run length (OpenGroup.sequence items) es zs ds ∧ xs = ys ++ zs := by
  cases items with
  | nil =>
      constructor
      · exact fun h => ⟨xs, ds, [], h, .empty, (List.append_nil xs).symm⟩
      · rintro ⟨ys, es, zs, hr, ⟨⟩, rfl⟩
        rwa [List.append_nil]
  | cons r' items =>
      have hseq : OpenGroup.sequence (r' :: items ++ [r]) =
          .seq r (OpenGroup.sequence (r' :: items)) := by
        simp only [List.cons_append, OpenGroup.sequence, List.foldl_append, List.foldl_cons,
          List.foldl_nil]
      rw [hseq, run_seq_iff]

theorem exists_run_of_run_sequence_cons
    (h : Run length (OpenGroup.sequence (r :: items)) cs xs ds) :
    ∃ es zs, Run length r es zs ds := by
  induction items generalizing r with
  | nil => exact ⟨cs, xs, h⟩
  | cons r' items ih =>
      obtain ⟨es, zs, hrun⟩ := ih (r := .seq r' r) h
      obtain ⟨_, es', zs', -, hr, -⟩ := run_seq_iff.mp hrun
      exact ⟨es', zs', hr⟩

/-- What begins with the one anchor and ends with the other matches a text as a whole. -/
theorem whole_of_search {hit : Hit}
    (h : (OpenGroup.sequence (.textEnd :: (items ++ [.textStart]))).search cs = some hit) :
    hit.whole = cs ∧ Run cs.length (OpenGroup.sequence (.textEnd :: (items ++ [.textStart]))) cs
      hit.captures [] := by
  obtain ⟨start, xs, ds, hstart, hrun, rfl⟩ := exists_run_of_searchFrom h
  have hconcat : Run cs.length (OpenGroup.sequence ((.textEnd :: items) ++ [.textStart])) start xs
      ds := hrun
  obtain ⟨ys, es, zs, hfirst, -, -⟩ := run_sequence_concat_iff.mp hconcat
  obtain ⟨es', zs', hlast⟩ := exists_run_of_run_sequence_cons hrun
  have hlength : start.length = cs.length := by
    cases hfirst
    assumption
  obtain rfl := hstart.eq_of_length hlength
  cases hlast
  exact ⟨by simp [between], hrun⟩

/-- Leads on from every position by some text, and by every way past a bounded number of line
feeds. -/
structure Passes (r : Regex) : Prop where
  reads : ∃ us, ∀ length rest, ∃ xs, Run length r (us ++ rest) xs rest
  bounded : ∃ n, ∀ length cs xs ds, Run length r cs xs ds → cs.count '\n' ≤ ds.count '\n' + n

theorem passes_empty : Passes .empty where
  reads := ⟨[], fun _ _ => ⟨[], .empty⟩⟩
  bounded := ⟨0, by
    rintro length cs xs ds ⟨⟩
    exact Nat.le_refl _⟩

theorem passes_letter (c : Char) (anyCase : Bool) : Passes (.letter c anyCase) where
  reads := ⟨[c], fun _ _ => ⟨[], .letter (Or.inl rfl)⟩⟩
  bounded := ⟨1, by
    rintro length cs xs ds ⟨⟩
    rw [List.count_cons]
    split <;> omega⟩

theorem passes_anyChar : Passes (.anyChar false) where
  reads := ⟨['a'], fun _ _ => ⟨[], .anyChar (Or.inr (by decide))⟩⟩
  bounded := ⟨0, by
    intro length cs xs ds h
    cases h with
    | anyChar hd =>
        rw [List.count_cons_of_ne (hd.resolve_left Bool.false_ne_true)]
        exact Nat.le_refl _⟩

theorem passes_anyRun : Passes (.anyRun false) where
  reads := ⟨[], fun length cs => ⟨[], show Run length _ ([] ++ cs) [] cs from
    .anyRun (Or.inr List.not_mem_nil)⟩⟩
  bounded := ⟨0, by
    intro length cs xs ds h
    cases h with
    | anyRun hus =>
        rw [List.count_append, List.count_eq_zero.mpr (hus.resolve_left Bool.false_ne_true)]
        omega⟩

theorem Passes.seq (ha : Passes a) (hb : Passes b) : Passes (.seq a b) := by
  obtain ⟨⟨us, hus⟩, m, hm⟩ := ha
  obtain ⟨⟨vs, hvs⟩, n, hn⟩ := hb
  constructor
  · refine ⟨us ++ vs, fun length rest => ?_⟩
    obtain ⟨xs, hxs⟩ := hus length (vs ++ rest)
    obtain ⟨ys, hys⟩ := hvs length rest
    rw [List.append_assoc]
    exact ⟨xs ++ ys, hxs.seq hys⟩
  · refine ⟨m + n, fun length cs xs ds h => ?_⟩
    obtain ⟨ys, es, zs, ha, hb, -⟩ := run_seq_iff.mp h
    have hfirst := hm length cs ys es ha
    have hsecond := hn length es zs ds hb
    omega

theorem Passes.alt (ha : Passes a) (hb : Passes b) : Passes (.alt a b) := by
  obtain ⟨⟨us, hus⟩, m, hm⟩ := ha
  obtain ⟨-, n, hn⟩ := hb
  constructor
  · refine ⟨us, fun length rest => ?_⟩
    obtain ⟨xs, hxs⟩ := hus length rest
    exact ⟨_, hxs.left⟩
  · refine ⟨m + n, fun length cs xs ds h => ?_⟩
    rcases run_alt_iff.mp h with ⟨ys, ha, -⟩ | ⟨ys, hb, -⟩
    · have := hm length cs ys ds ha
      omega
    · have := hn length cs ys ds hb
      omega

theorem Passes.group (ha : Passes a) : Passes (.group a) := by
  obtain ⟨⟨us, hus⟩, n, hn⟩ := ha
  constructor
  · refine ⟨us, fun length rest => ?_⟩
    obtain ⟨xs, hxs⟩ := hus length rest
    exact ⟨_, hxs.group⟩
  · refine ⟨n, fun length cs xs ds h => ?_⟩
    obtain ⟨ys, ha, -⟩ := run_group_iff.mp h
    exact hn length cs ys ds ha

/-- If wildcards match no line feeds then all expressions of a pattern pass few of them. -/
theorem hereditary_passes {flags : Flags} (h : flags.dotAll = false) :
    Hereditary flags Passes where
  empty := passes_empty
  letter c := passes_letter c flags.anyCase
  anyChar := h ▸ passes_anyChar
  anyRun := h ▸ passes_anyRun
  seq := Passes.seq
  alt := Passes.alt
  group := Passes.group

/-- If the left alternative leads on from the start of a text then the match is one of its. -/
theorem exists_search_alt (h : Run cs.length a cs xs ds) (b : Regex) :
    ∃ ys es, Run cs.length a cs ys es ∧
      (alt a b).search cs = some ⟨between cs es, ys ++ b.unset⟩ := by
  have htry := h.isSome_tryAt
    (k := fun xs ds => some (Hit.mk (between cs ds) (xs ++ b.unset))) rfl
  obtain ⟨hit, hhit⟩ := Option.isSome_iff_exists.mp htry
  obtain ⟨ys, es, hrun, heq⟩ := exists_run_of_tryAt hhit
  refine ⟨ys, es, hrun, ?_⟩
  rw [Option.some.inj heq]
  cases cs with
  | nil =>
      simp only [search, searchFrom, tryAt]
      have hnil : ∀ ds, between [] ds = [] := by simp [between]
      simp only [hnil, List.length_nil] at hhit
      rw [List.length_nil, hhit]
  | cons c cs => simp only [search, searchFrom, tryAt, hhit]

/-- An alternative that has only the anchor for the start leaves a rest of some text. -/
theorem exists_whole_ne (hitems : ∀ r ∈ items, Passes r) (b : Regex) :
    ∃ cs hit, (alt (OpenGroup.sequence (items ++ [.textStart])) b).search cs = some hit ∧
      hit.whole ≠ cs := by
  have hhereditary : Hereditary {} Passes := hereditary_passes rfl
  have hpasses : Passes (OpenGroup.sequence items) := OpenGroup.of_sequence hhereditary hitems
  obtain ⟨⟨us, hus⟩, n, hn⟩ := hpasses
  let text := us ++ List.replicate (n + 1) '\n'
  obtain ⟨xs, hxs⟩ := hus text.length (List.replicate (n + 1) '\n')
  have hrun : Run text.length (OpenGroup.sequence (items ++ [.textStart])) text xs
      (List.replicate (n + 1) '\n') :=
    run_sequence_concat_iff.mpr ⟨[], text, xs, .textStart rfl, hxs, rfl⟩
  obtain ⟨ys, es, hmatch, hsearch⟩ := exists_search_alt hrun b
  refine ⟨text, _, hsearch, ?_⟩
  obtain ⟨_, _, zs, hstart, hitems, -⟩ := run_sequence_concat_iff.mp hmatch
  cases hstart
  have hcount := hn text.length text zs es hitems
  have hfeeds : n + 1 ≤ text.count '\n' := by
    rw [List.count_append, List.count_replicate_self]
    omega
  have hes : 0 < es.length := by
    have hle := List.count_le_length (a := '\n') (l := es)
    omega
  have hshort := hmatch.suffix.length_le
  intro hwhole
  have hlength := congrArg List.length hwhole
  simp only [between, List.length_take] at hlength
  omega

end Regex

/-- Whenever the pattern matches a text, the match is the whole text, from the first character to
the last, and the expression leads all the way through it. -/
def Pattern.Anchored (p : Pattern) : Prop :=
  ∀ text captures, (Matcher.pattern p).matchText? text = some captures →
    ∃ hit, p.regex.search text.toList = some hit ∧ hit.whole = text.toList ∧
      Regex.Run text.toList.length p.regex text.toList hit.captures []

namespace Matcher

/-- A pattern is anchored if no bar stands outside of all groups, counting the one that is put
around the part. While wildcards do not match line feeds, no other pattern is anchored. -/
theorem anchored_of_compile {part : String} {flags : Flags} {ts : List Token} {p : Pattern}
    (hscan : Token.scan? part.toList = some ts) (hcompile : compile part flags = .ok (pattern p)) :
    (¬ Token.BarOutside 1 ts → p.Anchored) ∧
      (flags.dotAll = false → p.Anchored → ¬ Token.BarOutside 1 ts) := by
  have hpattern := compile_pattern hscan hcompile
  constructor
  · intro hbar text captures hmatch
    obtain ⟨hit, hhit, -⟩ := Option.map_eq_some_iff.mp hmatch
    have hany : Regex.Hereditary flags fun _ => True := by constructor <;> simp
    rcases Pattern.regex_cases hany hpattern with ⟨hbar', -⟩ | ⟨-, items, hregex⟩
    · exact absurd hbar' hbar
    · rw [hregex] at hhit ⊢
      exact ⟨hit, hhit, Regex.whole_of_search hhit⟩
  · intro hdots hanchored hbar
    rcases Pattern.regex_cases (Regex.hereditary_passes hdots) hpattern with
      ⟨-, items, rest, hitems, hregex⟩ | ⟨hbar', -⟩
    · obtain ⟨cs, hit, hhit, hne⟩ := Regex.exists_whole_ne hitems rest
      rw [← hregex, ← String.toList_ofList (l := cs)] at hhit
      obtain ⟨hit', hhit', hwhole, -⟩ := hanchored (String.ofList cs) _ (by
        rw [matchText?, Pattern.captures?, hhit, Option.map_some])
      cases hhit.symm.trans hhit'
      exact hne (by simpa using hwhole)
    · exact hbar' hbar

/-- A part that closes the group around it, and has its bar in the group that it opens instead. -/
theorem anchored_of_compile_reopened :
    Token.scan? "a)(b|c".toList = some (Token.bare ['a', ')', '(', 'b', '|', 'c']) ∧
      ¬ Token.BarOutside 1 (Token.bare ['a', ')', '(', 'b', '|', 'c']) ∧
      ∃ p, compile "a)(b|c" {} = .ok (pattern p) ∧ p.Anchored ∧
        (pattern p).matchText? "ab" = some ["b"] ∧ (pattern p).matchText? "abc" = none := by
  have hscan : Token.scan? "a)(b|c".toList = some (Token.bare ['a', ')', '(', 'b', '|', 'c']) := rfl
  have hbar : ¬ Token.BarOutside 1 (Token.bare ['a', ')', '(', 'b', '|', 'c']) := by
    rw [Token.bare, List.map_cons, Token.barOutside_cons_level rfl rfl, List.map_cons,
      Token.barOutside_succ_cons_close rfl rfl, List.map_cons, Token.barOutside_cons_open rfl rfl,
      List.map_cons, Token.barOutside_cons_level rfl rfl, List.map_cons,
      Token.barOutside_cons_level rfl rfl, List.map_cons, Token.barOutside_cons_level rfl rfl,
      List.map_nil]
    simp [Token.not_barOutside_nil]
  refine ⟨hscan, hbar, _, rfl, ?_, rfl, rfl⟩
  exact (anchored_of_compile hscan (show compile "a)(b|c" {} = _ from rfl)).1 hbar

/-- A bar between the group around a part and a group that the part opens: the first alternative
matches an `a` at the start of any text. -/
theorem matchText?_leading_a : ∃ p, compile "a)|(b" {} = .ok (pattern p) ∧
    (pattern p).matchText? "ax" = some [""] ∧
    (p.regex.search "ax".toList).map Regex.Hit.whole = some ['a'] ∧ ¬ p.Anchored := by
  refine ⟨_, rfl, rfl, rfl, fun h => ?_⟩
  obtain ⟨hit, hhit, hwhole, -⟩ := h "ax" [""] rfl
  cases hhit
  cases hwhole

end Matcher

end PathRules
