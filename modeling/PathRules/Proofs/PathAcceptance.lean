import PathRules.Proofs.PathGrammar

/-!
# Acceptance of paths

The compiler works in steps, and a path is refused where the first of them fails. So each step is
described twice: when it succeeds, and which piece of the text its error names. A part names
itself, a segment with too many equals signs names itself too, and every other error is one of a
part inside. What the steps cut out of a path are pieces of it, and so the fragment of the error is
a piece of the whole text. A piece that is printed and scanned anew is the same tokens, so it makes
no difference whether a part is compiled from its tokens or from its text.
-/

namespace PathRules

theorem length_splitOnP {α : Type} (p : α → Bool) (xs : List α) :
    (xs.splitOnP p).length = xs.countP p + 1 := by
  induction xs with
  | nil => rfl
  | cons x xs ih =>
      rw [List.splitOnP_cons_eq_if_modifyHead]
      by_cases hx : p x <;> simp [hx, ih]

/-- What stands between separators is a part of the whole; what stands in front of the first one
is at the start. -/
theorem infix_of_mem_splitOnP {α : Type} (p : α → Bool) (xs : List α) :
    ∃ before rest, xs.splitOnP p = before :: rest ∧ before <+: xs ∧ ∀ ys ∈ rest, ys <:+: xs := by
  induction xs with
  | nil => exact ⟨[], [], rfl, List.prefix_rfl, by simp⟩
  | cons x xs ih =>
      obtain ⟨before, rest, hsplit, hbefore, hrest⟩ := ih
      rw [List.splitOnP_cons_eq_if_modifyHead, hsplit]
      by_cases hx : p x
      · rw [if_pos hx]
        refine ⟨[], before :: rest, rfl, List.nil_prefix, ?_⟩
        intro ys hys
        rcases List.mem_cons.mp hys with rfl | hys
        · exact hbefore.isInfix.trans (List.infix_cons List.infix_rfl)
        · exact List.infix_cons (hrest ys hys)
      · rw [if_neg hx]
        refine ⟨x :: before, rest, rfl, (List.prefix_cons_inj x).mpr hbefore, ?_⟩
        exact fun ys hys => List.infix_cons (hrest ys hys)

theorem bind_eq_error {ε α β : Type} {x : Except ε α} {f : α → Except ε β} {e : ε}
    (h : (x >>= f) = .error e) : x = .error e ∨ ∃ a, x = .ok a ∧ f a = .error e := by
  cases x with
  | error e' =>
      cases h
      exact Or.inl rfl
  | ok a => exact Or.inr ⟨a, rfl, h⟩

namespace Path

variable {flags : Flags} {recursive : Bool} {raw part : List Token} {failure : Failure}

theorem infix_print {ts us : List Token} (h : ts <:+: us) : Token.print ts <:+: Token.print us := by
  obtain ⟨before, after, rfl⟩ := h
  rw [Token.print_append, Token.print_append]
  exact List.infix_append _ _ _

theorem exists_compilePart_iff :
    (∃ m, compilePart flags part = .ok m) ↔ PartAccepted (!flags.isEmpty) part := by
  rw [← Matcher.exists_ofTokens_iff, compilePart]
  cases Matcher.ofTokens flags part <;> simp [Except.mapError]

theorem fragment_of_compilePart (h : compilePart flags part = .error failure) :
    failure.fragment = Token.print part := by
  rw [compilePart] at h
  cases hpart : Matcher.ofTokens flags part with
  | error fault =>
      rw [hpart] at h
      cases h
      rfl
  | ok m =>
      rw [hpart] at h
      cases h

/-- The text of a piece of a path compiles as the piece does, and has no errors of its own. -/
theorem compile_print_of_infix {ts : List Token} {cs : List Char} (hts : Token.Spells ts cs)
    (hpart : part <:+: ts) (flags : Flags) :
    Matcher.compile (String.ofList (Token.print part)) flags =
      (compilePart flags part).mapError fun failure =>
        .malformed (String.ofList (Token.print part)) (String.ofList failure.fragment)
          failure.fault := by
  have hclosed : ∀ t ∈ part, t.escaped = false → t.char ≠ '\\' :=
    fun t ht => hts.2 t (hpart.subset ht)
  rw [Matcher.compile_rescanned hclosed, compilePart]
  cases Matcher.ofTokens flags part <;> rfl

/-- A segment that is not reserved compiles if it has a key with at most one value and both are
accepted. -/
theorem exists_compileSegment_iff (recursive : Bool) :
    (∃ segment, compileSegment flags recursive raw = .ok segment) ↔
      raw.countP (·.is '=') ≤ 1 ∧
        ∀ part ∈ raw.splitOnP (·.is '='), PartAccepted (!flags.isEmpty) part := by
  have hlength := length_splitOnP (·.is '=') raw
  unfold compileSegment
  split
  · rename_i key hsplit
    rw [hsplit] at hlength ⊢
    have hcount : raw.countP (·.is '=') ≤ 1 := by
      simp only [List.length_singleton] at hlength
      omega
    simp [exists_bind_eq_ok_iff, exists_compilePart_iff, hcount, pure, Except.pure]
  · rename_i key value hsplit
    rw [hsplit] at hlength ⊢
    have hcount : raw.countP (·.is '=') ≤ 1 := by
      simp only [List.length_cons, List.length_nil] at hlength
      omega
    split
    · rename_i hstars
      have hkey : PartAccepted (!flags.isEmpty) key := by
        rw [eq_of_beq hstars]
        exact Or.inl (by decide)
      simp [exists_bind_eq_ok_iff, exists_compilePart_iff, hcount, hkey, pure, Except.pure]
    · simp [exists_bind_eq_ok_iff, exists_compilePart_iff, hcount, pure, Except.pure]
  · rename_i hone htwo
    refine iff_of_false (fun ⟨segment, h⟩ => nomatch h) fun h => ?_
    have hcount := h.1
    match hsplit : raw.splitOnP (·.is '=') with
    | [] => exact absurd hsplit (List.splitOnP_ne_nil _ _)
    | [key] => exact hone key hsplit
    | [key, value] => exact htwo key value hsplit
    | _ :: _ :: _ :: rest =>
        rw [hsplit] at hlength
        simp only [List.length_cons] at hlength
        omega

theorem infix_of_compileSegment (h : compileSegment flags recursive raw = .error failure) :
    failure.fragment <:+: Token.print raw := by
  obtain ⟨before, rest, hsplit, hbefore, hrest⟩ := infix_of_mem_splitOnP (·.is '=') raw
  have hpart : ∀ part ∈ raw.splitOnP (·.is '='), compilePart flags part = .error failure →
      failure.fragment <:+: Token.print raw := by
    intro part hpart hfail
    rw [fragment_of_compilePart hfail]
    rw [hsplit] at hpart
    rcases List.mem_cons.mp hpart with rfl | hpart
    · exact infix_print hbefore.isInfix
    · exact infix_print (hrest part hpart)
  unfold compileSegment at h
  split at h
  · rename_i key hkey
    rcases bind_eq_error h with hfail | ⟨m, -, hdone⟩
    · exact hpart key (by simp [hkey]) hfail
    · cases hdone
  · rename_i key value hvalue
    split at h
    · rcases bind_eq_error h with hfail | ⟨m, -, hdone⟩
      · exact hpart value (by simp [hvalue]) hfail
      · cases hdone
    · rcases bind_eq_error h with hfail | ⟨m, -, h⟩
      · exact hpart key (by simp [hvalue]) hfail
      · rcases bind_eq_error h with hfail | ⟨m, -, hdone⟩
        · exact hpart value (by simp [hvalue]) hfail
        · cases hdone
  · cases h
    exact List.infix_rfl

theorem spell_iff {ts : List Token} {word : List Char} :
    Token.spell ts word ↔ ts = Token.bare word := by
  rw [Token.spell, beq_iff_eq]
  rfl

theorem exists_compileSegments_iff (recursive : Bool) {raws : List (List Token)} :
    (∃ segments, compileSegments flags recursive raws = .ok segments) ↔
      ∀ raw ∈ raws, SegmentAccepted (!flags.isEmpty) raw := by
  induction raws generalizing recursive with
  | nil => simp [compileSegments]
  | cons raw raws ih =>
      rw [compileSegments, List.forall_mem_cons]
      split
      · rename_i hstars
        have haccepted : SegmentAccepted (!flags.isEmpty) raw := Or.inl (spell_iff.mp hstars)
        rw [ih, and_iff_right haccepted]
      · rename_i hstars
        split
        · rename_i hdots
          have haccepted : SegmentAccepted (!flags.isEmpty) raw :=
            Or.inr (Or.inl (spell_iff.mp hdots))
          simp [exists_bind_eq_ok_iff, ih, haccepted, pure, Except.pure]
        · rename_i hdots
          rw [SegmentAccepted, or_iff_right (mt spell_iff.mpr hstars),
            or_iff_right (mt spell_iff.mpr hdots), ← exists_compileSegment_iff recursive]
          simp [exists_bind_eq_ok_iff, ih, pure, Except.pure]

theorem infix_of_compileSegments {raws : List (List Token)}
    (h : compileSegments flags recursive raws = .error failure) :
    ∃ raw ∈ raws, failure.fragment <:+: Token.print raw := by
  induction raws generalizing recursive with
  | nil => cases h
  | cons raw raws ih =>
      have hlater : ∀ {recursive}, compileSegments flags recursive raws = .error failure →
          ∃ raw' ∈ raw :: raws, failure.fragment <:+: Token.print raw' := by
        intro recursive hfail
        obtain ⟨raw', hmem, hpiece⟩ := ih hfail
        exact ⟨raw', List.mem_cons_of_mem _ hmem, hpiece⟩
      rw [compileSegments] at h
      split at h
      · exact hlater h
      · split at h
        · rcases bind_eq_error h with hfail | ⟨segments, -, hdone⟩
          · exact hlater hfail
          · cases hdone
        · rcases bind_eq_error h with hfail | ⟨segment, -, h⟩
          · exact ⟨raw, List.mem_cons_self, infix_of_compileSegment hfail⟩
          · rcases bind_eq_error h with hfail | ⟨segments, -, hdone⟩
            · exact hlater hfail
            · cases hdone

variable {ts : List Token}

theorem trimSlashes_isInfix (ts : List Token) : trimSlashes ts <:+: ts := by
  have hlead : dropLeading ts <:+ ts := by
    unfold dropLeading
    split
    · split
      · exact List.suffix_cons _ _
      · exact List.suffix_rfl
    · exact List.suffix_rfl
  have htrail : dropTrailing (dropLeading ts) <+: dropLeading ts := by
    unfold dropTrailing
    split
    · split
      · exact List.dropLast_prefix _
      · exact List.prefix_rfl
    · exact List.prefix_rfl
  exact htrail.isInfix.trans hlead.isInfix

theorem segmentAccepted_nil (flagged : Bool) : SegmentAccepted flagged [] :=
  Or.inr (Or.inr ⟨Nat.zero_le _, by simp [PartAccepted]⟩)

theorem forall_rawSegments_iff {flagged : Bool} :
    (∀ raw ∈ rawSegments ts, SegmentAccepted flagged raw) ↔
      ∀ raw ∈ ts.splitOnP (·.is '/'), SegmentAccepted flagged raw := by
  unfold rawSegments
  split
  · rename_i hnil
    rw [List.isEmpty_iff.mp hnil]
    simp [segmentAccepted_nil]
  · rfl

theorem infix_of_mem_rawSegments {raw : List Token} (h : raw ∈ rawSegments ts) : raw <:+: ts := by
  unfold rawSegments at h
  split at h
  · cases h
  · obtain ⟨before, rest, hsplit, hbefore, hrest⟩ :=
      infix_of_mem_splitOnP (·.is '/') ts
    rw [hsplit] at h
    rcases List.mem_cons.mp h with rfl | h
    · exact hbefore.isInfix
    · exact hrest raw h

theorem compileTokens_eq (ts : List Token) :
    compileTokens ts =
      compileSegments (splitFlags ts).2 false (rawSegments (trimSlashes (splitFlags ts).1)) >>=
        fun segments => .ok (segments, (splitFlags ts).2) :=
  rfl

theorem exists_compileTokens_iff :
    (∃ result, compileTokens ts = .ok result) ↔
      ∃ body flagged inner, WithoutFlags ts body flagged ∧ WithoutSlashes body inner ∧
        ∀ raw ∈ inner.splitOnP (·.is '/'), SegmentAccepted flagged raw := by
  have hsegments : (∃ result, compileTokens ts = .ok result) ↔
      ∀ raw ∈ (trimSlashes (splitFlags ts).1).splitOnP (·.is '/'),
        SegmentAccepted (!(splitFlags ts).2.isEmpty) raw := by
    rw [compileTokens_eq, exists_bind_eq_ok_iff, ← forall_rawSegments_iff,
      ← exists_compileSegments_iff false]
    simp
  rw [hsegments]
  constructor
  · intro h
    exact ⟨_, _, _, withoutFlags_iff.mpr ⟨rfl, rfl⟩, trimSlashes_eq_iff.mp rfl, h⟩
  · rintro ⟨body, flagged, inner, hflags, hslashes, h⟩
    obtain ⟨rfl, rfl⟩ := withoutFlags_iff.mp hflags
    rw [← trimSlashes_eq_iff.mpr hslashes] at h
    exact h

/-- A fault is told at a piece of the text. -/
theorem infix_of_compileTokens {failure : Failure} (h : compileTokens ts = .error failure) :
    failure.fragment <:+: Token.print ts := by
  rw [compileTokens_eq] at h
  rcases bind_eq_error h with hfail | ⟨segments, -, hdone⟩
  · obtain ⟨raw, hraw, hpiece⟩ := infix_of_compileSegments hfail
    have hbody : (splitFlags ts).1 <:+: ts := by
      rcases splitFlags_cases ts with hsplit | ⟨suffix, -, hts⟩
      · exact List.IsPrefix.isInfix ⟨[], by rw [hsplit, List.append_nil]⟩
      · exact List.IsPrefix.isInfix ⟨suffix, hts.symm⟩
    exact hpiece.trans (infix_print
      ((infix_of_mem_rawSegments hraw).trans ((trimSlashes_isInfix _).trans hbody)))
  · cases hdone

theorem backslash_infix {cs : List Char} (h : Token.EndsOpen cs) : ['\\'] <:+: cs := by
  have hrun : cs.rtakeWhile (· = '\\') ≠ [] := by
    intro hnil
    simp [Token.EndsOpen, hnil] at h
  obtain ⟨c, rest, hc⟩ := List.exists_cons_of_ne_nil hrun
  have hback : c = '\\' := by
    have hmem : c ∈ cs.rtakeWhile (· = '\\') := hc ▸ List.mem_cons_self
    simpa using List.mem_rtakeWhile_imp hmem
  have hpiece : [c] <:+: cs.rtakeWhile (· = '\\') := hc ▸ (List.prefix_append [c] rest).isInfix
  exact hback ▸ hpiece.trans (List.rtakeWhile_suffix _ _).isInfix

theorem exists_compile_iff_and_fragment (s : String) :
    ((∃ path, Path.compile s = .ok path) ↔ Grammatical s) ∧
      (Grammatical s ∨ ∃ fragment fault,
        Path.compile s = .error (.malformed s fragment fault) ∧
          fragment.toList <:+: s.toList) := by
  cases hscan : Token.scan? s.toList with
  | none =>
      have hopen : Token.EndsOpen s.toList := (Token.scan?_eq_none_iff _).mp hscan
      have hfail : Path.compile s = .error (.malformed s "\\" .unterminatedEscape) := by
        simp only [Path.compile, hscan]
      refine ⟨iff_of_false ?_ fun h => h.1 hopen, Or.inr ⟨_, _, hfail, backslash_infix hopen⟩⟩
      rintro ⟨path, hpath⟩
      rw [hfail] at hpath
      cases hpath
  | some ts =>
      have hclosed : ¬ Token.EndsOpen s.toList := by
        rw [← Token.scan?_eq_none_iff, hscan]
        exact Option.some_ne_none ts
      have hgrammar : Grammatical s ↔ ∃ result, compileTokens ts = .ok result := by
        have hspells : ∀ us, Token.Spells us s.toList ↔ us = ts := by
          intro us
          rw [← Token.scan?_eq_some_iff, hscan, Option.some.injEq, eq_comm]
        rw [exists_compileTokens_iff, Grammatical, and_iff_right hclosed]
        simp only [hspells, exists_and_left, exists_eq_left]
      rw [hgrammar]
      cases hcompile : compileTokens ts with
      | ok result =>
          have hok : Path.compile s = .ok ⟨s, result.1, result.2⟩ := by
            simp only [Path.compile, hscan, hcompile]
          exact ⟨iff_of_true ⟨_, hok⟩ ⟨_, rfl⟩, Or.inl ⟨_, rfl⟩⟩
      | error failure =>
          have hfail : Path.compile s =
              .error (.malformed s (String.ofList failure.fragment) failure.fault) := by
            simp only [Path.compile, hscan, hcompile]
          have hpiece := infix_of_compileTokens hcompile
          rw [Token.print_scan? hscan] at hpiece
          refine ⟨iff_of_false ?_ (by simp), Or.inr ⟨_, _, hfail, by simpa using hpiece⟩⟩
          rintro ⟨path, hpath⟩
          rw [hfail] at hpath
          cases hpath

/-- A path compiles if it is in the grammar, and only then. Otherwise the error names the whole
path and a piece of it. Its pieces compile from their texts as they do from their tokens, so the
scan of a part adds nothing to the grammar. -/
theorem compile_iff_grammatical (s : String) :
    ((∃ path, Path.compile s = .ok path) ↔ Grammatical s) ∧
      (Grammatical s ∨ ∃ fragment fault,
        Path.compile s = .error (.malformed s fragment fault) ∧
          fragment.toList <:+: s.toList) ∧
      ∀ ts part flags, Token.Spells ts s.toList → part <:+: ts →
        Matcher.compile (String.ofList (Token.print part)) flags =
          (compilePart flags part).mapError fun failure =>
            .malformed (String.ofList (Token.print part)) (String.ofList failure.fragment)
              failure.fault := by
  obtain ⟨hcompile, hfragment⟩ := exists_compile_iff_and_fragment s
  exact ⟨hcompile, hfragment, fun _ _ flags hts hpart => compile_print_of_infix hts hpart flags⟩

end Path

end PathRules
