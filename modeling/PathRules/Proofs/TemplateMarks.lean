import PathRules.Proofs.TemplateDiagnostics

/-!
# The marks of a template

Read from left to right, the text of a template is a list of marks: characters, references and
slashes. The scan that cuts the text into pieces keeps these marks at every point: those of the
pieces so far and of the text collected since, and those of the characters to come with the few that
the scan holds back in front of them. As no piece is an empty text, one slash at each end is left
out of the marks where a separator is left out of the pieces.
-/

namespace PathRules

namespace Template

/-- What the text of a template is made of. -/
inductive Mark where
  | char (c : Char)
  | capture (n : Nat)
  | splat
  | slash
  deriving DecidableEq

/-- The text of a template, read from left to right. -/
def marks : List Char → List Mark
  | [] => []
  | ['\\'] => [.char '\\']
  | '\\' :: c :: cs => .char c :: marks cs
  | '/' :: cs => .slash :: marks cs
  | '%' :: cs =>
      if cs.head? = some '%' then .splat :: marks (cs.drop 1)
      else if cs.takeWhile Char.isDigit = [] then .char '%' :: marks cs
      else
        .capture (min (Nat.ofDigitChars 10 (cs.takeWhile Char.isDigit) 0) captureBound) ::
          marks (cs.dropWhile Char.isDigit)
  | c :: cs => .char c :: marks cs
termination_by cs => cs.length
decreasing_by
  all_goals simp only [List.length_cons, List.length_drop]
  all_goals first
    | omega
    | exact Nat.lt_succ_of_le (List.dropWhile_suffix _).length_le

/-- Drops one slash at each end. -/
def trimMarks (ms : List Mark) : List Mark :=
  let ms := if ms.head? = some .slash then ms.tail else ms
  if ms.getLast? = some .slash then ms.dropLast else ms

section Marks

variable {c : Char} {cs taken : List Char}

theorem marks_plain (hescape : c ≠ '\\') (hslash : c ≠ '/') (hpercent : c ≠ '%')
    (cs : List Char) : marks (c :: cs) = .char c :: marks cs := by
  rw [marks] <;> simp_all

theorem marks_percent (hpercent : c ≠ '%') (hdigit : c.isDigit = false) (cs : List Char) :
    marks ('%' :: c :: cs) = .char '%' :: marks (c :: cs) := by
  rw [marks]
  simp [hpercent, hdigit]

theorem marks_capture (hne : taken ≠ []) (htaken : ∀ d ∈ taken, d.isDigit)
    (hcs : ∀ d ∈ cs.head?, d.isDigit = false) :
    marks ('%' :: (taken ++ cs)) =
      .capture (min (Nat.ofDigitChars 10 taken 0) captureBound) :: marks cs := by
  obtain ⟨htake, hdrop⟩ := span_digits htaken hcs
  rw [marks, if_neg (head?_digits_ne hne htaken cs), htake, if_neg hne, hdrop]

end Marks

def Piece.marks : Piece → List Mark
  | .text cs => cs.map .char
  | .capture n => [.capture n]
  | .splat => [.splat]
  | .separator => [.slash]

def marksOf (ps : List Piece) : List Mark :=
  ps.flatMap Piece.marks

theorem marksOf_append (ps qs : List Piece) : marksOf (ps ++ qs) = marksOf ps ++ marksOf qs :=
  List.flatMap_append

theorem marksOf_reverse_flush (cs : List Char) (ps : List Piece) :
    marksOf (flush cs ++ ps).reverse = marksOf ps.reverse ++ cs.reverse.map .char := by
  unfold flush
  split
  · rename_i hcs
    rw [List.isEmpty_iff.mp hcs]
    simp
  · simp [marksOf, Piece.marks]

namespace Scan

variable {s : Scan} {c : Char}

/-- What is written so far: the pieces, and the text collected since. -/
def written (s : Scan) : List Mark :=
  marksOf s.pieces.reverse ++ s.collected.reverse.map .char

/-- The marks of a text that is scanned up to a point: those written so far, and those of the
characters held back and the ones to come. -/
def marked (s : Scan) (cs : List Char) : List Mark :=
  s.written ++ marks (s.reading.pending ++ cs)

theorem marked_collect (s : Scan) (c : Char) (cs : List Char) :
    (s.collect c).marked cs = s.written ++ .char c :: marks cs := by
  simp [marked, written, collect, Reading.pending]

theorem marked_emit (s : Scan) (p : Piece) (cs : List Char) :
    (s.emit p).marked cs = s.written ++ (p.marks ++ marks cs) := by
  have hwritten : (s.emit p).written = s.written ++ p.marks := by
    rw [written, emit, List.reverse_cons, marksOf_append, marksOf_reverse_flush, written]
    simp [marksOf]
  rw [marked, hwritten, List.append_assoc]
  rfl

/-- A character that is read as text, with nothing held back. -/
theorem marked_stepText (s : Scan) (c : Char) (cs : List Char) :
    (s.stepText c).marked cs = s.written ++ marks (c :: cs) := by
  unfold stepText
  split
  · rename_i hc
    rw [hc]
    rfl
  · rename_i hescape
    split
    · rename_i hc
      rw [marked_emit, hc, marks]
      rfl
    · rename_i hslash
      split
      · rename_i hc
        rw [hc]
        rfl
      · rename_i hpercent
        rw [marked_collect, marks_plain hescape hslash hpercent]

theorem marked_endDigits (s : Scan) {taken : List Char} (hne : taken ≠ [])
    (htaken : ∀ d ∈ taken, d.isDigit) {cs : List Char} (hcs : ∀ d ∈ cs.head?, d.isDigit = false) :
    (s.endDigits taken).marked cs = s.written ++ marks ('%' :: (taken.reverse ++ cs)) := by
  rw [endDigits, marked_emit, marks_capture (by simpa using hne) (by simpa using htaken) hcs]
  rfl

/-- A step of the scan keeps the marks of the text. -/
theorem marked_step (hs : s.reading.Sound) (c : Char) (cs : List Char) :
    (s.step c).marked cs = s.marked (c :: cs) := by
  unfold step
  split
  · rename_i hreading
    rw [marked_stepText, marked, hreading]
    rfl
  · rename_i hreading
    rw [marked_collect, marked, hreading, Reading.pending, List.singleton_append, marks]
  · rename_i hreading
    have hmarked : s.marked (c :: cs) = s.written ++ marks ('%' :: c :: cs) := by
      rw [marked, hreading]
      rfl
    rw [hmarked]
    split
    · rename_i hc
      rw [marked_emit, hc, marks]
      rfl
    · rename_i hpercent
      split
      · rfl
      · rename_i hdigit
        rw [marked_stepText, marks_percent hpercent (by simpa using hdigit)]
        simp [written, collect]
  · rename_i taken hreading
    rw [hreading] at hs
    have hmarked : s.marked (c :: cs) = s.written ++ marks ('%' :: (taken.reverse ++ c :: cs)) := by
      rw [marked, hreading]
      rfl
    rw [hmarked]
    split
    · simp [marked, written, Reading.pending]
    · rename_i hdigit
      have hcs : ∀ d ∈ (c :: cs).head?, d.isDigit = false := by simpa using hdigit
      rw [← marked_endDigits s hs.1 hs.2 hcs, marked_stepText]
      rfl

/-- Over a whole text, the scan keeps the marks. -/
theorem marked_foldl_step (cs : List Char) (hs : s.reading.Sound) :
    (cs.foldl step s).marked [] = s.marked cs := by
  induction cs generalizing s with
  | nil => rfl
  | cons c cs ih => exact (ih (sound_step hs c)).trans (marked_step hs c cs)

/-- At the end, what is held back is text again or the digits of a capture. -/
theorem marksOf_finish (hs : s.reading.Sound) : marksOf s.finish = s.marked [] := by
  have hnil : marks [] = [] := by rw [marks]
  unfold finish
  rw [marksOf_reverse_flush]
  split
  · rename_i hreading
    rw [marked, hreading, Reading.pending, List.append_nil, hnil, List.append_nil, written]
  · rename_i hreading
    rw [marked, hreading, Reading.pending, List.append_nil, marks]
    simp [written, collect]
  · rename_i hreading
    have hpercent : marks ['%'] = [.char '%'] := by
      rw [marks]
      simp [hnil]
    rw [marked, hreading, Reading.pending, List.append_nil, hpercent]
    simp [written, collect]
  · rename_i taken hreading
    rw [hreading] at hs
    calc
      _ = (s.endDigits taken).marked [] := by
        rw [marked, endDigits, emit, Reading.pending, List.append_nil, hnil, List.append_nil,
          written]
      _ = _ := by
        rw [marked_endDigits s hs.1 hs.2 (by simp), marked, hreading]
        rfl

/-- No piece is an empty text. -/
def Full (s : Scan) : Prop :=
  ∀ p ∈ s.pieces, p ≠ .text []

theorem ne_of_mem_flush {p : Piece} {cs : List Char} (h : p ∈ flush cs) : p ≠ .text [] := by
  unfold flush at h
  split at h
  · cases h
  · rename_i hcs
    rintro rfl
    simp_all

theorem Full.emit (hs : s.Full) {p : Piece} (hp : p ≠ .text []) : (s.emit p).Full := by
  intro q hq
  rcases List.mem_cons.mp hq with rfl | hq
  · exact hp
  · exact (List.mem_append.mp hq).elim ne_of_mem_flush (hs q)

theorem Full.stepText (hs : s.Full) (c : Char) : (s.stepText c).Full := by
  unfold Scan.stepText
  split
  · exact hs
  · split
    · exact hs.emit (by simp)
    · split <;> exact hs

theorem Full.step (hs : s.Full) (c : Char) : (s.step c).Full := by
  unfold Scan.step
  split
  · exact hs.stepText c
  · exact hs
  · split
    · exact hs.emit (by simp)
    · split
      · exact hs
      · exact Full.stepText (s := s.collect '%') hs c
  · split
    · exact hs
    · exact (hs.emit (by simp)).stepText c

theorem Full.foldl_step (hs : s.Full) (cs : List Char) : (cs.foldl Scan.step s).Full := by
  induction cs generalizing s with
  | nil => exact hs
  | cons c cs ih => exact ih (hs.step c)

theorem Full.finish (hs : s.Full) : ∀ p ∈ s.finish, p ≠ .text [] := by
  have hflush : ∀ s' : Scan, s'.Full →
      ∀ p ∈ (flush s'.collected ++ s'.pieces).reverse, p ≠ .text [] := by
    intro s' hs' p hp
    rw [List.mem_reverse, List.mem_append] at hp
    exact hp.elim ne_of_mem_flush (hs' p)
  unfold Scan.finish
  split
  · exact hflush s hs
  · exact hflush (s.collect '\\') hs
  · exact hflush (s.collect '%') hs
  · exact hflush _ (hs.emit (by simp))

end Scan

section Pieces

variable {p : Piece} {ps : List Piece}

theorem marks_eq_nil_iff : p.marks = [] ↔ p = .text [] := by
  cases p <;> simp [Piece.marks]

theorem marksOf_eq_nil_iff (hps : ∀ p ∈ ps, p ≠ .text []) : marksOf ps = [] ↔ ps = [] := by
  cases ps with
  | nil => simp [marksOf]
  | cons p ps =>
      have hp := hps p List.mem_cons_self
      simp [marksOf, marks_eq_nil_iff, hp]

theorem head?_marks (hp : p ≠ .text []) : p.marks.head? = some .slash ↔ p = .separator := by
  cases p with
  | text cs => cases cs <;> simp_all [Piece.marks]
  | capture n => simp [Piece.marks]
  | splat => simp [Piece.marks]
  | separator => simp [Piece.marks]

theorem getLast?_marks : p.marks.getLast? = some .slash ↔ p = .separator := by
  cases p <;> simp [Piece.marks]

theorem marksOf_dropFirstSeparator (hps : ∀ p ∈ ps, p ≠ .text []) :
    marksOf (dropFirstSeparator ps) =
      if (marksOf ps).head? = some .slash then (marksOf ps).tail else marksOf ps := by
  cases ps with
  | nil => rfl
  | cons p ps =>
      have hp := hps p List.mem_cons_self
      have hhead : (marksOf (p :: ps)).head? = p.marks.head? := by
        obtain ⟨m, ms, hm⟩ := List.exists_cons_of_ne_nil (mt marks_eq_nil_iff.mp hp)
        simp [marksOf, hm]
      rw [hhead]
      by_cases hsep : p = .separator
      · rw [if_pos ((head?_marks hp).mpr hsep), hsep]
        rfl
      · rw [if_neg (mt (head?_marks hp).mp hsep)]
        cases p <;> simp_all [dropFirstSeparator]

theorem marksOf_dropLast (hps : ∀ p ∈ ps, p ≠ .text []) :
    marksOf (if ps.getLast? = some .separator then ps.dropLast else ps) =
      if (marksOf ps).getLast? = some .slash then (marksOf ps).dropLast else marksOf ps := by
  rcases List.eq_nil_or_concat ps with rfl | ⟨qs, p, rfl⟩
  · rfl
  · have hp := hps p (by simp)
    have hlast : (marksOf (qs.concat p)).getLast? = p.marks.getLast? := by
      rw [List.concat_eq_append, marksOf_append, List.getLast?_append_of_ne_nil]
      · simp [marksOf]
      · simpa [marksOf, marks_eq_nil_iff] using hp
    rw [hlast]
    by_cases hsep : p = .separator
    · subst hsep
      simp [marksOf, Piece.marks]
    · rw [if_neg (mt getLast?_marks.mp hsep), if_neg (by simpa using hsep)]

theorem mem_of_mem_dropFirstSeparator (h : p ∈ dropFirstSeparator ps) : p ∈ ps := by
  unfold dropFirstSeparator at h
  split at h
  · exact List.mem_cons_of_mem _ h
  · exact h

theorem marksOf_trimSeparators (hps : ∀ p ∈ ps, p ≠ .text []) :
    marksOf (trimSeparators ps) = trimMarks (marksOf ps) := by
  have hrest : ∀ p ∈ dropFirstSeparator ps, p ≠ .text [] := fun p hp =>
    hps p (mem_of_mem_dropFirstSeparator hp)
  unfold trimSeparators trimMarks
  dsimp only
  rw [marksOf_dropLast hrest, marksOf_dropFirstSeparator hps]

theorem ne_of_mem_trimSeparators (hps : ∀ p ∈ ps, p ≠ .text []) :
    ∀ p ∈ trimSeparators ps, p ≠ .text [] := by
  intro p hp
  unfold trimSeparators at hp
  dsimp only at hp
  split at hp
  · exact hps p (mem_of_mem_dropFirstSeparator (List.mem_of_mem_dropLast hp))
  · exact hps p (mem_of_mem_dropFirstSeparator hp)

/-- The pieces of a template are the marks of its text without a slash at each end. -/
theorem marksOf_parse (source : String) :
    marksOf (parse source).pieces = trimMarks (marks source.toList) ∧
      ((parse source).pieces = [] ↔ trimMarks (marks source.toList) = []) := by
  have hfull : (source.toList.foldl Scan.step Scan.start).Full :=
    Scan.Full.foldl_step (s := Scan.start) (by simp [Scan.Full, Scan.start]) source.toList
  obtain ⟨-, hsound⟩ := Scan.refs_foldl_step source.toList (s := Scan.start) trivial
  have hmarks : marksOf (parse source).pieces = trimMarks (marks source.toList) := by
    rw [parse, marksOf_trimSeparators hfull.finish, Scan.marksOf_finish hsound,
      Scan.marked_foldl_step source.toList (s := Scan.start) trivial]
    rfl
  refine ⟨hmarks, ?_⟩
  rw [← hmarks]
  exact (marksOf_eq_nil_iff (ne_of_mem_trimSeparators hfull.finish)).symm

end Pieces

end Template

end PathRules
