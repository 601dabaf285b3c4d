import PathRules.Proofs.SpelledNames
import PathRules.Proofs.TemplateMarks
import PathRules.Proofs.WriteBack

/-!
# Templates segment by segment

If every `%%` is a segment of its own, an expansion comes to each slash with nothing under way but
the splats that are left. So it replaces the segments one by one: a `%%` by the keys of the next
splat, and any other segment by its text. Names that are spelled out have neither references nor
slashes of their own, and expand to themselves.
-/

namespace PathRules

theorem not_mem_of_mem_splitOn {α : Type} [DecidableEq α] {x : α} {xs ys : List α}
    (h : ys ∈ xs.splitOn x) : x ∉ ys := by
  induction xs generalizing ys with
  | nil =>
      rw [List.splitOn_nil, List.mem_singleton] at h
      simp [h]
  | cons y xs ih =>
      rw [List.splitOn_cons_eq_if_modifyHead] at h
      split at h
      · rcases List.mem_cons.mp h with rfl | h
        · simp
        · exact ih h
      · rename_i hy
        obtain ⟨zs, zss, hsplit⟩ := List.exists_cons_of_ne_nil (List.splitOn_ne_nil x xs)
        rw [hsplit] at h ih
        rcases List.mem_cons.mp h with rfl | h
        · have hne : ¬ x = y := fun heq => hy (by simp [heq])
          rw [List.mem_cons]
          exact fun hmem => hmem.elim hne (ih List.mem_cons_self)
        · exact ih (List.mem_cons_of_mem _ h)

namespace Template

/-- The segments of a template. A template without marks has none. -/
def segmentsOf (ms : List Mark) : List (List Mark) :=
  if trimMarks ms = [] then [] else (trimMarks ms).splitOn .slash

/-- Every `%%` is a segment of its own. -/
def WholeSplats (segs : List (List Mark)) : Prop :=
  ∀ seg ∈ segs, .splat ∈ seg → seg = [.splat]

/-- The text of a character or of a capture. A capture that is out of range has none. -/
def Mark.fill (found : Match) : Mark → List Char
  | .char c => [c]
  | .capture n => ((found.capture? n).getD "").toList
  | _ => []

def fillSegment (found : Match) (seg : List Mark) : String :=
  String.ofList (seg.flatMap (Mark.fill found))

/-- What a segment becomes, and the splats left for the segments after it. A `%%` becomes one
segment for each key of the next splat, and an empty one if no splat is left. -/
def substituteSegment (found : Match) (splats : List Address) (seg : List Mark) :
    List String × List Address :=
  if seg = [.splat] then
    match splats with
    | [] => ([""], [])
    | keys :: rest => (keys.map Key.text, rest)
  else ([fillSegment found seg], splats)

/-- The segments replaced one by one, each with the splats that those before it have left. -/
def substitute (found : Match) : List Address → List (List Mark) → List String
  | _, [] => []
  | splats, seg :: segs =>
      (substituteSegment found splats seg).1 ++
        substitute found (substituteSegment found splats seg).2 segs

theorem substitute_nil (found : Match) (splats : List Address) :
    substitute found splats [] = [] := by
  rw [substitute]

theorem substitute_cons (found : Match) (splats : List Address) (seg : List Mark)
    (segs : List (List Mark)) : substitute found splats (seg :: segs) =
      (substituteSegment found splats seg).1 ++
        substitute found (substituteSegment found splats seg).2 segs := by
  rw [substitute]

def Mark.piece : Mark → Piece
  | .char c => .text [c]
  | .capture n => .capture n
  | .splat => .splat
  | .slash => .separator

namespace Filling

section Putting

variable (source : String) (found : Match)

/-- Puts a single mark in. -/
def putMark (f : Filling) (m : Mark) : Filling :=
  f.put source found m.piece

theorem put_eq_foldl (f : Filling) (p : Piece) :
    f.put source found p = p.marks.foldl (putMark source found) f := by
  cases p with
  | text cs =>
      rw [Piece.marks]
      induction cs generalizing f with
      | nil => simp [put, append]
      | cons c cs ih =>
          have hcs : String.ofList (c :: cs) = String.ofList [c] ++ String.ofList cs := by
            rw [← String.ofList_append, List.singleton_append]
          rw [List.map_cons, List.foldl_cons, ← ih, put, hcs]
          simp only [putMark, Mark.piece, put, append, String.append_assoc]
  | capture n => rfl
  | splat => rfl
  | separator => rfl

theorem foldl_put_eq (ps : List Piece) (f : Filling) :
    ps.foldl (put source found) f = (marksOf ps).foldl (putMark source found) f := by
  rw [marksOf, List.foldl_flatMap]
  congr 1
  funext f p
  exact put_eq_foldl source found f p

/-- A character or a capture only adds to the segment under way, and to the diagnostics. -/
theorem putMark_plain {m : Mark} (hsplat : m ≠ .splat) (hslash : m ≠ .slash) (f : Filling) :
    ∃ ds, f.putMark source found m =
      { f with current := f.current ++ String.ofList (m.fill found), diagnostics := ds } := by
  cases m with
  | char c => exact ⟨f.diagnostics, rfl⟩
  | capture n =>
      rw [putMark, Mark.piece, put]
      cases hn : found.capture? n with
      | none =>
          exact ⟨(f.report (.captureOutOfRange source n found.captures.length)).diagnostics,
            by simp [report, Mark.fill, hn]⟩
      | some s => exact ⟨f.diagnostics, by simp [append, Mark.fill, hn]⟩
  | splat => exact absurd rfl hsplat
  | slash => exact absurd rfl hslash

theorem foldl_putMark_plain {seg : List Mark} (hsplat : .splat ∉ seg) (hslash : .slash ∉ seg)
    (f : Filling) : ∃ ds, seg.foldl (putMark source found) f =
      { f with current := f.current ++ fillSegment found seg, diagnostics := ds } := by
  induction seg generalizing f with
  | nil => exact ⟨f.diagnostics, by simp [fillSegment]⟩
  | cons m seg ih =>
      rw [List.mem_cons, not_or] at hsplat hslash
      obtain ⟨ds, hds⟩ := putMark_plain source found (Ne.symm hsplat.1) (Ne.symm hslash.1) f
      obtain ⟨ds', hds'⟩ := ih hsplat.2 hslash.2 (f.putMark source found m)
      refine ⟨ds', ?_⟩
      rw [List.foldl_cons, hds', hds]
      simp [fillSegment, String.append_assoc]

/-- A segment is put in on its own, from nothing under way to nothing under way. -/
theorem finishSegment_foldl_putMark {seg : List Mark} (hwhole : .splat ∈ seg → seg = [.splat])
    (hslash : .slash ∉ seg) (out : List String) (splats : List Address) (ds : List PathError) :
    ∃ ds', (seg.foldl (putMark source found) ⟨out, "", false, splats, ds⟩).finishSegment =
      ⟨out ++ (substituteSegment found splats seg).1, "", false,
        (substituteSegment found splats seg).2, ds'⟩ := by
  by_cases hsplat : .splat ∈ seg
  · rw [hwhole hsplat, List.foldl_cons, List.foldl_nil, putMark, Mark.piece]
    cases splats with
    | nil => exact ⟨ds ++ [.unknownSplat source], rfl⟩
    | cons keys splats =>
        refine ⟨ds, ?_⟩
        rw [put, finishSegment_putKeys rfl rfl]
        rfl
  · obtain ⟨ds', hds'⟩ := foldl_putMark_plain source found hsplat hslash
      ⟨out, "", false, splats, ds⟩
    have hne : seg ≠ [.splat] := by
      rintro rfl
      exact hsplat List.mem_cons_self
    exact ⟨ds', by simp [hds', finishSegment, substituteSegment, hne]⟩

/-- Segment after segment, each one is put in on its own. -/
theorem segments_foldl_putMark {segs : List (List Mark)} (hne : segs ≠ [])
    (hwhole : WholeSplats segs) (hslash : ∀ seg ∈ segs, .slash ∉ seg) (out : List String)
    (splats : List Address) (ds : List PathError) :
    (([Mark.slash].intercalate segs).foldl (putMark source found)
        ⟨out, "", false, splats, ds⟩).finishSegment.segments =
      out ++ substitute found splats segs := by
  induction segs generalizing out splats ds with
  | nil => exact absurd rfl hne
  | cons seg segs ih =>
      obtain ⟨hseg, hsegs⟩ := List.forall_mem_cons.mp hwhole
      obtain ⟨hslash, hslashes⟩ := List.forall_mem_cons.mp hslash
      obtain ⟨ds', hds'⟩ := finishSegment_foldl_putMark source found hseg hslash out splats ds
      cases segs with
      | nil => rw [List.intercalate_singleton, hds', substitute_cons, substitute_nil, List.append_nil]
      | cons seg' segs =>
          rw [List.intercalate_cons_cons, List.foldl_append, List.foldl_append, List.foldl_cons,
            List.foldl_nil, putMark, Mark.piece, put, hds', ih (by simp) hsegs hslashes,
            substitute_cons found splats seg, List.append_assoc]

end Putting

end Filling

/-- If every `%%` is a segment of its own, the segments are replaced one by one. -/
theorem expand_parse (source : String) (found : Match)
    (hwhole : WholeSplats (segmentsOf (marks source.toList))) :
    ((parse source).expand found).1 = substitute found (found.splats.reverse.map Prod.snd)
      (segmentsOf (marks source.toList)) := by
  obtain ⟨hmarks, hnil⟩ := marksOf_parse source
  by_cases hempty : trimMarks (marks source.toList) = []
  · rw [expand, if_pos (List.isEmpty_iff.mpr (hnil.mpr hempty)), segmentsOf, if_pos hempty,
      substitute_nil]
  · rw [segmentsOf, if_neg hempty] at hwhole ⊢
    rw [expand, if_neg (mt List.isEmpty_iff.mp (mt hnil.mp hempty))]
    dsimp only
    rw [Filling.foldl_put_eq, hmarks]
    have hsegments := Filling.segments_foldl_putMark (parse source).source found
      (List.splitOn_ne_nil Mark.slash _) hwhole (fun _ => not_mem_of_mem_splitOn) []
      (found.splats.reverse.map Prod.snd) []
    rwa [List.intercalate_splitOn, List.nil_append] at hsegments

section Names

variable {names : List String}

/-- The marks of a text without references and slashes. -/
def plainMarks (s : String) : List Mark :=
  s.toList.map .char

theorem marks_escaped (cs rest : List Char) :
    marks ((cs.flatMap fun c => ['\\', c]) ++ rest) = cs.map .char ++ marks rest := by
  induction cs with
  | nil => rfl
  | cons c cs ih =>
      rw [List.flatMap_cons, List.append_assoc, List.cons_append, List.cons_append, marks]
      exact congrArg _ ih

theorem readReferences_escaped (cs rest : List Char) :
    readReferences ((cs.flatMap fun c => ['\\', c]) ++ rest) = readReferences rest := by
  induction cs with
  | nil => rfl
  | cons c cs ih =>
      rw [List.flatMap_cons, List.append_assoc, List.cons_append, List.cons_append,
        readReferences_escape]
      exact ih

theorem intercalate_plainMarks (s s' : String) (names : List String) :
    [Mark.slash].intercalate ((s :: s' :: names).map plainMarks) =
      plainMarks s ++ .slash :: [Mark.slash].intercalate ((s' :: names).map plainMarks) := by
  rw [List.map_cons, List.map_cons, List.intercalate_cons_cons, List.append_assoc,
    List.singleton_append]

theorem marks_escapeNames (names : List String) :
    marks (escapeNames names).toList = [Mark.slash].intercalate (names.map plainMarks) := by
  induction names with
  | nil => rw [show (escapeNames []).toList = [] from rfl, marks]; rfl
  | cons s names ih =>
      cases names with
      | nil =>
          have hmarks := marks_escaped s.toList []
          rw [List.append_nil, marks, List.append_nil] at hmarks
          rw [toList_escapeNames_singleton, hmarks, List.map_singleton, List.intercalate_singleton]
          rfl
      | cons s' names =>
          rw [toList_escapeNames_cons_cons, marks_escaped, marks, ih, intercalate_plainMarks]
          rfl

theorem readReferences_escapeNames (names : List String) :
    readReferences (escapeNames names).toList = [] := by
  induction names with
  | nil => rw [show (escapeNames []).toList = [] from rfl, readReferences]
  | cons s names ih =>
      cases names with
      | nil =>
          have hnone := readReferences_escaped s.toList []
          rwa [List.append_nil, readReferences, ← toList_escapeNames_singleton] at hnone
      | cons s' names =>
          rw [toList_escapeNames_cons_cons, readReferences_escaped,
            readReferences_plain (by decide) (by decide), ih]

theorem not_mem_plainMarks (s : String) : .splat ∉ plainMarks s ∧ .slash ∉ plainMarks s := by
  simp [plainMarks]

theorem getLast?_intercalate_plainMarks (hlast : names.getLast? ≠ some "") :
    ([Mark.slash].intercalate (names.map plainMarks)).getLast? ≠ some .slash := by
  induction names with
  | nil => simp
  | cons s names ih =>
      cases names with
      | nil => simp [plainMarks]
      | cons s' names =>
          have hlast' : (s' :: names).getLast? ≠ some "" := by
            rwa [List.getLast?_cons_cons] at hlast
          have hne : [Mark.slash].intercalate ((s' :: names).map plainMarks) ≠ [] := by
            cases names with
            | nil => simpa [plainMarks] using hlast'
            | cons s'' names => simp
          rw [intercalate_plainMarks, List.getLast?_append_cons, List.getLast?_cons_of_ne_nil hne]
          exact ih hlast'

theorem segmentsOf_escapeNames (hne : names ≠ []) (hfirst : names.head? ≠ some "")
    (hlast : names.getLast? ≠ some "") :
    segmentsOf (marks (escapeNames names).toList) = names.map plainMarks := by
  rw [marks_escapeNames]
  obtain ⟨c, ms, hms⟩ : ∃ c ms,
      [Mark.slash].intercalate (names.map plainMarks) = .char c :: ms := by
    obtain ⟨s, rest, rfl⟩ := List.exists_cons_of_ne_nil hne
    obtain ⟨c, cs, hcs⟩ : ∃ c cs, s.toList = c :: cs :=
      List.exists_cons_of_ne_nil (by simpa using hfirst)
    have hs : plainMarks s = .char c :: cs.map .char := by rw [plainMarks, hcs, List.map_cons]
    cases rest with
    | nil =>
        refine ⟨c, cs.map .char, ?_⟩
        rw [List.map_singleton, List.intercalate_singleton, hs]
    | cons s' rest =>
        refine ⟨c, cs.map .char ++ .slash ::
          [Mark.slash].intercalate ((s' :: rest).map plainMarks), ?_⟩
        rw [intercalate_plainMarks, hs, List.cons_append]
  have htrim : trimMarks ([Mark.slash].intercalate (names.map plainMarks)) =
      [Mark.slash].intercalate (names.map plainMarks) := by
    unfold trimMarks
    dsimp only
    have hhead : ([Mark.slash].intercalate (names.map plainMarks)).head? ≠ some .slash := by
      simp [hms]
    rw [if_neg hhead, if_neg (getLast?_intercalate_plainMarks hlast)]
  rw [segmentsOf, htrim, if_neg (by simp [hms])]
  refine List.splitOn_intercalate _ ?_ (by simpa using hne)
  simp only [List.forall_mem_map]
  exact fun s _ => (not_mem_plainMarks s).2

theorem substitute_plainMarks (found : Match) (splats : List Address) (names : List String) :
    substitute found splats (names.map plainMarks) = names := by
  induction names with
  | nil => rw [List.map_nil, substitute_nil]
  | cons s names ih =>
      have hne : plainMarks s ≠ [.splat] := fun h =>
        (not_mem_plainMarks s).1 (h ▸ List.mem_cons_self)
      have hfill : fillSegment found (plainMarks s) = s := by
        simp [fillSegment, plainMarks, List.flatMap_map, Mark.fill]
      have hone : substituteSegment found splats (plainMarks s) = ([s], splats) := by
        simp [substituteSegment, hne, hfill]
      rw [List.map_cons, substitute_cons, hone, ih]
      rfl

/-- Names that are spelled out expand to themselves, and nothing is reported. -/
theorem expand_escapeNames (hne : names ≠ []) (hfirst : names.head? ≠ some "")
    (hlast : names.getLast? ≠ some "") (found : Match) :
    (parse (escapeNames names)).expand found = (names, []) := by
  have hsegments := segmentsOf_escapeNames hne hfirst hlast
  apply Prod.ext
  · rw [expand_parse, hsegments, substitute_plainMarks]
    rw [hsegments]
    intro seg hseg hsplat
    obtain ⟨s, -, rfl⟩ := List.mem_map.mp hseg
    exact absurd hsplat (not_mem_plainMarks s).1
  · have hdiagnostics := diagnostics_destination (parse (escapeNames names)) found
    rw [references_parse, readReferences_escapeNames, unresolved] at hdiagnostics
    exact hdiagnostics

end Names

/-- A number of a capture that is too large for 64 bits is out of range as it stands. -/
theorem capture?_min {found : Match} (hfound : found.captures.length < captureBound) (n : Nat) :
    found.capture? (min n captureBound) = found.capture? n := by
  rcases Nat.le_total n captureBound with hn | hn
  · rw [Nat.min_eq_left hn]
  · rw [Nat.min_eq_right hn, Filling.capture?_eq_none_iff.mpr (Or.inr hfound),
      Filling.capture?_eq_none_iff.mpr (Or.inr (Nat.lt_of_lt_of_le hfound hn))]

/-- An expansion is the substitution of segments. For every template in which each `%%` is a segment
of its own, and every match, the segments of the expansion are those of the template with each one
replaced: the `%%` by the keys of the splats, the most recent first, and the others by their text.
The bound on the number of a capture makes no difference to this. Names that are spelled out, of
which the first and the last are not empty, expand to themselves. -/
theorem expand_segmentwise :
    (∀ source, WholeSplats (segmentsOf (marks source.toList)) → ∀ found,
      ((parse source).expand found).1 = substitute found (found.splats.reverse.map Prod.snd)
        (segmentsOf (marks source.toList))) ∧
    (∀ found : Match, found.captures.length < captureBound →
      ∀ n, found.capture? (min n captureBound) = found.capture? n) ∧
    ∀ names : List String, names ≠ [] → names.head? ≠ some "" → names.getLast? ≠ some "" →
      ∀ found, (parse (escapeNames names)).expand found = (names, []) :=
  ⟨fun source hwhole found => expand_parse source found hwhole, fun _ hfound => capture?_min hfound,
    fun _ hne hfirst hlast found => expand_escapeNames hne hfirst hlast found⟩

/-- A match with one capture and three splats, of which the second walked nowhere. -/
def threeSplats : Match :=
  { captures := ["x"], splats := [(0, [.name "a"]), (1, []), (2, [.index 3, .name ""])] }

/-- Four times `%%` for three splats, and a segment with a slash and percent signs of its own. -/
theorem expand_segmentwise_threeSplats :
    WholeSplats (segmentsOf (marks "/p%1/%%/%%/%%/%%/%2\\/%\\".toList)) ∧
      ((parse "/p%1/%%/%%/%%/%%/%2\\/%\\").expand threeSplats).1 =
        ["px", "3", "", "a", "", "/%\\"] ∧
      threeSplats.captures.length < captureBound ∧
      threeSplats.capture? (min 20000000000000000000 captureBound) = none ∧
      escapeNames ["x/y", "", "%1"] = "\\x\\/\\y//\\%\\1" ∧
      (parse "\\x\\/\\y//\\%\\1").expand threeSplats = (["x/y", "", "%1"], []) := by
  have hsegments : segmentsOf (marks "/p%1/%%/%%/%%/%%/%2\\/%\\".toList) =
      [[.char 'p', .capture 1], [.splat], [.splat], [.splat], [.splat],
        [.capture 2, .char '/', .char '%', .char '\\']] := by
    have hmarks : marks "/p%1/%%/%%/%%/%%/%2\\/%\\".toList =
        [.slash, .char 'p', .capture 1, .slash, .splat, .slash, .splat, .slash, .splat, .slash,
          .splat, .slash, .capture 2, .char '/', .char '%', .char '\\'] := by
      simp [marks, captureBound, Nat.ofDigitChars]
    rw [hmarks]
    decide
  have hwhole : WholeSplats (segmentsOf (marks "/p%1/%%/%%/%%/%%/%2\\/%\\".toList)) := by
    rw [hsegments]
    simp [WholeSplats]
  have hbound : threeSplats.captures.length < captureBound := by decide
  have hescape : escapeNames ["x/y", "", "%1"] = "\\x\\/\\y//\\%\\1" := by decide
  obtain ⟨hexpand, hclamp, hnames⟩ := expand_segmentwise
  have hfirst := hexpand _ hwhole threeSplats
  rw [hsegments] at hfirst
  refine ⟨hwhole, hfirst.trans ?_, hbound, (hclamp _ hbound _).trans ?_, hescape, ?_⟩
  · decide
  · decide
  · rw [← hescape]
    exact hnames _ (by decide) (by decide) (by decide) threeSplats

end Template

end PathRules
