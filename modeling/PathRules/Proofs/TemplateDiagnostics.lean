import PathRules.Proofs.CaptureCounts
import PathRules.Proofs.MapPlacement

/-!
# Diagnostics of templates

Which references of a template stay unresolved does not depend on the match. The references can be
read off the text of the template, and the scan that cuts the text into pieces finds the same ones:
at every point, the references of the pieces so far and those of the characters still to come, with
the few that the scan holds back in front of them, are those of the text. An expansion uses up one
splat for each `%%` and looks every number up among the captures. As all matches of a path have the
same number of both, each of them reports the same diagnostics, and a plan reports these for every
match of every rule and nothing else.
-/

namespace PathRules

namespace Template

/-- What a template refers to. -/
inductive Reference where
  | capture (n : Nat)
  | splat
  deriving DecidableEq

def Piece.reference? : Piece → Option Reference
  | .capture n => some (.capture n)
  | .splat => some .splat
  | _ => none

def referencesOf (ps : List Piece) : List Reference :=
  ps.filterMap Piece.reference?

def references (t : Template) : List Reference :=
  referencesOf t.pieces

/-- The references in the text of a template. -/
def readReferences : List Char → List Reference
  | [] => []
  | '\\' :: cs => readReferences (cs.drop 1)
  | '%' :: cs =>
      if cs.head? = some '%' then .splat :: readReferences (cs.drop 1)
      else if cs.takeWhile Char.isDigit = [] then readReferences cs
      else
        .capture (min (Nat.ofDigitChars 10 (cs.takeWhile Char.isDigit) 0) captureBound) ::
          readReferences (cs.dropWhile Char.isDigit)
  | _ :: cs => readReferences cs
termination_by cs => cs.length
decreasing_by
  all_goals simp only [List.length_cons, List.length_drop]
  all_goals first
    | omega
    | exact Nat.lt_succ_of_le (List.dropWhile_suffix _).length_le

section Reading

variable {c : Char} {cs taken : List Char}

theorem readReferences_plain (hescape : c ≠ '\\') (hpercent : c ≠ '%') (cs : List Char) :
    readReferences (c :: cs) = readReferences cs := by
  rw [readReferences] <;> assumption

theorem readReferences_escape (c : Char) (cs : List Char) :
    readReferences ('\\' :: c :: cs) = readReferences cs := by
  simp [readReferences]

theorem readReferences_splat (cs : List Char) :
    readReferences ('%' :: '%' :: cs) = .splat :: readReferences cs := by
  simp [readReferences]

theorem readReferences_percent (hpercent : c ≠ '%') (hdigit : c.isDigit = false)
    (cs : List Char) : readReferences ('%' :: c :: cs) = readReferences (c :: cs) := by
  rw [readReferences]
  simp [hpercent, hdigit]

/-- A run of digits is taken as a whole, up to the first character that is none. -/
theorem span_digits (htaken : ∀ d ∈ taken, d.isDigit) (hcs : ∀ d ∈ cs.head?, d.isDigit = false) :
    (taken ++ cs).takeWhile Char.isDigit = taken ∧ (taken ++ cs).dropWhile Char.isDigit = cs := by
  have hstop : cs.takeWhile Char.isDigit = [] ∧ cs.dropWhile Char.isDigit = cs := by
    cases cs with
    | nil => exact ⟨rfl, rfl⟩
    | cons d ds =>
        have hd : d.isDigit = false := hcs d rfl
        simp [hd]
  rw [List.takeWhile_append_of_pos htaken, List.dropWhile_append_of_pos htaken, hstop.1, hstop.2]
  simp

theorem head?_digits_ne (hne : taken ≠ []) (htaken : ∀ d ∈ taken, d.isDigit) (cs : List Char) :
    (taken ++ cs).head? ≠ some '%' := by
  obtain ⟨d, ds, rfl⟩ := List.exists_cons_of_ne_nil hne
  rintro heq
  have hd := htaken d List.mem_cons_self
  rw [Option.some.inj heq] at hd
  exact absurd hd (by decide)

theorem readReferences_capture (hne : taken ≠ []) (htaken : ∀ d ∈ taken, d.isDigit)
    (hcs : ∀ d ∈ cs.head?, d.isDigit = false) :
    readReferences ('%' :: (taken ++ cs)) =
      .capture (min (Nat.ofDigitChars 10 taken 0) captureBound) :: readReferences cs := by
  obtain ⟨htake, hdrop⟩ := span_digits htaken hcs
  rw [readReferences, if_neg (head?_digits_ne hne htaken cs), htake, if_neg hne, hdrop]

end Reading

theorem referencesOf_append (ps qs : List Piece) :
    referencesOf (ps ++ qs) = referencesOf ps ++ referencesOf qs :=
  List.filterMap_append

theorem referencesOf_reverse_flush (cs : List Char) (ps : List Piece) :
    referencesOf (flush cs ++ ps).reverse = referencesOf ps.reverse := by
  unfold flush
  split
  · rfl
  · simp [referencesOf, Piece.reference?]

/-- What a scan holds back: characters that are read but are in no piece and in no text. -/
def Reading.pending : Reading → List Char
  | text => []
  | escape => ['\\']
  | percent => ['%']
  | digits taken => '%' :: taken.reverse

/-- The digits of a capture that a scan holds back are digits, and there is one. -/
def Reading.Sound : Reading → Prop
  | digits taken => taken ≠ [] ∧ ∀ d ∈ taken, d.isDigit
  | _ => True

namespace Scan

variable {c : Char}

/-- The references of a text that is scanned up to a point: those of the pieces so far, and those
of the characters held back and the ones to come. -/
def refs (s : Scan) (cs : List Char) : List Reference :=
  referencesOf s.pieces.reverse ++ readReferences (s.reading.pending ++ cs)

theorem refs_collect (s : Scan) (c : Char) (cs : List Char) :
    (s.collect c).refs cs = referencesOf s.pieces.reverse ++ readReferences cs :=
  rfl

theorem refs_emit (s : Scan) (p : Piece) (cs : List Char) :
    (s.emit p).refs cs =
      referencesOf s.pieces.reverse ++ (referencesOf [p] ++ readReferences cs) := by
  rw [refs, emit, List.reverse_cons, referencesOf_append, referencesOf_reverse_flush,
    List.append_assoc]
  rfl

/-- A character that is read as text, with nothing held back. -/
theorem refs_stepText (s : Scan) (c : Char) (cs : List Char) :
    (s.stepText c).refs cs = referencesOf s.pieces.reverse ++ readReferences (c :: cs) := by
  unfold stepText
  split
  · rename_i hc
    rw [hc]
    rfl
  · rename_i hescape
    split
    · rename_i hc
      rw [refs_emit, hc, readReferences_plain (by decide) (by decide)]
      rfl
    · split
      · rename_i hc
        rw [hc]
        rfl
      · rename_i hpercent
        rw [refs_collect, readReferences_plain hescape hpercent]

theorem refs_endDigits (s : Scan) {taken : List Char} (hne : taken ≠ [])
    (htaken : ∀ d ∈ taken, d.isDigit) {cs : List Char} (hcs : ∀ d ∈ cs.head?, d.isDigit = false) :
    (s.endDigits taken).refs cs =
      referencesOf s.pieces.reverse ++ readReferences ('%' :: (taken.reverse ++ cs)) := by
  rw [endDigits, refs_emit, readReferences_capture (by simpa using hne) (by simpa using htaken) hcs]
  rfl

theorem sound_stepText (s : Scan) (c : Char) : (s.stepText c).reading.Sound := by
  unfold stepText
  split
  · trivial
  · split
    · trivial
    · split <;> trivial

/-- What is held back after a step: digits only if they are the digits of a capture. -/
theorem sound_step {s : Scan} (hs : s.reading.Sound) (c : Char) : (s.step c).reading.Sound := by
  unfold step
  split
  · exact sound_stepText s c
  · trivial
  · split
    · trivial
    · split
      · rename_i hdigit
        exact ⟨List.cons_ne_nil _ _, by simpa using hdigit⟩
      · exact sound_stepText _ c
  · rename_i taken hreading
    rw [hreading] at hs
    split
    · rename_i hdigit
      exact ⟨List.cons_ne_nil _ _, List.forall_mem_cons.mpr ⟨hdigit, hs.2⟩⟩
    · exact sound_stepText _ c

/-- A step of the scan keeps the references of the text. -/
theorem refs_step {s : Scan} (hs : s.reading.Sound) (c : Char) (cs : List Char) :
    (s.step c).refs cs = s.refs (c :: cs) := by
  unfold step
  split
  · rename_i hreading
    rw [refs_stepText, refs, hreading]
    rfl
  · rename_i hreading
    rw [refs_collect, refs, hreading]
    exact congrArg _ (readReferences_escape c cs).symm
  · rename_i hreading
    have hrefs : s.refs (c :: cs) =
        referencesOf s.pieces.reverse ++ readReferences ('%' :: c :: cs) := by
      rw [refs, hreading]
      rfl
    rw [hrefs]
    split
    · rename_i hc
      rw [refs_emit, hc, readReferences_splat]
      rfl
    · rename_i hpercent
      split
      · rfl
      · rename_i hdigit
        rw [refs_stepText, readReferences_percent hpercent (by simpa using hdigit)]
        rfl
  · rename_i taken hreading
    rw [hreading] at hs
    have hrefs : s.refs (c :: cs) =
        referencesOf s.pieces.reverse ++ readReferences ('%' :: (taken.reverse ++ c :: cs)) := by
      rw [refs, hreading]
      rfl
    rw [hrefs]
    split
    · simp [refs, Reading.pending]
    · rename_i hdigit
      have hcs : ∀ d ∈ (c :: cs).head?, d.isDigit = false := by simpa using hdigit
      rw [refs_stepText, ← refs_endDigits s hs.1 hs.2 hcs]
      rfl

/-- Over a whole text, the scan keeps the references. -/
theorem refs_foldl_step (cs : List Char) {s : Scan} (hs : s.reading.Sound) :
    (cs.foldl step s).refs [] = s.refs cs ∧ (cs.foldl step s).reading.Sound := by
  induction cs generalizing s with
  | nil => exact ⟨rfl, hs⟩
  | cons c cs ih =>
      obtain ⟨hrefs, hsound⟩ := ih (sound_step hs c)
      exact ⟨hrefs.trans (refs_step hs c cs), hsound⟩

/-- At the end, what is held back is text again or the digits of a capture. -/
theorem referencesOf_finish {s : Scan} (hs : s.reading.Sound) :
    referencesOf s.finish = s.refs [] := by
  have hnil : readReferences [] = [] := by rw [readReferences]
  unfold finish
  rw [referencesOf_reverse_flush]
  split
  · rename_i hreading
    rw [refs, hreading, Reading.pending, List.append_nil, hnil, List.append_nil]
  · rename_i hreading
    rw [refs, hreading]
    simp [Reading.pending, readReferences, collect]
  · rename_i hreading
    rw [refs, hreading]
    simp [Reading.pending, readReferences, collect]
  · rename_i taken hreading
    rw [hreading] at hs
    calc
      _ = (s.endDigits taken).refs [] := by
        rw [refs, endDigits, emit, Reading.pending, List.append_nil, hnil, List.append_nil]
      _ = _ := by
        rw [refs_endDigits s hs.1 hs.2 (by simp), refs, hreading]
        rfl

end Scan

theorem referencesOf_trimSeparators (ps : List Piece) :
    referencesOf (trimSeparators ps) = referencesOf ps := by
  have hlead : referencesOf (dropFirstSeparator ps) = referencesOf ps := by
    unfold dropFirstSeparator
    split <;> rfl
  unfold trimSeparators
  dsimp only
  split
  · rename_i hlast
    rw [← hlead]
    conv_rhs => rw [← List.dropLast_append_getLast? _ hlast]
    rw [referencesOf_append]
    exact (List.append_nil _).symm
  · exact hlead

/-- The references of a template are those in its text. -/
theorem references_parse (source : String) :
    (parse source).references = readReferences source.toList := by
  obtain ⟨hrefs, hsound⟩ := Scan.refs_foldl_step source.toList (s := Scan.start) trivial
  rw [references, parse, referencesOf_trimSeparators, Scan.referencesOf_finish hsound, hrefs]
  rfl

example : (parse "a/%1x%%/\\%2%").references = [.capture 1, .splat] := by decide

/-- The references that stay unresolved with a number of captures and a number of splats. -/
def unresolved (source : String) (available : Nat) : Nat → List Reference → List PathError
  | _, [] => []
  | splats, .capture n :: rest =>
      if n = 0 ∨ available < n then
        .captureOutOfRange source n available :: unresolved source available splats rest
      else unresolved source available splats rest
  | 0, .splat :: rest => .unknownSplat source :: unresolved source available 0 rest
  | splats + 1, .splat :: rest => unresolved source available splats rest

namespace Filling

theorem finishSegment_leaves (f : Filling) :
    f.finishSegment.splats = f.splats ∧ f.finishSegment.diagnostics = f.diagnostics := by
  unfold finishSegment
  split <;> exact ⟨rfl, rfl⟩

theorem foldl_openKey_leaves (ks : Address) (f : Filling) :
    (ks.foldl openKey f).splats = f.splats ∧ (ks.foldl openKey f).diagnostics = f.diagnostics := by
  induction ks generalizing f with
  | nil => exact ⟨rfl, rfl⟩
  | cons k ks ih => exact ih (f.openKey k)

theorem putKeys_leaves (f : Filling) (ks : Address) :
    (f.putKeys ks).splats = f.splats ∧ (f.putKeys ks).diagnostics = f.diagnostics := by
  cases ks with
  | nil => exact ⟨rfl, rfl⟩
  | cons k ks =>
      unfold putKeys
      rw [(foldl_openKey_leaves ks _).1, (foldl_openKey_leaves ks _).2]
      split <;> exact ⟨rfl, rfl⟩

/-- A capture has a number from one on, up to the number of captures. -/
theorem capture?_eq_none_iff {found : Match} {n : Nat} :
    found.capture? n = none ↔ n = 0 ∨ found.captures.length < n := by
  unfold Match.capture?
  split
  · simp [*]
  · rw [List.getElem?_eq_none_iff]
    omega

/-- What a piece reports and what the pieces after it report are the references unresolved from
there on. -/
theorem diagnostics_put (source : String) (found : Match) (f : Filling) (p : Piece)
    (rest : List Reference) :
    (f.put source found p).diagnostics ++
        unresolved source found.captures.length (f.put source found p).splats.length rest =
      f.diagnostics ++ unresolved source found.captures.length f.splats.length
        (p.reference?.toList ++ rest) := by
  cases p with
  | text cs => rfl
  | separator =>
      rw [put, (finishSegment_leaves f).1, (finishSegment_leaves f).2]
      rfl
  | capture n =>
      simp only [Piece.reference?, Option.toList_some, List.singleton_append, put, unresolved,
        ← capture?_eq_none_iff]
      cases found.capture? n with
      | some s => simp [append]
      | none => simp [report]
  | splat =>
      simp only [Piece.reference?, Option.toList_some, List.singleton_append, put]
      cases hsplats : f.splats with
      | nil => simp [report, hsplats, unresolved]
      | cons keys splats =>
          rw [(putKeys_leaves _ _).1, (putKeys_leaves _ _).2]
          rfl

theorem diagnostics_foldl_put (source : String) (found : Match) (ps : List Piece) (f : Filling) :
    (ps.foldl (put source found) f).diagnostics =
      f.diagnostics ++
        unresolved source found.captures.length f.splats.length (referencesOf ps) := by
  induction ps generalizing f with
  | nil => exact (List.append_nil _).symm
  | cons p ps ih =>
      have hps : referencesOf (p :: ps) = p.reference?.toList ++ referencesOf ps := by
        cases hp : p.reference? <;> simp [referencesOf, hp]
      rw [List.foldl_cons, ih, diagnostics_put, hps]

end Filling

/-- What an expansion reports depends on the match only through how many captures and splats it
has. -/
theorem diagnostics_destination (t : Template) (found : Match) :
    (t.destination found).2 =
      unresolved t.source found.captures.length found.splats.length t.references := by
  have hexpand : (t.expand found).2 =
      unresolved t.source found.captures.length found.splats.length t.references := by
    unfold expand
    split
    · rename_i hempty
      rw [references, List.isEmpty_iff.mp hempty]
      rfl
    · dsimp only
      rw [(Filling.finishSegment_leaves _).2, Filling.diagnostics_foldl_put]
      simp [references]
  exact hexpand

end Template

/-- What a rule reports for each of its matches. -/
def Relocation.unresolved (rule : Relocation) : List PathError :=
  Template.unresolved rule.template.source rule.path.arity rule.path.recursions
    rule.template.references

theorem Relocation.map_diagnostics_find {α : Type} [Tree α] (rule : Relocation) (root : α) :
    (rule.path.find root).map (fun m => (rule.template.destination m).2) =
      List.replicate (rule.path.find root).length rule.unresolved := by
  rw [List.eq_replicate_iff]
  refine ⟨List.length_map _, ?_⟩
  intro diagnostics hmem
  obtain ⟨m, hm, rfl⟩ := List.mem_map.mp hmem
  obtain ⟨hcaptures, hsplats⟩ := Path.length_of_mem_find hm
  rw [Template.diagnostics_destination, hcaptures, hsplats, unresolved]

namespace Plan

/-- What a rule reports on a tree: the same for each match. -/
def reported (root : Node) (rule : Relocation) : List PathError :=
  (List.replicate (rule.path.find root).length rule.unresolved).flatten

namespace Relocating

theorem diagnostics_apply (removeSources : Bool) (r : Relocating) (rule : Relocation) :
    (r.apply removeSources rule).diagnostics = r.diagnostics ++ reported r.root rule := by
  rw [apply, diagnostics_foldl_assign, reported, ← Relocation.map_diagnostics_find,
    ← List.flatMap_def]

/-- The rules of a pass with the trees that they run on. -/
def turns (removeSources : Bool) : Relocating → List Relocation → List (Node × Relocation)
  | _, [] => []
  | r, rule :: rules => (r.root, rule) :: turns removeSources (r.apply removeSources rule) rules

theorem diagnostics_foldl_apply (removeSources : Bool) (rules : List Relocation)
    (r : Relocating) :
    (rules.foldl (apply removeSources) r).diagnostics =
      r.diagnostics ++ (r.turns removeSources rules).flatMap fun turn => reported turn.1 turn.2 := by
  induction rules generalizing r with
  | nil => exact (List.append_nil _).symm
  | cons rule rules ih =>
      rw [List.foldl_cons, ih, diagnostics_apply, turns, List.flatMap_cons, List.append_assoc]

end Relocating

/-- The rules of a plan with the trees that they run on: moves first, then maps on what the moves
have left. -/
def turns (p : Plan) (root : Node) : List (Node × Relocation) :=
  let kept := runDelete (p.selected root) p.delete
  Relocating.turns true ⟨kept, [], []⟩ p.move ++
    Relocating.turns false ⟨(relocate true kept p.move).1, [], []⟩ p.map

theorem diagnostics_runOn (p : Plan) (root : Node) :
    (p.runOn root).2 = (p.turns root).flatMap fun turn => reported turn.1 turn.2 := by
  simp only [runOn, relocate, turns, Relocating.diagnostics_foldl_apply, List.flatMap_append,
    List.nil_append]

/-- The diagnostics of a plan are known from its rules and the numbers of their matches. The
references of a template are those in its text. All matches of a rule report the same; running the
rule appends this list once for each match; and a plan reports what its rules do and nothing
else. -/
theorem execute_diagnostics :
    (∀ source, (Template.parse source).references = Template.readReferences source.toList) ∧
      (∀ (rule : Relocation) (root : Node),
        (rule.path.find root).map (fun m => (rule.template.destination m).2) =
          List.replicate (rule.path.find root).length rule.unresolved) ∧
      (∀ removeSources (r : Relocating) rule,
        (r.apply removeSources rule).diagnostics = r.diagnostics ++ reported r.root rule) ∧
      ∀ (p : Plan) (body : Value) (keepIndices : Bool),
        (p.execute body keepIndices).map Execution.diagnostics =
          if body.isContainer then
            .ok ((p.turns (.ofValue body)).flatMap fun turn => reported turn.1 turn.2)
          else .error (.unsupportedRoot body.kind) := by
  refine ⟨Template.references_parse, fun rule root => rule.map_diagnostics_find root,
    Relocating.diagnostics_apply, ?_⟩
  intro p body keepIndices
  rw [execute, ← diagnostics_runOn]
  split <;> rfl

end Plan

end PathRules
