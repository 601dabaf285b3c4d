import Mathlib.Data.Finset.Option
import Mathlib.Data.Fintype.EquivFin
import PathRules.Proofs.DirectoryFiles
import PathRules.Proofs.TextBytes
import PathRules.Saving

/-!
# What saving leaves behind

Saving writes a temporary file and gives it the name of the target. Each of the two steps may fail,
and a write that fails may leave any bytes in its file. Followed step by step, nothing but the
temporary file is touched before the last step, and the last step undoes that and writes the target
at once. So saving is atomic and touches only its target if the temporary file is a file of its own
that was not there before. The name of the temporary file is made from that of the target, and it
may be the target itself or a file next to it; then a failing write is seen in the target or in the
other file, and a save that succeeds takes the other file away.
-/

namespace PathRules

namespace SaveStep

/-- What a step that fails may leave: the directory as it was, or any bytes in the file that was to
be written. -/
inductive Breaks (d : Directory) : SaveStep → Directory → Prop
  | untouched (step : SaveStep) : Breaks d step d
  | written {d' : Directory} {name : String} {bytes : List UInt8} (whole : List UInt8)
      (h : d.write? name bytes = some d') : Breaks d (.write name whole) d'

/-- What carrying out steps may leave, and whether all of them were carried out. Any step may
fail, and then the rest is left out. -/
inductive Leaves : Directory → List SaveStep → Directory → Bool → Prop
  | done (d : Directory) : Leaves d [] d true
  | step {d d' d'' : Directory} {step : SaveStep} {rest : List SaveStep} {saved : Bool}
      (h : step.perform? d = some d') (hrest : Leaves d' rest d'' saved) :
      Leaves d (step :: rest) d'' saved
  | broken {d d' : Directory} {step : SaveStep} (rest : List SaveStep) (h : step.Breaks d d') :
      Leaves d (step :: rest) d' false

/-- Carrying out steps up to the first that fails is one of the cases. -/
theorem leaves_performAll (packed : Bool) (d : Directory) (steps : List SaveStep) :
    Leaves d steps (performAll packed d steps).1 (performAll packed d steps).2.isOk := by
  induction steps generalizing d with
  | nil => exact .done d
  | cons step rest ih =>
      rw [performAll]
      cases h : step.perform? d with
      | none => exact .broken rest (.untouched step)
      | some d' => exact .step h (ih d')

end SaveStep

open Directory SaveStep

/-- What saving has to leave: the target as it was or with the new bytes, with these if it
succeeded; every other file as it was; and after a success no file that is new but the target. -/
structure Spares (d d' : Directory) (name : String) (new : List UInt8) (saved : Bool) : Prop where
  target : d'.read? name = d.read? name ∨ d'.read? name = some new
  complete : saved → d'.read? name = some new
  kept : ∀ other, place? other ≠ place? name → d.read? other ≠ none →
    d'.read? other = d.read? other
  nothingNew : saved → ∀ other, place? other ≠ place? name → d.read? other = none →
    d'.read? other = none

section Saving

variable {d d' : Directory} {name temporary : String} {new : List UInt8} {saved : Bool}

/-- The temporary file is a file of its own, and it was not there before. -/
def IsFresh (d : Directory) (temporary name : String) : Prop :=
  place? temporary ≠ place? name ∧ d.read? temporary = none

/-- Until the last step only the temporary file is touched, and the last step leaves what writing
the target at once would leave. -/
theorem leaves_of_isFresh (hfresh : IsFresh d temporary name)
    (h : Leaves d [.write temporary new, .rename temporary name] d' saved) :
    (saved = false ∧ ∀ other, place? other ≠ place? temporary → d'.read? other = d.read? other) ∨
      (saved = true ∧ ∃ key, place? name = some key ∧ d' = ⟨Entries.insert d.files key new⟩) := by
  obtain ⟨hne, hnew⟩ := hfresh
  have hwrite : ∀ {bytes d₁}, d.write? temporary bytes = some d₁ →
      ∀ other, place? other ≠ place? temporary → d₁.read? other = d.read? other := by
    intro bytes d₁ h other hother
    obtain ⟨-, key, hkey, rfl⟩ := write?_eq_some_iff.mp h
    rw [read?_insert hkey, if_neg hother]
  cases h with
  | broken _ h =>
      refine Or.inl ⟨rfl, ?_⟩
      cases h with
      | untouched => exact fun _ _ => rfl
      | written _ h => exact hwrite h
  | @step _ d₁ _ _ _ _ h hrest =>
      cases hrest with
      | broken _ hbreaks =>
          cases hbreaks
          exact Or.inl ⟨rfl, hwrite h⟩
      | step hrename hrest =>
          cases hrest
          obtain ⟨-, key, hkey, rfl⟩ := write?_eq_some_iff.mp h
          obtain ⟨bytes, old, target, hread, hold, htarget, rfl⟩ := rename?_eq_some hrename hne
          rw [read?_insert hkey, if_pos rfl] at hread
          rw [hkey] at hold
          cases hread
          cases hold
          refine Or.inr ⟨rfl, target, htarget, ?_⟩
          rw [Entries.erase_insert_of_not_mem _ (not_mem_keys_of_read? hkey hnew)]

theorem spares_of_isFresh (hfresh : IsFresh d temporary name)
    (h : Leaves d [.write temporary new, .rename temporary name] d' saved) :
    Spares d d' name new saved := by
  obtain ⟨rfl, hsame⟩ | ⟨rfl, key, hkey, rfl⟩ := leaves_of_isFresh hfresh h
  · refine ⟨Or.inl (hsame name hfresh.1.symm), nofun, fun other _ hother => hsame other ?_, nofun⟩
    intro hplace
    rw [read?_eq, hplace, ← read?_eq] at hother
    exact hother hfresh.2
  · have hother : ∀ other, place? other ≠ place? name →
        read? ⟨Entries.insert d.files key new⟩ other = d.read? other := by
      intro other hne
      rw [read?_insert hkey, if_neg hne]
    have hname : read? ⟨Entries.insert d.files key new⟩ name = some new := by
      rw [read?_insert hkey, if_pos rfl]
    exact ⟨Or.inr hname, fun _ => hname, fun other hne _ => hother other hne,
      fun _ other hne hnone => (hother other hne).trans hnone⟩

/-- Where the temporary file cannot be written nothing happens. -/
theorem spares_of_not_takes (htakes : d.takes temporary = false)
    (h : Leaves d [.write temporary new, .rename temporary name] d' saved) :
    Spares d d' name new saved := by
  have hwrite : ∀ {bytes d₁}, d.write? temporary bytes ≠ some d₁ := by
    intro bytes d₁ h
    rw [(write?_eq_some_iff.mp h).1] at htakes
    cases htakes
  cases h with
  | step h _ => exact absurd h hwrite
  | broken _ h =>
      cases h with
      | untouched => exact ⟨Or.inl rfl, nofun, fun _ _ _ => rfl, nofun⟩
      | written _ h => exact absurd h hwrite

/-- A failing write can be seen in its file, whatever the file held and was to hold. -/
theorem exists_ne_ne (old : Option (List UInt8)) (new : List UInt8) :
    ∃ bytes, some bytes ≠ old ∧ bytes ≠ new := by
  obtain ⟨bytes, hbytes⟩ := Infinite.exists_notMem_finset (insert new old.toFinset)
  rw [Finset.mem_insert, Option.mem_toFinset, not_or] at hbytes
  exact ⟨bytes, fun h => hbytes.2 h.symm, hbytes.1⟩

theorem isFresh_of_spares (htakes : d.takes temporary)
    (h : ∀ d' saved, Leaves d [.write temporary new, .rename temporary name] d' saved →
      Spares d d' name new saved) : IsFresh d temporary name := by
  obtain ⟨ps, hps, -⟩ := (Option.any_eq_true _ _).mp htakes
  have hkey : place? temporary = some (join ps) := by rw [place?, hps, Option.map_some]
  obtain ⟨bytes, hold, hnew⟩ := exists_ne_ne (d.read? temporary) new
  have hwrite : d.write? temporary bytes = some ⟨Entries.insert d.files (join ps) bytes⟩ :=
    write?_eq_some_iff.mpr ⟨htakes, _, hkey, rfl⟩
  have hspares := h _ _ (.broken [.rename temporary name] (.written new hwrite))
  have hread := read?_insert hkey d bytes
  have hplace : place? temporary ≠ place? name := by
    intro hplace
    have htarget := hspares.target
    rw [hread, if_pos hplace.symm, read?_eq, ← hplace, ← read?_eq] at htarget
    rcases htarget with h | h
    · exact hold h
    · exact hnew (Option.some.inj h)
  refine ⟨hplace, ?_⟩
  by_contra hsome
  have hkept := hspares.kept temporary hplace hsome
  rw [hread, if_pos rfl] at hkept
  exact hold hkept

end Saving

/-- The bytes that are saved are compressed if the name asks for it, and they are the bytes of the
text. -/
theorem decodeText_savedBytes {limit : Nat} {name : String} {v : Value} {format : OutputFormat}
    {pretty : Bool} (h : (utf8Bytes (render v format pretty)).length ≤ limit) :
    Gzip.isPacked (savedBytes name v format pretty) = isPackedName name ∧
      decodeText limit (savedBytes name v format pretty) = .ok (render v format pretty) := by
  have hbytes : savedBytes name v format pretty =
      if isPackedName name then Gzip.pack (utf8Bytes (render v format pretty))
      else utf8Bytes (render v format pretty) := rfl
  rw [hbytes]
  split
  · next hname => exact ⟨hname.symm, decodeText_pack h⟩
  · next hname =>
      rw [Bool.not_eq_true] at hname
      exact ⟨by rw [isPacked_utf8Bytes, hname], decodeText_utf8Bytes limit _⟩

/-- Saving, as far as it gets, spares the directory exactly if the temporary file is a file of its
own that was not there before, or cannot be written at all. What a success leaves under the name are
the bytes of the text, compressed if the name asks for it. -/
theorem save_spares_iff (d : Directory) (name : String) (v : Value) (format : OutputFormat)
    (pretty : Bool) :
    ((∀ d' saved, Leaves d (saveSteps name v format pretty) d' saved →
        Spares d d' name (savedBytes name v format pretty) saved) ↔
      (d.takes (temporaryName name) → IsFresh d (temporaryName name) name)) ∧
    Leaves d (saveSteps name v format pretty) (d.save name v format pretty).1
      (d.save name v format pretty).2.isOk ∧
    ∀ limit, (utf8Bytes (render v format pretty)).length ≤ limit →
      Gzip.isPacked (savedBytes name v format pretty) = isPackedName name ∧
        decodeText limit (savedBytes name v format pretty) = .ok (render v format pretty) := by
  refine ⟨⟨fun h htakes => isFresh_of_spares htakes h, fun h d' saved hleaves => ?_⟩,
    leaves_performAll _ d _, fun _ => decodeText_savedBytes⟩
  cases htakes : d.takes (temporaryName name) with
  | false => exact spares_of_not_takes htakes hleaves
  | true => exact spares_of_isFresh (h htakes) hleaves

/-- A folder with the target and a file next to it. -/
def besideNotes : Directory :=
  .ofFiles [("out/a.json", [110]), ("out/a.txt", [120])]

theorem save_spares_iff_besideNotes :
    IsFresh besideNotes (temporaryName "./out/a.json") "./out/a.json" ∧
      ∀ d' saved, Leaves besideNotes (saveSteps "./out/a.json" .null .json false) d' saved →
        Spares besideNotes d' "./out/a.json" (savedBytes "./out/a.json" .null .json false)
          saved := by
  have hfresh : IsFresh besideNotes (temporaryName "./out/a.json") "./out/a.json" := by
    have htemporary : temporaryName "./out/a.json" = "./out/a.tmp" := by decide
    rw [htemporary]
    exact ⟨by decide, by decide⟩
  exact ⟨hfresh, (save_spares_iff besideNotes "./out/a.json" .null .json false).1.mpr
    fun _ => hfresh⟩

/-- A file whose name is the one that the temporary file gets. -/
def namesake : Directory :=
  .ofFiles [("a.tmp", [107])]

/-- A save that succeeds takes away a file that has the name of the temporary file, and a failing
write is seen in a target that has it. -/
theorem save_namesake :
    (∃ d', Leaves namesake (saveSteps "a.json" .null .json false) d' true ∧
      namesake.read? "a.tmp" = some [107] ∧ d'.read? "a.tmp" = none) ∧
    ∃ d', Leaves namesake (saveSteps "a.tmp" .null .json false) d' false ∧
      d'.read? "a.tmp" ≠ namesake.read? "a.tmp" ∧
      d'.read? "a.tmp" ≠ some (savedBytes "a.tmp" .null .json false) := by
  have hother : temporaryName "a.json" = "a.tmp" := by decide
  have hsame : temporaryName "a.tmp" = "a.tmp" := by decide
  have hplace : place? "a.tmp" = some "a.tmp" := by decide
  have hwrite : ∀ bytes, namesake.write? "a.tmp" bytes =
      some ⟨Entries.insert namesake.files "a.tmp" bytes⟩ := fun bytes =>
    write?_eq_some_iff.mpr ⟨by decide, _, hplace, rfl⟩
  constructor
  · refine ⟨⟨[("a.json", savedBytes "a.json" .null .json false)]⟩, ?_, by decide, by decide⟩
    rw [saveSteps, hother]
    exact .step (hwrite _) (.step rfl (.done _))
  · obtain ⟨bytes, hold, hnew⟩ := exists_ne_ne (namesake.read? "a.tmp")
      (savedBytes "a.tmp" .null .json false)
    refine ⟨_, by rw [saveSteps, hsame]; exact .broken _ (.written _ (hwrite bytes)), ?_⟩
    rw [read?_insert hplace, if_pos rfl]
    exact ⟨hold, fun h => hnew (Option.some.inj h)⟩

end PathRules
