import Mathlib.Data.List.Flatten
import PathRules.Proofs.PathAcceptance
import PathRules.Proofs.WidenedPatterns

/-!
# Paths under flags

A path that has no flags can be given some: two slashes and letters behind it are split off again,
and what is left compiles, segment for segment, to matchers that match no less than before. A
search under wider matchers replays every step of the search under the narrower ones, the walks of
recursive segments and the ways back up included, since these depend on keys only. So it finds the
same addresses with the same splats in the same order, and maybe others between them. A flag that
widens nothing can be replayed the other way too, and then nothing lies between them.
-/

namespace PathRules

/-- Where a match is, and the keys that recursive segments walked to get there. -/
def Match.site (m : Match) : Address × List (Nat × Address) :=
  (m.keys, m.splats)

/-- Segments of one kind whose matchers are related. -/
inductive Segment.Related (R : Matcher → Matcher → Prop) : Segment → Segment → Prop
  | parent : Related R parent parent
  | step {k k' : Matcher} {v v' : Option Matcher} {recursive : Bool} (hkey : R k k')
      (hvalue : Option.Rel R v v') : Related R (step k v recursive) (step k' v' recursive)

namespace Segment.Related

variable {R S : Matcher → Matcher → Prop} {segment segment' : Segment}

theorem imp (h : segment.Related R segment') (hRS : ∀ m m', R m m' → S m m') :
    segment.Related S segment' := by
  cases h with
  | parent => exact .parent
  | step hkey hvalue =>
      refine .step (hRS _ _ hkey) ?_
      cases hvalue with
      | none => exact .none
      | some hm => exact .some (hRS _ _ hm)

theorem flip (h : segment.Related R segment') : segment'.Related (Function.swap R) segment := by
  cases h with
  | parent => exact .parent
  | step hkey hvalue =>
      refine .step hkey ?_
      cases hvalue with
      | none => exact .none
      | some hm => exact .some hm

end Segment.Related

/-- Every part that compiles without flags compiles under flags to a related matcher. -/
def Flags.Relates (flags : Flags) (R : Matcher → Matcher → Prop) : Prop :=
  ∀ part m, Matcher.ofTokens {} part = .ok m →
    ∃ m', Matcher.ofTokens flags part = .ok m' ∧ R m m'

theorem Flags.Relates.any {flags : Flags} {R : Matcher → Matcher → Prop} (hR : flags.Relates R) :
    R .any .any := by
  obtain ⟨m', hm', hrelated⟩ := hR [] .any rfl
  cases hm'
  exact hrelated

namespace Path

section Search

variable {α : Type} [Tree α] {key key' : Matcher} {value value' : Option Matcher}
  {found found' : Match}

theorem isSome_stepCaptures?_iff (length : Option Nat) (k : Key) (child : α) :
    (stepCaptures? key value length k child).isSome ↔
      (key.matchKey? k length).isSome ∧ ∀ m ∈ value, (m.matchValue? child).isSome := by
  unfold stepCaptures?
  cases key.matchKey? k length with
  | none => simp
  | some captures =>
      cases value with
      | none => simp
      | some m => cases hm : m.matchValue? child <;> simp [hm]

theorem isSome_stepCaptures?_of_within (hkey : key.Within key')
    (hvalue : Option.Rel Matcher.Within value value') (length : Option Nat) (k : Key) (child : α)
    (h : (stepCaptures? key value length k child).isSome) :
    (stepCaptures? key' value' length k child).isSome := by
  rw [isSome_stepCaptures?_iff] at h ⊢
  refine ⟨hkey.key k length h.1, ?_⟩
  cases hvalue with
  | none => simp
  | some hm => simpa using hm.value child (by simpa using h.2)

/-- What is found behind the hits of a step lies in the same order among what is found behind the
hits of a wider step. -/
theorem sublist_flatMap_hits (hkey : key.Within key')
    (hvalue : Option.Rel Matcher.Within value value') (node : α) (hsite : found.site = found'.site)
    {next next' : Match → α → List Match}
    (hnext : ∀ (m m' : Match) (child : α), m.site = m'.site →
      ((next m child).map Match.site).Sublist ((next' m' child).map Match.site)) :
    (((hits key value node found).flatMap fun (m, c) => next m c).map Match.site).Sublist
      (((hits key' value' node found').flatMap fun (m, c) => next' m c).map Match.site) := by
  obtain ⟨hkeys, hsplats⟩ := Prod.mk.inj hsite
  unfold hits
  induction Tree.children node with
  | nil => exact List.Sublist.refl _
  | cons p children ih =>
      obtain ⟨k, child⟩ := p
      cases hstep : stepCaptures? key value (Tree.seqLength? node) k child with
      | some captures =>
          obtain ⟨captures', hstep'⟩ := Option.isSome_iff_exists.mp
            (isSome_stepCaptures?_of_within hkey hvalue _ k child (by rw [hstep]; rfl))
          have hextend : (found.extend k captures).site = (found'.extend k captures').site := by
            simp only [Match.site, Match.extend, hkeys, hsplats]
          simpa [hstep, hstep'] using (hnext _ _ child hextend).append ih
      | none =>
          cases hstep' : stepCaptures? key' value' (Tree.seqLength? node) k child with
          | none => simpa [hstep, hstep'] using ih
          | some captures' =>
              -- a hit of the wider step alone only puts more in between
              have hlater := ih.trans (List.sublist_append_right
                ((next' (found'.extend k captures') child).map Match.site) _)
              simpa [hstep, hstep'] using hlater

/-- Two matches at one address are both at the root, or both have one above them. -/
theorem up?_of_site_eq (hsite : found.site = found'.site) :
    (found.up? = none ∧ found'.up? = none) ∨
      ∃ up up', found.up? = some up ∧ found'.up? = some up' ∧ up.site = up'.site := by
  obtain ⟨hkeys, hsplats⟩ := Prod.mk.inj hsite
  unfold Match.up?
  rw [hkeys]
  split
  · exact Or.inl ⟨rfl, rfl⟩
  · exact Or.inr ⟨_, _, rfl, rfl, by simp only [Match.site, hsplats]⟩

/-- A search under wider matchers finds what the search finds, in the same order. -/
theorem sublist_findFrom {segments segments' : List Segment}
    (h : List.Forall₂ (Segment.Related Matcher.Within) segments segments') (root node : α)
    (number : Nat) (hsite : found.site = found'.site) :
    ((findFrom root segments number node found).map Match.site).Sublist
      ((findFrom root segments' number node found').map Match.site) := by
  induction h generalizing number node found found' with
  | nil =>
      rw [findFrom, findFrom, List.map_singleton, List.map_singleton, hsite]
  | cons hsegment _ ih =>
      cases hsegment with
      | parent =>
          -- the way back up depends on the keys alone, which the two matches share
          rw [findFrom, findFrom]
          rcases up?_of_site_eq hsite with ⟨hup, hup'⟩ | ⟨up, up', hup, hup', hsite⟩
          · rw [hup, hup']
          · have hkeys : up.keys = up'.keys := (Prod.mk.inj hsite).1
            rw [hup, hup']
            simp only [hkeys]
            cases Tree.lookup root up'.keys with
            | none => exact List.Sublist.refl _
            | some n => exact ih n (number + 1) hsite
      | @step _ _ _ _ recursive hkey hvalue =>
          have hnext : ∀ (m m' : Match) (child : α), m.site = m'.site → _ :=
            fun m m' child => ih child (number + 1)
          cases recursive with
          | false =>
              rw [findFrom, findFrom]
              exact sublist_flatMap_hits hkey hvalue node hsite hnext
          | true =>
              rw [findFrom, findFrom, List.map_flatMap, List.map_flatMap]
              refine List.Sublist.flatMap_right _ fun p _ => ?_
              obtain ⟨walked, n⟩ := p
              refine sublist_flatMap_hits hkey hvalue n ?_ hnext
              obtain ⟨hkeys, hsplats⟩ := Prod.mk.inj hsite
              simp only [Match.site, Match.walk, hkeys, hsplats]

end Search

section Compile

variable {R : Matcher → Matcher → Prop} {flags : Flags} {part raw : List Token}
  {raws : List (List Token)} {recursive : Bool}

theorem exists_compilePart_related {m : Matcher} (hR : flags.Relates R)
    (h : compilePart {} part = .ok m) : ∃ m', compilePart flags part = .ok m' ∧ R m m' := by
  unfold compilePart at h ⊢
  cases hpart : Matcher.ofTokens {} part with
  | error fault =>
      rw [hpart] at h
      cases h
  | ok m =>
      rw [hpart] at h
      cases h
      obtain ⟨m', hm', hrelated⟩ := hR part _ hpart
      exact ⟨m', by rw [hm']; rfl, hrelated⟩

theorem exists_compileSegment_related {segment : Segment} (hR : flags.Relates R)
    (h : compileSegment {} recursive raw = .ok segment) :
    ∃ segment', compileSegment flags recursive raw = .ok segment' ∧
      segment.Related R segment' := by
  unfold compileSegment at h ⊢
  split at h
  · obtain ⟨m, hm, hdone⟩ := bind_eq_ok_iff.mp h
    cases hdone
    obtain ⟨m', hm', hkey⟩ := exists_compilePart_related hR hm
    exact ⟨_, bind_eq_ok_iff.mpr ⟨m', hm', rfl⟩, .step hkey .none⟩
  · rename_i key value _
    by_cases hstars : Token.spell key ['*', '*']
    · rw [if_pos hstars] at h ⊢
      obtain ⟨m, hm, hdone⟩ := bind_eq_ok_iff.mp h
      cases hdone
      obtain ⟨m', hm', hvalue⟩ := exists_compilePart_related hR hm
      exact ⟨_, bind_eq_ok_iff.mpr ⟨m', hm', rfl⟩, .step hR.any (.some hvalue)⟩
    · rw [if_neg hstars] at h ⊢
      obtain ⟨k, hk, h⟩ := bind_eq_ok_iff.mp h
      obtain ⟨m, hm, hdone⟩ := bind_eq_ok_iff.mp h
      cases hdone
      obtain ⟨k', hk', hkey⟩ := exists_compilePart_related hR hk
      obtain ⟨m', hm', hvalue⟩ := exists_compilePart_related hR hm
      exact ⟨_, bind_eq_ok_iff.mpr ⟨k', hk', bind_eq_ok_iff.mpr ⟨m', hm', rfl⟩⟩,
        .step hkey (.some hvalue)⟩
  · cases h

theorem exists_compileSegments_related {segments : List Segment} (hR : flags.Relates R)
    (h : compileSegments {} recursive raws = .ok segments) :
    ∃ segments', compileSegments flags recursive raws = .ok segments' ∧
      List.Forall₂ (Segment.Related R) segments segments' := by
  induction raws generalizing recursive segments with
  | nil =>
      cases h
      refine ⟨_, rfl, ?_⟩
      split
      · exact .cons (.step hR.any .none) .nil
      · exact .nil
  | cons raw raws ih =>
      rw [compileSegments] at h ⊢
      by_cases hstars : Token.spell raw ['*', '*']
      · rw [if_pos hstars] at h ⊢
        exact ih h
      rw [if_neg hstars] at h ⊢
      by_cases hdots : Token.spell raw ['.', '.']
      · rw [if_pos hdots] at h ⊢
        obtain ⟨rest, hrest, hdone⟩ := bind_eq_ok_iff.mp h
        cases hdone
        obtain ⟨rest', hrest', hrelated⟩ := ih hrest
        refine ⟨_, bind_eq_ok_iff.mpr ⟨rest', hrest', rfl⟩, ?_⟩
        split
        · exact hrelated
        · exact .cons .parent hrelated
      · rw [if_neg hdots] at h ⊢
        obtain ⟨segment, hsegment, h⟩ := bind_eq_ok_iff.mp h
        obtain ⟨rest, hrest, hdone⟩ := bind_eq_ok_iff.mp h
        cases hdone
        obtain ⟨segment', hsegment', hhead⟩ := exists_compileSegment_related hR hsegment
        obtain ⟨rest', hrest', htail⟩ := ih hrest
        exact ⟨_, bind_eq_ok_iff.mpr ⟨segment', hsegment',
          bind_eq_ok_iff.mpr ⟨rest', hrest', rfl⟩⟩, .cons hhead htail⟩

theorem splitFlags_of_isEmpty {ts : List Token} (h : (splitFlags ts).2 = {}) :
    splitFlags ts = (ts, {}) := by
  rcases splitFlags_cases ts with hplain | ⟨suffix, hsuffix, hts⟩
  · exact hplain
  · obtain ⟨flags, hsplit, hset⟩ := splitFlags_append (splitFlags ts).1 hsuffix
    rw [← hts] at hsplit
    rw [hsplit] at h
    rw [show flags = {} from h] at hset
    cases hset

theorem scan?_append_bare {cs ds : List Char} {ts : List Token} (h : Token.scan? cs = some ts)
    (hds : '\\' ∉ ds) : Token.scan? (cs ++ ds) = some (ts ++ Token.bare ds) := by
  obtain ⟨rfl, hescapes⟩ := Token.scan?_eq_some_iff.mp h
  refine Token.scan?_eq_some_iff.mpr ⟨by rw [Token.print_append, Token.print_bare], ?_⟩
  intro t ht
  rcases List.mem_append.mp ht with ht | ht
  · exact hescapes t ht
  · obtain ⟨d, hd, rfl⟩ := List.mem_map.mp ht
    rintro - rfl
    exact hds hd

/-- A path without flags compiles with flags behind it, and its segments are related. -/
theorem exists_compile_flagged {s : String} {path : Path} {letters : List Char}
    (h : Path.compile s = .ok path) (hplain : path.flags = {}) (hne : letters ≠ [])
    (hletters : Flags.ofLetters? letters = some flags) (hR : flags.Relates R) :
    ∃ path', Path.compile (s ++ String.ofList ('/' :: '/' :: letters)) = .ok path' ∧
      List.Forall₂ (Segment.Related R) path.segments path'.segments := by
  unfold Path.compile at h
  split at h
  · cases h
  rename_i ts hscan
  split at h
  · rename_i segments flags' hcompile
    cases h
    obtain rfl : flags' = {} := hplain
    rw [compileTokens_eq] at hcompile
    obtain ⟨rest, hsegments, hdone⟩ := bind_eq_ok_iff.mp hcompile
    obtain ⟨hrest, hflags⟩ := Prod.mk.inj (Except.ok.inj hdone)
    have hsplit : splitFlags ts = (ts, {}) := splitFlags_of_isEmpty hflags
    rw [hsplit] at hsegments
    obtain ⟨segments', hsegments', hrelated⟩ := exists_compileSegments_related hR hsegments
    have hbackslash : '\\' ∉ letters := fun hmem =>
      absurd ((Flags.mem_of_foldlM_add? hletters).1 _ hmem) (by decide)
    have hscan' : Token.scan? (s ++ String.ofList ('/' :: '/' :: letters)).toList =
        some (ts ++ Token.bare ('/' :: '/' :: letters)) := by
      rw [String.toList_append, String.toList_ofList]
      exact scan?_append_bare hscan (by simp [hbackslash])
    have hcompile' : compileTokens (ts ++ Token.bare ('/' :: '/' :: letters)) =
        .ok (segments', flags) := by
      rw [compileTokens_eq, splitFlags_letters ts hne hletters]
      exact bind_eq_ok_iff.mpr ⟨segments', hsegments', rfl⟩
    refine ⟨⟨s ++ String.ofList ('/' :: '/' :: letters), segments', flags⟩, ?_, hrest ▸ hrelated⟩
    rw [Path.compile, hscan']
    simp only [hcompile']
  · cases h

end Compile

/-- A path finds what it finds without the flags behind it, in the same order. -/
theorem exists_sublist_find {s : String} {path : Path} {letters : List Char} {flags : Flags}
    (h : Path.compile s = .ok path) (hplain : path.flags = {}) (hne : letters ≠ [])
    (hletters : Flags.ofLetters? letters = some flags) (hblank : flags.extended = false) :
    ∃ path', Path.compile (s ++ String.ofList ('/' :: '/' :: letters)) = .ok path' ∧
      ∀ {α : Type} [Tree α] (root : α),
        ((path.find root).map Match.site).Sublist ((path'.find root).map Match.site) := by
  have hR : flags.Relates Matcher.Within := by
    intro part m hm
    obtain ⟨m', hm', hwithin, -⟩ := Matcher.exists_ofTokens_within hblank hm
    exact ⟨m', hm', hwithin⟩
  obtain ⟨path', hpath', hrelated⟩ := exists_compile_flagged h hplain hne hletters hR
  exact ⟨path', hpath', fun root => sublist_findFrom hrelated root root 0 rfl⟩

/-- Flags that widen nothing change nothing in what a path finds. -/
theorem exists_find_eq {s : String} {path : Path} {letters : List Char} {flags : Flags}
    (h : Path.compile s = .ok path) (hplain : path.flags = {}) (hne : letters ≠ [])
    (hletters : Flags.ofLetters? letters = some flags) (hblank : flags.extended = false)
    (hcase : flags.anyCase = false) (hdot : flags.dotAll = false) :
    ∃ path', Path.compile (s ++ String.ofList ('/' :: '/' :: letters)) = .ok path' ∧
      ∀ {α : Type} [Tree α] (root : α),
        (path'.find root).map Match.site = (path.find root).map Match.site := by
  have hR : flags.Relates fun m m' => m.Within m' ∧ m'.Within m := by
    intro part m hm
    obtain ⟨m', hm', hwithin, hback⟩ := Matcher.exists_ofTokens_within hblank hm
    exact ⟨m', hm', hwithin, hback hcase hdot⟩
  obtain ⟨path', hpath', hrelated⟩ := exists_compile_flagged h hplain hne hletters hR
  have hforth := hrelated.imp fun _ _ h => h.imp fun _ _ => And.left
  have hback := hrelated.flip.imp fun _ _ h => h.flip.imp fun _ _ => And.right
  exact ⟨path', hpath', fun root => (sublist_findFrom hback root root 0 rfl).antisymm
    (sublist_findFrom hforth root root 0 rfl)⟩

/-- A path without flags also compiles with the flag `n`, `i` or `m` behind it. With `n` it finds
the same addresses with the same splats in the same order, and with the other two at least these. -/
theorem find_flagged {s : String} {path : Path} (h : Path.compile s = .ok path)
    (hplain : path.flags = {}) :
    ∃ pathN pathI pathM, Path.compile (s ++ "//n") = .ok pathN ∧
      Path.compile (s ++ "//i") = .ok pathI ∧ Path.compile (s ++ "//m") = .ok pathM ∧
      ∀ {α : Type} [Tree α] (root : α),
        (pathN.find root).map Match.site = (path.find root).map Match.site ∧
        ((path.find root).map Match.site).Sublist ((pathI.find root).map Match.site) ∧
        ((path.find root).map Match.site).Sublist ((pathM.find root).map Match.site) := by
  obtain ⟨pathN, hN, hsame⟩ :=
    exists_find_eq h hplain (List.cons_ne_nil 'n' []) rfl rfl rfl rfl
  obtain ⟨pathI, hI, hcase⟩ := exists_sublist_find h hplain (List.cons_ne_nil 'i' []) rfl rfl
  obtain ⟨pathM, hM, hdot⟩ := exists_sublist_find h hplain (List.cons_ne_nil 'm' []) rfl rfl
  exact ⟨pathN, pathI, pathM, hN, hI, hM, fun root => ⟨hsame root, hcase root, hdot root⟩⟩

/-- A map with a name in both cases. -/
def lowerAndUpper : Node :=
  .map [("ab", .null), ("AB", .null)]

/-- The name in lower case, and with `i` the one in upper case after it. -/
theorem find_flagged_lowerAndUpper :
    Path.compile "ab" = .ok ⟨"ab", [.step (.literal "ab") none false], {}⟩ ∧
    ∃ pathN pathI pathM, Path.compile "ab//n" = .ok pathN ∧ Path.compile "ab//i" = .ok pathI ∧
      Path.compile "ab//m" = .ok pathM ∧
      (pathN.find lowerAndUpper).map Match.site = [([.name "ab"], [])] ∧
      (pathI.find lowerAndUpper).map Match.site = [([.name "ab"], []), ([.name "AB"], [])] ∧
      [([.name "ab"], [])].Sublist ((pathM.find lowerAndUpper).map Match.site) := by
  have hcompile : Path.compile "ab" = .ok ⟨"ab", [.step (.literal "ab") none false], {}⟩ := rfl
  obtain ⟨pathN, pathI, pathM, hN, hI, hM, hfind⟩ := find_flagged hcompile rfl
  obtain ⟨hsame, -, hdot⟩ := hfind lowerAndUpper
  refine ⟨hcompile, pathN, pathI, pathM, hN, hI, hM, hsame, ?_, hdot⟩
  cases hI
  decide

end Path

end PathRules
