import Mathlib.Computability.Language
import PathRules.Pattern

/-!
# Ways through an expression

The search tries the ways through an expression one after the other and hands each to a
continuation. A way is described here as a relation, without an order: it leads from one position
of the text to a later one and carries a capture for each group. Whatever the search returns it got
from some way, and if the continuation takes the end of some way then the search returns something.
So which texts match, how many captures there are and where they come from are questions about ways,
answered by one induction each; only which way comes first is left to the search.
-/

namespace PathRules

namespace Regex

/-- A way through an expression: from the position before `cs` to the one before `ds`, with
captures. -/
inductive Run (length : Nat) : Regex → List Char → List String → List Char → Prop
  | empty {cs} : Run length .empty cs [] cs
  | letter {c anyCase d cs} (h : c = d ∨ anyCase = true ∧ Text.sameLetter c d = true) :
      Run length (.letter c anyCase) (d :: cs) [] cs
  | anyChar {newline d cs} (h : newline = true ∨ d ≠ '\n') :
      Run length (.anyChar newline) (d :: cs) [] cs
  | anyRun {newline us cs} (h : newline = true ∨ '\n' ∉ us) :
      Run length (.anyRun newline) (us ++ cs) [] cs
  | textStart {cs} (h : cs.length = length) : Run length .textStart cs [] cs
  | textEnd : Run length .textEnd [] [] []
  | seq {a b cs xs ds ys es} (ha : Run length a cs xs ds) (hb : Run length b ds ys es) :
      Run length (.seq a b) cs (xs ++ ys) es
  | left {a b cs xs ds} (ha : Run length a cs xs ds) :
      Run length (.alt a b) cs (xs ++ b.unset) ds
  | right {a b cs ys ds} (hb : Run length b cs ys ds) :
      Run length (.alt a b) cs (a.unset ++ ys) ds
  | group {a cs xs ds} (ha : Run length a cs xs ds) :
      Run length (.group a) cs (String.ofList (between cs ds) :: xs) ds

section Search

variable {β : Type} {length : Nat} {newline : Bool} {r : Regex} {cs ds : List Char}
  {xs : List String} {b : β}

theorem isSome_tryRun {us : List Char} {k : List Char → Option β}
    (hus : newline = true ∨ '\n' ∉ us) (hk : (k ds).isSome) :
    (tryRun newline (us ++ ds) k).isSome := by
  induction us with
  | nil =>
      cases ds with
      | nil => exact hk
      | cons d ds =>
          rw [List.nil_append, tryRun]
          split
          · split
            · rfl
            · exact hk
          · exact hk
  | cons u us ih =>
      have hu : (newline || u != '\n') = true := by
        rcases hus with hnewline | hus
        · simp [hnewline]
        · simp [Ne.symm (List.ne_of_not_mem_cons hus)]
      have hlonger := ih (hus.imp_right List.not_mem_of_not_mem_cons)
      rw [List.cons_append, tryRun, if_pos hu]
      split
      · rfl
      · rename_i hnone
        simp [hnone] at hlonger

/-- The run that is taken is the longest of those whose end the continuation takes. -/
theorem longest_of_tryRun {k : List Char → Option β} (h : tryRun newline cs k = some b) :
    ∃ us ds, cs = us ++ ds ∧ (newline = true ∨ '\n' ∉ us) ∧ k ds = some b ∧
      ∀ vs es, cs = vs ++ es → (newline = true ∨ '\n' ∉ vs) → (k es).isSome →
        vs.length ≤ us.length := by
  induction cs with
  | nil =>
      refine ⟨[], [], rfl, by simp, h, fun vs es hvs _ _ => ?_⟩
      rw [(List.append_eq_nil_iff.mp hvs.symm).1]
  | cons c cs ih =>
      -- The empty run is taken if no run over `c` can be.
      have hstop (hnone : ∀ vs es, cs = vs ++ es → (newline = true ∨ '\n' ∉ c :: vs) →
          ¬ (k es).isSome) (hk : k (c :: cs) = some b) :
          ∃ us ds, c :: cs = us ++ ds ∧ (newline = true ∨ '\n' ∉ us) ∧ k ds = some b ∧
            ∀ vs es, c :: cs = vs ++ es → (newline = true ∨ '\n' ∉ vs) → (k es).isSome →
              vs.length ≤ us.length := by
        refine ⟨[], c :: cs, rfl, by simp, hk, fun vs es hvs hfree hes => ?_⟩
        rcases List.cons_eq_append_iff.mp hvs with ⟨rfl, -⟩ | ⟨vs, rfl, hcs⟩
        · exact Nat.le_refl _
        · exact absurd hes (hnone vs es hcs hfree)
      unfold tryRun at h
      split at h
      · rename_i hc
        have hc : newline = true ∨ c ≠ '\n' := by simpa using hc
        split at h
        · rename_i hlonger
          cases h
          obtain ⟨us, ds, rfl, hus, hk, hlongest⟩ := ih hlonger
          refine ⟨c :: us, ds, rfl, ?_, hk, fun vs es hvs hfree hes => ?_⟩
          · rcases hc with hnewline | hc
            · exact Or.inl hnewline
            · exact hus.imp_right fun hus => List.not_mem_cons_of_ne_of_not_mem hc.symm hus
          · rcases List.cons_eq_append_iff.mp hvs with ⟨rfl, -⟩ | ⟨vs, rfl, hcs⟩
            · exact Nat.zero_le _
            · exact Nat.succ_le_succ
                (hlongest vs es hcs (hfree.imp_right List.not_mem_of_not_mem_cons) hes)
        · rename_i hnone
          refine hstop (fun vs es hvs hfree hes => ?_) h
          have hsome := isSome_tryRun (hfree.imp_right List.not_mem_of_not_mem_cons) hes
          rw [← hvs, hnone] at hsome
          cases hsome
      · rename_i hc
        refine hstop (fun vs es _ hfree _ => hc ?_) h
        rcases hfree with hnewline | hfree
        · simp [hnewline]
        · simp [Ne.symm (List.ne_of_not_mem_cons hfree)]

/-- What the search returns it got from a way through the expression. -/
theorem exists_run_of_tryAt {k : List String → List Char → Option β}
    (h : tryAt length r cs k = some b) : ∃ xs ds, Run length r cs xs ds ∧ k xs ds = some b := by
  induction r generalizing cs k with
  | empty => exact ⟨[], cs, .empty, h⟩
  | letter c anyCase =>
      cases cs with
      | nil => cases h
      | cons d cs =>
          unfold tryAt at h
          split at h
          · rename_i hc
            exact ⟨[], cs, .letter (by simpa using hc), h⟩
          · cases h
  | anyChar newline =>
      cases cs with
      | nil => cases h
      | cons d cs =>
          unfold tryAt at h
          split at h
          · rename_i hd
            exact ⟨[], cs, .anyChar (by simpa using hd), h⟩
          · cases h
  | anyRun newline =>
      obtain ⟨us, ds, rfl, hus, hk, -⟩ := longest_of_tryRun h
      exact ⟨[], ds, .anyRun hus, hk⟩
  | textStart =>
      unfold tryAt at h
      split at h
      · rename_i hlength
        exact ⟨[], cs, .textStart hlength, h⟩
      · cases h
  | textEnd =>
      cases cs with
      | nil => exact ⟨[], [], .textEnd, h⟩
      | cons c cs => cases h
  | seq a b iha ihb =>
      obtain ⟨xs, ds, ha, hrest⟩ := iha h
      obtain ⟨ys, es, hb, hk⟩ := ihb hrest
      exact ⟨xs ++ ys, es, .seq ha hb, hk⟩
  | alt a b iha ihb =>
      unfold tryAt at h
      split at h
      · rename_i hleft
        cases h
        obtain ⟨xs, ds, ha, hk⟩ := iha hleft
        exact ⟨xs ++ b.unset, ds, .left ha, hk⟩
      · obtain ⟨ys, ds, hb, hk⟩ := ihb h
        exact ⟨a.unset ++ ys, ds, .right hb, hk⟩
  | group a ih =>
      obtain ⟨xs, ds, ha, hk⟩ := ih h
      exact ⟨_ :: xs, ds, .group ha, hk⟩

/-- A way whose end the continuation takes makes the search succeed. -/
theorem Run.isSome_tryAt (h : Run length r cs xs ds) {k : List String → List Char → Option β}
    (hk : (k xs ds).isSome) : (tryAt length r cs k).isSome := by
  induction h generalizing k with
  | empty => exact hk
  | letter hc =>
      rw [tryAt, if_pos (by simpa using hc)]
      exact hk
  | anyChar hd =>
      rw [tryAt, if_pos (by simpa using hd)]
      exact hk
  | anyRun hus => exact isSome_tryRun hus hk
  | textStart hlength =>
      rw [tryAt, if_pos hlength]
      exact hk
  | textEnd => exact hk
  | @seq a b cs xs ds ys es _ _ iha ihb =>
      have hrest := ihb (k := fun ys es => k (xs ++ ys) es) hk
      exact iha (k := fun xs ds => tryAt length b ds fun ys es => k (xs ++ ys) es) hrest
  | @left a b cs xs ds _ ih =>
      have hleft := ih (k := fun xs ds => k (xs ++ b.unset) ds) hk
      rw [tryAt]
      split
      · rfl
      · rename_i hnone
        simp [hnone] at hleft
  | @right a b cs ys ds _ ih =>
      rw [tryAt]
      split
      · rfl
      · exact ih (k := fun ys ds => k (a.unset ++ ys) ds) hk
  | @group a cs xs ds _ ih =>
      exact ih (k := fun xs ds => k (String.ofList (between cs ds) :: xs) ds) hk

/-- The search starts somewhere in the text and goes some way from there. -/
theorem exists_run_of_searchFrom {hit : Hit} (h : r.searchFrom length cs = some hit) :
    ∃ start xs ds, start <:+ cs ∧ Run length r start xs ds ∧ hit = ⟨between start ds, xs⟩ := by
  induction cs with
  | nil =>
      obtain ⟨xs, ds, hrun, heq⟩ := exists_run_of_tryAt h
      cases heq
      exact ⟨[], xs, ds, List.suffix_rfl, hrun, by simp [between]⟩
  | cons c cs ih =>
      unfold searchFrom at h
      split at h
      · rename_i hhere
        cases h
        obtain ⟨xs, ds, hrun, heq⟩ := exists_run_of_tryAt hhere
        cases heq
        exact ⟨c :: cs, xs, ds, List.suffix_rfl, hrun, rfl⟩
      · obtain ⟨start, xs, ds, hstart, hrun, rfl⟩ := ih h
        exact ⟨start, xs, ds, hstart.trans (List.suffix_cons c cs), hrun, rfl⟩

theorem Run.isSome_searchFrom {start : List Char} (h : Run length r start xs ds)
    (hstart : start <:+ cs) : (r.searchFrom length cs).isSome := by
  induction cs with
  | nil =>
      obtain rfl := List.suffix_nil.mp hstart
      exact h.isSome_tryAt rfl
  | cons c cs ih =>
      rw [searchFrom]
      split
      · rfl
      · rename_i hnone
        rcases List.suffix_cons_iff.mp hstart with rfl | hstart
        · have hhere :=
            h.isSome_tryAt (k := fun xs ds => some (Hit.mk (between (c :: cs) ds) xs)) rfl
          simp [hnone] at hhere
        · exact ih hstart

end Search

section Runs

variable {length : Nat} {r a b : Regex} {cs ds : List Char} {xs : List String}

theorem length_unset (r : Regex) : r.unset.length = r.groups :=
  List.length_replicate

/-- Every way has one capture for each group. -/
theorem Run.length_captures (h : Run length r cs xs ds) : xs.length = r.groups := by
  induction h with
  | empty => rfl
  | letter => rfl
  | anyChar => rfl
  | anyRun => rfl
  | textStart => rfl
  | textEnd => rfl
  | seq _ _ iha ihb => rw [List.length_append, iha, ihb, groups]
  | left _ ih => rw [List.length_append, ih, length_unset, groups]
  | right _ ih => rw [List.length_append, ih, length_unset, groups]
  | group _ ih => rw [List.length_cons, ih, groups]

theorem Run.suffix (h : Run length r cs xs ds) : ds <:+ cs := by
  induction h with
  | empty => exact List.suffix_rfl
  | letter => exact List.suffix_cons _ _
  | anyChar => exact List.suffix_cons _ _
  | anyRun => exact List.suffix_append _ _
  | textStart => exact List.suffix_rfl
  | textEnd => exact List.suffix_rfl
  | seq _ _ iha ihb => exact ihb.trans iha
  | left _ ih => exact ih
  | right _ ih => exact ih
  | group _ ih => exact ih

/-- Every capture of a way is a piece of the text that the way starts from. A group that takes no
part has captured the empty piece. -/
theorem Run.infix_of_mem (h : Run length r cs xs ds) : ∀ x ∈ xs, x.toList <:+: cs := by
  have hunset : ∀ (r : Regex) (cs : List Char), ∀ x ∈ r.unset, x.toList <:+: cs := by
    intro r cs x hx
    rw [List.eq_of_mem_replicate hx]
    exact List.nil_infix
  induction h with
  | empty => simp
  | letter => simp
  | anyChar => simp
  | anyRun => simp
  | textStart => simp
  | textEnd => simp
  | seq ha _ iha ihb =>
      intro x hx
      rcases List.mem_append.mp hx with hx | hx
      · exact iha x hx
      · exact (ihb x hx).trans ha.suffix.isInfix
  | left _ ih =>
      intro x hx
      rcases List.mem_append.mp hx with hx | hx
      · exact ih x hx
      · exact hunset _ _ x hx
  | right _ ih =>
      intro x hx
      rcases List.mem_append.mp hx with hx | hx
      · exact hunset _ _ x hx
      · exact ih x hx
  | group _ ih =>
      refine List.forall_mem_cons.mpr ⟨?_, ih⟩
      rw [String.toList_ofList]
      exact (List.take_prefix _ _).isInfix

theorem run_seq_iff : Run length (.seq a b) cs xs ds ↔
    ∃ ys es zs, Run length a cs ys es ∧ Run length b es zs ds ∧ xs = ys ++ zs := by
  constructor
  · rintro ⟨⟩
    rename_i ha hb
    exact ⟨_, _, _, ha, hb, rfl⟩
  · rintro ⟨ys, es, zs, ha, hb, rfl⟩
    exact .seq ha hb

theorem run_alt_iff : Run length (.alt a b) cs xs ds ↔
    (∃ ys, Run length a cs ys ds ∧ xs = ys ++ b.unset) ∨
      ∃ ys, Run length b cs ys ds ∧ xs = a.unset ++ ys := by
  constructor
  · rintro ⟨⟩
    · rename_i ha
      exact Or.inl ⟨_, ha, rfl⟩
    · rename_i hb
      exact Or.inr ⟨_, hb, rfl⟩
  · rintro (⟨ys, ha, rfl⟩ | ⟨ys, hb, rfl⟩)
    · exact .left ha
    · exact .right hb

theorem run_group_iff : Run length (.group a) cs xs ds ↔
    ∃ ys, Run length a cs ys ds ∧ xs = String.ofList (between cs ds) :: ys := by
  constructor
  · rintro ⟨⟩
    rename_i ha
    exact ⟨_, ha, rfl⟩
  · rintro ⟨ys, ha, rfl⟩
    exact .group ha

/-- An expression between the two anchors goes from the start of the text to its end. -/
theorem run_anchored_iff : Run length (.seq .textStart (.seq a .textEnd)) cs xs ds ↔
    cs.length = length ∧ ds = [] ∧ Run length a cs xs [] := by
  constructor
  · intro h
    obtain ⟨_, _, _, hstart, hrest, rfl⟩ := run_seq_iff.mp h
    obtain ⟨_, _, _, hbody, hend, rfl⟩ := run_seq_iff.mp hrest
    cases hstart
    cases hend
    exact ⟨‹_›, rfl, by simpa using hbody⟩
  · rintro ⟨hlength, rfl, hbody⟩
    simpa using Run.seq (.textStart hlength) (hbody.seq .textEnd)

/-- An expression between the two anchors matches a text as a whole or not at all. -/
theorem search_anchored {hit : Hit} (h : (seq .textStart (.seq a .textEnd)).search cs = some hit) :
    hit.whole = cs ∧ Run cs.length a cs hit.captures [] := by
  obtain ⟨start, xs, ds, hstart, hrun, rfl⟩ := exists_run_of_searchFrom h
  obtain ⟨hlength, rfl, hbody⟩ := run_anchored_iff.mp hrun
  obtain rfl := hstart.eq_of_length hlength
  exact ⟨by simp [between], hbody⟩

/-- After the start of a text, nothing that is held there is found. -/
theorem searchFrom_textStart {length : Nat} (h : cs.length < length) :
    (seq .textStart a).searchFrom length cs = none := by
  induction cs with
  | nil => simp only [searchFrom, tryAt, if_neg (Nat.ne_of_lt h)]
  | cons c cs ih =>
      have hrest := ih (Nat.lt_trans (Nat.lt_succ_self _) h)
      simp only [searchFrom, hrest, tryAt, if_neg (Nat.ne_of_lt h)]

/-- Between the two anchors the search is a single try, from the start of the text to its end. -/
theorem search_anchored_eq (a : Regex) (cs : List Char) :
    (seq .textStart (.seq a .textEnd)).search cs =
      tryAt cs.length a cs fun xs ds => if ds.isEmpty then some ⟨cs, xs⟩ else none := by
  have htry : ∀ length, (tryAt length a cs fun xs ds => tryAt length .textEnd ds fun ys es =>
        some (Hit.mk (between cs es) (xs ++ ys))) =
      tryAt length a cs fun xs ds => if ds.isEmpty then some ⟨cs, xs⟩ else none := by
    intro length
    congr 1
    funext xs ds
    cases ds <;> simp [tryAt, between]
  cases cs with
  | nil => simp [search, searchFrom, tryAt]
  | cons c cs =>
      have hlater : (seq .textStart (.seq a .textEnd)).searchFrom (c :: cs).length cs = none :=
        searchFrom_textStart (Nat.lt_succ_self _)
      rw [search, searchFrom, hlater, ← htry]
      simp only [tryAt, if_true, List.nil_append]
      split
      · rename_i hhit
        exact hhit.symm
      · rename_i hnone
        exact hnone.symm

theorem isSome_search_anchored_iff :
    ((seq .textStart (.seq a .textEnd)).search cs).isSome ↔ ∃ xs, Run cs.length a cs xs [] := by
  constructor
  · intro h
    obtain ⟨hit, hhit⟩ := Option.isSome_iff_exists.mp h
    exact ⟨hit.captures, (search_anchored hhit).2⟩
  · rintro ⟨xs, hbody⟩
    exact (run_anchored_iff.mpr ⟨rfl, rfl, hbody⟩).isSome_searchFrom List.suffix_rfl

end Runs

/-- The ways through an expression read the words of a language, wherever in a text they start. -/
def Reads (r : Regex) (L : Language Char) : Prop :=
  ∀ length cs ds, (∃ xs, Run length r cs xs ds) ↔ ∃ us ∈ L, cs = us ++ ds

namespace Reads

variable {a b : Regex} {K L : Language Char}

theorem empty : Reads .empty 1 := by
  intro length cs ds
  constructor
  · rintro ⟨xs, ⟨⟩⟩
    exact ⟨[], rfl, rfl⟩
  · rintro ⟨us, rfl, rfl⟩
    exact ⟨[], .empty⟩

theorem letter (c : Char) : Reads (.letter c false) {[c]} := by
  intro length cs ds
  constructor
  · rintro ⟨xs, h⟩
    cases h with
    | letter hc =>
        obtain rfl : c = _ := by simpa using hc
        exact ⟨[c], rfl, rfl⟩
  · rintro ⟨us, rfl, rfl⟩
    exact ⟨[], .letter (Or.inl rfl)⟩

theorem anyChar : Reads (.anyChar false) {us | ∃ c, us = [c] ∧ c ≠ '\n'} := by
  intro length cs ds
  constructor
  · rintro ⟨xs, h⟩
    cases h with
    | anyChar hd => exact ⟨[_], ⟨_, rfl, by simpa using hd⟩, rfl⟩
  · rintro ⟨us, ⟨c, rfl, hc⟩, rfl⟩
    exact ⟨[], .anyChar (Or.inr hc)⟩

theorem anyRun : Reads (.anyRun false) {us | '\n' ∉ us} := by
  intro length cs ds
  constructor
  · rintro ⟨xs, h⟩
    cases h with
    | anyRun hus => exact ⟨_, hus.resolve_left Bool.false_ne_true, rfl⟩
  · rintro ⟨us, hus, rfl⟩
    exact ⟨[], .anyRun (Or.inr hus)⟩

theorem seq (ha : a.Reads K) (hb : b.Reads L) : (Regex.seq a b).Reads (K * L) := by
  intro length cs ds
  constructor
  · rintro ⟨xs, h⟩
    obtain ⟨ys, es, zs, hrun, hrun', -⟩ := run_seq_iff.mp h
    obtain ⟨us, hus, rfl⟩ := (ha length cs es).mp ⟨ys, hrun⟩
    obtain ⟨vs, hvs, rfl⟩ := (hb length es ds).mp ⟨zs, hrun'⟩
    exact ⟨us ++ vs, Language.append_mem_mul hus hvs, (List.append_assoc us vs ds).symm⟩
  · rintro ⟨ws, hws, rfl⟩
    obtain ⟨us, hus, vs, hvs, rfl⟩ := Language.mem_mul.mp hws
    obtain ⟨ys, hrun⟩ := (ha length (us ++ (vs ++ ds)) (vs ++ ds)).mpr ⟨us, hus, rfl⟩
    obtain ⟨zs, hrun'⟩ := (hb length (vs ++ ds) ds).mpr ⟨vs, hvs, rfl⟩
    rw [List.append_assoc]
    exact ⟨ys ++ zs, hrun.seq hrun'⟩

theorem alt (ha : a.Reads K) (hb : b.Reads L) : (Regex.alt a b).Reads (K + L) := by
  intro length cs ds
  have hunion : (∃ us ∈ K + L, cs = us ++ ds) ↔
      (∃ us ∈ K, cs = us ++ ds) ∨ ∃ us ∈ L, cs = us ++ ds := by
    simp only [Language.mem_add, or_and_right, exists_or]
  rw [hunion, ← ha length, ← hb length]
  constructor
  · rintro ⟨xs, h⟩
    rcases run_alt_iff.mp h with ⟨ys, hrun, -⟩ | ⟨ys, hrun, -⟩
    · exact Or.inl ⟨ys, hrun⟩
    · exact Or.inr ⟨ys, hrun⟩
  · rintro (⟨ys, hrun⟩ | ⟨ys, hrun⟩)
    · exact ⟨_, hrun.left⟩
    · exact ⟨_, hrun.right⟩

theorem group (ha : a.Reads L) : (Regex.group a).Reads L := by
  intro length cs ds
  rw [← ha length cs ds]
  constructor
  · rintro ⟨xs, h⟩
    obtain ⟨ys, hrun, -⟩ := run_group_iff.mp h
    exact ⟨ys, hrun⟩
  · rintro ⟨ys, hrun⟩
    exact ⟨_, hrun.group⟩

end Reads

/-- Between the two anchors an expression matches exactly the words of its language. -/
theorem Reads.isSome_search_anchored_iff {a : Regex} {L : Language Char} (h : a.Reads L)
    {cs : List Char} : ((Regex.seq .textStart (.seq a .textEnd)).search cs).isSome ↔ cs ∈ L := by
  rw [Regex.isSome_search_anchored_iff, h]
  simp

end Regex

end PathRules
