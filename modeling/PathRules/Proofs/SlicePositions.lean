import Mathlib.Data.List.Sort
import PathRules.Proofs.RangePositions

/-!
# Slices from the end of a sequence

A slice is a start and a length. Its end is their sum, which is computed when the path is compiled
and so before the length of any sequence is known; a bound counts from the end of a sequence if it
is negative when a key is matched. A slice with a negative start has an end that counts from the end
as well as long as the sum is negative. From zero on the sum counts from the start, although the
start of the slice still counts from the end. Then the slice is the one from the resolved start only
if no element that this one finds stands after the sum.
-/

namespace PathRules

namespace Numeral

theorem exists_toInt_eq {i : Int} (h : FitsInt64 i) : ∃ n : Int64, n.toInt = i := by
  obtain ⟨n, hn⟩ := Option.isSome_iff_exists.mp (isSome_toInt64?_iff.mpr h)
  exact ⟨n, toInt64?_eq_some_iff.mp hn⟩

end Numeral

namespace Token

variable {cs : List Char} {d : Char}

theorem is_eq_false_of_mem_bare (hd : d ∉ cs) : ∀ t ∈ bare cs, t.is d = false := by
  intro t ht
  obtain ⟨c, hc, rfl⟩ := List.mem_map.mp ht
  have hne : c ≠ d := by
    rintro rfl
    exact hd hc
  simpa [is] using hne

theorem spell_bare_eq_false {word : List Char} (hd : d ∉ cs) (hword : d ∈ word) :
    spell (bare cs) word = false := by
  apply beq_false_of_ne
  intro heq
  have hcs : cs = word := by rw [← print_bare cs, heq, ← bare, print_bare]
  exact hd (hcs ▸ hword)

end Token

namespace Path

/-- A path that is one part without separators, which is not reserved, is one step. -/
theorem compile_part {source : String} {part : List Token} {m : Matcher}
    (hscan : Token.scan? source.toList = some part) (hpart : Token.Part part)
    (hequals : ∀ t ∈ part, t.is '=' = false) (hstars : Token.spell part ['*', '*'] = false)
    (hdots : Token.spell part ['.', '.'] = false) (hm : Matcher.ofTokens {} part = .ok m) :
    Path.compile source = .ok ⟨source, [.step m none false], {}⟩ := by
  have hsegment : compileSegment {} false part = .ok (.step m none false) := by
    rw [compileSegment, List.splitOnP_eq_singleton hequals]
    simp only [compilePart, hm]
    rfl
  have hsegments : compileSegments {} false [part] = .ok [.step m none false] := by
    simp only [compileSegments, hstars, hdots, hsegment]
    rfl
  have htokens : compileTokens part = .ok ([.step m none false], {}) := by
    rw [← Token.join_singleton part]
    exact compileTokens_join (by simpa using hpart) hsegments
  simp only [Path.compile, hscan, htokens]

/-- The text of a slice. -/
def sliceText (start length : Int) : String :=
  Numeral.intText start ++ "," ++ Numeral.intText length

theorem toList_sliceText (start length : Int) :
    (sliceText start length).toList =
      Numeral.intDigits start ++ ([','] ++ Numeral.intDigits length) := by
  simp [sliceText, Numeral.intText]

theorem not_mem_sliceText {start length : Int} {d : Char} (hcomma : d ≠ ',') (hminus : d ≠ '-')
    (hdigit : d.isDigit = false) : d ∉ (sliceText start length).toList := by
  have hint : ∀ i : Int, d ∉ Numeral.intDigits i := by
    intro i hd
    rcases Numeral.isDigit_of_mem_intDigits hd with hd | hd
    · exact hminus hd
    · rw [hdigit] at hd
      cases hd
  simp [toList_sliceText, hint, hcomma]

theorem compile_sliceText {start length stop : Int64}
    (hstop : stop.toInt = start.toInt + length.toInt) :
    Path.compile (sliceText start.toInt length.toInt) =
      .ok ⟨sliceText start.toInt length.toInt, [.step (.range start stop true) none false], {}⟩ := by
  generalize hcs : (sliceText start.toInt length.toInt).toList = cs
  have habsent : ∀ d, d ≠ ',' → d ≠ '-' → d.isDigit = false → d ∉ cs := fun d hcomma hminus hdigit =>
    hcs ▸ not_mem_sliceText hcomma hminus hdigit
  have hcomma : ',' ∈ cs := by simp [← hcs, toList_sliceText]
  have hback : '\\' ∉ cs := habsent _ (by decide) (by decide) (by decide)
  have hscan : Token.scan? cs = some (Token.bare cs) := by
    rw [Token.scan?_eq_some_iff]
    refine ⟨Token.print_bare cs, ?_⟩
    intro t ht _ heq
    obtain ⟨d, hd, rfl⟩ := List.mem_map.mp ht
    exact hback (heq ▸ hd)
  have hrange : Matcher.readRange? cs = some (.range start stop true) := by
    have hsum := Numeral.toInt64?_eq_some_iff.mpr hstop
    have hstart := Numeral.readInt64?_intDigits start
    rw [← hcs, toList_sliceText, Matcher.readRange?_comma hstart]
    simp [Matcher.readSlice?, hstart, Numeral.readInt64?_intDigits, hsum]
  have hm : Matcher.ofTokens {} (Token.bare cs) = .ok (.range start stop true) := by
    apply Matcher.ofTokens_eq_ok_iff.mpr
    refine .range ?_ (by rw [Token.print_bare, hrange])
    exact List.all_eq_false.mpr ⟨⟨',', false⟩, List.mem_map.mpr ⟨',', hcomma, rfl⟩, by decide⟩
  refine compile_part (hcs ▸ hscan) ⟨?_, ?_⟩ ?_ ?_ ?_ hm
  · simpa [Token.bare] using List.ne_nil_of_mem hcomma
  · exact Token.is_eq_false_of_mem_bare (habsent _ (by decide) (by decide) (by decide))
  · exact Token.is_eq_false_of_mem_bare (habsent _ (by decide) (by decide) (by decide))
  · exact Token.spell_bare_eq_false (habsent '*' (by decide) (by decide) (by decide))
      List.mem_cons_self
  · exact Token.spell_bare_eq_false (habsent '.' (by decide) (by decide) (by decide))
      List.mem_cons_self

/-- Two paths find the same positions of a sequence if they ask for the same of those that it has. -/
theorem FindsPositions.find_eq_iff {α : Type} [Tree α] {path path' : Path} {node : α}
    {P Q : Int → Prop} (h : path.FindsPositions node P) (h' : path'.FindsPositions node Q) :
    path.find node = path'.find node ↔
      ∀ i : Nat, (Tree.child? node (.index i)).isSome → (P i ↔ Q i) := by
  obtain ⟨is, hfind, hdescending, hmem⟩ := h
  obtain ⟨js, hfind', hdescending', hmem'⟩ := h'
  have hinjective : Function.Injective fun i : Nat =>
      ({ keys := [.index i], captures := [Numeral.natText i] } : Match) := by
    intro i j heq
    simpa using congrArg Match.keys heq
  rw [hfind, hfind', (List.map_injective_iff.mpr hinjective).eq_iff]
  constructor
  · rintro rfl i hi
    have hsame := (hmem i).symm.trans (hmem' i)
    simpa [hi] using hsame
  · intro hsame
    apply hdescending.eq_of_mem_iff hdescending'
    intro i
    rw [hmem, hmem']
    exact and_congr_right (hsame i)

section Slices

open Matcher

variable {α : Type} [Tree α] {node : α} {s : Sparse α} {n : Nat} {N M : Int}

/-- A slice with a negative start and the slice from the resolved start find the same unless the
second has an element after the sum of the first, from zero on. -/
theorem between_slices_iff (hnode : Tree.Sequence node s) (hspan : s.span = n) :
    (∀ i : Nat, (Tree.child? node (.index i)).isSome →
        (Between (n + N) (if N + M < 0 then n + N + M else N + M) true i ↔
          Between (n + N) (n + N + M) true i)) ↔
      N + M < 0 ∨ ∀ i : Nat, (Tree.child? node (.index i)).isSome → n + N ≤ i → i ≤ N + M := by
  have hlt : ∀ i : Nat, (Tree.child? node (.index i)).isSome → i < n := by
    intro i hi
    rw [hnode.child?_index, ← Sparse.mem_populated_iff hnode.sound] at hi
    exact hspan ▸ hnode.sound.lt_of_mem_populated hi
  by_cases hsum : N + M < 0
  · simp [hsum]
  · rw [if_neg hsum, or_iff_right hsum]
    refine forall₂_congr fun i hi => ?_
    have := hlt i hi
    simp only [Between, if_true]
    omega

/-- In a sequence without gaps the last position tells whether there are elements after the sum. -/
theorem forall_isSome_le_iff {length : Nat} (hchild : ∀ i : Nat,
    (Tree.child? node (.index i)).isSome ↔ i < length) (hlow : -length ≤ N) (hneg : N < 0) :
    (∀ i : Nat, (Tree.child? node (.index i)).isSome → length + N ≤ i → i ≤ N + M) ↔
      length ≤ N + M + 1 := by
  simp only [hchild]
  constructor
  · intro h
    have := h (length - 1) (by omega) (by omega)
    omega
  · intro h i hi _
    omega

theorem fromEnd_of_neg {bound : Int64} (h : bound.toInt < 0) :
    fromEnd n bound = n + bound.toInt := by
  rw [fromEnd, if_pos h, Int.add_comm]

theorem fromEnd_of_nonneg {bound : Int64} (h : 0 ≤ bound.toInt) :
    fromEnd n bound = bound.toInt := by
  rw [fromEnd, if_neg (Int.not_lt.mpr h)]

variable {start length stop start' stop' : Int64}

/-- A range from a negative start to the sum of start and length, and the one from the resolved
start, in a sequence of `n` positions. -/
theorem findsPositions_slices (hnode : Tree.Sequence node s) (hspan : s.span = n)
    (hn : Numeral.FitsInt64 n) (hlow : -n ≤ start.toInt) (hneg : start.toInt < 0)
    (hlength : 0 ≤ length.toInt) (hstop : stop.toInt = start.toInt + length.toInt)
    (hstart' : start'.toInt = n + start.toInt)
    (hstop' : stop'.toInt = n + start.toInt + length.toInt) (source source' : String) :
    FindsPositions ⟨source, [.step (.range start stop true) none false], {}⟩ node
      (Between (n + start.toInt)
        (if start.toInt + length.toInt < 0 then n + start.toInt + length.toInt
          else start.toInt + length.toInt) true) ∧
    FindsPositions ⟨source', [.step (.range start' stop' true) none false], {}⟩ node
      (Between (n + start.toInt) (n + start.toInt + length.toInt) true) ∧
    (find ⟨source, [.step (.range start stop true) none false], {}⟩ node =
        find ⟨source', [.step (.range start' stop' true) none false], {}⟩ node ↔
      start.toInt + length.toInt < 0 ∨ ∀ i : Nat, (Tree.child? node (.index i)).isSome →
        n + start.toInt ≤ i → i ≤ start.toInt + length.toInt) := by
  have hfound : FindsPositions ⟨source, [.step (.range start stop true) none false], {}⟩ node
      (Between (fromEnd s.span start) (fromEnd s.span stop) true) :=
    findsPositions_range hnode (hspan ▸ hn) source {}
  have hfound' : FindsPositions ⟨source', [.step (.range start' stop' true) none false], {}⟩ node
      (Between (fromEnd s.span start') (fromEnd s.span stop') true) :=
    findsPositions_range hnode (hspan ▸ hn) source' {}
  have hstop_eq : fromEnd n stop =
      if start.toInt + length.toInt < 0 then n + start.toInt + length.toInt
        else start.toInt + length.toInt := by
    rw [fromEnd, hstop]
    split <;> omega
  rw [hspan, fromEnd_of_neg hneg, hstop_eq] at hfound
  rw [hspan, fromEnd_of_nonneg (by omega), fromEnd_of_nonneg (by omega), hstart', hstop'] at hfound'
  exact ⟨hfound, hfound', (hfound.find_eq_iff hfound').trans (between_slices_iff hnode hspan)⟩

/-- The slice `N,M` with a negative start in a sequence of `n` positions. It begins at `n + N`, and
it ends at `n + N + M` if `N + M` is negative and at `N + M` if not. So it finds what the slice
`n + N,M` finds if the sum is negative or no element from `n + N` on stands after the sum. In a
sequence without gaps this is so if the sum is negative or at least the last position. -/
theorem find_slice (hn : Numeral.FitsInt64 n) (hlow : -n ≤ N) (hneg : N < 0) (hM : 0 ≤ M)
    (hfits : Numeral.FitsInt64 (n + N + M)) :
    ∃ slice resolved, Path.compile (sliceText N M) = .ok slice ∧
      Path.compile (sliceText (n + N) M) = .ok resolved ∧
      (∀ {α : Type} [Tree α] (node : α) (s : Sparse α), Tree.Sequence node s → s.span = n →
        slice.FindsPositions node
          (Between (n + N) (if N + M < 0 then n + N + M else N + M) true) ∧
        resolved.FindsPositions node (Between (n + N) (n + N + M) true) ∧
        (slice.find node = resolved.find node ↔
          N + M < 0 ∨ ∀ i : Nat, (Tree.child? node (.index i)).isSome → n + N ≤ i → i ≤ N + M)) ∧
      (∀ items : List Value, items.length = n →
        (slice.find (Value.seq items) = resolved.find (Value.seq items) ↔
          N + M < 0 ∨ n ≤ N + M + 1)) ∧
      ∀ items : List Node, items.length = n →
        (slice.find (Node.seq items) = resolved.find (Node.seq items) ↔
          N + M < 0 ∨ n ≤ N + M + 1) := by
  have hbounds : Int64.minValue.toInt = -9223372036854775808 ∧
      Int64.maxValue.toInt = 9223372036854775807 := ⟨rfl, rfl⟩
  have hword : ∀ i, N ≤ i → i ≤ n + N + M → ∃ b : Int64, b.toInt = i := by
    intro i hi hi'
    apply Numeral.exists_toInt_eq
    simp only [Numeral.FitsInt64] at hn hfits ⊢
    omega
  obtain ⟨start, rfl⟩ := hword N (by omega) (by omega)
  obtain ⟨length, rfl⟩ := hword M (by omega) (by omega)
  obtain ⟨stop, hstop⟩ := hword (start.toInt + length.toInt) (by omega) (by omega)
  obtain ⟨start', hstart'⟩ := hword (n + start.toInt) (by omega) (by omega)
  obtain ⟨stop', hstop'⟩ := hword (n + start.toInt + length.toInt) (by omega) (by omega)
  have hslice := compile_sliceText hstop
  have hresolved : Path.compile (sliceText start'.toInt length.toInt) = _ :=
    compile_sliceText (hstop'.trans (by rw [hstart']))
  rw [hstart'] at hresolved
  refine ⟨_, _, hslice, hresolved, ?_, ?_, ?_⟩
  · intro α _ node s hnode hspan
    exact findsPositions_slices hnode hspan hn hlow hneg hM hstop hstart' hstop' _ _
  · intro items hlength
    obtain ⟨-, -, hsame⟩ := findsPositions_slices (Value.sequence_seq items) hlength hn hlow hneg hM
      hstop hstart' hstop' (sliceText start.toInt length.toInt)
      (sliceText (n + start.toInt) length.toInt)
    rw [hsame, forall_isSome_le_iff (by simp [Tree.child?, Value.child?, hlength]) hlow hneg]
  · intro items hlength
    obtain ⟨-, -, hsame⟩ := findsPositions_slices (Node.sequence_seq items) hlength hn hlow hneg hM
      hstop hstart' hstop' (sliceText start.toInt length.toInt)
      (sliceText (n + start.toInt) length.toInt)
    rw [hsame, forall_isSome_le_iff (by simp [Tree.child?, Node.child?, hlength]) hlow hneg]

/-- The last two of four elements: with length two the sum of the slice is zero. -/
theorem find_slice_lastTwoOfFour :
    Numeral.FitsInt64 (4 : Nat) ∧ (-(4 : Nat) : Int) ≤ -2 ∧ (-2 : Int) < 0 ∧ (0 : Int) ≤ 2 ∧
    Numeral.FitsInt64 ((4 : Nat) + -2 + 2) ∧
    ∃ slice resolved, Path.compile "-2,2" = .ok slice ∧ Path.compile "2,2" = .ok resolved ∧
      ∀ items : List Value, items.length = 4 →
        slice.FindsPositions (Value.seq items) (Between 2 0 true) ∧
        resolved.FindsPositions (Value.seq items) (Between 2 4 true) ∧
        slice.find (Value.seq items) ≠ resolved.find (Value.seq items) := by
  have hn : Numeral.FitsInt64 (4 : Nat) := ⟨by decide, by decide⟩
  have hfits : Numeral.FitsInt64 ((4 : Nat) + -2 + 2) := ⟨by decide, by decide⟩
  refine ⟨hn, by decide, by decide, by decide, hfits, ?_⟩
  obtain ⟨slice, resolved, hslice, hresolved, hfound, hsame, -⟩ :=
    find_slice hn (N := -2) (M := 2) (by decide) (by decide) (by decide) hfits
  refine ⟨slice, resolved, hslice, hresolved, ?_⟩
  intro items hlength
  obtain ⟨hpositions, hpositions', -⟩ :=
    hfound (Value.seq items) (Sparse.ofList items) (Value.sequence_seq items) hlength
  exact ⟨hpositions, hpositions', mt (hsame items hlength).mp (by decide)⟩

/-- A slice that runs past the end is not cut at the end if its start counts from there. -/
theorem find_slice_pastEnd :
    ∃ slice resolved, Path.compile "-2,2" = .ok slice ∧ Path.compile "2,2" = .ok resolved ∧
      slice.find (Value.seq [.scalar .null, .scalar .null, .scalar .null, .scalar .null]) = [] ∧
      resolved.find (Value.seq [.scalar .null, .scalar .null, .scalar .null, .scalar .null]) =
        [{ keys := [.index 3], captures := ["3"] }, { keys := [.index 2], captures := ["2"] }] := by
  have hslice : Path.compile "-2,2" = .ok ⟨"-2,2", [.step (.range (-2) 0 true) none false], {}⟩ :=
    @compile_sliceText (-2) 2 0 (by decide)
  have hresolved : Path.compile "2,2" = .ok ⟨"2,2", [.step (.range 2 4 true) none false], {}⟩ :=
    @compile_sliceText 2 2 4 (by decide)
  exact ⟨_, _, hslice, hresolved, by decide, by decide⟩

end Slices

end Path

end PathRules
