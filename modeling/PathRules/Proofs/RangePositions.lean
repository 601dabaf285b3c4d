import PathRules.Proofs.PathGrammar
import PathRules.Proofs.SparseEntries

/-!
# The positions of a range

A path that is one range looks at every child of a node once. In a sequence it finds the populated
positions between its bounds, a negative bound counted from the end; since sequences list their
children from the last, so does the range. In a map it finds the names that are numerals between
the bounds as they are.

A sequence and a sparse sequence are read alike, as elements under ascending positions. The sums
that count a bound from the end are those of 64 bits: only a negative bound is raised, by at most
the greatest integer, so they never leave the range of 64 bits.
-/

namespace PathRules

namespace Numeral

/-- A text of digits, with a minus in front or without, and the integer that it stands for. -/
inductive Spells : List Char → Int → Prop
  | plain {ds : List Char} (hne : ds ≠ []) (hdigits : ∀ d ∈ ds, d.isDigit) :
      Spells ds (Nat.ofDigitChars 10 ds 0)
  | minus {ds : List Char} (hne : ds ≠ []) (hdigits : ∀ d ∈ ds, d.isDigit) :
      Spells ('-' :: ds) (-(Nat.ofDigitChars 10 ds 0 : Int))

variable {cs : List Char} {i : Int}

theorem readNat?_of_digits (hne : cs ≠ []) (hdigits : ∀ c ∈ cs, c.isDigit) :
    readNat? cs = some (Nat.ofDigitChars 10 cs 0) := by
  rw [readNat?, if_neg]
  simpa [hne] using hdigits

theorem eq_of_readNat? {n : Nat} (h : readNat? cs = some n) : Nat.ofDigitChars 10 cs 0 = n := by
  obtain ⟨hne, hdigits⟩ := isDigit_of_mem_of_readNat? h
  rw [readNat?_of_digits hne hdigits] at h
  exact Option.some.inj h

theorem readInt?_minus (ds : List Char) :
    readInt? ('-' :: ds) = (readNat? ds).map fun n : Nat => -(n : Int) := by
  rw [readInt?]
  cases readNat? ds <;> rfl

theorem readInt?_of_ne_minus (h : ∀ ds, cs ≠ '-' :: ds) :
    readInt? cs = (readNat? cs).map fun n : Nat => (n : Int) := by
  unfold readInt?
  split
  · exact absurd rfl (h _)
  · cases readNat? cs <;> rfl

theorem readInt?_eq_some_iff : readInt? cs = some i ↔ Spells cs i := by
  constructor
  · intro h
    by_cases hminus : ∃ ds, cs = '-' :: ds
    · obtain ⟨ds, rfl⟩ := hminus
      obtain ⟨n, hn, rfl⟩ := Option.map_eq_some_iff.mp (readInt?_minus ds ▸ h)
      obtain ⟨hne, hdigits⟩ := isDigit_of_mem_of_readNat? hn
      rw [← eq_of_readNat? hn]
      exact Spells.minus hne hdigits
    · rw [readInt?_of_ne_minus (not_exists.mp hminus)] at h
      obtain ⟨n, hn, rfl⟩ := Option.map_eq_some_iff.mp h
      obtain ⟨hne, hdigits⟩ := isDigit_of_mem_of_readNat? hn
      rw [← eq_of_readNat? hn]
      exact Spells.plain hne hdigits
  · intro h
    cases h with
    | minus hne hdigits =>
        rw [readInt?_minus, readNat?_of_digits hne hdigits, Option.map_some]
    | plain hne hdigits =>
        have hminus : ∀ ds, cs ≠ '-' :: ds := by
          rintro ds rfl
          exact absurd (hdigits '-' List.mem_cons_self) (by decide)
        rw [readInt?_of_ne_minus hminus, readNat?_of_digits hne hdigits, Option.map_some]

theorem toInt64?_eq_some_iff {n : Int64} : toInt64? i = some n ↔ n.toInt = i := by
  constructor
  · intro h
    have hi : -(int64Bound : Int) ≤ i ∧ i < int64Bound := by
      by_contra hi
      rw [toInt64?, if_neg hi] at h
      cases h
    rw [toInt64?, if_pos hi] at h
    cases h
    exact Int64.toInt_ofInt_of_le hi.1 hi.2
  · rintro rfl
    exact toInt64?_toInt n

theorem fitsInt64_toInt (n : Int64) : FitsInt64 n.toInt :=
  isSome_toInt64?_iff.mp (by rw [toInt64?_toInt]; rfl)

theorem FitsInt64.of_le {m n : Nat} (hn : FitsInt64 n) (hmn : m ≤ n) : FitsInt64 m :=
  ⟨Int.le_trans (by decide) (Int.natCast_nonneg m), Int.le_trans (Int.ofNat_le.mpr hmn) hn.2⟩

/-- The integers of 64 bits that a text spells are those that are read from it. -/
theorem map_readInt64?_eq_some_iff :
    (readInt64? cs).map Int64.toInt = some i ↔ Spells cs i ∧ FitsInt64 i := by
  rw [← readInt?_eq_some_iff, readInt64?]
  constructor
  · intro h
    obtain ⟨n, hn, rfl⟩ := Option.map_eq_some_iff.mp h
    obtain ⟨j, hj, hn⟩ := Option.bind_eq_some_iff.mp hn
    rw [toInt64?_eq_some_iff.mp hn]
    exact ⟨hj, toInt64?_eq_some_iff.mp hn ▸ fitsInt64_toInt n⟩
  · rintro ⟨hread, hfits⟩
    obtain ⟨n, hn⟩ := Option.isSome_iff_exists.mp (isSome_toInt64?_iff.mpr hfits)
    rw [hread, Option.bind_some, hn, Option.map_some, toInt64?_eq_some_iff.mp hn]

end Numeral

namespace Matcher

open Numeral

variable {start stop bound : Int64} {inclusive : Bool} {n : Nat} {i : Int}

/-- Between two bounds, the second of which belongs to the range or not. -/
def Between (start stop : Int) (inclusive : Bool) (i : Int) : Prop :=
  start ≤ i ∧ if inclusive then i ≤ stop else i < stop

/-- A bound of a range in a sequence with a length. -/
def fromEnd (length : Nat) (bound : Int64) : Int :=
  if bound.toInt < 0 then bound.toInt + length else bound.toInt

/-- A bound of a range computed with 64 bits, from a length that is cut to 64 bits. -/
def resolveWord (length : Nat) (bound : Int64) : Int64 :=
  if bound < 0 then bound + Int64.ofNat (min length (int64Bound - 1)) else bound

theorem inRange_iff {length : Option Nat} :
    inRange start stop inclusive length i ↔
      Between (resolve length start) (resolve length stop) inclusive i := by
  cases inclusive <;> simp [inRange, Between]

theorem resolve_of_fits (hn : FitsInt64 n) (bound : Int64) :
    resolve (some n) bound = fromEnd n bound := by
  have hle : (n : Int) ≤ int64Bound - 1 := hn.2
  have hcut : min (n : Int) (int64Bound - 1) = n := Int.min_eq_left hle
  simp only [resolve, fromEnd, hcut]

/-- Counting a bound from the end does not overflow. -/
theorem toInt_resolveWord (n : Nat) (bound : Int64) :
    (resolveWord n bound).toInt = resolve (some n) bound := by
  have hbound : int64Bound = 9223372036854775808 := rfl
  by_cases hneg : bound.toInt < 0
  · have hlow : -2 ^ 63 ≤ bound.toInt := bound.le_toInt
    have hcut : (Int64.ofNat (min n (int64Bound - 1))).toInt = min (n : Int) (int64Bound - 1) := by
      rw [Int64.toInt_ofNat_of_lt (by omega)]
      omega
    have hword : bound < 0 := Int64.lt_iff_toInt_lt.mpr hneg
    rw [resolveWord, if_pos hword, resolve, if_pos hneg, Int64.toInt_add, hcut]
    -- a negative number and one that is not cannot leave the range together
    exact Int.bmod_eq_of_le (by omega) (by omega)
  · have hword : ¬ bound < 0 := mt Int64.lt_iff_toInt_lt.mp hneg
    rw [resolveWord, if_neg hword, resolve, if_neg hneg]

theorem fitsInt64_of_rangeKey? {key : Key} (h : rangeKey? key = some i) : FitsInt64 i := by
  cases key with
  | name s => exact (map_readInt64?_eq_some_iff.mp h).2
  | index j =>
      obtain ⟨hj, hi⟩ : j < int64Bound ∧ (j : Int) = i := by simpa [rangeKey?] using h
      subst hi
      exact isSome_toInt64?_iff.mp (by rw [toInt64?, if_pos (by omega)]; rfl)

theorem rangeKey?_index {j : Nat} (hj : FitsInt64 j) : rangeKey? (.index j) = some (j : Int) := by
  have hle : (j : Int) ≤ int64Bound - 1 := hj.2
  have hlt : j < int64Bound := by omega
  rw [rangeKey?, if_pos hlt]

theorem matchKey?_range_index {j : Nat} (hj : FitsInt64 j) (length : Option Nat) :
    (range start stop inclusive).matchKey? (.index j) length =
      if inRange start stop inclusive length j then some [natText j] else none := by
  rw [matchKey?, rangeKey?_index hj]
  rfl

/-- The integer between two bounds that a name stands for. -/
def numeralIn? (start stop : Int64) (inclusive : Bool) (s : String) : Option Int :=
  (rangeKey? (.name s)).filter (inRange start stop inclusive none)

theorem numeralIn?_eq_some_iff {s : String} :
    numeralIn? start stop inclusive s = some i ↔
      Spells s.toList i ∧ FitsInt64 i ∧ Between start.toInt stop.toInt inclusive i := by
  rw [← and_assoc, ← map_readInt64?_eq_some_iff, numeralIn?, Option.filter_eq_some_iff]
  exact and_congr_right fun _ => inRange_iff

theorem matchKey?_range_name (s : String) :
    (range start stop inclusive).matchKey? (.name s) none =
      (numeralIn? start stop inclusive s).map fun i => [intText i] := by
  simp only [matchKey?, numeralIn?]
  cases rangeKey? (.name s) with
  | none => rfl
  | some i =>
      rw [Option.filter_some]
      cases hi : inRange start stop inclusive none i <;> simp [hi]

/-- The end of a slice is the sum of its start and its length. -/
theorem stop_of_readSlice? {a b : List Char} {m : Matcher} (h : readSlice? a b = some m) :
    ∃ start length stop, readInt64? a = some start ∧ readInt64? b = some length ∧
      m = range start stop true ∧ stop.toInt = start.toInt + length.toInt := by
  obtain ⟨start, ha, h⟩ := Option.bind_eq_some_iff.mp h
  obtain ⟨length, hb, h⟩ := Option.bind_eq_some_iff.mp h
  obtain ⟨stop, hstop, h⟩ := Option.bind_eq_some_iff.mp h
  cases h
  exact ⟨start, length, stop, ha, hb, rfl, toInt64?_eq_some_iff.mp hstop⟩

end Matcher

/-- A node whose children are the elements of a sparse sequence, the last first. -/
structure Tree.Sequence {α : Type} [Tree α] (node : α) (s : Sparse α) : Prop where
  sound : s.Sound
  children_eq : children node = s.descending.map fun (i, c) => (.index i, c)
  seqLength?_eq : seqLength? node = some s.span
  child?_index (i : Nat) : child? node (.index i) = s.get? i

theorem Tree.Sequence.keys_eq {α : Type} [Tree α] {node : α} {s : Sparse α}
    (hnode : Sequence node s) : (children node).map Prod.fst = s.populated.map Key.index := by
  rw [hnode.children_eq, Sparse.populated, List.map_map, List.map_map]
  rfl

/-- The elements of a list count down like those of a sparse sequence without gaps. -/
theorem Value.countDown_eq_descending {α : Type} (items : List α) :
    countDown items = (Sparse.ofList items).descending.map fun (i, c) => (.index i, c) := by
  simp [countDown, Sparse.descending, Sparse.ofList, Function.comp_def]

theorem Value.sequence_seq (items : List Value) :
    Tree.Sequence (Value.seq items) (Sparse.ofList items) where
  sound := Sparse.sound_ofList items
  children_eq := Value.countDown_eq_descending items
  seqLength?_eq := rfl
  child?_index i := (Sparse.find?_ofList items i).symm

theorem Node.sequence_seq (items : List Node) :
    Tree.Sequence (Node.seq items) (Sparse.ofList items) where
  sound := Sparse.sound_ofList items
  children_eq := Value.countDown_eq_descending items
  seqLength?_eq := rfl
  child?_index i := (Sparse.find?_ofList items i).symm

theorem Node.sequence_sparse {s : Sparse Node} (hs : s.Sound) :
    Tree.Sequence (Node.sparse s) s where
  sound := hs
  children_eq := rfl
  seqLength?_eq := rfl
  child?_index _ := rfl

namespace Path

variable {α : Type} [Tree α] {start stop : Int64} {inclusive : Bool}

/-- The matches in a sequence are the populated positions with a property, the highest first, each
with its numeral as the only capture. -/
def FindsPositions (path : Path) (node : α) (P : Int → Prop) : Prop :=
  ∃ is : List Nat,
    path.find node =
      is.map (fun i => { keys := [.index i], captures := [Numeral.natText i] }) ∧
    is.Pairwise (· > ·) ∧
    ∀ i, i ∈ is ↔ (Tree.child? node (.index i)).isSome ∧ P i

/-- The matches in a map are the names that are numerals of 64 bits with a property, in the order
of the map, each with the numeral without leading zeros as the only capture. -/
def FindsNumerals (path : Path) (node : α) (names : List String) (P : Int → Prop) : Prop :=
  ∃ found : List (String × Int),
    path.find node =
      found.map (fun (s, i) => { keys := [.name s], captures := [Numeral.intText i] }) ∧
    (found.map Prod.fst).Sublist names ∧
    ∀ s i, (s, i) ∈ found ↔
      s ∈ names ∧ Numeral.Spells s.toList i ∧ Numeral.FitsInt64 i ∧ P i

/-- A path of one step asks its matcher about each key. -/
theorem find_step (source : String) (m : Matcher) (flags : Flags) (node : α) :
    find ⟨source, [.step m none false], flags⟩ node =
      ((Tree.children node).map Prod.fst).filterMap fun k =>
        (m.matchKey? k (Tree.seqLength? node)).map fun captures =>
          { keys := [k], captures := captures } := by
  have hstep : ∀ (k : Key) (c : α), stepCaptures? m none (Tree.seqLength? node) k c =
      m.matchKey? k (Tree.seqLength? node) := by
    intro k c
    exact bind_pure _
  simp only [find, findFrom, hits, hstep, ← List.map_eq_flatMap, List.map_filterMap,
    List.filterMap_map, Option.map_map, Function.comp_def, Match.extend, List.nil_append]

/-- A range in a sequence finds the populated positions between its bounds. -/
theorem findsPositions_range {node : α} {s : Sparse α} (hnode : Tree.Sequence node s)
    (hspan : Numeral.FitsInt64 s.span) (source : String) (flags : Flags) :
    FindsPositions ⟨source, [.step (.range start stop inclusive) none false], flags⟩ node
      (Matcher.Between (Matcher.fromEnd s.span start) (Matcher.fromEnd s.span stop)
        inclusive) := by
  refine ⟨s.populated.filter fun i => Matcher.inRange start stop inclusive (some s.span) i,
    ?_, hnode.sound.pairwise_populated.filter _, ?_⟩
  · rw [find_step, hnode.keys_eq, hnode.seqLength?_eq, List.filterMap_map,
      ← List.filterMap_eq_map, List.filterMap_filter]
    refine List.filterMap_congr fun i hi => ?_
    have hlt := hnode.sound.lt_of_mem_populated hi
    rw [Function.comp_apply, Matcher.matchKey?_range_index (hspan.of_le hlt.le)]
    split <;> rfl
  · intro i
    rw [List.mem_filter, Sparse.mem_populated_iff hnode.sound, ← hnode.child?_index,
      Matcher.inRange_iff, Matcher.resolve_of_fits hspan, Matcher.resolve_of_fits hspan]

/-- A range in a map finds the names that are numerals between its bounds. -/
theorem findsNumerals_range {node : α} {names : List String}
    (hnames : (Tree.children node).map Prod.fst = names.map Key.name)
    (hlength : Tree.seqLength? node = none) (source : String) (flags : Flags) :
    FindsNumerals ⟨source, [.step (.range start stop inclusive) none false], flags⟩ node names
      (Matcher.Between start.toInt stop.toInt inclusive) := by
  refine ⟨names.filterMap fun s => (Matcher.numeralIn? start stop inclusive s).map (s, ·),
    ?_, ?_, ?_⟩
  · rw [find_step, hnames, hlength, List.filterMap_map, List.map_filterMap]
    simp only [Matcher.matchKey?_range_name, Option.map_map, Function.comp_def]
  · have hguard : (fun s => (Matcher.numeralIn? start stop inclusive s).map fun _ => s) =
        Option.guard fun s => (Matcher.numeralIn? start stop inclusive s).isSome := by
      funext s
      cases hs : Matcher.numeralIn? start stop inclusive s <;> simp [Option.guard, hs]
    rw [List.map_filterMap]
    simp only [Option.map_map, Function.comp_def, hguard, List.filterMap_eq_filter]
    exact List.filter_sublist
  · intro s i
    simp [← Matcher.numeralIn?_eq_some_iff]

/-- For all bounds, the path that is one range finds the positions of a sequence that lie in it,
negative bounds counted from the end, and the names of a map that are numerals in it, with bounds
as they are. None of its sums leaves 64 bits. -/
theorem find_range (start stop : Int64) (inclusive : Bool) :
    (∃ path, Path.compile (Numeral.intText start.toInt ++ (if inclusive then ".." else "...") ++
        Numeral.intText stop.toInt) = .ok path ∧
      (∀ items : List Node, Numeral.FitsInt64 items.length →
        path.FindsPositions (Node.seq items)
          (Matcher.Between (Matcher.fromEnd items.length start)
            (Matcher.fromEnd items.length stop) inclusive)) ∧
      (∀ s : Sparse Node, s.Sound → Numeral.FitsInt64 s.span →
        path.FindsPositions (Node.sparse s)
          (Matcher.Between (Matcher.fromEnd s.span start) (Matcher.fromEnd s.span stop)
            inclusive)) ∧
      (∀ items : List Value, Numeral.FitsInt64 items.length →
        path.FindsPositions (Value.seq items)
          (Matcher.Between (Matcher.fromEnd items.length start)
            (Matcher.fromEnd items.length stop) inclusive)) ∧
      (∀ es : Entries Node, path.FindsNumerals (Node.map es) es.keys
        (Matcher.Between start.toInt stop.toInt inclusive)) ∧
      ∀ es : Entries Value, path.FindsNumerals (Value.map es) es.keys
        (Matcher.Between start.toInt stop.toInt inclusive)) ∧
    (∀ (length : Nat) (bound : Int64),
      (Matcher.resolveWord length bound).toInt = Matcher.resolve (some length) bound) ∧
    (∀ (key : Key) (i : Int), Matcher.rangeKey? key = some i → Numeral.FitsInt64 i) ∧
    ∀ (a b : List Char) (m : Matcher), Matcher.readSlice? a b = some m →
      ∃ first length last, Numeral.readInt64? a = some first ∧
        Numeral.readInt64? b = some length ∧ m = .range first last true ∧
        last.toInt = first.toInt + length.toInt := by
  have hprint : print [.step (.range start stop inclusive) none false] =
      Numeral.intText start.toInt ++ (if inclusive then ".." else "...") ++
        Numeral.intText stop.toInt := by
    simp [print, Segment.print, Matcher.print]
  have hprintable : ∀ segment ∈ [Segment.step (.range start stop inclusive) none false],
      segment.Printable := by
    simp [Segment.Printable, Matcher.Printable]
  refine ⟨⟨_, compile_eq_of_print hprint hprintable, ?_, ?_, ?_, ?_, ?_⟩,
    Matcher.toInt_resolveWord, fun _ _ => Matcher.fitsInt64_of_rangeKey?,
    fun _ _ _ => Matcher.stop_of_readSlice?⟩
  · intro items hlength
    exact findsPositions_range (Node.sequence_seq items) hlength _ _
  · intro s hs hspan
    exact findsPositions_range (Node.sequence_sparse hs) hspan _ _
  · intro items hlength
    exact findsPositions_range (Value.sequence_seq items) hlength _ _
  · intro es
    exact findsNumerals_range (by simp [Tree.children, Node.children, Entries.keys]) rfl _ _
  · intro es
    exact findsNumerals_range (by simp [Tree.children, Value.children, Entries.keys]) rfl _ _

/-- The last two positions of a sparse sequence without its second element. -/
theorem find_range_lastTwo :
    (⟨4, [(0, .null), (2, .null), (3, .null)]⟩ : Sparse Node).Sound ∧ Numeral.FitsInt64 4 ∧
    ∃ path, Path.compile "-2..-1" = .ok path ∧
      path.FindsPositions (Node.sparse ⟨4, [(0, .null), (2, .null), (3, .null)]⟩)
        (Matcher.Between 2 3 true) ∧
      path.find (Node.sparse ⟨4, [(0, .null), (2, .null), (3, .null)]⟩) =
        [{ keys := [.index 3], captures := ["3"] }, { keys := [.index 2], captures := ["2"] }] := by
  have hsound : (⟨4, [(0, .null), (2, .null), (3, .null)]⟩ : Sparse Node).Sound :=
    ⟨by simp, by simp⟩
  have hspan : Numeral.FitsInt64 4 := ⟨by decide, by decide⟩
  obtain ⟨⟨path, hpath, -, hsparse, -⟩, -⟩ := find_range (-2) (-1) true
  have hsource : Path.compile "-2..-1" =
      .ok ⟨"-2..-1", [.step (.range (-2) (-1) true) none false], {}⟩ :=
    compile_eq_of_print (by decide) (by simp [Segment.Printable, Matcher.Printable])
  have htext : Path.compile "-2..-1" = .ok path := hpath
  refine ⟨hsound, hspan, path, htext, hsparse _ hsound hspan, ?_⟩
  cases hsource.symm.trans htext
  decide

end Path

end PathRules
