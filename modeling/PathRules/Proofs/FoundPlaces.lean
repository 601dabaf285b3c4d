import PathRules.Proofs.MatchPlaces
import PathRules.Proofs.TreeRemoval

/-!
# The places of the matches

A path that never goes back up and counts positions from the start finds its places by the texts of
keys alone: the places it finds below a child are those that the child and the segments left give,
so they can be read off text by text. So how often a place is found depends only on the nodes on the
way to it.
-/

namespace PathRules

namespace Matcher

/-- Not a range that counts from the end of a sequence. -/
def CountsUp : Matcher → Prop
  | range start stop _ => 0 ≤ start.toInt ∧ 0 ≤ stop.toInt
  | _ => True

/-- Whether a key with this text matches. -/
def takesText (m : Matcher) (s : String) : Bool :=
  (m.matchKey? (.name s) none).isSome

theorem rangeKey?_name_natText (i : Nat) :
    rangeKey? (.name (Numeral.natText i)) = rangeKey? (.index i) := by
  have hread : Numeral.readInt? (Numeral.natDigits i) = some (i : Int) :=
    Numeral.readInt?_intDigits (.ofNat i)
  have hfits : (-(Numeral.int64Bound : Int) ≤ i ∧ (i : Int) < Numeral.int64Bound) ↔
      i < Numeral.int64Bound := by omega
  have hname : rangeKey? (.name (Numeral.natText i)) =
      (Numeral.toInt64? i).map Int64.toInt := by
    rw [rangeKey?, Numeral.natText, String.toList_ofList, Numeral.readInt64?, hread,
      Option.bind_some]
  rw [hname, Numeral.toInt64?, rangeKey?]
  by_cases hi : i < Numeral.int64Bound
  · have hsmall : (Int64.ofInt (i : Int)).toInt = i := by
      have hi' : i < 9223372036854775808 := hi
      exact Int64.toInt_ofInt_of_le (by omega) (by omega)
    rw [if_pos (hfits.mpr hi), if_pos hi, Option.map_some, hsmall]
  · rw [if_neg (mt hfits.mp hi), if_neg hi, Option.map_none]

theorem inRange_of_nonneg {start stop : Int64} (hstart : 0 ≤ start.toInt) (hstop : 0 ≤ stop.toInt)
    (inclusive : Bool) (length : Option Nat) (n : Int) :
    inRange start stop inclusive length n = inRange start stop inclusive none n := by
  have hresolve : ∀ bound : Int64, 0 ≤ bound.toInt → resolve length bound = bound.toInt := by
    intro bound hbound
    cases length with
    | none => rfl
    | some n => exact if_neg (by omega)
  simp only [inRange, hresolve _ hstart, hresolve _ hstop]
  rfl

theorem isSome_matchKey? {m : Matcher} (hm : m.CountsUp) (k : Key) (length : Option Nat) :
    (m.matchKey? k length).isSome = m.takesText k.text := by
  cases m with
  | literal s => rfl
  | pattern p => rfl
  | any => rfl
  | range start stop inclusive =>
      have hkey : rangeKey? (.name k.text) = rangeKey? k := by
        cases k with
        | name s => rfl
        | index i => exact rangeKey?_name_natText i
      simp only [takesText, matchKey?, hkey, inRange_of_nonneg hm.1 hm.2 inclusive length]

end Matcher

/-- A step to children that does not count from the end. -/
def Segment.Forward : Segment → Prop
  | parent => False
  | step key _ _ => key.CountsUp

/-- A path without `..` that counts positions from the start. -/
def Path.Forward (path : Path) : Prop :=
  ∀ segment ∈ path.segments, segment.Forward

theorem Path.Forward.parentFree {path : Path} (hpath : path.Forward) : path.ParentFree := by
  intro segment hmem
  match segment, hpath segment hmem with
  | .step key value recursive, _ => exact ⟨key, value, recursive, rfl⟩

namespace Place

/-- The rests of the places below a text. -/
def below (s : String) (ps : List Place) : List Place :=
  ps.filterMap fun p =>
    match p with
    | [] => none
    | s' :: rest => if s' = s then some rest else none

variable {s : String} {q : Place} {ps ps' : List Place}

theorem below_append : below s (ps ++ ps') = below s ps ++ below s ps' :=
  List.filterMap_append

theorem below_map_cons (s' : String) (ps : List Place) :
    below s (ps.map (s' :: ·)) = if s' = s then ps else [] := by
  by_cases hs : s' = s <;> simp [below, List.filterMap_map, hs]

theorem count_below (s : String) (q : Place) (ps : List Place) :
    (below s ps).count q = ps.count (s :: q) := by
  induction ps with
  | nil => rfl
  | cons p ps ih =>
      cases p with
      | nil => simpa [below] using ih
      | cons s' rest =>
          by_cases hs : s' = s
          · simp_all [below, List.count_cons]
          · simp_all [below]

end Place

namespace Node

/-- The scalar that a node without children is. -/
def leaf? : Node → Option Scalar
  | scalar s => some s
  | _ => none

theorem isContainer_eq_isNone_leaf? (t : Node) : t.isContainer = t.leaf?.isNone := by
  cases t <;> rfl

theorem isContainer_congr {t u : Node} (h : u.leaf? = t.leaf?) :
    Tree.isContainer u = Tree.isContainer t := by
  change u.isContainer = t.isContainer
  rw [isContainer_eq_isNone_leaf?, h, ← isContainer_eq_isNone_leaf?]

/-- Whatever the second tree has, the first has at the same place, with the same scalars. -/
def Covers (src t : Node) : Prop :=
  ∀ p n, t.seek p = some n → ∃ n', src.seek p = some n' ∧ n'.leaf? = n.leaf?

variable {src t c : Node} {s : String}

theorem Covers.leaf?_eq (h : Covers src t) : src.leaf? = t.leaf? := by
  obtain ⟨n, hn, hleaf⟩ := h [] t rfl
  cases hn
  exact hleaf

theorem Covers.child (h : Covers src t) (hc : t.entries.get? s = some c) :
    ∃ c', src.entries.get? s = some c' ∧ Covers c' c := by
  obtain ⟨c', hc', -⟩ := h [s] c (by simp [hc])
  have hget : src.entries.get? s = some c' := by simpa using hc'
  refine ⟨c', hget, ?_⟩
  intro p n hn
  have hbelow := h (s :: p) n (by rw [seek_cons, hc]; exact hn)
  rwa [seek_cons, hget] at hbelow

end Node

theorem flatMap_eq_of_nodup_map {α β γ : Type} {l : List α} {f : α → β} {g : α → List γ} {x : α}
    (hl : (l.map f).Nodup) (hx : x ∈ l) (hg : ∀ y ∈ l, f y ≠ f x → g y = []) :
    l.flatMap g = g x := by
  induction l with
  | nil => cases hx
  | cons y l ih =>
      obtain ⟨hnew, hrest⟩ := List.nodup_cons.mp hl
      rcases List.mem_cons.mp hx with rfl | hx
      · have hnil : l.flatMap g = [] := by
          rw [List.flatMap_eq_nil_iff]
          intro y hy
          refine hg y (List.mem_cons_of_mem _ hy) fun h => hnew ?_
          rw [← h]
          exact List.mem_map_of_mem hy
        rw [List.flatMap_cons, hnil, List.append_nil]
      · have hy : g y = [] := by
          refine hg y List.mem_cons_self fun h => hnew ?_
          rw [h]
          exact List.mem_map_of_mem hx
        rw [List.flatMap_cons, hy, List.nil_append]
        exact ih hrest hx fun z hz => hg z (List.mem_cons_of_mem _ hz)

namespace Path

/-- Whether a step accepts a child under a text. -/
def accepts (key : Matcher) (value : Option Matcher) (s : String) (c : Node) : Bool :=
  key.takesText s && value.all fun m => (m.matchValue? c).isSome

/-- The places of what comes after the children that a step accepts. -/
def onward (key : Matcher) (value : Option Matcher) (next : Node → List Place) (node : Node) :
    List Place :=
  (Tree.children node).flatMap fun (k, c) =>
    (if accepts key value k.text c then next c else []).map (k.text :: ·)

/-- The places that segments without `..` find below a node, in the order of the matches. -/
def placesFrom : List Segment → Node → List Place
  | [], _ => [[]]
  | .parent :: _, _ => []
  | .step key value false :: rest, node => onward key value (placesFrom rest) node
  | .step key value true :: rest, node =>
      (Tree.reach node).flatMap fun (w, n) =>
        (onward key value (placesFrom rest) n).map (Address.place w ++ ·)

variable {key : Matcher} {value : Option Matcher} {rest segments : List Segment}
  {root node c : Node} {s : String} {q : Place}

theorem isSome_stepCaptures? (hkey : key.CountsUp) (length : Option Nat) (k : Key) (c : Node) :
    (stepCaptures? key value length k c).isSome = accepts key value k.text c := by
  rw [accepts, ← Matcher.isSome_matchKey? hkey k length]
  cases hk : key.matchKey? k length with
  | none => simp [stepCaptures?, hk]
  | some captures =>
      cases value with
      | none => simp [stepCaptures?, hk]
      | some m => cases hv : m.matchValue? c <;> simp [stepCaptures?, hk, hv]

theorem map_place_flatMap_hits (hkey : key.CountsUp) (number : Nat) (node : Node) (found : Match)
    (hrest : ∀ c m, (findFrom root rest number c m).map (fun m => m.keys.place) =
      (placesFrom rest c).map (m.keys.place ++ ·)) :
    ((hits key value node found).flatMap fun (m, c) =>
        findFrom root rest number c m).map (fun m => m.keys.place) =
      (onward key value (placesFrom rest) node).map (found.keys.place ++ ·) := by
  simp only [hits, onward, List.map_flatMap, hrest]
  induction Tree.children node with
  | nil => rfl
  | cons p ps ih =>
      obtain ⟨k, c⟩ := p
      have haccept : (stepCaptures? key value (Tree.seqLength? node) k c).isSome =
          accepts key value k.text c := isSome_stepCaptures? hkey _ k c
      rw [List.flatMap_cons, ← ih]
      cases hs : stepCaptures? key value (Tree.seqLength? node) k c with
      | none =>
          rw [hs, Option.isSome_none] at haccept
          simp [hs, ← haccept]
      | some captures =>
          rw [hs, Option.isSome_some] at haccept
          simp [hs, ← haccept, Match.extend, Address.place, Function.comp_def]

theorem map_place_findFrom (hsegments : ∀ segment ∈ segments, segment.Forward) (number : Nat)
    (node : Node) (found : Match) :
    (findFrom root segments number node found).map (fun m => m.keys.place) =
      (placesFrom segments node).map (found.keys.place ++ ·) := by
  induction segments generalizing number node found with
  | nil => simp [findFrom, placesFrom]
  | cons segment rest ih =>
      obtain ⟨hsegment, hrest⟩ := List.forall_mem_cons.mp hsegments
      have hnext : ∀ c m, (findFrom root rest (number + 1) c m).map (fun m => m.keys.place) =
          (placesFrom rest c).map (m.keys.place ++ ·) := fun c m => ih hrest (number + 1) c m
      cases segment with
      | parent => exact hsegment.elim
      | step key value recursive =>
          have hkey : key.CountsUp := hsegment
          cases recursive with
          | false => exact map_place_flatMap_hits hkey (number + 1) node found hnext
          | true =>
              simp only [findFrom, placesFrom, List.map_flatMap (l := Tree.reach node)]
              apply List.flatMap_congr
              rintro ⟨w, n⟩ -
              rw [map_place_flatMap_hits hkey (number + 1) n (found.walk number w) hnext,
                List.map_map]
              apply List.map_congr_left
              intro q _
              simp [Match.walk, Address.place]

theorem map_place_find {path : Path} (hpath : path.Forward) (root : Node) :
    (path.find root).map (fun m => m.keys.place) = placesFrom path.segments root := by
  rw [find, map_place_findFrom hpath]
  simp

theorem below_flatMap_children (hnode : node.WellFormed) (g : String → Node → List Place)
    (s : String) :
    Place.below s ((Tree.children node).flatMap fun p => (g p.1.text p.2).map (p.1.text :: ·)) =
      (node.entries.get? s).elim [] (g s) := by
  have hbelow : Place.below s ((Tree.children node).flatMap fun p =>
      (g p.1.text p.2).map (p.1.text :: ·)) =
      (Tree.children node).flatMap fun p => if p.1.text = s then g p.1.text p.2 else [] := by
    rw [Place.below, List.filterMap_flatMap]
    apply List.flatMap_congr
    intro p _
    exact Place.below_map_cons p.1.text (g p.1.text p.2)
  rw [hbelow]
  cases hc : node.entries.get? s with
  | none =>
      rw [Option.elim_none, List.flatMap_eq_nil_iff]
      rintro ⟨k, c⟩ hmem
      refine if_neg fun htext => ?_
      have hget := ((Node.mem_children_iff hnode).mp hmem).2
      rw [htext, hc] at hget
      cases hget
  | some c =>
      obtain ⟨k, hmem, htext⟩ := (Node.get?_entries_iff hnode).mp hc
      have hone : (Tree.children node).flatMap
          (fun p => if p.1.text = s then g p.1.text p.2 else []) =
            if k.text = s then g k.text c else [] :=
        flatMap_eq_of_nodup_map hnode.nodup_texts hmem fun p _ hp =>
          if_neg fun h => hp (h.trans htext.symm)
      rw [hone, if_pos htext, htext, Option.elim_some]

theorem below_onward (hnode : node.WellFormed) (next : Node → List Place) (s : String) :
    Place.below s (onward key value next node) =
      (node.entries.get? s).elim [] fun c => if accepts key value s c then next c else [] :=
  below_flatMap_children hnode (fun s c => if accepts key value s c then next c else []) s

/-- A recursive step descends into the containers among the children first, and then takes the
children that it accepts. -/
theorem placesFrom_recursive (node : Node) :
    placesFrom (.step key value true :: rest) node =
      ((Tree.children node).flatMap fun p =>
        (if Tree.isContainer p.2 then placesFrom (.step key value true :: rest) p.2 else []).map
          (p.1.text :: ·)) ++ placesFrom (.step key value false :: rest) node := by
  simp only [placesFrom]
  rw [Tree.reach_eq, List.flatMap_append, List.flatMap_assoc]
  congr 1
  · apply List.flatMap_congr
    rintro ⟨k, c⟩ -
    by_cases hc : Tree.isContainer c
    · simp [hc, List.flatMap_map, List.map_flatMap, Function.comp_def]
    · simp [hc]
  · simp

theorem below_placesFrom_step (hnode : node.WellFormed) (s : String) :
    Place.below s (placesFrom (.step key value false :: rest) node) =
      (node.entries.get? s).elim [] fun c =>
        if accepts key value s c then placesFrom rest c else [] :=
  below_onward hnode (placesFrom rest) s

theorem below_placesFrom_recursive (hnode : node.WellFormed) (s : String) :
    Place.below s (placesFrom (.step key value true :: rest) node) =
      (node.entries.get? s).elim [] fun c =>
        (if Tree.isContainer c then placesFrom (.step key value true :: rest) c else []) ++
          if accepts key value s c then placesFrom rest c else [] := by
  rw [placesFrom_recursive, Place.below_append, below_placesFrom_step hnode,
    below_flatMap_children hnode fun _ c =>
      if Tree.isContainer c then placesFrom (.step key value true :: rest) c else []]
  cases node.entries.get? s <;> rfl

theorem nil_not_mem_onward (next : Node → List Place) (node : Node) :
    [] ∉ onward key value next node := by
  simp [onward]

theorem nil_not_mem_placesFrom {segment : Segment} : [] ∉ placesFrom (segment :: rest) node := by
  match segment with
  | .parent => simp [placesFrom]
  | .step key value false => exact nil_not_mem_onward _ node
  | .step key value true =>
      rw [placesFrom_recursive, List.mem_append, not_or]
      exact ⟨by simp, nil_not_mem_onward _ node⟩

theorem accepts_congr {c' : Node} (h : c'.leaf? = c.leaf?) (key : Matcher)
    (value : Option Matcher) (s : String) : accepts key value s c' = accepts key value s c := by
  have hcont := Node.isContainer_congr h
  have hvalue : ∀ m : Matcher, (m.matchValue? c').isSome = (m.matchValue? c).isSome := by
    intro m
    cases hc : Tree.isContainer c with
    | true => cases m <;> simp [Matcher.matchValue?, hcont, hc]
    | false =>
        cases c with
        | scalar x =>
            cases c' <;> cases h
            rfl
        | seq items => cases hc
        | sparse s => cases hc
        | map es => cases hc
  simp only [accepts, hvalue]

/-- A covered tree has the results of the covering one at the places that it has itself. -/
theorem count_placesFrom_of_covers {src t : Node} (hsrc : src.WellFormed) (ht : t.WellFormed)
    (h : src.Covers t) (segments : List Segment) (q : Place) :
    (placesFrom segments t).count q =
      if (t.seek q).isSome then (placesFrom segments src).count q else 0 := by
  induction q generalizing src t segments with
  | nil =>
      cases segments with
      | nil => rfl
      | cons segment rest => simp [List.count_eq_zero.mpr nil_not_mem_placesFrom]
  | cons s q ih =>
      match segments with
      | [] => simp [placesFrom]
      | .parent :: rest => exact (ite_self 0).symm
      | .step key value recursive :: rest =>
          rw [← Place.count_below, ← Place.count_below, Node.seek_cons]
          cases hc : t.entries.get? s with
          | none =>
              cases recursive with
              | false => rw [below_placesFrom_step ht, hc]; simp
              | true => rw [below_placesFrom_recursive ht, hc]; simp
          | some c =>
              obtain ⟨c', hc', hbelow⟩ := h.child hc
              have hrest := ih (hsrc.get? hc') (ht.get? hc) hbelow
              have haccept := accepts_congr hbelow.leaf?_eq key value s
              have hcont := Node.isContainer_congr hbelow.leaf?_eq
              cases recursive with
              | false =>
                  rw [below_placesFrom_step ht, below_placesFrom_step hsrc, hc, hc',
                    Option.elim_some, Option.elim_some, Option.bind_some, haccept]
                  by_cases hs : accepts key value s c
                  · rw [if_pos hs, if_pos hs, hrest]
                  · simp [hs]
              | true =>
                  rw [below_placesFrom_recursive ht, below_placesFrom_recursive hsrc, hc, hc',
                    Option.elim_some, Option.elim_some, Option.bind_some, haccept, hcont,
                    List.count_append, List.count_append]
                  by_cases hs : accepts key value s c <;> by_cases hd : Tree.isContainer c <;>
                    by_cases hq : (c.seek q).isSome <;> simp [hs, hd, hq, hrest]

theorem nodup_placesFrom_last (hnode : node.WellFormed) :
    (placesFrom [.step key value true] node).Nodup := by
  rw [List.nodup_iff_count_le_one]
  intro q
  induction q generalizing node with
  | nil => simp [List.count_eq_zero.mpr nil_not_mem_placesFrom]
  | cons s q ih =>
      rw [← Place.count_below, below_placesFrom_recursive hnode]
      cases hc : node.entries.get? s with
      | none => simp
      | some c =>
          have hdeep := ih (hnode.get? hc)
          have hown : placesFrom [] c = [[]] := rfl
          rw [Option.elim_some, List.count_append, hown]
          cases q with
          | nil =>
              have hnil : (placesFrom [.step key value true] c).count [] = 0 :=
                List.count_eq_zero.mpr nil_not_mem_placesFrom
              by_cases hd : Tree.isContainer c <;> by_cases hs : accepts key value s c <;>
                simp [hd, hs, hnil]
          | cons s' q =>
              by_cases hd : Tree.isContainer c <;> by_cases hs : accepts key value s c <;>
                simp [hd, hs, hdeep]

end Path

end PathRules
