import Mathlib.Algebra.GroupWithZero.Nat
import PathRules.Proofs.MatchPlaces
import PathRules.Proofs.PatternParentheses
import PathRules.Proofs.RegexRuns

/-!
# How many captures a match has

Every match of a path has the same number of captures and the same number of splats, and both can
be read off the path. For an expression the reason is that every way through it has one capture for
each group, groups that take no part having captured the empty text. The groups of a pattern are its
wildcards and its opening parentheses: while its pieces are paired, what has been read has as many
groups as pieces that open one. A matcher adds a fixed number on top of that, and the search adds
what the segments on the way add.
-/

namespace PathRules

namespace OpenGroup

theorem groups_sequence (items : List Regex) :
    (sequence items).groups = (items.map Regex.groups).sum := by
  have hfold : ∀ (rs : List Regex) (r : Regex),
      (rs.foldl (fun tail item => .seq item tail) r).groups =
        r.groups + (rs.map Regex.groups).sum := by
    intro rs
    induction rs with
    | nil => simp
    | cons r' rs ih =>
        intro r
        simp [ih, Regex.groups]
        omega
  cases items with
  | nil => rfl
  | cons r rs => rw [sequence, hfold, List.map_cons, List.sum_cons]

theorem groups_alternatives (last : Regex) (ended : List Regex) :
    (alternatives last ended).groups = last.groups + (ended.map Regex.groups).sum := by
  unfold alternatives
  induction ended generalizing last with
  | nil => simp
  | cons r rs ih =>
      simp [ih, Regex.groups]
      omega

/-- The groups of what has been read inside of an open group, and itself if it captures. -/
def groups (g : OpenGroup) : Nat :=
  (g.ended.map Regex.groups).sum + (g.items.map Regex.groups).sum + g.captures.toNat

theorem groups_close (g : OpenGroup) : g.close.groups = g.groups := by
  have hread : (alternatives (sequence g.items) g.ended).groups =
      (g.ended.map Regex.groups).sum + (g.items.map Regex.groups).sum := by
    rw [groups_alternatives, groups_sequence, Nat.add_comm]
  unfold close groups
  split
  · rename_i hcaptures
    rw [Regex.groups, hread, hcaptures, Bool.toNat_true]
  · rename_i hcaptures
    rw [hread, Bool.eq_false_of_not_eq_true hcaptures, Bool.toNat_false, Nat.add_zero]

theorem groups_add (g : OpenGroup) (r : Regex) : (g.add r).groups = g.groups + r.groups := by
  obtain ⟨captures, ended, items⟩ := g
  simp only [groups, add, List.map_cons, List.sum_cons]
  omega

theorem groups_split (g : OpenGroup) : g.split.groups = g.groups := by
  obtain ⟨captures, ended, items⟩ := g
  simp only [groups, split, groups_sequence, List.map_cons, List.sum_cons, List.map_nil,
    List.sum_nil]
  omega

end OpenGroup

/-- How many groups a piece brings. -/
def Piece.groups : Piece → Nat
  | atom r => r.groups
  | opening captures => captures.toNat
  | bar | closing => 0

namespace Pairing

def groups (p : Pairing) : Nat :=
  p.inner.groups + (p.outer.map OpenGroup.groups).sum

theorem groups_push {p q : Pairing} {piece : Piece} (h : p.push piece = .ok q) :
    q.groups = p.groups + piece.groups := by
  cases piece with
  | atom r =>
      cases h
      simp [groups, OpenGroup.groups_add, Piece.groups]
      omega
  | bar =>
      cases h
      simp [groups, OpenGroup.groups_split, Piece.groups]
  | opening captures =>
      cases h
      simp [groups, OpenGroup.groups, Piece.groups]
      omega
  | closing =>
      obtain ⟨inner, outer⟩ := p
      cases outer with
      | nil => cases h
      | cons g gs =>
          cases h
          simp [groups, OpenGroup.groups_add, OpenGroup.groups_close, Piece.groups]
          omega

theorem groups_foldlM_push {pieces : List Piece} {p q : Pairing}
    (h : pieces.foldlM push p = .ok q) : q.groups = p.groups + (pieces.map Piece.groups).sum := by
  induction pieces generalizing p with
  | nil =>
      cases h
      rfl
  | cons piece pieces ih =>
      rw [List.foldlM_cons] at h
      cases hpush : p.push piece with
      | error fault =>
          rw [hpush] at h
          cases h
      | ok p' =>
          rw [hpush] at h
          rw [ih h, groups_push hpush, List.map_cons, List.sum_cons, Nat.add_assoc]

end Pairing

/-- A wildcard or an opening parenthesis. -/
def Token.captures (t : Token) : Bool :=
  t.is '*' || t.is '?' || t.is '('

theorem Glyph.groups_pieces (flags : Flags) (t : Token) :
    (((ofToken t).pieces flags).map Piece.groups).sum = if t.captures then 1 else 0 := by
  have hchar : ∀ c, (((char c).pieces flags).map Piece.groups).sum = 0 := by
    intro c
    rw [pieces]
    split <;> rfl
  obtain ⟨c, escaped⟩ := t
  cases escaped with
  | true => simp [ofToken, hchar, Token.captures, Token.is]
  | false =>
      simp only [ofToken, Bool.false_eq_true, if_false]
      split <;> simp_all [Token.captures, Token.is, pieces, Piece.groups, Regex.groups]

theorem Pattern.groups_pieces (flags : Flags) (part : List Token) :
    ((pieces flags (part.map Glyph.ofToken)).map Piece.groups).sum =
      part.countP Token.captures := by
  have hpart : (((part.map Glyph.ofToken).flatMap (Glyph.pieces flags)).map Piece.groups).sum =
      part.countP Token.captures := by
    induction part with
    | nil => rfl
    | cons t ts ih =>
        rw [List.map_cons, List.flatMap_cons, List.map_append, List.sum_append, ih,
          Glyph.groups_pieces, List.countP_cons, Nat.add_comm]
  simp [pieces, hpart, Piece.groups, Regex.groups]

/-- A pattern has a group for each of its wildcards and opening parentheses. -/
theorem Pattern.groups_compile {flags : Flags} {part : List Token} {p : Pattern}
    (h : Pattern.compile flags part = .ok p) : p.groups = part.countP Token.captures := by
  obtain ⟨pairing, hpairing, h⟩ := bind_eq_ok_iff.mp h
  obtain ⟨r, hr, h⟩ := bind_eq_ok_iff.mp h
  cases h
  have hclose : r.groups = pairing.groups := by
    unfold Pairing.finish at hr
    split at hr
    · rename_i houter
      cases hr
      rw [OpenGroup.groups_close, Pairing.groups, List.isEmpty_iff.mp houter]
      rfl
    · cases hr
  calc r.groups = pairing.groups := hclose
    _ = Pairing.start.groups + ((pieces flags (part.map Glyph.ofToken)).map Piece.groups).sum :=
        Pairing.groups_foldlM_push hpairing
    _ = part.countP Token.captures := by
        rw [groups_pieces]
        exact Nat.zero_add _

namespace Matcher

/-- How many captures a match of the matcher has. -/
def arity : Matcher → Nat
  | literal _ => 0
  | pattern p => max p.groups 1
  | range .. => 1
  | any => 1

variable {m : Matcher} {captures : List String}

theorem length_captures? {p : Pattern} {s : String} (h : p.captures? s = some captures) :
    captures.length = max p.groups 1 := by
  obtain ⟨hit, hhit, rfl⟩ := Option.map_eq_some_iff.mp h
  by_cases hp : p.groups = 0
  · simp [hp]
  · obtain ⟨start, xs, ds, -, hrun, rfl⟩ := Regex.exists_run_of_searchFrom hhit
    rw [if_neg hp, hrun.length_captures]
    change p.groups = _
    omega

theorem length_matchText? {s : String} (h : m.matchText? s = some captures) :
    captures.length = m.arity := by
  cases m with
  | literal t =>
      simp only [matchText?] at h
      split at h <;> cases h
      rfl
  | pattern p => exact length_captures? h
  | range start stop inclusive =>
      obtain ⟨i, -, h⟩ := Option.bind_eq_some_iff.mp h
      dsimp only at h
      split at h <;> cases h
      rfl
  | any =>
      cases h
      rfl

theorem length_matchKey? {k : Key} {length : Option Nat}
    (h : m.matchKey? k length = some captures) : captures.length = m.arity := by
  cases m with
  | range start stop inclusive =>
      obtain ⟨n, -, h⟩ := Option.bind_eq_some_iff.mp h
      split at h <;> cases h
      rfl
  | literal t => exact length_matchText? h
  | pattern p => exact length_matchText? h
  | any => exact length_matchText? h

theorem length_matchValue? {α : Type} [Tree α] {value : α}
    (h : m.matchValue? value = some captures) : captures.length = m.arity := by
  unfold matchValue? at h
  split at h
  · cases h
    rfl
  · split at h
    · cases h
    · exact length_matchText? h

end Matcher

namespace Segment

/-- How many captures a step adds. -/
def arity : Segment → Nat
  | parent => 0
  | step key value _ => key.arity + (value.map Matcher.arity).getD 0

/-- How many splats a segment adds. -/
def recursions : Segment → Nat
  | parent => 0
  | step _ _ recursive => if recursive then 1 else 0

end Segment

namespace Path

/-- How many captures every match of the path has. -/
def arity (path : Path) : Nat :=
  (path.segments.map Segment.arity).sum

/-- How many splats every match of the path has. -/
def recursions (path : Path) : Nat :=
  (path.segments.map Segment.recursions).sum

/-- Whether a match has a number of captures and a number of splats more than another. -/
def Adds (captures splats : Nat) (found m : Match) : Prop :=
  m.captures.length = found.captures.length + captures ∧
    m.splats.length = found.splats.length + splats

theorem Adds.trans {a b a' b' : Nat} {found m m' : Match} (h : Adds a b found m)
    (h' : Adds a' b' m m') : Adds (a + a') (b + b') found m' := by
  obtain ⟨hcaptures, hsplats⟩ := h
  obtain ⟨hcaptures', hsplats'⟩ := h'
  constructor <;> omega

theorem adds_up? {found up : Match} (h : found.up? = some up) : Adds 0 0 found up := by
  unfold Match.up? at h
  split at h <;> cases h
  exact ⟨rfl, rfl⟩

theorem adds_walk (found : Match) (number : Nat) (walked : Address) :
    Adds 0 1 found (found.walk number walked) :=
  ⟨rfl, by rw [Match.walk, List.length_append, List.length_singleton]⟩

section Counts

variable {α : Type} [Tree α] {key : Matcher} {value : Option Matcher}

theorem length_stepCaptures? {length : Option Nat} {k : Key} {child : α} {captures : List String}
    (h : stepCaptures? key value length k child = some captures) (recursive : Bool) :
    captures.length = (Segment.step key value recursive).arity := by
  obtain ⟨xs, hxs, h⟩ := Option.bind_eq_some_iff.mp h
  cases value with
  | none =>
      cases h
      exact Matcher.length_matchKey? hxs
  | some m =>
      obtain ⟨ys, hys, h⟩ := Option.bind_eq_some_iff.mp h
      cases h
      rw [List.length_append, Matcher.length_matchKey? hxs, Matcher.length_matchValue? hys]
      rfl

theorem adds_of_mem_hits {node child : α} {found m : Match}
    (h : (m, child) ∈ hits key value node found) (recursive : Bool) :
    Adds (Segment.step key value recursive).arity 0 found m := by
  obtain ⟨k, captures, -, hcaptures, rfl⟩ := mem_hits.mp h
  refine ⟨?_, rfl⟩
  rw [← length_stepCaptures? hcaptures, Match.extend, List.length_append]

/-- A match of segments has the captures and the splats that each of them adds. -/
theorem adds_of_mem_findFrom {root node : α} {segments : List Segment} {number : Nat}
    {found m : Match} (h : m ∈ findFrom root segments number node found) :
    Adds (segments.map Segment.arity).sum (segments.map Segment.recursions).sum found m := by
  induction segments generalizing number node found with
  | nil =>
      rw [findFrom, List.mem_singleton] at h
      subst h
      exact ⟨rfl, rfl⟩
  | cons segment rest ih =>
      rw [List.map_cons, List.sum_cons, List.map_cons, List.sum_cons]
      cases segment with
      | parent =>
          rw [findFrom] at h
          split at h
          · cases h
          · rename_i up hup
            split at h
            · cases h
            · exact (adds_up? hup).trans (ih h)
      | step key value recursive =>
          cases recursive with
          | false =>
              rw [findFrom] at h
              obtain ⟨⟨m', child⟩, hhit, hm⟩ := List.mem_flatMap.mp h
              exact (adds_of_mem_hits hhit false).trans (ih hm)
          | true =>
              rw [findFrom] at h
              obtain ⟨⟨walked, n⟩, -, hwalk⟩ := List.mem_flatMap.mp h
              obtain ⟨⟨m', child⟩, hhit, hm⟩ := List.mem_flatMap.mp hwalk
              have hstep := (adds_walk found number walked).trans (adds_of_mem_hits hhit true)
              rw [Nat.zero_add] at hstep
              exact hstep.trans (ih hm)

/-- All matches of a path have the same number of captures and the same number of splats. -/
theorem length_of_mem_find {path : Path} {root : α} {m : Match} (h : m ∈ path.find root) :
    m.captures.length = path.arity ∧ m.splats.length = path.recursions := by
  obtain ⟨hcaptures, hsplats⟩ := adds_of_mem_findFrom h
  rw [← Nat.zero_add path.arity, ← Nat.zero_add path.recursions]
  exact ⟨hcaptures, hsplats⟩

end Counts

end Path

end PathRules
