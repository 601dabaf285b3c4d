import PathRules.Matcher

/-!
# Paths

A path is a list of segments. A segment is a step to the children whose key, and value if asked
for, match; a recursive step looks for them at every depth. The other kind of segment goes back up
to the parent.
-/

namespace PathRules

inductive Segment where
  | parent
  | step (key : Matcher) (value : Option Matcher) (recursive : Bool)

def Segment.same : Segment → Segment → Bool
  | parent, parent => true
  | step k v r, step k' v' r' =>
      k.same k' && r == r' &&
        match v, v' with
        | none, none => true
        | some m, some m' => m.same m'
        | _, _ => false
  | _, _ => false

structure Path where
  source : String
  segments : List Segment
  flags : Flags

namespace Path

def sameSegments (p q : Path) : Bool :=
  p.segments.length == q.segments.length &&
    (p.segments.zip q.segments).all fun (s, t) => s.same t

/-- Equality of paths takes the source into account. -/
def same (p q : Path) : Bool :=
  p.source == q.source && p.sameSegments q && p.flags == q.flags

end Path

end PathRules
