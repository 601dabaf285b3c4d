/-!
# Escaped characters

A backslash takes the special meaning from the next character. A text is read as a list of
characters that know whether they were escaped; a backslash at the very end escapes nothing, and
such a text is refused.
-/

namespace PathRules

structure Token where
  char : Char
  escaped : Bool
  deriving DecidableEq

namespace Token

/-- Whether the token is this character with its special meaning. -/
def is (t : Token) (c : Char) : Bool :=
  !t.escaped && t.char == c

def scan? : List Char → Option (List Token)
  | [] => some []
  | '\\' :: [] => none
  | '\\' :: c :: cs => (scan? cs).map (⟨c, true⟩ :: ·)
  | c :: cs => (scan? cs).map (⟨c, false⟩ :: ·)

/-- The text of tokens, with their escapes. -/
def print (ts : List Token) : List Char :=
  ts.flatMap fun t => if t.escaped then ['\\', t.char] else [t.char]

/-- Whether tokens spell a word with no character escaped. -/
def spell (ts : List Token) (word : List Char) : Bool :=
  ts == word.map (⟨·, false⟩)

theorem print_scan? {cs : List Char} {ts : List Token} (h : scan? cs = some ts) :
    print ts = cs := by
  fun_induction scan? cs generalizing ts with
  | case1 =>
      cases h
      rfl
  | case2 => cases h
  | case3 c cs ih =>
      obtain ⟨us, hu, rfl⟩ := Option.map_eq_some_iff.mp h
      have := ih hu
      simp only [print] at this ⊢
      simp [this]
  | case4 c cs _ _ ih =>
      obtain ⟨us, hu, rfl⟩ := Option.map_eq_some_iff.mp h
      have := ih hu
      simp only [print] at this ⊢
      simp [this]

end Token

end PathRules
