/-!
# Patterns of characters

A `Pattern` is a star-free regular expression. `Pattern.rests` gives all that can be left of a text
after a pattern was read from its start, and a text matches if nothing is left (`Pattern.accepts`).
`mem_rests_seq` and `mem_rests_either` give the rests of the composed patterns by those of their
parts.
-/

namespace DocExpr

/-- A star-free regular expression over characters. -/
inductive Pattern where
  /-- One character that passes a test. -/
  | one (test : Char → Bool)
  /-- Nothing. -/
  | empty
  /-- The first pattern, then the second. -/
  | seq (first second : Pattern)
  /-- The first pattern or the second. -/
  | either (first second : Pattern)
  /-- The pattern at least `least` times, and up to `more` times more. -/
  | repeated (least more : Nat) (p : Pattern)

namespace Pattern

/-- What can be left of a text after a reader, run `least` times and up to `more` times more. -/
def repeatedRests (read : List Char → List (List Char)) :
    Nat → Nat → List Char → List (List Char)
  | 0, 0, cs => [cs]
  | 0, more + 1, cs => cs :: (read cs).flatMap (repeatedRests read 0 more)
  | least + 1, more, cs => (read cs).flatMap (repeatedRests read least more)

/-- What can be left of a text after a pattern was read from its start. -/
def rests : Pattern → List Char → List (List Char)
  | one _, [] => []
  | one test, c :: cs => if test c then [cs] else []
  | empty, cs => [cs]
  | seq p q, cs => (p.rests cs).flatMap q.rests
  | either p q, cs => p.rests cs ++ q.rests cs
  | repeated least more p, cs => repeatedRests p.rests least more cs

/-- Whether a pattern matches a whole text. -/
def accepts (p : Pattern) (cs : List Char) : Bool := (p.rests cs).any List.isEmpty

/-- One given character. -/
def char (c : Char) : Pattern := one (· == c)

/-- One of the given characters. -/
def oneOf (cs : List Char) : Pattern := one cs.contains

/-- The patterns one after the other. -/
def all (ps : List Pattern) : Pattern := ps.foldr seq empty

/-- The pattern or nothing. -/
def optional (p : Pattern) : Pattern := repeated 0 1 p

/-- The pattern exactly so many times. -/
def times (n : Nat) (p : Pattern) : Pattern := repeated n 0 p

/-- One of the patterns: the first one, or one of the others. -/
def anyOf (p : Pattern) (ps : List Pattern) : Pattern := ps.foldl either p

theorem mem_rests_seq {p q : Pattern} {cs rest : List Char} :
    rest ∈ (seq p q).rests cs ↔ ∃ mid ∈ p.rests cs, rest ∈ q.rests mid := by
  simp [rests]

theorem mem_rests_either {p q : Pattern} {cs rest : List Char} :
    rest ∈ (either p q).rests cs ↔ rest ∈ p.rests cs ∨ rest ∈ q.rests cs := by
  simp [rests]

end Pattern

end DocExpr
