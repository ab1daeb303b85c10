import DocExpr.Stream.Basic

/-!
# Looking one token ahead

`Lookahead` is a stream of which the next token is known. Tokens are taken from it one at a time,
and behind the last one comes the end of the input for ever.
-/

namespace DocExpr

/-- The tokens that are still to be taken from a stream. -/
structure Lookahead where
  unread : List Token
  /-- The place of the end of the input. -/
  finish : Origin
deriving DecidableEq

namespace Lookahead

/-- The tokens of a stream, none taken. -/
def ofStream (s : Stream) : Lookahead := ⟨s.tokens, s.finish⟩

/-- The next token. -/
def peek (l : Lookahead) : Token := l.unread.headD (.eof l.finish)

/-- Takes the next token. -/
def read (l : Lookahead) : Token × Lookahead := (l.peek, { l with unread := l.unread.tail })

/-- Whether the next token is of a kind. -/
def peekIs (l : Lookahead) (k : Kind) : Bool := l.peek.kind = k

/-- Takes the next token if it is of a kind. -/
def readIf (l : Lookahead) (k : Kind) : Option Token × Lookahead :=
  if l.peekIs k then (some l.peek, l.read.2) else (none, l)

/-- Whether the next token is not the end of the input. -/
def hasInput (l : Lookahead) : Bool := !l.peekIs .eof

@[simp] theorem unread_ofStream (s : Stream) : (ofStream s).unread = s.tokens := rfl

@[simp] theorem peek_cons (t : Token) (ts : List Token) (o : Origin) :
    peek ⟨t :: ts, o⟩ = t := rfl

@[simp] theorem peek_nil (o : Origin) : peek ⟨[], o⟩ = .eof o := rfl

end Lookahead

end DocExpr
