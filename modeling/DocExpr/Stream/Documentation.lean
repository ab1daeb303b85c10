import DocExpr.Stream.Runs

/-!
# Documentation in streams

Comments become documentation that can be parsed. Runs of comment lines become blocks first. Then a
block that stands behind something else on its line, other than a bar, is trailing, and any other
is leading. The document operator is put behind leading and before trailing documentation, and
trailing documentation behind a comma or a semicolon changes places with it:

* a comment above `x` reads as leading documentation, the operator, and `x`;
* a comment behind `x` reads as `x`, the operator, and trailing documentation;
* a comment behind `x,` reads as `x`, the operator, trailing documentation, and the comma.

The stream holds one token back, because a comment behind it may have to go before it.
-/

namespace DocExpr

namespace Documentation

/-- Lines of comments become documentation. -/
def commentRuns : RunForm := ⟨.comment, .leading, .mergedComment⟩

/-- Whether a block of comments that follows a token stands behind it on its line. -/
def isBehind (held : Token) (block : Token) : Bool :=
  held.origin.line == block.origin.line && held.kind != .mark .bar

/-- What separates items. -/
def isSeparator (t : Token) : Bool := t.kind == .mark .comma || t.kind == .mark .semicolon

/-- Readings of the tokens in order. The events belong to the first of them, and more is to come
behind the last. -/
def inOrder (events : List Event) : List Token → List Reading
  | [] => []
  | t :: ts => ⟨t, events, false⟩ :: inOrder [] ts

/-- What a token is followed by: what can be given out, and what is held back in its place. -/
structure Placed where
  given : List Reading
  held : Token

/-- Places trailing documentation behind the token that is held back. -/
def placeTrailing (held : Token) (events : List Event) (t : Token) : Placed :=
  if isSeparator held then
    ⟨inOrder (events ++ [.moved t.origin]) [.document t.origin, t], held⟩
  else if held.kind = .document then ⟨inOrder events [held], t⟩
  else ⟨inOrder events [held, .document t.origin], t⟩

/-- Places a token behind the one that is held back. -/
def place (held : Token) (r : Reading) : Placed :=
  let t := r.token
  if t.kind = .block .leading then
    if isBehind held t then
      placeTrailing held (r.events ++ [.trailing t.origin]) { t with kind := .block .trailing }
    else ⟨inOrder r.events [held, t], .document t.origin⟩
  else if t.kind = .block .trailing then placeTrailing held r.events t
  else ⟨[⟨held, r.events, t.kind == .eof && r.atEof⟩], t⟩

/-- Places all tokens, the first of them behind the one that is held back. -/
def attach (held : Token) : List Reading → List Reading
  | [] => [⟨held, [], true⟩]
  | r :: rs => (place held r).given ++ attach (place held r).held rs

end Documentation

namespace Stream

open Documentation

/-- The stream in which comments are documentation. Opening it reads its first token, and all lines
of a comment that comes first. -/
def attachDocumentation (s : Stream) : Stream :=
  match Runs.merge commentRuns s.lastReading none s.readings with
  | [] => { s with atEof := true, readings := [] }
  | first :: rest =>
    { opened := s.opened ++ first.events
      atEof := first.token.kind == .eof && first.atEof
      readings :=
        if s.readings.head?.any fun r => r.token.kind = .comment then
          inOrder [] [first.token] ++ attach (.document first.token.origin) rest
        else attach first.token rest
      finish := s.finish }

end Stream

end DocExpr
