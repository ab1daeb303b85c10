import DocExpr.Event

/-!
# Streams of tokens

A `Stream` is what can be read from a source of tokens, one token after the other: each `Reading`
has the token, the events that reading it caused, and whether only ends of input are left behind
it. After the readings the stream gives the end of the input for ever. `Stream.ofTokens` is the
stream of a list; the streams of source texts are in `DocExpr.Stream.Text`.
-/

namespace DocExpr

/-- One token that is read from a stream. -/
structure Reading where
  token : Token
  /-- What happened while the token was read. -/
  events : List Event
  /-- Whether only ends of input are left behind the token. -/
  atEof : Bool
deriving DecidableEq

/-- What can be read from a source of tokens. -/
structure Stream where
  /-- What happened while the stream was opened. -/
  opened : List Event
  /-- Whether only ends of input can be read at all. -/
  atEof : Bool
  readings : List Reading
  /-- The place of the end of the input, which can be read for ever after the readings. -/
  finish : Origin
deriving DecidableEq

namespace Stream

/-- The tokens of a stream before its endless ends of input. -/
def tokens (s : Stream) : List Token := s.readings.map Reading.token

/-- The reading that repeats for ever behind all others. -/
def lastReading (s : Stream) : Reading := ⟨Token.eof s.finish, [], true⟩

/-- The readings of a list of tokens. -/
def readingsOfTokens : List Token → List Reading
  | [] => []
  | t :: ts => ⟨t, [], ts.all fun u => u.kind == .eof⟩ :: readingsOfTokens ts

/-- The stream that gives the tokens of a list, and then the end of the file. -/
def ofTokens (file : String) (ts : List Token) : Stream where
  opened := []
  atEof := ts.all fun t => t.kind == .eof
  readings := readingsOfTokens ts
  finish := ⟨file, 1, 1, 0⟩

/-- The first readings of a list, up to its `count`-th end of input, and how many ends are left to
read. -/
def takeEofs : Nat → List Reading → List Reading × Nat
  | 0, _ => ([], 0)
  | count, [] => ([], count)
  | count + 1, r :: rs =>
    let (taken, left) := takeEofs (if r.token.kind = .eof then count else count + 1) rs
    (r :: taken, left)

/-- Reads a stream until `count` ends of input were read. -/
def readEofs (s : Stream) (count : Nat) : List Reading :=
  let (taken, left) := takeEofs count s.readings
  taken ++ List.replicate left s.lastReading

@[simp] theorem tokens_ofTokens (file : String) (ts : List Token) :
    (ofTokens file ts).tokens = ts := by
  simp only [tokens, ofTokens]
  induction ts with
  | nil => rfl
  | cons t ts ih => simpa [readingsOfTokens] using ih

end Stream

end DocExpr
