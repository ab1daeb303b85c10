import DocExpr.Stream.Basic

/-!
# Runs of lines

Lines of one kind that stand directly below each other, such as the lines of a comment, are read
as one token. `Runs.merge` reads a list of readings so: a line opens a run, lines below it extend
it, and whatever comes next closes it. To see the end of a run the next token has to be read, so
its events come before the token of the run.
-/

namespace DocExpr

/-- A run of lines that may go on. -/
structure Run where
  /-- The place of the first line. -/
  origin : Origin
  /-- The line number of the last line. -/
  last : UInt32
  text : String
  /-- What happened while the lines were read. -/
  events : List Event

/-- Which lines make runs, and what runs become. -/
structure RunForm where
  line : Kind
  block : Block
  /-- What a log says of a finished run, by its place and its number of lines. -/
  merged : Origin → UInt32 → Event

namespace Run

/-- A run of one line. -/
def start (r : Reading) : Run :=
  ⟨r.token.origin, r.token.origin.line, r.token.text, r.events⟩

/-- Whether a line stands directly below the last line of a run. -/
def continues (run : Run) (t : Token) : Bool := t.origin.line == run.last + 1

/-- A run with one more line. -/
def push (run : Run) (r : Reading) : Run :=
  { run with
    last := r.token.origin.line
    text := run.text ++ "\n" ++ r.token.text
    events := run.events ++ r.events }

/-- The number of lines between the first and the last of a run, both included. -/
def lines (run : Run) : UInt32 := run.last - run.origin.line + 1

/-- The reading of a finished run, given the reading that ended it. -/
def close (form : RunForm) (run : Run) (next : Reading) : Reading where
  token := ⟨.block form.block, run.text, run.origin⟩
  events := run.events ++ next.events ++ [form.merged run.origin run.lines]
  atEof := next.token.kind == .eof && next.atEof

end Run

namespace Runs

/-- A reading whose events have been shown before. -/
def quiet (r : Reading) : Reading := { r with events := [] }

/-- Merges the runs of a list of readings, given the run that is open and the reading that comes
behind the list. -/
def merge (form : RunForm) (finish : Reading) : Option Run → List Reading → List Reading
  | none, [] => []
  | some run, [] => [run.close form finish]
  | none, r :: rs =>
    if r.token.kind = form.line then merge form finish (some (.start r)) rs
    else r :: merge form finish none rs
  | some run, r :: rs =>
    if r.token.kind = form.line then
      if run.continues r.token then merge form finish (some (run.push r)) rs
      else run.close form r :: merge form finish (some (.start (quiet r))) rs
    else run.close form r :: quiet r :: merge form finish none rs

end Runs

namespace Stream

/-- Back-ticked lines become multi-line strings. -/
def stringRuns : RunForm := ⟨.tickedLine, .multiline, .mergedString⟩

/-- The stream in which each run of back-ticked lines is one multi-line string. -/
def mergeStrings (s : Stream) : Stream :=
  { s with readings := Runs.merge stringRuns s.lastReading none s.readings }

end Stream

end DocExpr
