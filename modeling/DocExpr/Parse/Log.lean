import DocExpr.Parse.Source

/-!
# Logs of parses

`logOf` gives the events of a parse in the order in which they happen. A token is taken only when
the one behind it has been read, so what happens while that one is read comes first.
-/

namespace DocExpr

/-- What happens when tokens are taken, given what happens when the readings behind the first of
them are made. -/
def takenEvents : List (List Event) → List Taken → List Event
  | _, [] => []
  | pulls, t :: ts =>
    let joined := (t.operator?.map fun op => Event.joined op t.token.origin).toList
    pulls.headD [] ++ .consumed t.token :: joined ++ takenEvents pulls.tail ts

/-- The last event of a rejected source. -/
def failureEvents (stage : Stage) (file : String) : Except ParseError Expr → List Event
  | .ok _ => []
  | .error e => [.failed stage file e.code]

/-- What happens while a source text is read. For items, a fault in the very first token is not
reported as a failure of the parse. -/
def logOf (goal : Goal) (text file : String) : List Event :=
  let s := Stream.ofSource text file
  let r := goal.parse s
  let pulls := s.readings.map Reading.events
  let taken := takenEvents pulls.tail r.taken
  match goal with
  | .expression =>
    .parsingExpression file :: s.opened ++ pulls.headD [] ++ taken
      ++ failureEvents .source file r.result
  | .items =>
    s.opened ++ pulls.headD [] ++ .parsingItems file :: taken
      ++ if (Lookahead.ofStream s).peek.kind.isFault then []
        else failureEvents .parser file r.result

end DocExpr
