import DocExpr.Error
import DocExpr.Operator

/-!
# Events

What happens while a source is read, as a log shows it. An `Event` is a cause; `level`, `stage`,
`message` and `fields` are what is written of it.
-/

namespace DocExpr

/-- How detailed an event is. -/
inductive Level where
  | debug | trace
deriving DecidableEq

/-- Where an event comes from. -/
inductive Stage where
  | scanner | documentation | multiline | lookahead
  /-- Reading one expression from a whole source. -/
  | source
  | parser
deriving DecidableEq

/-- Something that happens while a source is read. -/
inductive Event where
  /-- A token was read from the characters. -/
  | scanned (token : Token)
  /-- Characters were read that stand for a fault. -/
  | faulty (token : Token)
  /-- Lines of comments became one block. -/
  | mergedComment (origin : Origin) (lines : UInt32)
  /-- Back-ticked lines became one string. -/
  | mergedString (origin : Origin) (lines : UInt32)
  /-- A block of comments stands behind something on its line. -/
  | trailing (origin : Origin)
  /-- A block of comments changes places with the separator before it. -/
  | moved (origin : Origin)
  /-- A token was taken by the parser. -/
  | consumed (token : Token)
  /-- An operator between operands was taken. -/
  | joined (op : BinaryOp) (origin : Origin)
  | parsingExpression (file : String)
  | parsingItems (file : String)
  /-- A source was rejected, as seen by the given stage. -/
  | failed (stage : Stage) (file : String) (code : Code)
deriving DecidableEq

namespace Event

/-- How detailed an event is. -/
def level : Event → Level
  | faulty _ | parsingExpression _ | parsingItems _ | failed .. => .debug
  | _ => .trace

/-- Where an event comes from. -/
def stage : Event → Stage
  | scanned _ | faulty _ => .scanner
  | mergedComment .. | trailing _ | moved _ => .documentation
  | mergedString .. => .multiline
  | consumed _ => .lookahead
  | joined .. | parsingItems _ => .parser
  | parsingExpression _ => .source
  | failed stage .. => stage

/-- What an event says. -/
def message : Event → String
  | scanned _ => "scanned"
  | faulty _ => "lexical error"
  | mergedComment .. => "merged documentation"
  | mergedString .. => "merged multiline string"
  | trailing _ => "documentation is trailing"
  | moved _ => "moving trailing documentation before separator"
  | consumed _ => "consumed"
  | joined .. => "infix"
  | parsingExpression _ => "parsing expression"
  | parsingItems _ => "parsing items"
  | failed .. => "parse failed"

/-- The named details of an event. -/
def fields : Event → List (String × String)
  | scanned t | consumed t => [("kind", t.kind.name), ("origin", t.origin.display)]
  | faulty t => [("kind", t.kind.name), ("origin", t.origin.display), ("text", t.text)]
  | mergedComment o n | mergedString o n =>
    [("origin", o.display), ("lines", toString n.toNat)]
  | trailing o | moved o => [("origin", o.display)]
  | joined op o => [("op", op.name), ("origin", o.display)]
  | parsingExpression file | parsingItems file => [("file", file)]
  | failed _ file code => [("file", file), ("code", code.text)]

/-- Whether a log that shows events down to a level of detail shows this one. -/
def shownAt (shown : Level) (e : Event) : Bool := shown == .trace || e.level == .debug

end Event

end DocExpr
