import DocExpr.Parse.Run
import DocExpr.Stream.Layer

/-!
# Parsing sources

What can be asked of the tokens that are still to be taken (`Lookahead`): one expression, the items
of a whole file, or that the input ends here. `parseExpression` and `parseItems` read a source text
that is exactly one expression, or a file of items.
-/

namespace DocExpr

namespace Progress

/-- Nothing of an expression has been read. -/
def expression : Progress := ⟨[], .operand⟩

/-- Nothing of a file of items has been read. Its expression stands where its first token does. -/
def items (origin : Origin) : Progress := ⟨[.file [] origin], .operandOrEnd⟩

end Progress

namespace Lookahead

/-- Reads one expression, whose continuations have at least a given power. Tokens that cannot
continue it are left. -/
def expression (least : Nat) (l : Lookahead) : ParseRun :=
  Progress.expression.run least l.finish l.unread

/-- Reads items, separated by commas, up to the end of the input. -/
def items (l : Lookahead) : ParseRun := (Progress.items l.peek.origin).run 0 l.finish l.unread

/-- Why the input does not end at the next token, if it does not. -/
def endError? (l : Lookahead) : Option ParseError :=
  match l.peek.kind.fault? with
  | some fault => some (.lexical fault.code l.peek)
  | none => if l.peekIs .eof then none else some (.expected [.eof] l.peek)

/-- Reads one expression and the end of the input behind it. -/
def wholeExpression (l : Lookahead) : ParseRun :=
  let r := l.expression 0
  match r.result with
  | .error _ => r
  | .ok e =>
    let behind : Lookahead := { l with unread := r.unread }
    match behind.endError? with
    | some error => { r with result := .error error }
    | none => ⟨.ok e, r.taken ++ [⟨behind.peek, none⟩], behind.read.2.unread⟩

end Lookahead

/-- What is read from tokens. -/
inductive Request where
  | expression
  | items
  /-- That the input ends at the next token, which is taken then. -/
  | ending
deriving DecidableEq

namespace Lookahead

/-- Answers a request: with an expression, with nothing for the end of the input, or with an error.
The tokens that are left can be asked again, also after an error. -/
def answer (l : Lookahead) : Request → Except ParseError (Option Expr) × Lookahead
  | .expression =>
    let r := l.expression 0
    (r.result.map some, { l with unread := r.unread })
  | .items =>
    let r := l.items
    (r.result.map some, { l with unread := r.unread })
  | .ending =>
    match l.endError? with
    | some error => (.error error, l)
    | none => (.ok none, l.read.2)

/-- Answers requests one after the other. -/
def answers (l : Lookahead) : List Request → List (Except ParseError (Option Expr))
  | [] => []
  | r :: rs => (l.answer r).1 :: (l.answer r).2.answers rs

end Lookahead

/-- What a source text is read as. -/
inductive Goal where
  /-- Exactly one expression. -/
  | expression
  /-- Items up to the end of the file. -/
  | items
deriving DecidableEq

/-- Parses the tokens of a whole stream. -/
def Goal.parse (goal : Goal) (s : Stream) : ParseRun :=
  match goal with
  | .expression => (Lookahead.ofStream s).wholeExpression
  | .items => (Lookahead.ofStream s).items

/-- Reads a source text that is exactly one expression. -/
def parseExpression (text file : String) : Except ParseError Expr :=
  (Goal.expression.parse (.ofSource text file)).result

/-- Reads a source text that is a file of items, as a group without parentheses. -/
def parseItems (text file : String) : Except ParseError Expr :=
  (Goal.items.parse (.ofSource text file)).result

/-- Reads a source text as one or the other. -/
def parseAs (goal : Goal) (text file : String) : Except ParseError Expr :=
  match goal with
  | .expression => parseExpression text file
  | .items => parseItems text file

theorem parseAs_eq (goal : Goal) (text file : String) :
    parseAs goal text file = (goal.parse (.ofSource text file)).result := by cases goal <;> rfl

end DocExpr
