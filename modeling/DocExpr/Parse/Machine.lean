import DocExpr.Error
import DocExpr.Parse.Power

/-!
# The expression machine

Expressions are read by a machine that looks at one token at a time. Its stack holds the
expressions that have been begun (`Frame`), and its `Phase` says what can come next. A step takes
the token and goes on, or ends with an expression or an error, with the token taken or left.

An operator keeps the operand before it if its power is at least the `level` of the top frame;
otherwise the top frame is completed first. A token that stands for a fault ends every parse.
-/

namespace DocExpr

/-- An expression that has been begun and lacks its last part. -/
inductive Frame where
  | unary (op : UnaryOp) (origin : Origin)
  | chain (lhs : Expr) (op : BinaryOp) (origin : Origin)
  | array (done : List Expr) (origin : Origin)
  | group (done : List Expr) (origin : Origin)
  | arguments (callee : Expr) (done : List Expr) (origin : Origin)
  | key (item : Expr) (origin : Origin)
  /-- The items of a whole file. -/
  | file (done : List Expr) (origin : Origin)

/-- What can come next. -/
inductive Phase where
  /-- The start of an expression. -/
  | operand
  /-- The start of an expression, or the end of the top frame. -/
  | operandOrEnd
  /-- What continues a complete expression, or completes the top frame with it. -/
  | behind (e : Expr)
  /-- What follows an item and an opening bracket. -/
  | bracket (item : Expr) (origin : Origin)
  /-- What follows an item, an opening bracket and a semicolon. -/
  | bracketSemicolon (item : Expr) (origin : Origin)

/-- How far an expression has been read. -/
structure Progress where
  stack : List Frame
  phase : Phase

/-- What comes of a token. -/
inductive Step where
  /-- The token is taken, and the expression goes on. -/
  | shift (next : Progress)
  /-- The expression is complete, with the token taken or not. -/
  | accept (e : Expr) (taken : Bool)
  /-- The token cannot stand here, whether it was taken or not. -/
  | reject (error : ParseError) (taken : Bool)

/-- The kinds of tokens that start expressions, as errors list them. -/
def expressionStart : List Kind :=
  [.atom .char, .mark .dash, .atom .date, .atom .dateTime, .atom .identifier, .atom .integer,
    .block .leading, .mark .leftBracket, .mark .leftParenthesis, .block .multiline,
    .keyword .notWord, .atom .string, .block .trailing, .atom .uuid]

namespace Frame

/-- The least power of what can continue an expression in a frame. -/
def level : Frame → Nat
  | unary op _ => op.power
  | chain _ op _ => op.right
  | _ => 0

/-- The kind of token that ends a frame. Operators are not ended, but completed. -/
def closer? : Frame → Option Kind
  | unary .. | chain .. => none
  | array .. => some (.mark .rightBracket)
  | group .. | arguments .. => some (.mark .rightParenthesis)
  | key .. => some (.mark .rightBrace)
  | file .. => some .eof

/-- The expression of a frame whose last part is given. -/
def close : Frame → Expr → Expr
  | unary op o, e => .unary op e o
  | chain lhs op o, e => lhs.join op o e
  | array done o, e => .array (done ++ [e]) o
  | group done o, e => .group (done ++ [e]) o
  | arguments callee done o, e => .call callee (.group (done ++ [e]) o) o
  | key item o, e => .map item e o
  | file done o, e => .group (done ++ [e]) o

/-- The expression of a frame that lacks nothing. -/
def closeEmpty? : Frame → Option Expr
  | unary .. | chain .. => none
  | array done o => some (.array done o)
  | group done o => some (.group done o)
  | arguments callee done o => some (.call callee (.group done o) o)
  | key item o => some (.suffixed .set item o)
  | file done o => some (.group done o)

/-- What follows a comma behind an expression in a frame above others: in items, but not in
elements, the end can follow. -/
def afterComma? : Frame → Expr → List Frame → Option Progress
  | array done o, e, below => some ⟨array (done ++ [e]) o :: below, .operand⟩
  | group done o, e, below => some ⟨group (done ++ [e]) o :: below, .operandOrEnd⟩
  | arguments callee done o, e, below =>
    some ⟨arguments callee (done ++ [e]) o :: below, .operandOrEnd⟩
  | file done o, e, below => some ⟨file (done ++ [e]) o :: below, .operandOrEnd⟩
  | unary .., _, _ | chain .., _, _ | key .., _, _ => none

/-- What comes of the token that ends a frame above others. With the items of a file the parse
ends. -/
def ended : Frame → Expr → List Frame → Step
  | file .., e, _ => .accept e true
  | _, e, below => .shift ⟨below, .behind e⟩

end Frame

/-- The least power of what can continue an expression above a stack, where `least` is that of the
whole expression. -/
def level (least : Nat) : List Frame → Nat
  | [] => least
  | frame :: _ => frame.level

/-- Takes a token that starts an expression. -/
def beginWith (t : Token) (stack : List Frame) : Step :=
  match t.kind.unary? with
  | some op => .shift ⟨.unary op t.origin :: stack, .operand⟩
  | none =>
    match t.kind with
    | .atom form => .shift ⟨stack, .behind (.atom form t.text t.origin)⟩
    | .block form => .shift ⟨stack, .behind (.block form t.lines t.origin)⟩
    | .mark .leftBracket => .shift ⟨.array [] t.origin :: stack, .operandOrEnd⟩
    | .mark .leftParenthesis => .shift ⟨.group [] t.origin :: stack, .operandOrEnd⟩
    | _ => .reject (.expected expressionStart t) true

/-- Takes a token that opens something behind an item. -/
def openBehind (t : Token) (item : Expr) (stack : List Frame) : Postfixed → Progress
  | .brace => ⟨.key item t.origin :: stack, .operandOrEnd⟩
  | .bracket => ⟨stack, .bracket item t.origin⟩
  | .call => ⟨.arguments item [] t.origin :: stack, .operandOrEnd⟩
  | .optional => ⟨stack, .behind (.suffixed .optional item t.origin)⟩

/-- Takes a token that continues an expression at a level. -/
def continue? (level : Nat) (t : Token) (e : Expr) (stack : List Frame) : Option Progress :=
  match t.kind.postfixed? with
  | some form => if level ≤ postfixPower then some (openBehind t e stack form) else none
  | none =>
    match t.kind.binary? with
    | some op => if level ≤ op.left then some ⟨.chain e op t.origin :: stack, .operand⟩ else none
    | none => none

/-- Takes a token behind an expression: the token continues it, or completes the operators on top
of the stack and then continues, separates or ends what is below them. -/
def resume (least : Nat) (t : Token) : Expr → List Frame → Step
  | e, [] =>
    match continue? least t e [] with
    | some next => .shift next
    | none => .accept e false
  | e, frame :: below =>
    match continue? frame.level t e (frame :: below) with
    | some next => .shift next
    | none =>
      match frame.closer? with
      | none => resume least t (frame.close e) below
      | some closer =>
        if t.kind = closer then frame.ended (frame.close e) below
        else if t.kind = .mark .comma then
          match frame.afterComma? e below with
          | some next => .shift next
          | none => .reject (.expected [closer] t) false
        else .reject (.expected [closer] t) false

/-- Takes a token where an expression or the end of the top frame can stand. -/
def beginOrEnd (t : Token) : List Frame → Step
  | [] => beginWith t []
  | frame :: below =>
    if frame.closer? = some t.kind then
      match frame.closeEmpty? with
      | some e => frame.ended e below
      | none => beginWith t (frame :: below)
    else beginWith t (frame :: below)

namespace Progress

/-- What comes of a token, where `least` is the least power of what can continue the whole
expression. -/
def step (least : Nat) (p : Progress) (t : Token) : Step :=
  match t.kind.fault? with
  | some fault => .reject (.lexical fault.code t) false
  | none =>
    match p.phase with
    | .operand => beginWith t p.stack
    | .operandOrEnd => beginOrEnd t p.stack
    | .behind e => resume least t e p.stack
    | .bracket item o =>
      if t.kind = .mark .semicolon then .shift ⟨p.stack, .bracketSemicolon item o⟩
      else if t.kind = .mark .rightBracket then
        .shift ⟨p.stack, .behind (.suffixed .array item o)⟩
      else .reject (.unsupportedIndex o) false
    | .bracketSemicolon item o =>
      if t.kind = .mark .rightBracket then .shift ⟨p.stack, .behind (.suffixed .list item o)⟩
      else .reject (.expected [.mark .rightBracket] t) false

/-- The operator whose second operand comes next. -/
def operator? (p : Progress) : Option BinaryOp :=
  match p.phase, p.stack with
  | .operand, .chain _ op _ :: _ => some op
  | _, _ => none

end Progress

end DocExpr
