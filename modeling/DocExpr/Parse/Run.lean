import DocExpr.Parse.Machine
import DocExpr.Stream.Lookahead

/-!
# Runs of the expression machine

`Progress.run` feeds tokens to the machine until it accepts or rejects. A `ParseRun` is what comes
of it: the result, the tokens that were taken and those that are left. Behind the last token comes
the end of the input, which the machine never takes without ending (`not_shift_eof`).
-/

namespace DocExpr

/-- A token that was taken, and the operator that it stands for between operands, if any. -/
structure Taken where
  token : Token
  operator? : Option BinaryOp

/-- What comes of a parse. -/
structure ParseRun where
  result : Except ParseError Expr
  taken : List Taken
  /-- The tokens that are left. -/
  unread : List Token

namespace ParseRun

/-- The run with one more token taken before it. -/
def cons (t : Taken) (r : ParseRun) : ParseRun := { r with taken := t :: r.taken }

/-- The run that ends at the first of some tokens. -/
def ending (result : Except ParseError Expr) (t : Token) (rest : List Token) :
    Bool → ParseRun
  | true => ⟨result, [⟨t, none⟩], rest⟩
  | false => ⟨result, [], t :: rest⟩

/-- The run that ends at the end of the input. -/
def endingAtEof (result : Except ParseError Expr) (finish : Origin) (taken : Bool) : ParseRun :=
  ⟨result, if taken then [⟨.eof finish, none⟩] else [], []⟩

end ParseRun

namespace Progress

/-- Feeds tokens to the machine, and then the end of the input at `finish`. -/
def run (least : Nat) (finish : Origin) : Progress → List Token → ParseRun
  | p, [] =>
    match p.step least (.eof finish) with
    | .shift _ => .endingAtEof (.error (.expected expressionStart (.eof finish))) finish true
    | .accept e taken => .endingAtEof (.ok e) finish taken
    | .reject error taken => .endingAtEof (.error error) finish taken
  | p, t :: ts =>
    match p.step least t with
    | .shift next => (run least finish next ts).cons ⟨t, next.operator?⟩
    | .accept e taken => .ending (.ok e) t ts taken
    | .reject error taken => .ending (.error error) t ts taken

theorem continue?_eof (level : Nat) (o : Origin) (e : Expr) (stack : List Frame) :
    continue? level (.eof o) e stack = none := rfl

theorem not_shift_ended_eof {frame : Frame} (h : frame.closer? = some .eof) (e : Expr)
    (below : List Frame) (next : Progress) : frame.ended e below ≠ .shift next := by
  cases frame <;> simp_all [Frame.closer?, Frame.ended]

theorem not_shift_resume_eof (least : Nat) (o : Origin) (e : Expr) (stack : List Frame)
    (next : Progress) : resume least (.eof o) e stack ≠ .shift next := by
  induction stack generalizing e with
  | nil => simp [resume, continue?_eof]
  | cons frame below ih =>
    rw [resume, continue?_eof]
    cases h : frame.closer? with
    | none => exact ih _
    | some closer =>
      by_cases hc : closer = .eof
      · subst hc
        simpa using not_shift_ended_eof h _ _ _
      · simp [Ne.symm hc]

/-- The end of the input ends every parse. -/
theorem not_shift_eof (least : Nat) (o : Origin) (p next : Progress) :
    p.step least (.eof o) ≠ .shift next := by
  obtain ⟨stack, phase⟩ := p
  have begins : ∀ s, beginWith (.eof o) s = .reject (.expected expressionStart (.eof o)) true :=
    fun _ => rfl
  cases phase with
  | operand => simp [step, Kind.fault?, begins]
  | operandOrEnd =>
    cases stack with
    | nil => simp [step, Kind.fault?, beginOrEnd, begins]
    | cons frame below =>
      simp only [step, Kind.fault?, Token.kind_eof, beginOrEnd, begins]
      split
      · next h =>
        split
        · exact not_shift_ended_eof h _ _ _
        · simp
      · simp
  | behind e => exact not_shift_resume_eof least o e stack next
  | bracket item o' => simp [step, Kind.fault?]
  | bracketSemicolon item o' => simp [step, Kind.fault?]

end Progress

end DocExpr
