import DocExpr.Proofs.Lexing.Symbols
import DocExpr.Parse.Source

/-!
# Places do not matter to a parse

The places of tokens are carried along by the expression machine and never looked at. Everything
that a parse is made of can be stripped of them (`erase`), and a step of the stripped machine on the
stripped token is the stripped step (`Progress.step_erase`). So a parse depends on the kinds and
texts of its tokens only (`Goal.parse_congr`): tokens elsewhere give the same tree or the same
error, elsewhere.

Without comments and back-ticked lines the parser sees the tokens of a source text as they are, and
its layout only has a part in their places (`parseAs_congr`).
-/

namespace DocExpr

/-! ## Without places -/

/-- A token without its place. -/
def Token.erase (t : Token) : Token := { t with origin := .synthetic }

/-- An error without its place. -/
def ParseError.erase : ParseError → ParseError
  | expected kinds found => expected kinds found.erase
  | lexical code token => lexical code token.erase
  | unsupportedIndex _ => unsupportedIndex .synthetic
  | other code message _ => other code message .synthetic

/-- A begun expression without its places. -/
def Frame.erase : Frame → Frame
  | unary op _ => unary op .synthetic
  | chain lhs op _ => chain lhs.erase op .synthetic
  | array done _ => array (done.map Expr.erase) .synthetic
  | group done _ => group (done.map Expr.erase) .synthetic
  | arguments callee done _ => arguments callee.erase (done.map Expr.erase) .synthetic
  | key item _ => key item.erase .synthetic
  | file done _ => file (done.map Expr.erase) .synthetic

/-- What can come next, without places. -/
def Phase.erase : Phase → Phase
  | operand => operand
  | operandOrEnd => operandOrEnd
  | behind e => behind e.erase
  | bracket item _ => bracket item.erase .synthetic
  | bracketSemicolon item _ => bracketSemicolon item.erase .synthetic

/-- How far an expression has been read, without places. -/
def Progress.erase (p : Progress) : Progress := ⟨p.stack.map Frame.erase, p.phase.erase⟩

/-- What comes of a token, without places. -/
def Step.erase : Step → Step
  | shift next => shift next.erase
  | accept e taken => accept e.erase taken
  | reject error taken => reject error.erase taken

/-- What comes of a parse, without places. -/
def ParseRun.erase (r : ParseRun) : ParseRun where
  result := (r.result.map Expr.erase).mapError ParseError.erase
  taken := r.taken.map fun t => { t with token := t.token.erase }
  unread := r.unread.map Token.erase

/-- The tokens that are still to be taken, without their places. -/
def Lookahead.erase (l : Lookahead) : Lookahead := ⟨l.unread.map Token.erase, .synthetic⟩

@[simp] theorem Token.kind_erase (t : Token) : t.erase.kind = t.kind := rfl

theorem ParseError.code_erase (error : ParseError) : error.erase.code = error.code := by
  cases error <;> rfl

namespace Expr

theorem join_erase (lhs : Expr) (op : BinaryOp) (o : Origin) (e : Expr) :
    (lhs.join op o e).erase = lhs.erase.join op .synthetic e.erase := by
  cases lhs with
  | chain op' operands o' =>
    by_cases hop : op' = op
    · simp [join, erase, hop, eraseAll_eq_map]
    · simp [join, erase, hop, eraseAll_eq_map]
  | _ => simp [join, erase, eraseAll]

end Expr

/-! ## Frames -/

namespace Frame

@[simp] theorem level_erase (frame : Frame) : frame.erase.level = frame.level := by
  cases frame <;> rfl

@[simp] theorem closer?_erase (frame : Frame) : frame.erase.closer? = frame.closer? := by
  cases frame <;> rfl

theorem close_erase (frame : Frame) (e : Expr) :
    (frame.close e).erase = frame.erase.close e.erase := by
  cases frame with
  | chain lhs op o => exact lhs.join_erase op o e
  | _ => simp [close, erase, Expr.erase, Expr.eraseAll_eq_map]

theorem closeEmpty?_erase (frame : Frame) :
    frame.erase.closeEmpty? = frame.closeEmpty?.map Expr.erase := by
  cases frame <;> simp [closeEmpty?, erase, Expr.erase, Expr.eraseAll_eq_map]

theorem afterComma?_erase (frame : Frame) (e : Expr) (below : List Frame) :
    frame.erase.afterComma? e.erase (below.map erase) =
      (frame.afterComma? e below).map Progress.erase := by
  cases frame <;> simp [afterComma?, erase, Progress.erase, Phase.erase]

theorem ended_erase (frame : Frame) (e : Expr) (below : List Frame) :
    (frame.ended e below).erase = frame.erase.ended e.erase (below.map erase) := by
  cases frame <;> rfl

end Frame

/-! ## Steps -/

variable (t : Token) (e : Expr) (stack : List Frame)

theorem beginWith_erase :
    (beginWith t stack).erase = beginWith t.erase (stack.map Frame.erase) := by
  unfold beginWith
  rw [Token.kind_erase]
  split
  · rfl
  · split <;> rfl

theorem openBehind_erase (form : Postfixed) :
    (openBehind t e stack form).erase =
      openBehind t.erase e.erase (stack.map Frame.erase) form := by
  cases form <;> rfl

theorem continue?_erase (level : Nat) : continue? level t.erase e.erase (stack.map Frame.erase) =
    (continue? level t e stack).map Progress.erase := by
  unfold continue?
  rw [Token.kind_erase]
  split
  · split
    · rw [Option.map_some, openBehind_erase]
    · rfl
  · split
    · split <;> rfl
    · rfl

theorem resume_erase (least : Nat) :
    (resume least t e stack).erase = resume least t.erase e.erase (stack.map Frame.erase) := by
  induction stack generalizing e with
  | nil =>
    have hcontinue := continue?_erase t e [] least
    rw [List.map_nil] at hcontinue ⊢
    rw [resume, resume, hcontinue]
    cases continue? least t e [] <;> rfl
  | cons frame below ih =>
    rw [List.map_cons, resume, resume, ← List.map_cons, Frame.level_erase, continue?_erase]
    cases continue? frame.level t e (frame :: below) with
    | some next => rfl
    | none =>
      simp only [Option.map_none, Frame.closer?_erase, Token.kind_erase, ← Frame.close_erase,
        Frame.afterComma?_erase]
      cases frame.closer? with
      | none => exact ih _
      | some closer =>
        simp only
        split
        · exact frame.ended_erase _ below
        · split
          · cases frame.afterComma? e below <;> rfl
          · rfl

theorem beginOrEnd_erase :
    (beginOrEnd t stack).erase = beginOrEnd t.erase (stack.map Frame.erase) := by
  cases stack with
  | nil => exact beginWith_erase t []
  | cons frame below =>
    rw [List.map_cons, beginOrEnd, beginOrEnd, Frame.closer?_erase, Token.kind_erase,
      Frame.closeEmpty?_erase, ← List.map_cons, ← beginWith_erase]
    split
    · cases frame.closeEmpty? with
      | none => rfl
      | some e => exact frame.ended_erase e below
    · rfl

namespace Progress

/-- A step without places is the step of the machine without places. -/
theorem step_erase (least : Nat) (p : Progress) (t : Token) :
    (p.step least t).erase = p.erase.step least t.erase := by
  obtain ⟨stack, phase⟩ := p
  unfold step
  rw [Token.kind_erase]
  split
  · rfl
  · cases phase with
    | operand => exact beginWith_erase t stack
    | operandOrEnd => exact beginOrEnd_erase t stack
    | behind e => exact resume_erase t e stack least
    | bracket item o =>
      simp only [erase, Phase.erase]
      split
      · rfl
      · split <;> rfl
    | bracketSemicolon item o =>
      simp only [erase, Phase.erase]
      split <;> rfl

theorem operator?_erase (p : Progress) : p.erase.operator? = p.operator? := by
  obtain ⟨stack, phase⟩ := p
  cases phase with
  | operand =>
    cases stack with
    | nil => rfl
    | cons frame below => cases frame <;> rfl
  | _ => rfl

/-! ## Runs -/

/-- A run without places is the run of the machine without places. -/
theorem run_erase (least : Nat) (finish : Origin) (p : Progress) (ts : List Token) :
    (p.run least finish ts).erase = p.erase.run least .synthetic (ts.map Token.erase) := by
  induction ts generalizing p with
  | nil =>
    have hstep := p.step_erase least (.eof finish)
    have heof : (Token.eof finish).erase = .eof .synthetic := rfl
    rw [heof] at hstep
    rw [run, List.map_nil, run, ← hstep]
    cases p.step least (.eof finish) with
    | shift next => rfl
    | accept e taken => cases taken <;> rfl
    | reject error taken => cases taken <;> rfl
  | cons t ts ih =>
    rw [run, List.map_cons, run, ← step_erase]
    cases p.step least t with
    | shift next =>
      simp only [Step.erase]
      rw [← ih, operator?_erase]
      rfl
    | accept e taken => cases taken <;> rfl
    | reject error taken => cases taken <;> rfl

end Progress

namespace Lookahead

theorem peek_erase (l : Lookahead) : l.erase.peek = l.peek.erase := by
  obtain ⟨_ | ⟨t, ts⟩, finish⟩ := l <;> rfl

theorem endError?_erase (l : Lookahead) : l.erase.endError? = l.endError?.map ParseError.erase := by
  rw [endError?, endError?, peekIs, peekIs, peek_erase, Token.kind_erase]
  split
  · rfl
  · split <;> rfl

theorem expression_erase (least : Nat) (l : Lookahead) :
    (l.expression least).erase = l.erase.expression least :=
  Progress.run_erase least l.finish .expression l.unread

theorem items_erase (l : Lookahead) : l.items.erase = l.erase.items := by
  rw [items, items, peek_erase]
  exact Progress.run_erase 0 l.finish _ l.unread

theorem wholeExpression_erase (l : Lookahead) :
    l.wholeExpression.erase = l.erase.wholeExpression := by
  unfold wholeExpression
  rw [← expression_erase]
  generalize l.expression 0 = r
  obtain ⟨_ | e, taken, unread⟩ := r
  · rfl
  · have hbehind : ({ l.erase with unread := unread.map Token.erase } : Lookahead) =
        ({ l with unread := unread } : Lookahead).erase := rfl
    simp only [ParseRun.erase, Except.map, Except.mapError, hbehind, endError?_erase, peek_erase]
    cases ({ l with unread := unread } : Lookahead).endError? with
    | some error => rfl
    | none => cases unread <;> simp [erase, read]

end Lookahead

/-- Where the tokens of two streams are the same up to places, so is what comes of parsing them. -/
theorem Goal.parse_congr (goal : Goal) {s s' : Stream}
    (h : s.tokens.map Token.erase = s'.tokens.map Token.erase) :
    (goal.parse s).erase = (goal.parse s').erase := by
  have hlook : (Lookahead.ofStream s).erase = (Lookahead.ofStream s').erase := by
    rw [Lookahead.erase, Lookahead.erase, Lookahead.unread_ofStream, Lookahead.unread_ofStream, h]
  cases goal with
  | expression =>
    rw [parse, parse, Lookahead.wholeExpression_erase, Lookahead.wholeExpression_erase, hlook]
  | items => rw [parse, parse, Lookahead.items_erase, Lookahead.items_erase, hlook]

/-! ## Sources -/

/-- Whether two parses come to the same tree, or to the same error, up to places. -/
inductive SameOutcome : Except ParseError Expr → Except ParseError Expr → Prop where
  | accepted {e e' : Expr} (alike : e.alike e') : SameOutcome (.ok e) (.ok e')
  | rejected {error error' : ParseError} (code : error.code = error'.code)
      (same : error.erase = error'.erase) : SameOutcome (.error error) (.error error')

theorem sameOutcome_of_erase_eq {r r' : ParseRun} (h : r.erase = r'.erase) :
    SameOutcome r.result r'.result := by
  replace h := congrArg ParseRun.result h
  obtain ⟨error | e, _, _⟩ := r <;> obtain ⟨error' | e', _, _⟩ := r'
  · have herror : error.erase = error'.erase := Except.error.inj h
    refine .rejected ?_ herror
    rw [← error.code_erase, herror, error'.code_erase]
  · cases h
  · cases h
  · exact .accepted ((Expr.alike_iff_erase_eq e e').2 (Except.ok.inj h))

/-- Without comments and back-ticked lines the parser sees the tokens of a text as they are. -/
theorem Stream.tokens_ofSource {text file : String}
    (h : ∀ t ∈ (ofText text file).tokens, t.kind ≠ .comment ∧ t.kind ≠ .tickedLine) :
    (ofSource text file).tokens = (ofText text file).tokens := by
  obtain ⟨gs, hscan⟩ := Glyph.exists_scans text.toList
  have hblock : ∀ t ∈ (ofText text file).tokens, ∀ b, t.kind ≠ .block b := by
    rw [hscan.tokens_ofText file]
    intro t ht
    obtain ⟨g, hg, o, rfl⟩ := Glyph.mem_placed ht
    exact (hscan.kind_ne hg).2.1
  have hattach := tokens_attachDocumentation (fun t ht => (h t ht).1) hblock
  have hticked : ∀ r ∈ (ofText text file).attachDocumentation.readings,
      r.token.kind ≠ .tickedLine :=
    fun r hr => (h r.token (hattach ▸ List.mem_map_of_mem hr)).2
  rw [← hattach]
  exact congrArg (List.map Reading.token) (Runs.merge_of_not_line hticked)

/-- Where there are no comments and no back-ticked lines, layout does not matter: texts whose tokens
have the same kinds and texts give the same tree or the same error, up to places. -/
theorem Goal.parseAs_congr (goal : Goal) (text file text' file' : String)
    (hplain : ∀ t ∈ (Stream.ofText text file).tokens, t.kind ≠ .comment ∧ t.kind ≠ .tickedLine)
    (h : (Stream.ofText text file).tokens.map (fun t => (t.kind, t.text)) =
      (Stream.ofText text' file').tokens.map fun t => (t.kind, t.text)) :
    SameOutcome (parseAs goal text file) (parseAs goal text' file') := by
  have hplain' : ∀ t ∈ (Stream.ofText text' file').tokens, t.kind ≠ .comment ∧
      t.kind ≠ .tickedLine := by
    intro t ht
    obtain ⟨u, hu, heq⟩ := List.mem_map.1 (h ▸ List.mem_map_of_mem ht)
    exact (Prod.mk.inj heq).1 ▸ hplain u hu
  have herase : ∀ ts : List Token, ts.map Token.erase =
      (ts.map fun t => (t.kind, t.text)).map fun x => ⟨x.1, x.2, .synthetic⟩ := by
    intro ts
    rw [List.map_map]
    rfl
  rw [parseAs_eq, parseAs_eq]
  refine sameOutcome_of_erase_eq (goal.parse_congr ?_)
  rw [Stream.tokens_ofSource hplain, Stream.tokens_ofSource hplain', herase, herase, h]

/-- A call that is spread over lines is the same call. -/
theorem Goal.parseAs_congr_spread :
    let text := "f(x,-y)"
    let text' := " f (\r\n  x,\n\t- y\n)"
    (∀ t ∈ (Stream.ofText text "a").tokens, t.kind ≠ .comment ∧ t.kind ≠ .tickedLine) ∧
      (Stream.ofText text "a").tokens.map (fun t => (t.kind, t.text)) =
        (Stream.ofText text' "b").tokens.map (fun t => (t.kind, t.text)) ∧
      (parseAs .expression text "a").isOk ∧
      SameOutcome (parseAs .expression text "a") (parseAs .expression text' "b") := by
  intro text text'
  have hplain : ∀ t ∈ (Stream.ofText text "a").tokens, t.kind ≠ .comment ∧
      t.kind ≠ .tickedLine := by
    decide +kernel
  have htokens : (Stream.ofText text "a").tokens.map (fun t => (t.kind, t.text)) =
      (Stream.ofText text' "b").tokens.map fun t => (t.kind, t.text) := by decide +kernel
  exact ⟨hplain, htokens, by decide +kernel,
    parseAs_congr .expression text "a" text' "b" hplain htokens⟩

end DocExpr
