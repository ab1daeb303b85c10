import DocExpr.Proofs.Grammar.Completeness
import DocExpr.Proofs.Grammar.Faults

/-!
# Errors are reported as early as they can be

A parse that fails has taken some tokens and refuses the next one (`Goal.Refuses`), which depends on
nothing behind that token. What has been taken can still become a whole input: `Progress.completion`
gives an operand where one is missing, and the tokens that end all frames on the stack, and every
run accepts them (`Progress.accepts_completion`).

So the token of an error is the first one at which no input that goes on from there can be accepted:
`Goal.earliest_error`.
-/

namespace DocExpr

/-- The token at a place of a stream, counted from zero. Behind all tokens comes the end of the
input for ever. -/
def Stream.nth (s : Stream) (k : Nat) : Token := s.tokens.getD k (.eof s.finish)

theorem Stream.nth_eq_peek {s : Stream} {taken rest : List Token} (h : s.tokens = taken ++ rest) :
    s.nth taken.length = (⟨rest, s.finish⟩ : Lookahead).peek := by
  cases rest <;> simp [nth, h]

theorem Stream.nth_zero (s : Stream) : s.nth 0 = (Lookahead.ofStream s).peek := by
  have h : s.tokens = [] ++ s.tokens := rfl
  exact Stream.nth_eq_peek h

/-- A token of a mark that stands in no source file. -/
def Mark.token (m : Mark) : Token := ⟨.mark m, m.spelling, .synthetic⟩

namespace Progress

variable {least : Nat} {finish : Origin} {goal : Goal} {p q r next : Progress} {t : Token}
  {taken ts us : List Token} {s : List Symbol}

/-! ## Where a run stops -/

/-- A run takes tokens up to one from which it does not go on. -/
theorem exists_stop (least : Nat) (finish : Origin) (p : Progress) (ts : List Token) :
    ∃ taken rest q, ts = taken ++ rest ∧ Shifts least p taken q ∧
      ∀ next, q.step least (rest.headD (.eof finish)) ≠ .shift next := by
  induction ts generalizing p with
  | nil => exact ⟨[], [], p, rfl, rfl, not_shift_eof least finish p⟩
  | cons t ts ih =>
    cases hstep : p.step least t with
    | shift next =>
      obtain ⟨taken, rest, q, rfl, hq, hstop⟩ := ih next
      exact ⟨t :: taken, rest, q, rfl, ⟨next, hstep, hq⟩, hstop⟩
    | accept | reject => exact ⟨[], t :: ts, p, rfl, rfl, by simp [hstep]⟩

theorem Shifts.of_append (h : Shifts least p (ts ++ us) r) :
    ∃ q, Shifts least p ts q ∧ Shifts least q us r := by
  induction ts generalizing p with
  | nil => exact ⟨p, rfl, h⟩
  | cons t ts ih =>
    obtain ⟨next, hstep, h⟩ := h
    obtain ⟨q, hq, hr⟩ := ih h
    exact ⟨q, ⟨next, hstep, hq⟩, hr⟩

/-- Taken tokens are no ends of the input, so an input that has them at its first places starts with
them. -/
theorem Shifts.exists_rest (h : Shifts least p taken q) (ts : List Token) (finish : Origin)
    (hts : ∀ i < taken.length, taken[i]? = some (ts.getD i (.eof finish))) :
    ∃ rest, ts = taken ++ rest := by
  induction taken generalizing p ts with
  | nil => exact ⟨ts, rfl⟩
  | cons t taken ih =>
    obtain ⟨next, hstep, h⟩ := h
    have hhead : t = ts.getD 0 (.eof finish) := Option.some.inj (hts 0 (Nat.zero_lt_succ _))
    cases ts with
    | nil =>
      obtain rfl : t = .eof finish := hhead
      exact absurd hstep (not_shift_eof least finish p next)
    | cons u ts =>
      obtain rfl : t = u := hhead
      obtain ⟨rest, rfl⟩ := ih h ts fun i hi => hts (i + 1) (Nat.succ_lt_succ hi)
      exact ⟨rest, rfl⟩

theorem Shifts.read (h : Shifts least p ts q) (hp : p.Read goal least s) :
    q.Read goal least (s ++ ts.map Token.symbol) := by
  induction ts generalizing p s with
  | nil => exact h ▸ by simpa using hp
  | cons t ts ih =>
    obtain ⟨next, hstep, h⟩ := h
    have hkeeps := keeps_step (t := t) hp
    rw [hstep] at hkeeps
    simpa using ih h hkeeps

/-- An index can begin only right behind its bracket. -/
theorem Shifts.bracket {item : Expr} {o : Origin} (h : Shifts least p taken q)
    (hp : ∀ item o, p.phase ≠ .bracket item o) (hq : q.phase = .bracket item o) :
    ∃ before t, taken = before ++ [t] ∧ t.kind = .mark .leftBracket ∧ t.origin = o := by
  rcases List.eq_nil_or_concat taken with rfl | ⟨before, t, htaken⟩
  · obtain rfl : p = q := h
    exact absurd hq (hp item o)
  · obtain rfl : taken = before ++ [t] := htaken.trans List.concat_eq_append
    obtain ⟨q', -, next, hstep, hnext⟩ := h.of_append
    obtain rfl : next = q := hnext
    have heffect := step_effect least q' t
    rw [hstep] at heffect
    cases heffect with
    | shift _ opened => exact ⟨before, t, rfl, opened item o hq⟩

/-- A run ends at the token that is refused. -/
theorem run_of_reject {error : ParseError} {taken : Bool} {rest : List Token}
    (h : q.step least (rest.headD (.eof finish)) = .reject error taken) :
    (q.run least finish rest).result = .error error := by
  cases rest with
  | nil => rw [List.headD_nil] at h; simp [run, h, ParseRun.endingAtEof]
  | cons t rest => rw [List.headD_cons] at h; simp [run, h]

/-! ## Completing what has been begun -/

/-- A name, which can be an operand anywhere. -/
def someOperand : Token := ⟨.atom .identifier, "x", .synthetic⟩

/-- The tokens that end the frames of a stack. Operators end with their operands, and the items of a
file with the input. -/
def closers : List Frame → List Token
  | [] => []
  | frame :: below =>
    match frame.closer? with
    | none => closers below
    | some (.mark m) => m.token :: closers below
    | some _ => []

/-- Tokens that make a whole input of what has been read. -/
def completion (p : Progress) : List Token :=
  match p.phase with
  | .operand | .operandOrEnd => someOperand :: closers p.stack
  | .behind _ => closers p.stack
  | .bracket .. | .bracketSemicolon .. => Mark.rightBracket.token :: closers p.stack

/-- Whether a run accepts all of some tokens. -/
def Accepts (least : Nat) (finish : Origin) (p : Progress) (ts : List Token) : Prop :=
  (∃ e, (p.run least finish ts).result = .ok e) ∧ (p.run least finish ts).unread = []

theorem Accepts.of_shift (hstep : p.step least t = .shift next) (h : Accepts least finish next ts) :
    Accepts least finish p (t :: ts) := by
  simpa [Accepts, run, hstep] using h

theorem Accepts.append (h : Accepts least finish q us) (hq : Shifts least p ts q) :
    Accepts least finish p (ts ++ us) := by
  obtain ⟨hresult, hunread⟩ := hq.run_eq finish us
  rwa [Accepts, hresult, hunread]

/-- Runs from two points are the same if their first steps are. -/
theorem run_congr
    (h : p.step least (ts.headD (.eof finish)) = q.step least (ts.headD (.eof finish))) :
    p.run least finish ts = q.run least finish ts := by
  cases ts with
  | nil => rw [List.headD_nil] at h; rw [run, run, h]
  | cons t ts => rw [List.headD_cons] at h; rw [run, run, h]

theorem closes_head_closers (finish : Origin) (stack : List Frame) :
    ((closers stack).headD (.eof finish)).kind.closes := by
  induction stack with
  | nil => rfl
  | cons frame below ih =>
    rw [closers]
    split
    · exact ih
    · next hc => exact Frame.closes_of_closer? hc
    · rfl

theorem ended_of_closer? {frame : Frame} {m : Mark} (h : frame.closer? = some (.mark m)) (e : Expr)
    (below : List Frame) : frame.ended e below = .shift ⟨below, .behind e⟩ := by
  cases frame <;> first | rfl | cases h

theorem resume_closer {frame : Frame} (ht : frame.closer? = some t.kind) (e : Expr)
    (below : List Frame) :
    resume least t e (frame :: below) = frame.ended (frame.close e) below := by
  obtain ⟨-, hp, hb⟩ := Collects.plain (.inl (Frame.closes_of_closer? ht))
  have hcont : continue? frame.level t e (frame :: below) = none :=
    (continue?_eq_none frame.level_le_postfixPower).2 ⟨hp, by simp [hb]⟩
  simp [resume, hcont, ht]

/-- The frames of every stack can be ended. -/
theorem accepts_closers (least : Nat) (finish : Origin) (e : Expr) (stack : List Frame) :
    Accepts least finish ⟨stack, .behind e⟩ (closers stack) := by
  induction stack generalizing e with
  | nil => exact ⟨⟨e, rfl⟩, rfl⟩
  | cons frame below ih =>
    cases hc : frame.closer? with
    | none =>
      -- the next token completes the operator, and is then looked at again
      have hclosers : closers (frame :: below) = closers below := by rw [closers, hc]
      obtain ⟨hfault, hp, hb⟩ := Collects.plain (.inl (closes_head_closers finish below))
      have hresume : resume least _ e ([frame] ++ below) = resume least _ (frame.close e) below :=
        resume_append [frame] e hp fun f hf =>
          ⟨List.mem_singleton.1 hf ▸ hc, fun op hop => by rw [hb] at hop; cases hop⟩
      have hrun : run least finish ⟨frame :: below, .behind e⟩ (closers below) =
          run least finish ⟨below, .behind (frame.close e)⟩ (closers below) :=
        run_congr (by rw [step_behind hfault, step_behind hfault]; exact hresume)
      rw [hclosers, Accepts, hrun]
      exact ih _
    | some k =>
      cases k with
      | mark m =>
        have hclosers : closers (frame :: below) = m.token :: closers below := by rw [closers, hc]
        rw [hclosers]
        refine .of_shift ?_ (ih (frame.close e))
        rw [step_behind rfl, resume_closer hc, ended_of_closer? hc]
      | eof =>
        have hclosers : closers (frame :: below) = [] := by rw [closers, hc]
        obtain ⟨done, o, rfl⟩ : ∃ done o, frame = .file done o := by
          cases frame <;> cases hc
          exact ⟨_, _, rfl⟩
        have hstep : step least ⟨.file done o :: below, .behind e⟩ (.eof finish) =
            .accept (.group (done ++ [e]) o) true := by
          rw [step_behind rfl, resume_closer rfl]
          rfl
        rw [hclosers]
        simp [Accepts, run, hstep, ParseRun.endingAtEof]
      | _ => cases frame <;> cases hc

/-- What has been read can always be completed. -/
theorem accepts_completion (least : Nat) (finish : Origin) (p : Progress) :
    Accepts least finish p p.completion := by
  obtain ⟨stack, phase⟩ := p
  have hoperand : step least ⟨stack, .operand⟩ someOperand =
      .shift ⟨stack, .behind (.atom .identifier "x" .synthetic)⟩ := rfl
  cases phase with
  | operand => exact .of_shift hoperand (accepts_closers ..)
  | operandOrEnd =>
    have hone : Shifts least ⟨stack, .operand⟩ [someOperand] _ := ⟨_, hoperand, rfl⟩
    exact (accepts_closers ..).append (hone.of_operand rfl)
  | behind e => exact accepts_closers ..
  | bracket item o =>
    have hstep : step least ⟨stack, .bracket item o⟩ Mark.rightBracket.token =
        .shift ⟨stack, .behind (.suffixed .array item o)⟩ := rfl
    exact .of_shift hstep (accepts_closers ..)
  | bracketSemicolon item o =>
    have hstep : step least ⟨stack, .bracketSemicolon item o⟩ Mark.rightBracket.token =
        .shift ⟨stack, .behind (.suffixed .list item o)⟩ := rfl
    exact .of_shift hstep (accepts_closers ..)

theorem ne_eof_of_mem_closers {stack : List Frame} (h : t ∈ closers stack) : t.kind ≠ .eof := by
  induction stack with
  | nil => cases h
  | cons frame below ih =>
    rw [closers] at h
    split at h
    · exact ih h
    · rcases List.mem_cons.1 h with rfl | h
      · nofun
      · exact ih h
    · cases h

theorem ne_eof_of_mem_completion (h : t ∈ p.completion) : t.kind ≠ .eof := by
  obtain ⟨stack, phase⟩ := p
  cases phase with
  | behind e => exact ne_eof_of_mem_closers h
  | operand | operandOrEnd | bracket | bracketSemicolon =>
    rcases List.mem_cons.1 h with rfl | h
    · exact Kind.noConfusion
    · exact ne_eof_of_mem_closers h

end Progress

/-! ## Refused tokens -/

namespace Goal

open Progress

variable {goal : Goal} {q : Progress} {l l' : Lookahead} {s : Stream} {e : Expr}
  {error : ParseError}
  {taken rest : List Token}

/-- Where the machine starts with what has to be read as a goal. -/
def start (goal : Goal) (l : Lookahead) : Progress :=
  match goal with
  | .expression => .expression
  | .items => .items l.peek.origin

/-- Whether a goal is given up at the next token: the machine rejects it, or accepts an expression
before it although the input does not end. -/
inductive Refuses : Goal → Progress → Lookahead → ParseError → Prop where
  | reject {goal : Goal} {q : Progress} {l : Lookahead} {error : ParseError} {taken : Bool}
      (step : q.step 0 l.peek = .reject error taken) : Refuses goal q l error
  | behind {q : Progress} {l : Lookahead} {error : ParseError} {e : Expr}
      (step : q.step 0 l.peek = .accept e false) (noEnd : l.endError? = some error) :
      Refuses .expression q l error

theorem endError?_congr (h : l.peek = l'.peek) : l.endError? = l'.endError? := by
  rw [Lookahead.endError?, Lookahead.endError?, Lookahead.peekIs, Lookahead.peekIs, h]

/-- Only the next token matters. -/
theorem Refuses.congr (h : goal.Refuses q l error) (hpeek : l.peek = l'.peek) :
    goal.Refuses q l' error := by
  cases h with
  | reject step => exact .reject (hpeek ▸ step)
  | behind step noEnd =>
    exact .behind (hpeek ▸ step) ((endError?_congr hpeek).symm.trans noEnd)

theorem origin_of_endError? (h : l.endError? = some error) :
    error.code ≠ .unsupportedIndex ∧ error.origin = l.peek.origin := by
  unfold Lookahead.endError? at h
  split at h
  · next f _ =>
    cases h
    exact ⟨by cases f <;> nofun, rfl⟩
  · split at h <;> cases h
    exact ⟨nofun, rfl⟩

/-- The error is about the token that is refused, or about the bracket before it. -/
theorem Refuses.origin (h : goal.Refuses q l error) :
    (error.code ≠ .unsupportedIndex ∧ error.origin = l.peek.origin) ∨
      ∃ item o, q.phase = .bracket item o ∧ error = .unsupportedIndex o := by
  cases h with
  | behind _ noEnd => exact .inl (origin_of_endError? noEnd)
  | reject step =>
    have heffect := step_effect 0 q l.peek
    rw [step] at heffect
    cases heffect with
    | fault f => exact .inl ⟨by cases f <;> nofun, rfl⟩
    | unexpected => exact .inl ⟨nofun, rfl⟩
    | index phase => exact .inr ⟨_, _, phase, rfl⟩

theorem start_ne_bracket (goal : Goal) (l : Lookahead) (item : Expr) (o : Origin) :
    (goal.start l).phase ≠ .bracket item o := by
  cases goal <;> nofun

theorem read_start (goal : Goal) (l : Lookahead) : (goal.start l).Read goal 0 [] := by
  cases goal with
  | expression => exact read_expression
  | items => exact read_items _

theorem start_congr (goal : Goal) (h : l.peek = l'.peek) : goal.start l = goal.start l' := by
  cases goal <;> simp [start, h]

theorem completion_start (goal : Goal) (l l' : Lookahead) :
    (goal.start l).completion = (goal.start l').completion := by
  cases goal <;> rfl

/-- Behind an expression that is accepted the input has to end. -/
theorem result_wholeExpression (hr : (l.expression 0).result = .ok e)
    (hu : (l.expression 0).unread = rest) :
    l.wholeExpression.result = (⟨rest, l.finish⟩ : Lookahead).endError?.elim (.ok e) .error := by
  simp only [Lookahead.wholeExpression, hr, hu]
  split <;> next hend => rw [hend]; rfl

theorem result_of_accept (hs : s.tokens = taken ++ rest)
    (hq : Shifts 0 (start .expression (.ofStream s)) taken q)
    (hstep : q.step 0 (⟨rest, s.finish⟩ : Lookahead).peek = .accept e false) :
    (expression.parse s).result =
      (⟨rest, s.finish⟩ : Lookahead).endError?.elim (.ok e) .error := by
  obtain ⟨hresult, hunread⟩ := hq.run_eq s.finish rest
  obtain ⟨hok, hleft⟩ := run_of_accept hstep
  rw [← hs] at hresult hunread
  exact result_wholeExpression (hresult.trans hok) (hunread.trans (hleft rfl))

theorem result_of_reject {left : Bool} (hs : s.tokens = taken ++ rest)
    (hq : Shifts 0 (goal.start (.ofStream s)) taken q)
    (hstep : q.step 0 (⟨rest, s.finish⟩ : Lookahead).peek = .reject error left) :
    (goal.parse s).result = .error error := by
  obtain ⟨hresult, -⟩ := hq.run_eq s.finish rest
  have herror := hresult.trans (run_of_reject hstep)
  rw [← hs] at herror
  cases goal with
  | items => exact herror
  | expression =>
    replace herror : ((Lookahead.ofStream s).expression 0).result = .error error := herror
    simp [parse, Lookahead.wholeExpression, herror]

/-- A refused token makes the parse fail. -/
theorem result_of_refuses (hs : s.tokens = taken ++ rest)
    (hq : Shifts 0 (goal.start (.ofStream s)) taken q) (h : goal.Refuses q ⟨rest, s.finish⟩ error) :
    (goal.parse s).result = .error error := by
  cases h with
  | reject step => exact result_of_reject hs hq step
  | behind step noEnd => rw [result_of_accept hs hq step, noEnd]; rfl

/-- A parse that fails has come to a token that is refused. -/
theorem exists_refuses (h : (goal.parse s).result = .error error) :
    ∃ taken rest q, s.tokens = taken ++ rest ∧ Shifts 0 (goal.start (.ofStream s)) taken q ∧
      goal.Refuses q ⟨rest, s.finish⟩ error := by
  obtain ⟨taken, rest, q, hs, hq, hstop⟩ :=
    exists_stop 0 s.finish (goal.start (.ofStream s)) s.tokens
  suffices hsome : ∃ error', goal.Refuses q ⟨rest, s.finish⟩ error' by
    obtain ⟨error', hrefuses⟩ := hsome
    obtain rfl := Except.error.inj (h.symm.trans (result_of_refuses hs hq hrefuses))
    exact ⟨taken, rest, q, hs, hq, hrefuses⟩
  have hkeeps := keeps_step (t := (⟨rest, s.finish⟩ : Lookahead).peek)
    (hq.read (goal.read_start _))
  cases hstep : q.step 0 (⟨rest, s.finish⟩ : Lookahead).peek with
  | shift next => exact absurd hstep (hstop next)
  | reject error' => exact ⟨error', .reject hstep⟩
  | accept e left =>
    rw [hstep] at hkeeps
    obtain ⟨-, -, ⟨rfl, rfl⟩ | ⟨rfl, -⟩⟩ := hkeeps
    · cases hend : (⟨rest, s.finish⟩ : Lookahead).endError? with
      | some error' => exact ⟨error', .behind hstep hend⟩
      | none =>
        rw [result_of_accept hs hq hstep, hend] at h
        cases h
    · -- the items of a file end with the input
      have hok := (hq.run_eq s.finish rest).1.trans (run_of_accept hstep).1
      rw [← hs] at hok
      cases h.symm.trans hok

/-- A parse that takes everything and accepts it succeeds. -/
theorem result_of_accepts (h : Accepts 0 s.finish (goal.start (.ofStream s)) s.tokens) :
    ∃ e, (goal.parse s).result = .ok e := by
  obtain ⟨⟨e, hok⟩, hunread⟩ := h
  cases goal with
  | items => exact ⟨e, hok⟩
  | expression => exact ⟨e, result_wholeExpression (l := .ofStream s) hok hunread⟩

/-- What a parse has taken is the start of an input that is accepted. -/
theorem exists_accepted {s' : Stream} (hs : s.tokens = taken ++ rest)
    (hq : Shifts 0 (goal.start (.ofStream s)) taken q) (hs' : s'.tokens = taken ++ q.completion) :
    ∃ e, (goal.parse s').result = .ok e := by
  apply result_of_accepts
  rw [hs']
  cases taken with
  | nil =>
    -- the items of another input start at another place
    obtain rfl : goal.start (.ofStream s) = q := hq
    rw [List.nil_append, goal.completion_start _ (.ofStream s')]
    exact accepts_completion ..
  | cons t taken =>
    have hpeek : (Lookahead.ofStream s).peek = (Lookahead.ofStream s').peek := by
      simp [Lookahead.ofStream, hs, hs']
    rw [← start_congr goal hpeek]
    exact (accepts_completion ..).append hq

/-! ## Errors -/

/-- Whether an error of a stream is reported at a token, and no earlier token could show it. -/
structure EarliestAt (goal : Goal) (s : Stream) (error : ParseError) (k : Nat) : Prop where
  /-- The end of the input counts as a token. -/
  le_length : k ≤ s.tokens.length
  /-- The error is about the token or, where an index was begun, about the bracket before it. -/
  origin : (error.code ≠ .unsupportedIndex ∧ error.origin = (s.nth k).origin) ∨
    (error.code = .unsupportedIndex ∧ ∃ j, k = j + 1 ∧ (s.nth j).kind = .mark .leftBracket ∧
      error.origin = (s.nth j).origin)
  /-- Whatever follows the token, the error is the same. -/
  settled : ∀ s' : Stream, (∀ i ≤ k, s'.nth i = s.nth i) → (goal.parse s').result = .error error
  /-- What stands before the token is the start of an input that is accepted. -/
  completable : ∃ more : List Token, (∀ t ∈ more, t.kind ≠ .eof) ∧
    ∀ file, ∃ e, (goal.parse (.ofTokens file (s.tokens.take k ++ more))).result = .ok e

/-- Every parse that fails reports its error as early as it can be. -/
theorem earliest_error (goal : Goal) (s : Stream) (error : ParseError)
    (h : (goal.parse s).result = .error error) : ∃ k, goal.EarliestAt s error k := by
  obtain ⟨taken, rest, q, hs, hq, hrefuses⟩ := exists_refuses h
  have hpeek := Stream.nth_eq_peek hs
  have hnth : ∀ i < taken.length, taken[i]? = some (s.nth i) := fun i hi => by
    simp [Stream.nth, hs, List.getElem?_append_left hi, List.getElem?_eq_getElem hi]
  refine ⟨taken.length, by simp [hs], ?_, fun s' hs' => ?_, ?_⟩
  · rw [hpeek]
    rcases hrefuses.origin with horigin | ⟨item, o, hphase, rfl⟩
    · exact .inl horigin
    · obtain ⟨before, t, rfl, hk, rfl⟩ := hq.bracket (goal.start_ne_bracket _) hphase
      have ht : t = s.nth before.length := by
        simpa using hnth before.length (by simp)
      exact .inr ⟨rfl, before.length, by simp, ht ▸ hk, by rw [← ht]; rfl⟩
  · obtain ⟨rest', hrest'⟩ := hq.exists_rest s'.tokens s'.finish
      fun i hi => (hnth i hi).trans (congrArg some (hs' i (Nat.le_of_lt hi)).symm)
    have hpeek' := (Stream.nth_eq_peek hrest').symm.trans ((hs' _ (Nat.le_refl _)).trans hpeek)
    have hfirst : (Lookahead.ofStream s).peek = (Lookahead.ofStream s').peek := by
      rw [← Stream.nth_zero, ← Stream.nth_zero, hs' 0 (Nat.zero_le _)]
    rw [start_congr goal hfirst] at hq
    exact result_of_refuses hrest' hq (hrefuses.congr hpeek'.symm)
  · exact ⟨q.completion, fun t ht => ne_eof_of_mem_completion ht, fun file =>
      exists_accepted hs hq (by simp [hs])⟩

/-- In `x[y]` it is `y` at which the index shows, and the bracket that is reported. -/
theorem earliest_error_index :
    let token (k : Kind) (text : String) (column : UInt32) : Token := ⟨k, text, "", 1, column, 1⟩
    let s := Stream.ofTokens "" [token (.atom .identifier) "x" 1, token (.mark .leftBracket) "[" 2,
      token (.atom .identifier) "y" 3, token (.mark .rightBracket) "]" 4]
    let error := ParseError.unsupportedIndex ⟨"", 1, 2, 1⟩
    (Goal.expression.parse s).result = .error error ∧ Goal.expression.EarliestAt s error 2 := by
  intro token s error
  have h : (Goal.expression.parse s).result = .error error := rfl
  obtain ⟨k, hk⟩ := earliest_error .expression s error h
  have hbracket : ∀ j < 4, (s.nth j).kind = .mark .leftBracket → j = 1 := by decide
  rcases hk.origin with ⟨hcode, -⟩ | ⟨-, j, rfl, hj, -⟩
  · exact absurd rfl hcode
  · obtain rfl := hbracket j hk.le_length hj
    exact ⟨h, hk⟩

end Goal

end DocExpr
