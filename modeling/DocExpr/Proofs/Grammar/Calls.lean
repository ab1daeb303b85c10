import DocExpr.Proofs.Grammar.Completeness
import DocExpr.Proofs.Grammar.Descent

/-!
# The machine and the routines

The expression machine reads what the routines of the recursive descent read. While a routine is
run, the machine stands at a point (`Stands`): a frame of its stack is what an open call has still
to do. What a routine does there, the machine does too (`Stands.agrees`), so that a call that
returns an expression leaves the machine where its caller goes on (`Routine.Returns.outcome_eq`).

So what is known of the calls is known of the machine (`Lookahead.readings_end`): whatever is left
to be taken, the reading of an expression, of an array, of items in parentheses and of a whole file
ends, with no more calls for expressions open at a time than there are tokens before the end of the
input, and one.
-/

namespace DocExpr

variable {least d : Nat} {stack : List Frame} {l left : Lookahead} {e : Expr}
  {result : Except ParseError Expr}

/-! ## What the machine answers -/

/-- What the machine answers from a point on, and what it leaves. -/
def Progress.outcome (least : Nat) (p : Progress) (l : Lookahead) :
    Except ParseError Expr × Lookahead :=
  let r := p.run least l.finish l.unread
  (r.result, { l with unread := r.unread })

/-- What the machine answers when this comes of the next token. -/
def Step.outcome (least : Nat) (l : Lookahead) : Step → Except ParseError Expr × Lookahead
  | .shift next => next.outcome least l.read.2
  | .accept e taken => (.ok e, if taken then l.read.2 else l)
  | .reject error taken => (.error error, if taken then l.read.2 else l)

namespace Progress

theorem outcome_eq (least : Nat) (p : Progress) (l : Lookahead) :
    p.outcome least l = (p.step least l.peek).outcome least l := by
  obtain ⟨_ | ⟨t, ts⟩, finish⟩ := l
  · rw [Lookahead.peek_nil]
    cases h : p.step least (.eof finish) with
    | shift next => exact absurd h (not_shift_eof least finish p next)
    | accept e taken | reject error taken =>
      cases taken <;> simp [outcome, run, h, ParseRun.endingAtEof, Step.outcome, Lookahead.read]
  · rw [Lookahead.peek_cons]
    cases h : p.step least t with
    | shift next => simp [outcome, run, h, ParseRun.cons, Step.outcome, Lookahead.read]
    | accept e taken | reject error taken =>
      cases taken <;> simp [outcome, run, h, ParseRun.ending, Step.outcome, Lookahead.read]

/-- A token that is a fault is what the machine answers, wherever it is. -/
theorem outcome_of_fault {fault : Fault} (p : Progress) (h : l.peek.kind.fault? = some fault) :
    p.outcome least l = (.error (.lexical fault.code l.peek), l) := by
  rw [outcome_eq]
  simp [step, h, Step.outcome]

end Progress

/-! ## Where an expression stops -/

/-- Whether the next token continues no expression whose continuations have at least a given
power. -/
structure Lookahead.Stops (least : Nat) (l : Lookahead) : Prop where
  sound : l.peek.kind.fault? = none
  stays : ∀ e stack, continue? least l.peek e stack = none

/-- The least power of what a routine takes behind an expression. -/
def Routine.least? : Routine → Option Nat
  | expression least | operators least _ => some least
  | _ => none

namespace Routine

/-- What a routine can do that takes what continues an expression. -/
inductive Continues (least : Nat) (l : Lookahead) : Action → Prop where
  | fail {error : ParseError} : Continues least l (.stop (.error error) l)
  | stop {e : Expr} (h : l.Stops least) : Continues least l (.stop (.ok e) l)
  | call {inner : Routine} {l' : Lookahead} {next : Expr → Routine}
      (h : ∀ e, (next e).least? = some least) :
      Continues least l (.call inner l' next)

theorem continues_operators (least : Nat) (lhs : Expr) (l : Lookahead) :
    Continues least l ((operators least lhs).body l) := by
  rw [body, Lookahead.looking]
  split
  · exact .fail
  · next hsound =>
    split
    · next form hform =>
      split
      · exact .call fun _ => rfl
      · next hless => exact .stop ⟨hsound, fun _ _ => by simp [continue?, hform, hless]⟩
    · next hform =>
      split
      · next op hop =>
        split
        · exact .call fun _ => rfl
        · next hless => exact .stop ⟨hsound, fun _ _ => by simp [continue?, hform, hop, hless]⟩
      · next hop => exact .stop ⟨hsound, fun _ _ => by simp [continue?, hform, hop]⟩

theorem continues_of_body {r : Routine} {act : Action} (hr : r.least? = some least)
    (h : r.body l = act) :
    Continues least l act := by
  subst h
  cases r <;> cases hr
  case expression => exact .call fun _ => rfl
  case operators lhs => exact continues_operators least lhs l

/-- An expression is read up to a token that does not continue it. -/
theorem Returns.stops {r : Routine} (h : r.Returns d l (.ok e) left) (hr : r.least? = some least) :
    left.Stops least := by
  generalize hresult : Except.ok e = result at h
  induction h generalizing e with
  | stop _ h =>
    subst hresult
    cases continues_of_body hr h with
    | stop hstops => exact hstops
  | become _ h => cases continues_of_body hr h
  | fail => cases hresult
  | next _ h _ _ _ ih =>
    cases continues_of_body hr h with
    | call hnext => exact ih (hnext _) hresult

end Routine

namespace Progress

/-- The operators above a stack are completed where the expression behind them stops. -/
theorem outcome_complete {frame : Frame} (hf : frame.closer? = none) (h : l.Stops frame.level) :
    outcome least ⟨frame :: stack, .behind e⟩ l =
      outcome least ⟨stack, .behind (frame.close e)⟩ l := by
  rw [outcome_eq, outcome_eq, step_behind h.sound, step_behind h.sound, resume, h.stays]
  simp only [hf]

/-- A frame that a token ends is not completed before it. -/
theorem resume_of_stops {frame : Frame} {closer : Kind} (hf : frame.closer? = some closer)
    (h : l.Stops frame.level) :
    resume least l.peek e (frame :: stack) =
      if l.peek.kind = closer then frame.ended (frame.close e) stack
      else if l.peek.kind = .mark .comma then
        (frame.afterComma? e stack).elim (.reject (.expected [closer] l.peek) false) .shift
      else .reject (.expected [closer] l.peek) false := by
  rw [resume, h.stays]
  simp only [hf]
  cases frame.afterComma? e stack <;> rfl

/-- Where the end of a frame could stand, but does not, an expression starts. -/
theorem outcome_operandOrEnd {frame : Frame} (h : frame.closer? ≠ some l.peek.kind) :
    outcome least ⟨frame :: stack, .operandOrEnd⟩ l =
      outcome least ⟨frame :: stack, .operand⟩ l := by
  rw [outcome_eq, outcome_eq]
  unfold step
  simp [beginOrEnd, h]

end Progress

/-! ## Where the machine stands -/

open Progress (Collects outcome outcome_eq outcome_complete outcome_operandOrEnd)

/-- What the machine answers behind an expression above a stack. -/
def behind (least : Nat) (stack : List Frame) (e : Expr) (l : Lookahead) :
    Except ParseError Expr × Lookahead := outcome least ⟨stack, .behind e⟩ l

/-- What is answered when a routine has returned, where `goOn` is answered behind an expression. -/
def proceed (goOn : Expr → Lookahead → Except ParseError Expr × Lookahead) :
    Except ParseError Expr → Lookahead → Except ParseError Expr × Lookahead
  | .ok e, left => goOn e left
  | .error error, left => (.error error, left)

/-- Whether frames collect items, and `goOn` is answered behind the group of these. -/
structure Gathers (least : Nat) (frame : List Expr → Frame) (tree : List Expr → Expr)
    (closer : Kind) (origin : Origin) (stack : List Frame)
    (goOn : Expr → Lookahead → Except ParseError Expr × Lookahead) : Prop where
  collects : Collects frame tree closer .operandOrEnd
  goesOn : ∀ es l, ((frame []).ended (tree es) stack).outcome least l =
    goOn (.group es origin) l.read.2

theorem gathers_group (least : Nat) (o : Origin) (stack : List Frame) :
    Gathers least (.group · o) (.group · o) (.mark .rightParenthesis) o stack
      (behind least stack) :=
  ⟨Progress.collects_group o, fun _ _ => rfl⟩

theorem gathers_arguments (least : Nat) (callee : Expr) (o : Origin) (stack : List Frame) :
    Gathers least (.arguments callee · o) (fun es => .call callee (.group es o) o)
      (.mark .rightParenthesis) o
      stack fun arguments l => behind least stack (.call callee arguments o) l :=
  ⟨Progress.collects_arguments callee o, fun _ _ => rfl⟩

theorem gathers_file (least : Nat) (o : Origin) (stack : List Frame) :
    Gathers least (.file · o) (.group · o) .eof o stack fun e l => (.ok e, l) :=
  ⟨Progress.collects_file o, fun _ _ => rfl⟩

/-- Where the machine stands when a routine is run, and what it answers behind the expression that
the routine returns. -/
inductive Stands (least : Nat) :
    Routine → Lookahead → Progress → (Expr → Lookahead → Except ParseError Expr × Lookahead) →
    Prop where
  | expression (stack : List Frame) (l : Lookahead) :
      Stands least (.expression (level least stack)) l ⟨stack, .operand⟩ (behind least stack)
  | operand (stack : List Frame) (l : Lookahead) :
      Stands least .operand l ⟨stack, .operand⟩ (behind least stack)
  | operators (stack : List Frame) (lhs : Expr) (l : Lookahead) :
      Stands least (.operators (level least stack) lhs) l ⟨stack, .behind lhs⟩ (behind least stack)
  | opened (stack : List Frame) (form : Postfixed) (item : Expr) (t : Token) (l : Lookahead) :
      Stands least (.opened form item t.origin) l (openBehind t item stack form)
        (behind least stack)
  | keyed (stack : List Frame) (item key : Expr) (o : Origin) {l : Lookahead} (h : l.Stops 0) :
      Stands least (.keyed item key o) l ⟨.key item o :: stack, .behind key⟩ (behind least stack)
  | array (stack : List Frame) (o : Origin) (l : Lookahead) :
      Stands least (.array o) l ⟨.array [] o :: stack, .operandOrEnd⟩ (behind least stack)
  | elements (stack : List Frame) (done : List Expr) (o : Origin) (l : Lookahead) :
      Stands least (.elements done o) l ⟨.array done o :: stack, .operand⟩ (behind least stack)
  | behindElement (stack : List Frame) (done : List Expr) (e : Expr) (o : Origin) {l : Lookahead}
      (h : l.Stops 0) :
      Stands least (.behindElement (done ++ [e]) o) l ⟨.array done o :: stack, .behind e⟩
        (behind least stack)
  | items {frame : List Expr → Frame} {tree : List Expr → Expr} {closer : Kind} {o : Origin}
      {stack : List Frame} {goOn : Expr → Lookahead → Except ParseError Expr × Lookahead}
      (hF : Gathers least frame tree closer o stack goOn) (done : List Expr) (l : Lookahead) :
      Stands least (.items closer done o) l ⟨frame done :: stack, .operandOrEnd⟩ goOn
  | behindItem {frame : List Expr → Frame} {tree : List Expr → Expr} {closer : Kind} {o : Origin}
      {stack : List Frame} {goOn : Expr → Lookahead → Except ParseError Expr × Lookahead}
      (hF : Gathers least frame tree closer o stack goOn) (done : List Expr) (e : Expr)
      {l : Lookahead}
      (h : l.Stops 0) :
      Stands least (.behindItem closer (done ++ [e]) o) l ⟨frame done :: stack, .behind e⟩ goOn
  | finished (stack : List Frame) (e : Expr) (l : Lookahead) :
      Stands least (.finished e) l ⟨stack, .behind e⟩ (behind least stack)

/-- Whether an answer of the machine is what comes of an action. -/
def Action.Agrees (least : Nat) (goOn : Expr → Lookahead → Except ParseError Expr × Lookahead)
    (answer : Except ParseError Expr × Lookahead) : Action → Prop
  | .stop result left => answer = proceed goOn result left
  | .become r l => ∃ p, Stands least r l p goOn ∧ answer = outcome least p l
  | .call inner l next => ∃ p goOn', Stands least inner l p goOn' ∧ answer = outcome least p l ∧
      ∀ d e between, inner.Returns d l (.ok e) between →
        ∃ p', Stands least (next e) between p' goOn ∧ goOn' e between = outcome least p' between

section agrees

variable {p : Progress} {goOn : Expr → Lookahead → Except ParseError Expr × Lookahead}
  {frame : List Expr → Frame} {tree : List Expr → Expr} {closer : Kind} {o : Origin}

theorem agrees_looking {act : Token → Action}
    (h : l.peek.kind.fault? = none → (act l.peek).Agrees least goOn (outcome least p l)) :
    (l.looking act).Agrees least goOn (outcome least p l) := by
  unfold Lookahead.looking
  split
  · next fault hfault => exact Progress.outcome_of_fault p hfault
  · next hsound => exact h hsound

/-- A token that has to stand here is taken by the machine, which goes on then, or is an error of
both. -/
theorem agrees_closing (hends : l.peek.kind = closer → outcome least p l = goOn e l.read.2)
    (hfails : l.peek.kind.fault? = none → l.peek.kind ≠ closer →
      p.step least l.peek = .reject (.expected [closer] l.peek) false) :
    (l.closing closer e).Agrees least goOn (outcome least p l) := by
  refine agrees_looking fun hsound => ?_
  split
  · next hk => exact hends hk
  · next hk => exact (outcome_eq least p l).trans (by rw [hfails hsound hk]; rfl)

/-- An expression is called for at a stack that lets everything continue it. -/
theorem agrees_call {top : Frame} {next : Expr → Routine}
    {answer : Except ParseError Expr × Lookahead}
    (htop : top.level = 0) (hanswer : answer = outcome least ⟨top :: stack, .operand⟩ l)
    (hnext : ∀ e (between : Lookahead), between.Stops 0 →
      Stands least (next e) between ⟨top :: stack, .behind e⟩ goOn) :
    (Action.call (.expression 0) l next).Agrees least goOn answer := by
  have hs : Stands least (.expression (level least (top :: stack))) l ⟨top :: stack, .operand⟩
      (behind least (top :: stack)) := .expression (top :: stack) l
  rw [level, htop] at hs
  exact ⟨_, _, hs, hanswer, fun d e between h => ⟨_, hnext e between (h.stops rfl), rfl⟩⟩

theorem agrees_operand (stack : List Frame) (l : Lookahead) :
    (Routine.operand.body l).Agrees least (behind least stack)
    (outcome least ⟨stack, .operand⟩ l) := by
  rw [Routine.body]
  refine agrees_looking fun hsound => ?_
  have hstep : outcome least ⟨stack, .operand⟩ l = (beginWith l.peek stack).outcome least l := by
    rw [outcome_eq]
    simp [Progress.step, hsound]
  rw [hstep, beginWith]
  cases l.peek.kind.unary? with
  | some op =>
    -- the operator is completed where its operand stops
    exact ⟨_, _, .expression (.unary op l.peek.origin :: stack) l.read.2, rfl, fun d e between h =>
      ⟨_, .finished stack _ between, outcome_complete rfl (h.stops rfl)⟩⟩
  | none =>
    generalize l.peek.kind = k
    cases k with
    | mark m =>
      cases m with
      | leftBracket => exact ⟨_, .array stack _ _, rfl⟩
      | leftParenthesis => exact ⟨_, .items (gathers_group least _ stack) [] _, rfl⟩
      | _ => rfl
    | _ => rfl

theorem agrees_operators (stack : List Frame) (lhs : Expr) (l : Lookahead) :
    ((Routine.operators (level least stack) lhs).body l).Agrees least (behind least stack)
      (outcome least ⟨stack, .behind lhs⟩ l) := by
  rw [Routine.body]
  refine agrees_looking fun hsound => ?_
  have continues {next : Progress}
      (h : continue? (level least stack) l.peek lhs stack = some next) :
      outcome least ⟨stack, .behind lhs⟩ l = outcome least next l.read.2 := by
    rw [outcome_eq, Progress.step_behind hsound, Progress.resume_of_continue? h]
    rfl
  split
  · next form hform =>
    split
    · next hle =>
      exact ⟨_, _, .opened stack form lhs l.peek l.read.2,
        continues (by simp [continue?, hform, hle]),
        fun d e between _ => ⟨_, .operators stack e between, rfl⟩⟩
    · rfl
  · next hform =>
    split
    · next op hop =>
      split
      · next hle =>
        -- the operator is completed where its second operand stops
        exact ⟨_, _, .expression (.chain lhs op l.peek.origin :: stack) l.read.2,
          continues (by simp [continue?, hform, hop, hle]), fun d e between h =>
            ⟨_, .operators stack _ between, outcome_complete rfl (h.stops rfl)⟩⟩
      · rfl
    · rfl

theorem agrees_opened (stack : List Frame) (form : Postfixed) (item : Expr) (t : Token)
    (l : Lookahead) :
    ((Routine.opened form item t.origin).body l).Agrees least (behind least stack)
      (outcome least (openBehind t item stack form) l) := by
  cases form with
  | brace =>
    rw [Routine.body]
    refine agrees_looking fun hsound => ?_
    rw [openBehind]
    split
    · next hk =>
      refine (outcome_eq ..).trans ?_
      simp [Progress.step, hk, Kind.fault?, beginOrEnd, Frame.closer?, Frame.closeEmpty?,
        Frame.ended, Step.outcome, proceed, behind]
    · next hk =>
      exact agrees_call rfl (outcome_operandOrEnd (by simpa [Frame.closer?] using Ne.symm hk))
        fun e between h => .keyed stack item e _ h
  | bracket =>
    rw [Routine.body]
    refine agrees_looking fun hsound => ?_
    rw [openBehind]
    split
    · next hk =>
      have hstep : outcome least ⟨stack, .bracket item t.origin⟩ l =
          outcome least ⟨stack, .bracketSemicolon item t.origin⟩ l.read.2 := by
        rw [outcome_eq]
        simp [Progress.step, hk, Kind.fault?, Step.outcome]
      rw [hstep]
      refine agrees_closing (fun hk' => ?_) fun hsound' hk' => ?_
      · rw [outcome_eq]
        simp [Progress.step, hk', Kind.fault?, Step.outcome, behind]
      · simp [Progress.step, hsound', hk']
    · next hk =>
      rw [outcome_eq]
      split
      · next hk' =>
          simp [Action.Agrees, Progress.step, hk', Kind.fault?, Step.outcome, proceed, behind]
      · next hk' => simp [Action.Agrees, Progress.step, hsound, hk, hk', Step.outcome, proceed]
  | call =>
    exact ⟨_, _, .items (gathers_arguments least item t.origin stack) [] l, rfl,
      fun d e between _ => ⟨_, .finished stack _ between, rfl⟩⟩
  | optional => rfl

theorem agrees_keyed (stack : List Frame) (item key : Expr) (o : Origin) (h : l.Stops 0) :
    ((Routine.keyed item key o).body l).Agrees least (behind least stack)
      (outcome least ⟨.key item o :: stack, .behind key⟩ l) := by
  have hstep : Progress.step least ⟨.key item o :: stack, .behind key⟩ l.peek = _ :=
    (Progress.step_behind h.sound).trans (Progress.resume_of_stops rfl h)
  refine agrees_closing (fun hk => ?_) fun _ hk => ?_
  · rw [outcome_eq, hstep, if_pos hk]
    rfl
  · rw [hstep, if_neg hk]
    simp [Frame.afterComma?]

theorem agrees_array (stack : List Frame) (o : Origin) (l : Lookahead) :
    ((Routine.array o).body l).Agrees least (behind least stack)
      (outcome least ⟨.array [] o :: stack, .operandOrEnd⟩ l) := by
  rw [Routine.body]
  refine agrees_looking fun hsound => ?_
  split
  · next hk =>
    refine (outcome_eq ..).trans ?_
    rw [(Progress.collects_array o).step_closer_empty hk]
    rfl
  · next hk =>
    exact ⟨_, .elements stack [] o l,
      outcome_operandOrEnd (by simpa [Frame.closer?] using Ne.symm hk)⟩

theorem agrees_behindElement (stack : List Frame) (done : List Expr) (e : Expr) (o : Origin)
    (h : l.Stops 0) :
    ((Routine.behindElement (done ++ [e]) o).body l).Agrees least (behind least stack)
      (outcome least ⟨.array done o :: stack, .behind e⟩ l) := by
  have hstep : Progress.step least ⟨.array done o :: stack, .behind e⟩ l.peek = _ :=
    (Progress.step_behind h.sound).trans (Progress.resume_of_stops rfl h)
  rw [Routine.body]
  refine agrees_looking fun hsound => ?_
  split
  · next hcomma =>
    refine ⟨_, .elements stack (done ++ [e]) o l.read.2, ?_⟩
    rw [outcome_eq, hstep]
    simp [hcomma, Frame.afterComma?, Step.outcome]
  · next hcomma =>
    refine agrees_closing (fun hk => ?_) fun _ hk => ?_
    · rw [outcome_eq, hstep, if_pos hk]
      rfl
    · rw [hstep, if_neg hk, if_neg hcomma]

theorem agrees_items (hF : Gathers least frame tree closer o stack goOn) (done : List Expr)
    (l : Lookahead) :
    ((Routine.items closer done o).body l).Agrees least goOn
      (outcome least ⟨frame done :: stack, .operandOrEnd⟩ l) := by
  rw [Routine.body]
  refine agrees_looking fun hsound => ?_
  split
  · next hk =>
    refine agrees_closing (fun _ => ?_) fun _ hne => absurd hk hne
    rw [outcome_eq, hF.collects.step_closer_empty hk, hF.goesOn]
  · next hk =>
    exact agrees_call (hF.collects.level done)
      (outcome_operandOrEnd (by simpa [hF.collects.closer?] using Ne.symm hk)) fun e between h =>
        .behindItem hF done e h

theorem agrees_behindItem (hF : Gathers least frame tree closer o stack goOn) (done : List Expr)
    (e : Expr) (h : l.Stops 0) :
    ((Routine.behindItem closer (done ++ [e]) o).body l).Agrees least goOn
      (outcome least ⟨frame done :: stack, .behind e⟩ l) := by
  have hstep : Progress.step least ⟨frame done :: stack, .behind e⟩ l.peek = _ :=
    (Progress.step_behind h.sound).trans
      (Progress.resume_of_stops (hF.collects.closer? done) (by rwa [hF.collects.level]))
  rw [Routine.body]
  refine agrees_looking fun hsound => ?_
  split
  · next hcomma =>
    have hclose : l.peek.kind ≠ closer := fun hk => by
      have hcloses := hF.collects.closes
      rw [← hk, hcomma] at hcloses
      cases hcloses
    refine ⟨_, .items hF (done ++ [e]) l.read.2, ?_⟩
    rw [outcome_eq, hstep, if_neg hclose, if_pos hcomma, hF.collects.afterComma?]
    rfl
  · next hcomma =>
    refine agrees_closing (fun hk => ?_) fun _ hk => ?_
    · rw [outcome_eq, hstep, if_pos hk, hF.collects.close, hF.collects.ended, hF.goesOn]
    · rw [hstep, if_neg hk, if_neg hcomma]

/-- What a routine does, the machine does that stands where it is run. -/
theorem Stands.agrees {r : Routine} (h : Stands least r l p goOn) :
    (r.body l).Agrees least goOn (outcome least p l) := by
  cases h with
  | expression stack =>
    exact ⟨_, _, .operand stack l, rfl, fun d e between _ => ⟨_, .operators stack e between, rfl⟩⟩
  | operand stack => exact agrees_operand stack l
  | operators stack lhs => exact agrees_operators stack lhs l
  | opened stack form item t => exact agrees_opened stack form item t l
  | keyed stack item key o h => exact agrees_keyed stack item key o h
  | array stack o => exact agrees_array stack o l
  | elements stack done o =>
    exact agrees_call rfl rfl fun e between h => .behindElement stack done e o h
  | behindElement stack done e o h => exact agrees_behindElement stack done e o h
  | items hF done => exact agrees_items hF done l
  | behindItem hF done e h => exact agrees_behindItem hF done e h
  | finished stack e => rfl

theorem Stands.agrees_of_body {r : Routine} {act : Action} (hs : Stands least r l p goOn)
    (h : r.body l = act) :
    act.Agrees least goOn (outcome least p l) := h ▸ hs.agrees

/-- What a routine returns is what the machine goes on with. -/
theorem Routine.Returns.outcome_eq {r : Routine} (h : r.Returns d l result left)
    (hs : Stands least r l p goOn) : outcome least p l = proceed goOn result left := by
  induction h generalizing p goOn with
  | stop _ h => exact hs.agrees_of_body h
  | become _ h _ ih =>
    obtain ⟨p', hs', heq⟩ := hs.agrees_of_body h
    exact heq.trans (ih hs')
  | fail _ h _ ih =>
    obtain ⟨p', goOn', hs', heq, -⟩ := hs.agrees_of_body h
    have hfails := ih hs'
    exact heq.trans hfails
  | next _ h hinner _ ihinner ihrest =>
    obtain ⟨p', goOn', hs', heq, hnext⟩ := hs.agrees_of_body h
    obtain ⟨p'', hs'', hgo⟩ := hnext _ _ _ hinner
    exact ((heq.trans (ihinner hs')).trans hgo).trans (ihrest hs'')

end agrees

/-! ## Readings end -/

/-- Whether a routine returns, with at most `depth` calls for expressions open at a time, in one way
only, and leaves a part of what was to be taken. `Q` is what is known of the result and what is
left. -/
def Routine.Ends (depth : Nat) (r : Routine) (l : Lookahead)
    (Q : Except ParseError Expr → Lookahead → Prop) :
    Prop :=
  ∃ result left, r.Returns depth l result left ∧
    (∀ d result' left', r.Returns d l result' left' → result' = result ∧ left' = left) ∧
    left.unread <:+ l.unread ∧ Q result left

theorem Routine.ends {r : Routine} {Q : Except ParseError Expr → Lookahead → Prop}
    (hreach : r.reach ≤ 1) (hQ : ∀ d result left, r.Returns d l result left → Q result left) :
    r.Ends (l.ahead + 1) l Q := by
  obtain ⟨result, left, h⟩ := r.exists_returns l
  exact ⟨result, left, h.mono (by omega), fun d result' left' h' => h'.unique h, h.suffix,
    hQ _ _ _ h⟩

namespace Lookahead

/-- The machine stops where an expression ends that nothing is begun around. -/
theorem outcome_behind (h : left.Stops least) : behind least [] e left = (.ok e, left) := by
  rw [behind, outcome_eq, Progress.step_behind h.sound, resume, h.stays]
  rfl

/-- Reading an expression is a call for one: its result and what it leaves are those of the call. -/
theorem expression_eq (h : (Routine.expression least).Returns d l result left) :
    (l.expression least).result = result ∧ (l.expression least).unread = left.unread := by
  have houtcome := h.outcome_eq (.expression [] l)
  have hanswer : proceed (behind least []) result left = (result, left) := by
    cases result with
    | ok e => exact outcome_behind (h.stops rfl)
    | error error => rfl
  rw [hanswer] at houtcome
  exact ⟨congrArg Prod.fst houtcome, congrArg (·.2.unread) houtcome⟩

/-- Reading the items of a file is the routine for items up to the end of the input. -/
theorem items_eq (h : (Routine.items .eof [] l.peek.origin).Returns d l result left) :
    l.items.result = result ∧ l.items.unread = left.unread := by
  have houtcome := h.outcome_eq (.items (gathers_file 0 l.peek.origin []) [] l)
  have hanswer : proceed (fun e l => (.ok e, l)) result left = (result, left) := by
    cases result <;> rfl
  rw [hanswer] at houtcome
  exact ⟨congrArg Prod.fst houtcome, congrArg (·.2.unread) houtcome⟩

/-- Whatever is still to be taken, the routines that read an expression of any least power, an array
and items return, with at most one open call for an expression more than there are tokens before the
next end of input, and leave a part of what was to be taken. They are what the machine does: for an
expression and for a file, and wherever it begins an expression, or is behind a bracket or a
parenthesis, whatever is on its stack. An expression that is read takes a token, and no end of
input. -/
theorem readings_end (l : Lookahead) :
    (∀ least, (Routine.expression least).Ends (l.ahead + 1) l fun result left =>
      (l.expression least).result = result ∧ (l.expression least).unread = left.unread ∧
        (∀ e, result = .ok e → l.Advances 1 left) ∧
        ∀ whole stack, level whole stack = least →
          outcome whole ⟨stack, .operand⟩ l = proceed (behind whole stack) result left) ∧
    (∀ o least stack, (Routine.array o).Ends (l.ahead + 1) l fun result left =>
      outcome least ⟨.array [] o :: stack, .operandOrEnd⟩ l =
        proceed (behind least stack) result left) ∧
    (∀ o least stack, (Routine.items (.mark .rightParenthesis) [] o).Ends (l.ahead + 1) l
      fun result left => outcome least ⟨.group [] o :: stack, .operandOrEnd⟩ l =
          proceed (behind least stack) result left ∧
        ∀ callee, outcome least ⟨.arguments callee [] o :: stack, .operandOrEnd⟩ l =
          proceed (fun arguments => behind least stack (.call callee arguments o)) result left) ∧
    (Routine.items .eof [] l.peek.origin).Ends (l.ahead + 1) l fun result left =>
      l.items.result = result ∧ l.items.unread = left.unread := by
  refine ⟨fun least => ?_, fun o least stack => ?_, fun o least stack => ?_, ?_⟩
  · refine Routine.ends (Nat.le_refl 1) fun d result left h => ?_
    obtain ⟨hresult, hunread⟩ := expression_eq h
    refine ⟨hresult, hunread, fun e he => (he ▸ h).advances trivial, ?_⟩
    rintro whole stack rfl
    exact h.outcome_eq (.expression stack l)
  · exact Routine.ends (Nat.le_refl 1) fun d result left h => h.outcome_eq (.array stack o l)
  · refine Routine.ends (Nat.le_refl 1) fun d result left h => ⟨?_, fun callee => ?_⟩
    · exact h.outcome_eq (.items (gathers_group least o stack) [] l)
    · exact h.outcome_eq (.items (gathers_arguments least callee o stack) [] l)
  · exact Routine.ends (Nat.le_refl 1) fun d result left h => items_eq h

end Lookahead

end DocExpr
