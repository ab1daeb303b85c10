import DocExpr.Proofs.Grammar.Soundness

/-!
# No parse gets past a fault

What a step of the expression machine can do is said once (`Progress.Effect`,
`Progress.step_effect`): a token that stands for a fault ends the parse and is left where it is, and
every other error is about the token at hand or, where an index was begun, about its bracket.

So a run takes only tokens before the first fault (`Progress.unread_run`), and so do all requests
that are made of the same tokens one after the other, also after errors. Once a fault is next, every
request is answered with it (`Lookahead.answer_of_fault`). `Lookahead.faults_stop_requests` says
both of every sequence of requests.
-/

namespace DocExpr

/-! ## What a step can do -/

namespace Progress

/-- What a step can make of a token. -/
inductive Effect (p : Progress) (t : Token) : Step → Prop where
  /-- Only an opening bracket leads to where an index could begin. -/
  | shift {next : Progress} (sound : t.kind.fault? = none)
      (opened : ∀ item o, next.phase = .bracket item o → t.kind = .mark .leftBracket ∧
        t.origin = o) :
      Effect p t (.shift next)
  | accept (e : Expr) (taken : Bool) (sound : t.kind.fault? = none) : Effect p t (.accept e taken)
  | fault (f : Fault) (fault : t.kind.fault? = some f) :
      Effect p t (.reject (.lexical f.code t) false)
  | unexpected (kinds : List Kind) (taken : Bool) (sound : t.kind.fault? = none) :
      Effect p t (.reject (.expected kinds t) taken)
  | index {item : Expr} {o : Origin} (phase : p.phase = .bracket item o)
      (sound : t.kind.fault? = none) :
      Effect p t (.reject (.unsupportedIndex o) false)

variable {p next : Progress} {t : Token} {e : Expr} {below : List Frame}

theorem effect_beginWith (sound : t.kind.fault? = none) (stack : List Frame) :
    p.Effect t (beginWith t stack) := by
  unfold beginWith
  split
  · exact .shift sound nofun
  · split
    · exact .shift sound nofun
    · exact .shift sound nofun
    · exact .shift sound nofun
    · exact .shift sound nofun
    · exact .unexpected _ _ sound

theorem kind_of_postfixed?_bracket {k : Kind} (h : k.postfixed? = some .bracket) :
    k = .mark .leftBracket := by
  unfold Kind.postfixed? at h
  split at h <;> first | rfl | cases h

theorem opened_of_continue? {level : Nat} {stack : List Frame}
    (h : continue? level t e stack = some next) {item : Expr} {o : Origin}
    (hnext : next.phase = .bracket item o) : t.kind = .mark .leftBracket ∧ t.origin = o := by
  unfold continue? at h
  split at h
  · next form hform =>
    split at h <;> cases h
    cases form <;> cases hnext
    exact ⟨kind_of_postfixed?_bracket hform, rfl⟩
  · split at h
    · split at h <;> cases h
      cases hnext
    · cases h

theorem effect_ended (sound : t.kind.fault? = none) (frame : Frame) (e : Expr)
    (below : List Frame) :
    p.Effect t (frame.ended e below) := by
  cases frame with
  | file => exact .accept e true sound
  | _ => exact .shift sound nofun

theorem opened_of_afterComma? {frame : Frame} (h : frame.afterComma? e below = some next)
    (item : Expr) (o : Origin) : next.phase ≠ .bracket item o := by
  cases frame <;> cases h <;> nofun

theorem effect_resume (least : Nat) (sound : t.kind.fault? = none) (e : Expr) (stack : List Frame) :
    p.Effect t (resume least t e stack) := by
  induction stack generalizing e with
  | nil =>
    rw [resume]
    split
    · next hnext => exact .shift sound fun _ _ => opened_of_continue? hnext
    · exact .accept e false sound
  | cons frame below ih =>
    rw [resume]
    split
    · next hnext => exact .shift sound fun _ _ => opened_of_continue? hnext
    · split
      · exact ih _
      · split
        · exact effect_ended sound ..
        · split
          · split
            · next hnext =>
                exact .shift sound fun item o h => absurd h (opened_of_afterComma? hnext item o)
            · exact .unexpected _ _ sound
          · exact .unexpected _ _ sound

theorem effect_beginOrEnd (sound : t.kind.fault? = none) (stack : List Frame) :
    p.Effect t (beginOrEnd t stack) := by
  cases stack with
  | nil => exact effect_beginWith sound []
  | cons frame below =>
    rw [beginOrEnd]
    split
    · split
      · exact effect_ended sound ..
      · exact effect_beginWith sound _
    · exact effect_beginWith sound _

theorem step_effect (least : Nat) (p : Progress) (t : Token) : p.Effect t (p.step least t) := by
  obtain ⟨stack, phase⟩ := p
  unfold step
  split
  · next f hf => exact .fault f hf
  · next sound =>
    cases phase with
    | operand => exact effect_beginWith sound stack
    | operandOrEnd => exact effect_beginOrEnd sound stack
    | behind e => exact effect_resume least sound e stack
    | bracket item o =>
      dsimp only
      split
      · exact .shift sound nofun
      · split
        · exact .shift sound nofun
        · exact .index rfl sound
    | bracketSemicolon item o =>
      dsimp only
      split
      · exact .shift sound nofun
      · exact .unexpected _ _ sound

end Progress

/-! ## Runs -/

/-- The number of tokens before the first that stands for a fault. -/
def beforeFault (ts : List Token) : Nat := (ts.takeWhile fun t => !t.kind.isFault).length

variable {t : Token} {ts : List Token} {f : Fault}

theorem beforeFault_cons (h : t.kind.fault? = none) (ts : List Token) :
    beforeFault (t :: ts) = beforeFault ts + 1 := by
  simp [beforeFault, Kind.isFault, h]

theorem beforeFault_drop {n : Nat} (h : n ≤ beforeFault ts) :
    n + beforeFault (ts.drop n) = beforeFault ts := by
  induction ts generalizing n with
  | nil => simpa [beforeFault] using h
  | cons t ts ih =>
    cases n with
    | zero => simp
    | succ n =>
      cases ht : t.kind.fault? with
      | none =>
        rw [beforeFault_cons ht] at h ⊢
        rw [List.drop_succ_cons, ← ih (Nat.le_of_succ_le_succ h)]
        omega
      | some f => simp [beforeFault, Kind.isFault, ht] at h

namespace Progress

/-- A run leaves all tokens from the first fault on. -/
theorem unread_run (least : Nat) (finish : Origin) (p : Progress) (ts : List Token) :
    ∃ n ≤ beforeFault ts, (p.run least finish ts).unread = ts.drop n := by
  have taken : ∀ {t : Token} (ts : List Token), t.kind.fault? = none → ∀ result taken,
      ∃ n ≤ beforeFault (t :: ts),
        (ParseRun.ending result t ts taken).unread = (t :: ts).drop n := by
    intro t ts sound result taken
    cases taken with
    | false => exact ⟨0, Nat.zero_le _, rfl⟩
    | true => exact ⟨1, by rw [beforeFault_cons sound]; omega, rfl⟩
  induction ts generalizing p with
  | nil =>
    rw [run]
    split <;> exact ⟨0, Nat.zero_le _, rfl⟩
  | cons t ts ih =>
    have heffect := step_effect least p t
    rw [run]
    split <;> rename_i hstep <;> rw [hstep] at heffect
    · cases heffect with
      | shift sound =>
        obtain ⟨n, hn, hunread⟩ := ih _
        exact ⟨n + 1, by rw [beforeFault_cons sound]; omega, hunread⟩
    · cases heffect with
      | accept _ _ sound => exact taken ts sound ..
    · cases heffect with
      | fault => exact ⟨0, Nat.zero_le _, rfl⟩
      | unexpected _ _ sound => exact taken ts sound ..
      | index _ sound => exact taken ts sound ..

theorem run_of_fault (least : Nat) (finish : Origin) (p : Progress) (ts : List Token)
    (h : t.kind.fault? = some f) :
    p.run least finish (t :: ts) = ⟨.error (.lexical f.code t), [], t :: ts⟩ := by
  simp [run, step, h, ParseRun.ending]

end Progress

/-! ## Requests -/

namespace Lookahead

variable {l : Lookahead}

/-- The tokens that are left when requests have been answered one after the other. -/
def after (l : Lookahead) (rs : List Request) : Lookahead := rs.foldl (fun l r => (l.answer r).2) l

/-- An answer leaves all tokens from the first fault on. -/
theorem unread_answer (l : Lookahead) (r : Request) :
    ∃ n ≤ beforeFault l.unread, (l.answer r).2 = ⟨l.unread.drop n, l.finish⟩ := by
  cases r with
  | expression =>
    obtain ⟨n, hn, hunread⟩ := Progress.unread_run 0 l.finish .expression l.unread
    exact ⟨n, hn, by rw [answer, expression, hunread]⟩
  | items =>
    obtain ⟨n, hn, hunread⟩ := Progress.unread_run 0 l.finish (.items l.peek.origin) l.unread
    exact ⟨n, hn, by rw [answer, items, hunread]⟩
  | ending =>
    rw [answer]
    split
    · exact ⟨0, Nat.zero_le _, rfl⟩
    · next hend =>
      have hpeek := endError?_eq_none.1 hend
      obtain ⟨unread, finish⟩ := l
      cases unread with
      | nil => exact ⟨0, Nat.zero_le _, rfl⟩
      | cons t ts =>
        have sound : t.kind.fault? = none := by rw [← peek_cons t ts finish, hpeek]; rfl
        exact ⟨1, by rw [beforeFault_cons sound]; omega, rfl⟩

/-- Where a fault is next, every answer is that fault, and all tokens are left. -/
theorem answer_of_fault (h : l.peek.kind.fault? = some f) (r : Request) :
    l.answer r = (.error (.lexical f.code l.peek), l) := by
  obtain ⟨_ | ⟨t, ts⟩, finish⟩ := l
  · cases h
  · rw [peek_cons] at h ⊢
    cases r with
    | expression => rw [answer, expression, Progress.run_of_fault _ _ _ _ h]; rfl
    | items => rw [answer, items, Progress.run_of_fault _ _ _ _ h]; rfl
    | ending => simp [answer, endError?, h]

theorem unread_after (l : Lookahead) (rs : List Request) :
    ∃ n ≤ beforeFault l.unread, l.after rs = ⟨l.unread.drop n, l.finish⟩ := by
  induction rs generalizing l with
  | nil => exact ⟨0, Nat.zero_le _, rfl⟩
  | cons r rs ih =>
    obtain ⟨n, hn, hanswer⟩ := l.unread_answer r
    obtain ⟨m, hm, hafter⟩ := ih (l.answer r).2
    rw [hanswer] at hm hafter
    have hdrop := beforeFault_drop hn
    refine ⟨n + m, by simp only at hm; omega, ?_⟩
    rw [after, List.foldl_cons, ← after, hanswer, hafter, List.drop_drop]

theorem answers_of_fault (h : l.peek.kind.fault? = some f) (rs : List Request) :
    l.after rs = l ∧ l.answers rs = rs.map fun _ => .error (.lexical f.code l.peek) := by
  induction rs with
  | nil => exact ⟨rfl, rfl⟩
  | cons r rs ih =>
    rw [after, List.foldl_cons, answers, answer_of_fault h r]
    exact ⟨ih.1, by rw [ih.2]; rfl⟩

/-- Whatever requests have been made, whether they succeeded or not: the next one takes only tokens
before the first fault; and once a fault is next, it is the answer to all further requests, and all
tokens are left. -/
theorem faults_stop_requests (l : Lookahead) (rs : List Request) :
    (∀ r, ∃ n m, n ≤ m ∧ m ≤ beforeFault l.unread ∧ (l.after rs).unread = l.unread.drop n ∧
      ((l.after rs).answer r).2.unread = l.unread.drop m) ∧
    ∀ f, (l.after rs).peek.kind.fault? = some f → ∀ rs', (l.after rs).after rs' = l.after rs ∧
      (l.after rs).answers rs' = rs'.map fun _ => .error (.lexical f.code (l.after rs).peek) := by
  refine ⟨fun r => ?_, fun f hf rs' => answers_of_fault hf rs'⟩
  obtain ⟨n, hn, hafter⟩ := l.unread_after rs
  obtain ⟨m, hm, hanswer⟩ := (l.after rs).unread_answer r
  rw [hafter] at hm hanswer ⊢
  have hdrop := beforeFault_drop hn
  refine ⟨n, n + m, Nat.le_add_right n m, by simp only at hm; omega, rfl, ?_⟩
  rw [hanswer, List.drop_drop]

end Lookahead

end DocExpr
