import DocExpr.Proofs.Grammar.Earliest
import DocExpr.Proofs.Grammar.Places
import DocExpr.Proofs.Lexing.LineEnds
import DocExpr.Proofs.Stream.Layers

/-!
# Line ends do not matter to a parse

A text with all its line ends unified is the same stream, or the same up to a literal that is torn
off (`Stream.ofText_unifyLineEnds`). Layers take no notice of what they have not come to yet, so
streams that part at a literal still part there behind all layers (`Stream.parts_throughAll`). And a
parse that comes to where they part is at a fault (`Goal.parse_parts`).

So a text and its unified form are the same to the parser, unless the text is rejected at a torn
literal (`Goal.parseAs_unifyLineEnds`).
-/

namespace DocExpr

variable {x t : Token} {ts ts' : List Token} {rs rs' : List Reading}

theorem Parts.append (h : Parts x ts ts') (us : List Token) : Parts x (us ++ ts) (us ++ ts') := by
  induction us with
  | nil => exact h
  | cons u us ih => exact .behind u ih

/-- Where lists part, if not at their first tokens. -/
theorem Parts.of_cons {t' : Token} (h : Parts x (t :: ts) (t' :: ts')) :
    t = x ∧ t'.kind.isValue ∨ t = t' ∧ Parts x ts ts' := by
  cases h with
  | here hy => exact .inl ⟨rfl, hy⟩
  | behind _ h => exact .inr ⟨rfl, h⟩

/-- Lists that part at a name, a literal or a fault are alike in whether they begin with something
else. -/
theorem Parts.head?_any {p : Token → Bool} (hp : ∀ t, t.kind.isValue → p t = false)
    (hx : x.kind.isValue) (h : Parts x ts ts') : ts.head?.any p = ts'.head?.any p := by
  cases h with
  | here hy => simp [hp _ hx, hp _ hy]
  | behind t h => rfl

/-! ## Layers -/

namespace Runs

variable {form : RunForm}

/-- A run without what happened while it was read. -/
def bare (run : Run) : Run := { run with events := [] }

theorem token_close {run run' : Run} (h : bare run = bare run') (next next' : Reading) :
    (run.close form next).token = (run'.close form next').token := by
  obtain ⟨o, last, text, events⟩ := run
  cases h
  rfl

/-- Runs are merged alike up to where tokens part. -/
theorem parts_merge (hform : form.line.isValue = false) (hx : x.kind.isValue)
    (finish finish' : Reading) (h : Parts x (rs.map Reading.token) (rs'.map Reading.token))
    {run? run'? : Option Run} (hrun : run?.map bare = run'?.map bare) :
    Parts x ((merge form finish run? rs).map Reading.token)
      ((merge form finish' run'? rs').map Reading.token) := by
  have hline : ∀ t : Token, t.kind.isValue → t.kind ≠ form.line := by
    rintro t ht hk
    rw [hk, hform] at ht
    cases ht
  generalize hts : rs.map Reading.token = ts at h
  generalize hts' : rs'.map Reading.token = ts' at h
  induction h generalizing rs rs' run? run'? with
  | here hy =>
    obtain ⟨r, rs, rfl, rfl, -⟩ := List.map_eq_cons_iff.1 hts
    obtain ⟨r', rs', rfl, rfl, -⟩ := List.map_eq_cons_iff.1 hts'
    cases run? with
    | none =>
      obtain rfl : run'? = none := by simpa using hrun.symm
      rw [merge, if_neg (hline _ hx), merge, if_neg (hline _ hy)]
      exact .here hy _ _
    | some run =>
      obtain ⟨run', rfl, hbare⟩ := Option.map_eq_some_iff.1 hrun.symm
      rw [merge, if_neg (hline _ hx), merge, if_neg (hline _ hy), List.map_cons, List.map_cons,
        token_close hbare.symm r r']
      exact .behind _ (.here hy _ _)
  | behind t _ ih =>
    obtain ⟨r, rs, rfl, rfl, hrest⟩ := List.map_eq_cons_iff.1 hts
    obtain ⟨r', rs', rfl, htoken, hrest'⟩ := List.map_eq_cons_iff.1 hts'
    have hstart : ∀ q q' : Reading, q.token = q'.token →
        (some (Run.start q)).map bare = (some (Run.start q')).map bare := by
      intro q q' hq
      simp [bare, Run.start, hq]
    cases run? with
    | none =>
      obtain rfl : run'? = none := by simpa using hrun.symm
      rw [merge, merge, htoken]
      split
      · exact ih (hstart r r' htoken.symm) hrest hrest'
      · rw [List.map_cons, List.map_cons, htoken]
        exact .behind _ (ih rfl hrest hrest')
    | some run =>
      obtain ⟨run', rfl, hbare⟩ := Option.map_eq_some_iff.1 hrun.symm
      have hlast : run'.last = run.last := (congrArg Run.last hbare :)
      have hcontinues : run'.continues r.token = run.continues r.token := by
        rw [Run.continues, Run.continues, hlast]
      have hclose : (run.close form r).token = (run'.close form r').token :=
        token_close hbare.symm r r'
      rw [merge, merge, htoken, hcontinues]
      split
      · split
        · refine ih ?_ hrest hrest'
          obtain ⟨o, last, text, events⟩ := run
          cases hbare
          simp [bare, Run.push, htoken]
        · rw [List.map_cons, List.map_cons, hclose]
          exact .behind _ (ih (hstart (quiet r) (quiet r') htoken.symm) hrest hrest')
      · rw [List.map_cons, List.map_cons, List.map_cons, List.map_cons, hclose]
        have hquiet : (quiet r').token = (quiet r).token := htoken
        rw [hquiet]
        exact .behind _ (.behind _ (ih rfl hrest hrest'))

end Runs

namespace Documentation

/-- Placing looks at nothing of a reading but its token. -/
theorem place_congr {r r' : Reading} (held : Token) (h : r.token = r'.token) :
    (place held r).held = (place held r').held ∧
      (place held r).given.map Reading.token = (place held r').given.map Reading.token := by
  have trailing : ∀ events events' t,
      (placeTrailing held events t).held = (placeTrailing held events' t).held ∧
      (placeTrailing held events t).given.map Reading.token =
        (placeTrailing held events' t).given.map Reading.token := by
    intro events events' t
    unfold placeTrailing
    split
    · simp
    · split <;> simp
  unfold place
  rw [h]
  dsimp only
  split
  · split
    · exact trailing ..
    · simp
  · split
    · exact trailing ..
    · simp

/-- A name, a literal or a fault is given out as it was held back. -/
theorem attach_value (ht : t.kind.isValue) (rs : List Reading) :
    ∃ ts, (attach t rs).map Reading.token = t :: ts := by
  have hseparator : isSeparator t = false := by
    cases hs : isSeparator t with
    | false => rfl
    | true => rcases Bool.or_eq_true_iff.1 hs with hk | hk <;> rw [eq_of_beq hk] at ht <;> cases ht
  have trailing : ∀ events u, ∃ ts, (placeTrailing t events u).given.map Reading.token =
      t :: ts := by
    intro events u
    unfold placeTrailing
    rw [hseparator]
    split
    · contradiction
    · split <;> simp
  cases rs with
  | nil => exact ⟨[], rfl⟩
  | cons r rs =>
    suffices hplace : ∃ ts, (place t r).given.map Reading.token = t :: ts by
      obtain ⟨ts, hts⟩ := hplace
      exact ⟨_, by rw [attach, List.map_append, hts, List.cons_append]⟩
    unfold place
    dsimp only
    split
    · split
      · exact trailing ..
      · simp
    · split
      · exact trailing ..
      · simp

/-- Documentation is attached alike up to where tokens part. -/
theorem parts_attach (hx : x.kind.isValue)
    (h : Parts x (rs.map Reading.token) (rs'.map Reading.token)) (held : Token) :
    Parts x ((attach held rs).map Reading.token) ((attach held rs').map Reading.token) := by
  have hvalue : ∀ (held : Token) (r : Reading), r.token.kind.isValue → ∀ rs,
      (attach held (r :: rs)).map Reading.token =
        held :: (attach r.token rs).map Reading.token := by
    intro held r hr rs
    have hblock : ∀ b, r.token.kind ≠ .block b := by
      rintro b hk
      rw [hk] at hr
      cases hr
    rw [map_token_attach_cons held r rs (hblock _), if_neg (hblock _)]
  generalize hts : rs.map Reading.token = ts at h
  generalize hts' : rs'.map Reading.token = ts' at h
  induction h generalizing rs rs' held with
  | here hy =>
    obtain ⟨r, rs, rfl, rfl, -⟩ := List.map_eq_cons_iff.1 hts
    obtain ⟨r', rs', rfl, rfl, -⟩ := List.map_eq_cons_iff.1 hts'
    obtain ⟨us, hus⟩ := attach_value hx rs
    obtain ⟨us', hus'⟩ := attach_value hy rs'
    rw [hvalue held r hx, hvalue held r' hy, hus, hus']
    exact .behind held (.here hy us us')
  | behind t _ ih =>
    obtain ⟨r, rs, rfl, rfl, hrest⟩ := List.map_eq_cons_iff.1 hts
    obtain ⟨r', rs', rfl, htoken, hrest'⟩ := List.map_eq_cons_iff.1 hts'
    obtain ⟨hheld, hgiven⟩ := place_congr held htoken
    rw [attach, attach, List.map_append, List.map_append, hheld, hgiven]
    exact (ih _ hrest hrest').append _

end Documentation

namespace Stream

open Documentation

variable {s s' : Stream}

/-- Attaching documentation leaves streams parted where they are. -/
theorem parts_attachDocumentation (hx : x.kind.isValue) (h : Parts x s.tokens s'.tokens) :
    Parts x s.attachDocumentation.tokens s'.attachDocumentation.tokens := by
  have hmerge : Parts x ((Runs.merge commentRuns s.lastReading none s.readings).map Reading.token)
      ((Runs.merge commentRuns s'.lastReading none s'.readings).map Reading.token) :=
    Runs.parts_merge rfl hx _ _ h rfl
  have hcomment : (s.readings.head?.any fun r => r.token.kind = .comment) =
      s'.readings.head?.any fun r => r.token.kind = .comment := by
    have hhead := h.head?_any (p := fun t => t.kind = .comment)
      (fun t ht => decide_eq_false fun hk => by rw [hk] at ht; cases ht) hx
    simpa [tokens, Option.any_map, Function.comp_def] using hhead
  rw [tokens, tokens]
  unfold attachDocumentation
  rw [hcomment]
  generalize Runs.merge commentRuns s.lastReading none s.readings = rs at hmerge
  generalize Runs.merge commentRuns s'.lastReading none s'.readings = rs' at hmerge
  cases rs with
  | nil => cases hmerge
  | cons first rest =>
    cases rs' with
    | nil => cases hmerge
    | cons first' rest' =>
      have hfirst := hmerge.of_cons
      dsimp only
      split
      · rw [List.map_append, List.map_append, map_token_inOrder, map_token_inOrder]
        rcases hfirst with ⟨htoken, hy⟩ | ⟨htoken, hrest⟩
        · rw [htoken]
          exact .here hy _ _
        · rw [htoken]
          exact .behind _ (parts_attach hx hrest _)
      · rcases hfirst with ⟨htoken, hy⟩ | ⟨htoken, hrest⟩
        · obtain ⟨us, hus⟩ := attach_value hx rest
          obtain ⟨us', hus'⟩ := attach_value hy rest'
          rw [htoken, hus, hus']
          exact .here hy us us'
        · rw [htoken]
          exact parts_attach hx hrest _

/-- Streams that part at a name, a literal or a fault still part there behind all layers. -/
theorem parts_throughAll (hx : x.kind.isValue) (h : Parts x s.tokens s'.tokens)
    (layers : List Layer) :
    Parts x (s.throughAll layers).tokens (s'.throughAll layers).tokens := by
  induction layers generalizing s s' with
  | nil => exact h
  | cons layer layers ih =>
    cases layer with
    | documentation => exact ih (parts_attachDocumentation hx h)
    | multiline => exact ih (Runs.parts_merge rfl hx s.lastReading s'.lastReading h rfl)

end Stream

/-! ## Parses -/

variable {f : Fault}

/-- A run that comes to where tokens part is at a fault. Any other comes to the same end. -/
theorem Progress.run_parts (hx : x.kind = .fault f) (h : Parts x ts ts') (least : Nat)
    (finish finish' : Origin) (p : Progress) :
    (p.run least finish ts).result = .error (.lexical f.code x) ∨
      (p.run least finish' ts').result = (p.run least finish ts).result ∧
        Parts x (p.run least finish ts).unread (p.run least finish' ts').unread := by
  induction h generalizing p with
  | here =>
    rw [run_of_fault least finish p _ (by rw [hx]; rfl)]
    exact .inl rfl
  | behind t h ih =>
    rw [run, run]
    cases p.step least t with
    | shift next => exact ih next
    | accept e taken =>
      cases taken with
      | true => exact .inr ⟨rfl, h⟩
      | false => exact .inr ⟨rfl, .behind t h⟩
    | reject error taken =>
      cases taken with
      | true => exact .inr ⟨rfl, h⟩
      | false => exact .inr ⟨rfl, .behind t h⟩

/-- Where lists part at their first tokens, or what comes next in both. -/
theorem Parts.first (h : Parts x ts ts') (finish finish' : Origin) :
    (∃ us, ts = x :: us) ∨ (⟨ts, finish⟩ : Lookahead).peek = (⟨ts', finish'⟩ : Lookahead).peek := by
  cases h with
  | here => exact .inl ⟨_, rfl⟩
  | behind t h => exact .inr rfl

/-- A parse of streams that part at a fault is the same, or comes to that fault. -/
theorem Goal.parse_parts (goal : Goal) {s s' : Stream} (hx : x.kind = .fault f)
    (h : Parts x s.tokens s'.tokens) :
    (goal.parse s).result = .error (.lexical f.code x) ∨
    (goal.parse s').result = (goal.parse s).result := by
  have hfault : x.kind.fault? = some f := by rw [hx]; rfl
  have hrun := fun p => Progress.run_parts hx h 0 s.finish s'.finish p
  cases goal with
  | items =>
    have hitems : ∀ s : Stream, (items.parse s).result =
        ((Progress.items (Lookahead.ofStream s).peek.origin).run 0 s.finish s.tokens).result :=
      fun _ => rfl
    rw [hitems, hitems]
    rcases h.first s.finish s'.finish with ⟨us, hus⟩ | hpeek
    · rw [hus, Progress.run_of_fault _ _ _ _ hfault]
      exact .inl rfl
    · have hpeek' : (Lookahead.ofStream s).peek = (Lookahead.ofStream s').peek := hpeek
      rw [← hpeek']
      exact (hrun _).imp id And.left
  | expression =>
    have herror : ∀ {s : Stream} {error : ParseError},
        (Progress.expression.run 0 s.finish s.tokens).result = .error error →
          (expression.parse s).result = .error error := by
      intro s error h
      have hexpression : ((Lookahead.ofStream s).expression 0).result = .error error := h
      simp [parse, Lookahead.wholeExpression, hexpression]
    have hok : ∀ {s : Stream} {e : Expr},
        (Progress.expression.run 0 s.finish s.tokens).result = .ok e →
        (expression.parse s).result =
          (⟨(Progress.expression.run 0 s.finish s.tokens).unread, s.finish⟩ :
            Lookahead).endError?.elim (.ok e) .error :=
      fun h => result_wholeExpression h rfl
    rcases hrun .expression with hlexical | ⟨hresult, hunread⟩
    · exact .inl (herror hlexical)
    cases hs : (Progress.expression.run 0 s.finish s.tokens).result with
    | error error => exact .inr (by rw [herror hs, herror (hresult.trans hs)])
    | ok e =>
      rw [hok hs, hok (hresult.trans hs)]
      -- the input has to end behind the expression
      rcases hunread.first s.finish s'.finish with ⟨us, hus⟩ | hpeek
      · left
        simp [hus, Lookahead.endError?, hfault]
      · rw [endError?_congr hpeek]
        exact .inr rfl

/-! ## Sources -/

/-- A text and the text with its line ends unified give the same tree or the same error at the same
place, or the text is rejected at a quoted literal that a backslash before a line end has torn
off. -/
theorem Goal.parseAs_unifyLineEnds (goal : Goal) (text file : String) :
    parseAs goal (Text.unifyLineEnds text) file = parseAs goal text file ∨
      ∃ f : Fault, ∃ t ∈ (Stream.ofText text file).tokens, t.kind = .fault f ∧
        t.TornIn text.toList ∧
        parseAs goal text file = .error (.lexical f.code t) := by
  rw [parseAs_eq, parseAs_eq, Stream.ofSource, Stream.ofSource]
  rcases Stream.ofText_unifyLineEnds text file with heq | ⟨x, htorn, hparts⟩
  · exact .inl (by rw [heq])
  · obtain ⟨f, hf⟩ : ∃ f, x.kind = .fault f := htorn.kind.elim (⟨_, ·⟩) (⟨_, ·⟩)
    have hlayers := Stream.parts_throughAll (by rw [hf]; rfl) hparts Stream.standardLayers
    exact (goal.parse_parts hf hlayers).symm.imp id fun h => ⟨f, x, hparts.mem, hf, htorn, h⟩

/-- A string over two lines is whole with a line feed behind the backslash, and torn off with a
carriage return and a line feed there. -/
theorem not_sameOutcome_unifyLineEnds :
    let text := "\"a\\\r\nb\""
    ¬SameOutcome (parseItems text "a") (parseItems (Text.unifyLineEnds text) "a") ∧
      ¬SameOutcome (parseExpression text "a") (parseExpression (Text.unifyLineEnds text) "a") := by
  intro text
  have hisOk : ∀ {r r' : Except ParseError Expr}, r.isOk = false → r'.isOk = true →
      ¬SameOutcome r r' := by
    rintro r r' hr hr' (- | -)
    · cases hr
    · cases hr'
  exact ⟨hisOk (by decide +kernel) (by decide +kernel),
    hisOk (by decide +kernel) (by decide +kernel)⟩

end DocExpr
