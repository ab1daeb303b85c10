import DocExpr.Parse.Log
import DocExpr.Proofs.Grammar.Faults
import DocExpr.Proofs.Stream.Layers

/-!
# Failures in logs

A log reports a parse faithfully (`ReportsOnce`) if it ends with one event for the error of a
rejected source, and has no such event for an accepted one. Reading tokens reports nothing of the
kind, in no layer (`Stream.Quiet.through`), and neither does taking them (`quiet_takenEvents`). So
whether a log is faithful depends on its last event alone: it is, except for a file of items whose
first token stands for a fault (`Goal.reportsOnce_logOf_iff`).
-/

namespace DocExpr

/-! ## Reports -/

/-- Whether an event reports an error, with the file and the code. -/
structure Event.Reports (e : Event) (file : String) (error : ParseError) : Prop where
  level : e.level = .debug
  message : e.message = "parse failed"
  fields : e.fields = [("file", file), ("code", error.code.text)]

/-- Whether no event reports a failure. -/
def Quiet (events : List Event) : Prop := ∀ e ∈ events, e.message ≠ "parse failed"

/-- Whether a log reports the outcome of a parse: an error once, at the end, and else nothing. -/
def ReportsOnce (file : String) (log : List Event) : Except ParseError Expr → Prop
  | .ok _ => Quiet log
  | .error error => ∃ before e, log = before ++ [e] ∧ e.Reports file error ∧ Quiet before

section Quiet

variable {e : Event} {events events' : List Event}

theorem quiet_nil : Quiet [] := by simp [Quiet]

theorem quiet_cons : Quiet (e :: events) ↔ e.message ≠ "parse failed" ∧ Quiet events :=
  List.forall_mem_cons

theorem quiet_append : Quiet (events ++ events') ↔ Quiet events ∧ Quiet events' :=
  List.forall_mem_append

end Quiet

theorem reportsOnce_append_failureEvents {before : List Event} (h : Quiet before) (stage : Stage)
    (file : String) (result : Except ParseError Expr) :
    ReportsOnce file (before ++ failureEvents stage file result) result := by
  cases result with
  | ok e => rwa [failureEvents, List.append_nil]
  | error error => exact ⟨before, _, rfl, ⟨rfl, rfl, rfl⟩, h⟩

theorem not_reportsOnce_of_quiet {log : List Event} (h : Quiet log) (file : String)
    (error : ParseError) :
    ¬ReportsOnce file log (.error error) := by
  rintro ⟨before, e, rfl, he, -⟩
  exact (quiet_cons.1 (quiet_append.1 h).2).1 he.message

/-! ## Reading tokens -/

namespace Runs

variable {form : RunForm} {finish : Reading}

theorem quiet_merge (hmerged : ∀ o n, (form.merged o n).message ≠ "parse failed")
    (hfinish : Quiet finish.events) {rs : List Reading} (hrs : ∀ r ∈ rs, Quiet r.events)
    {run? : Option Run} (hrun : ∀ run ∈ run?, Quiet run.events) :
    ∀ r ∈ merge form finish run? rs, Quiet r.events := by
  have hclose : ∀ {run : Run} {next : Reading}, Quiet run.events → Quiet next.events →
      Quiet (run.close form next).events := fun hrun hnext =>
    quiet_append.2 ⟨quiet_append.2 ⟨hrun, hnext⟩, quiet_cons.2 ⟨hmerged _ _, quiet_nil⟩⟩
  induction rs generalizing run? with
  | nil =>
    cases run? with
    | none => simp [merge]
    | some run => simpa [merge] using hclose (hrun run rfl) hfinish
  | cons r rs ih =>
    obtain ⟨hr, hrs⟩ := List.forall_mem_cons.1 hrs
    have hnone : ∀ r ∈ merge form finish none rs, Quiet r.events := ih hrs (by simp)
    have hsome : ∀ run : Run, Quiet run.events →
        ∀ r ∈ merge form finish (some run) rs, Quiet r.events :=
      fun run h => ih hrs (by simpa using h)
    cases run? with
    | none =>
      rw [merge]
      split
      · exact hsome (.start r) hr
      · exact List.forall_mem_cons.2 ⟨hr, hnone⟩
    | some run =>
      have hrun := hrun run rfl
      rw [merge]
      split
      · split
        · exact hsome (run.push r) (quiet_append.2 ⟨hrun, hr⟩)
        · exact List.forall_mem_cons.2 ⟨hclose hrun hr, hsome (.start (quiet r)) quiet_nil⟩
      · exact List.forall_mem_cons.2 ⟨hclose hrun hr, List.forall_mem_cons.2 ⟨quiet_nil, hnone⟩⟩

end Runs

namespace Documentation

theorem quiet_inOrder {events : List Event} (h : Quiet events) (ts : List Token) :
    ∀ r ∈ inOrder events ts, Quiet r.events := by
  induction ts generalizing events with
  | nil => simp [inOrder]
  | cons t ts ih => exact List.forall_mem_cons.2 ⟨h, ih quiet_nil⟩

theorem quiet_placeTrailing {events : List Event} (h : Quiet events) (held t : Token) :
    ∀ r ∈ (placeTrailing held events t).given, Quiet r.events := by
  unfold placeTrailing
  split
  · exact quiet_inOrder (quiet_append.2 ⟨h, quiet_cons.2 ⟨by simp [Event.message], quiet_nil⟩⟩) _
  · split <;> exact quiet_inOrder h _

theorem quiet_place {r : Reading} (h : Quiet r.events) (held : Token) :
    ∀ u ∈ (place held r).given, Quiet u.events := by
  unfold place
  by_cases hleading : r.token.kind = .block .leading
  · simp only [hleading, if_true]
    split
    · exact quiet_placeTrailing
        (quiet_append.2 ⟨h, quiet_cons.2 ⟨by simp [Event.message], quiet_nil⟩⟩) _ _
    · exact quiet_inOrder h _
  · simp only [hleading, if_false]
    split
    · exact quiet_placeTrailing h _ _
    · simpa using h

theorem quiet_attach {rs : List Reading} (h : ∀ r ∈ rs, Quiet r.events) (held : Token) :
    ∀ r ∈ attach held rs, Quiet r.events := by
  induction rs generalizing held with
  | nil => simpa [attach] using quiet_nil
  | cons r rs ih =>
    obtain ⟨hr, hrs⟩ := List.forall_mem_cons.1 h
    rw [attach]
    exact List.forall_mem_append.2 ⟨quiet_place hr held, ih hrs _⟩

end Documentation

namespace Stream

/-- Whether no reading of a stream reports a failure, nor does opening it. -/
structure Quiet (s : Stream) : Prop where
  opened : DocExpr.Quiet s.opened
  readings : ∀ r ∈ s.readings, DocExpr.Quiet r.events

variable {s : Stream}

theorem quiet_scan (file : String) (p : Position) (skip : Nat) (cs : List Char) :
    ∀ r ∈ scan file p skip cs, DocExpr.Quiet r.events := by
  have hreading : ∀ t rest, DocExpr.Quiet (readingOf t rest).events := by
    intro t rest
    refine quiet_cons.2 ⟨?_, quiet_nil⟩
    split <;> simp [Event.message]
  fun_induction scan file p skip cs with
  | case1 => simp
  | case2 _ _ _ _ ih => exact ih
  | case3 _ _ _ _ ih => exact ih
  | case4 _ _ _ _ _ ih => exact List.forall_mem_cons.2 ⟨hreading _ _, ih⟩

theorem quiet_ofText (text file : String) : (ofText text file).Quiet :=
  ⟨quiet_nil, quiet_scan file .start 0 text.toList⟩

theorem Quiet.attachDocumentation (h : s.Quiet) : s.attachDocumentation.Quiet := by
  have hmerge : ∀ r ∈ Runs.merge Documentation.commentRuns s.lastReading none s.readings,
      DocExpr.Quiet r.events :=
    Runs.quiet_merge (by simp [Documentation.commentRuns, Event.message]) quiet_nil
      h.readings (by simp)
  unfold Stream.attachDocumentation
  split
  · exact ⟨h.opened, by simp⟩
  · next first rest hfirst =>
    rw [hfirst] at hmerge
    obtain ⟨hfirst, hrest⟩ := List.forall_mem_cons.1 hmerge
    refine ⟨quiet_append.2 ⟨h.opened, hfirst⟩, ?_⟩
    dsimp only
    split
    · exact List.forall_mem_append.2
        ⟨Documentation.quiet_inOrder quiet_nil _, Documentation.quiet_attach hrest _⟩
    · exact Documentation.quiet_attach hrest _

theorem Quiet.through (h : s.Quiet) (layer : Layer) : (s.through layer).Quiet := by
  cases layer with
  | documentation => exact h.attachDocumentation
  | multiline =>
    exact ⟨h.opened, Runs.quiet_merge (by simp [stringRuns, Event.message]) quiet_nil h.readings
      (by simp)⟩

theorem quiet_ofSource (text file : String) : (ofSource text file).Quiet :=
  ((quiet_ofText text file).through .documentation).through .multiline

end Stream

/-! ## The first token -/

/-- The first token of some readings, if it stands for a fault. -/
def headFault? (rs : List Reading) : Option Token :=
  (rs.map Reading.token).head?.filter fun t => t.kind.isFault

theorem headFault?_cons (r : Reading) (rs : List Reading) :
    headFault? (r :: rs) = if r.token.kind.isFault then some r.token else none := by
  simp [headFault?, Option.filter]

namespace Runs

variable {form : RunForm} {finish : Reading}

/-- What stands first where a run of lines is open is the block that it becomes. -/
theorem headFault?_merge_some (run : Run) (rs : List Reading) :
    headFault? (merge form finish (some run) rs) = none := by
  induction rs generalizing run with
  | nil => rfl
  | cons r rs ih =>
    rw [merge]
    split
    · split
      · exact ih _
      · rfl
    · rfl

theorem headFault?_merge (hline : form.line.isFault = false) (rs : List Reading) :
    headFault? (merge form finish none rs) = headFault? rs := by
  cases rs with
  | nil => rfl
  | cons r rs =>
    rw [merge, headFault?_cons]
    split
    · next hr => rw [headFault?_merge_some, hr, hline]; rfl
    · exact headFault?_cons _ _

end Runs

namespace Documentation

/-- The token that is held back is given out first, or the operator before it if it is a
separator. -/
theorem given_placeTrailing (held : Token) (events : List Event) (t : Token) :
    ∃ u rest, (placeTrailing held events t).given = u :: rest ∧
      (u.token = held ∨ isSeparator held ∧ u.token.kind = .document) := by
  unfold placeTrailing
  split
  · next h => exact ⟨_, _, rfl, .inr ⟨h, rfl⟩⟩
  · split <;> exact ⟨_, _, rfl, .inl rfl⟩

theorem given_place (held : Token) (r : Reading) :
    ∃ u rest, (place held r).given = u :: rest ∧
      (u.token = held ∨ isSeparator held ∧ u.token.kind = .document) := by
  unfold place
  by_cases hleading : r.token.kind = .block .leading
  · simp only [hleading, if_true]
    split
    · exact given_placeTrailing held _ _
    · exact ⟨_, _, rfl, .inl rfl⟩
  · simp only [hleading, if_false]
    split
    · exact given_placeTrailing held _ _
    · exact ⟨_, _, rfl, .inl rfl⟩

theorem isFault_of_isSeparator {t : Token} (h : isSeparator t) : t.kind.isFault = false := by
  rw [isSeparator, Bool.or_eq_true, beq_iff_eq, beq_iff_eq] at h
  rcases h with h | h <;> rw [h] <;> rfl

theorem headFault?_attach (held : Token) (rs : List Reading) :
    headFault? (attach held rs) = if held.kind.isFault then some held else none := by
  cases rs with
  | nil => exact headFault?_cons _ _
  | cons r rs =>
    obtain ⟨u, rest, hgiven, hu⟩ := given_place held r
    rw [attach, hgiven, List.cons_append, headFault?_cons]
    rcases hu with rfl | ⟨hseparator, hdocument⟩
    · rfl
    · rw [hdocument, isFault_of_isSeparator hseparator]
      rfl

end Documentation

namespace Stream

theorem headFault?_attachDocumentation (s : Stream) :
    headFault? s.attachDocumentation.readings = headFault? s.readings := by
  have hmerge : headFault? (Runs.merge Documentation.commentRuns s.lastReading none s.readings) =
      headFault? s.readings := Runs.headFault?_merge rfl _
  rw [← hmerge]
  unfold attachDocumentation
  split
  · next h => rw [h]
  · next first rest h =>
    rw [h, headFault?_cons]
    dsimp only
    split
    -- The first token is given out before anything is held back, if it is a block of comments.
    · exact headFault?_cons _ _
    · exact Documentation.headFault?_attach _ _

/-- A fault comes first behind the layers if it comes first in the text. -/
theorem headFault?_ofSource (text file : String) :
    headFault? (ofSource text file).readings = headFault? (ofText text file).readings :=
  (Runs.headFault?_merge rfl _).trans (headFault?_attachDocumentation _)

end Stream

/-! ## Logs -/

theorem quiet_takenEvents {pulls : List (List Event)} (h : ∀ events ∈ pulls, Quiet events)
    (ts : List Taken) :
    Quiet (takenEvents pulls ts) := by
  induction ts generalizing pulls with
  | nil => exact quiet_nil
  | cons t ts ih =>
    have hhead : Quiet (pulls.headD []) := by
      cases pulls with
      | nil => exact quiet_nil
      | cons events pulls => exact h events (List.mem_cons_self ..)
    have hjoined : Quiet (t.operator?.map fun op => Event.joined op t.token.origin).toList := by
      cases t.operator? <;> simp [Quiet, Event.message]
    rw [takenEvents]
    refine quiet_append.2
      ⟨quiet_append.2 ⟨hhead, quiet_cons.2 ⟨by simp [Event.message], hjoined⟩⟩, ?_⟩
    exact ih fun events hevents => h events (List.mem_of_mem_tail hevents)

theorem isFault_peek_ofStream (s : Stream) :
    (Lookahead.ofStream s).peek.kind.isFault = (headFault? s.readings).isSome := by
  rw [Lookahead.peek, Lookahead.unread_ofStream, Stream.tokens]
  cases s.readings with
  | nil => rfl
  | cons r rs =>
    rw [headFault?_cons]
    cases h : r.token.kind.isFault <;> simp [h]

/-- A log is what happens up to the end of the parse, which is no failure, and then the report of
the failure, which is left out for a file of items whose first token stands for a fault. -/
theorem logOf_eq (goal : Goal) (text file : String) :
    ∃ before stage, Quiet before ∧ logOf goal text file =
      before ++ if goal = .items ∧ (headFault? (Stream.ofText text file).readings).isSome then []
        else failureEvents stage file (parseAs goal text file) := by
  obtain ⟨hopened, hreadings⟩ := Stream.quiet_ofSource text file
  rw [← Stream.headFault?_ofSource, ← isFault_peek_ofStream, parseAs_eq]
  have hpulls : ∀ events ∈ (Stream.ofSource text file).readings.map Reading.events,
      Quiet events := by
    simpa using hreadings
  have hfirst : Quiet (((Stream.ofSource text file).readings.map Reading.events).headD []) := by
    rw [List.headD_eq_head?_getD]
    cases h : ((Stream.ofSource text file).readings.map Reading.events).head? with
    | none => exact quiet_nil
    | some events => exact hpulls events (List.mem_of_mem_head? h)
  have htaken :=
    fun ts => quiet_takenEvents (fun events h => hpulls events (List.mem_of_mem_tail h)) ts
  cases goal with
  | expression =>
    refine ⟨_, .source, ?_, by simp only [reduceCtorEq, false_and, if_false]; rfl⟩
    exact quiet_append.2
      ⟨quiet_append.2 ⟨quiet_cons.2 ⟨by simp [Event.message], hopened⟩, hfirst⟩, htaken _⟩
  | items =>
    refine ⟨_, .parser, ?_, by simp only [true_and]; rfl⟩
    exact quiet_append.2
      ⟨quiet_append.2 ⟨hopened, hfirst⟩, quiet_cons.2 ⟨by simp [Event.message], htaken _⟩⟩

/-- A fault that comes first is the error of a file of items. -/
theorem parseAs_items_of_headFault? {text file : String} {t : Token}
    (h : headFault? (Stream.ofText text file).readings = some t) :
    ∃ f, t.kind = .fault f ∧ parseAs .items text file = .error (.lexical f.code t) := by
  rw [← Stream.headFault?_ofSource] at h
  cases hrs : (Stream.ofSource text file).readings with
  | nil => rw [hrs] at h; cases h
  | cons r rs =>
    rw [hrs, headFault?_cons] at h
    split at h <;> cases h
    next hfault =>
    obtain ⟨f, hf⟩ := Option.isSome_iff_exists.1 hfault
    refine ⟨f, by unfold Kind.fault? at hf; split at hf <;> simp_all, ?_⟩
    rw [parseAs_eq, Goal.parse, Lookahead.items, Lookahead.unread_ofStream, Stream.tokens, hrs,
      List.map_cons, Progress.run_of_fault _ _ _ _ hf]

/-- A parse is reported faithfully, whatever comes of it, unless it reads a file of items whose
first token stands for a fault: then that fault is its error, and nothing reports it. -/
theorem Goal.reportsOnce_logOf_iff (goal : Goal) (text file : String) :
    (ReportsOnce file (logOf goal text file) (parseAs goal text file) ↔
      goal = .expression ∨ headFault? (Stream.ofText text file).readings = none) ∧
    ∀ t ∈ headFault? (Stream.ofText text file).readings, goal = .items →
      (∃ f, t.kind = .fault f ∧ parseAs goal text file = .error (.lexical f.code t)) ∧
        Quiet (logOf goal text file) := by
  obtain ⟨before, stage, hquiet, hlog⟩ := logOf_eq goal text file
  by_cases hcase : goal = .items ∧ (headFault? (Stream.ofText text file).readings).isSome
  · obtain ⟨rfl, hfault⟩ := hcase
    obtain ⟨t, ht⟩ := Option.isSome_iff_exists.1 hfault
    obtain ⟨f, hf, hresult⟩ := parseAs_items_of_headFault? ht
    have hlog : logOf .items text file = before := by simpa [hfault] using hlog
    rw [hlog, hresult, ht]
    refine ⟨iff_of_false (not_reportsOnce_of_quiet hquiet _ _) (by simp), ?_⟩
    rintro _ ⟨⟩ -
    exact ⟨⟨f, hf, rfl⟩, hquiet⟩
  · rw [hlog, if_neg hcase]
    refine ⟨iff_of_true (reportsOnce_append_failureEvents hquiet ..) ?_, fun t ht hgoal => ?_⟩
    · cases goal with
      | expression => exact .inl rfl
      | items => exact .inr (by simpa using hcase)
    · exact absurd ⟨hgoal, by rw [Option.mem_def.1 ht]; rfl⟩ hcase

/-- A percent sign behind a name is reported, and one that comes first is not. -/
theorem Goal.reportsOnce_logOf_percent :
    ReportsOnce "a" (logOf .items "x %" "a") (parseAs .items "x %" "a") ∧
    ∃ t ∈ headFault? (Stream.ofText "%" "a").readings,
      (∃ f, t.kind = .fault f ∧ parseAs .items "%" "a" = .error (.lexical f.code t)) ∧
        Quiet (logOf .items "%" "a") := by
  refine ⟨(Goal.reportsOnce_logOf_iff .items "x %" "a").1.2 (.inr (by decide +kernel)), ?_⟩
  obtain ⟨t, ht⟩ : ∃ t, headFault? (Stream.ofText "%" "a").readings = some t :=
    Option.isSome_iff_exists.1 (by decide +kernel)
  exact ⟨t, ht, (Goal.reportsOnce_logOf_iff .items "%" "a").2 t ht rfl⟩

/-- An item list whose first token is a fault is refused without a report. -/
theorem exists_not_reportsOnce :
    ∃ error, parseAs .items "%" "a" = .error error ∧
      ¬ReportsOnce "a" (logOf .items "%" "a") (.error error) := by
  have hquiet : ∀ e ∈ logOf .items "%" "a", e.message ≠ "parse failed" := by decide +kernel
  have hfails : (parseAs .items "%" "a").isOk = false := by decide +kernel
  cases h : parseAs .items "%" "a" with
  | error error => exact ⟨error, rfl, not_reportsOnce_of_quiet hquiet "a" error⟩
  | ok e => rw [h] at hfails; cases hfails

end DocExpr
