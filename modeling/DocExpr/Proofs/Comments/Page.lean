import DocExpr.Layout.Writer
import DocExpr.Proofs.Comments.Source
import DocExpr.Proofs.Layout.Page
import Mathlib.Data.List.TakeWhile

/-!
# Comments on a page

The comments on a page are those that are found in what is written on it, and behind them those that
are staged (`Page.Carries`). Breaking a line moves comments from the latter to the former and leaves
the list of both (`Page.Carries.newLine`), and so does writing code (`Page.Carries.append`), if it
does not break its line while something is staged. A comment or a back-ticked line that is written
then takes one of the staged comments into its own text, and documentation that is staged then takes
the place of what was staged: in either case the page has fewer comments than it should (`Tally`).
-/

namespace DocExpr

open Lexeme

/-- Whether a text on one line is skimmed from code to code, also without the blanks at its end. -/
structure Passes (text : List Char) : Prop where
  visible : Text.allBlank text = false
  line : '\n' ∉ text
  code : ∀ found, (⟨.code, found⟩ : Skim).through text = ⟨.code, found⟩
  trimmed : ∀ found, ∃ m, (⟨.code, found⟩ : Skim).through (Text.trimEnd text) = ⟨m, found⟩ ∧
    (m = .code ∨ m = .slash)

/-- Whether comments are those that there should be or, if some are lost, fewer. -/
def Tally (lost : Bool) (cs docs : List (List Char)) : Prop :=
  if lost then cs.length < docs.length else cs = docs

theorem Tally.trans {lost lost' : Bool} {cs ds es more more' : List (List Char)}
    (h : Tally lost ds (cs ++ more)) (h' : Tally lost' es (ds ++ more')) :
    Tally (lost || lost') es (cs ++ (more ++ more')) := by
  unfold Tally at *
  cases lost <;> cases lost' <;> simp_all <;> omega

namespace Page

open Skim

variable {p q : Page} {cs found : List (List Char)}

/-- Whether what is written on a page is skimmed to code, also without the blanks at its end, and
what is found in it. -/
structure Skims (p : Page) (found : List (List Char)) : Prop where
  written : start.through p.written = ⟨.code, found⟩
  trimmed : ∃ m, start.through (p.upper ++ Text.trimEnd p.line) = ⟨m, found⟩ ∧
    (m = .code ∨ m = .slash)

/-- Whether the comments on a page are these: those in what is written, and those that are
staged. -/
def Carries (p : Page) (cs : List (List Char)) : Prop :=
  ∃ found, p.Skims found ∧ (∀ text ∈ p.staged, IsStaged text) ∧ cs = found ++ p.staged.map Text.trim

theorem Skims.congr (h : p.Skims found) (habove : q.above = p.above) (hline : q.line = p.line) :
    q.Skims found := by
  have hupper : q.upper = p.upper := by rw [upper, upper, habove]
  refine ⟨?_, ?_⟩
  · rw [Page.written, hupper, hline]
    exact h.written
  · rw [hupper, hline]
    exact h.trimmed

theorem Carries.congr (h : p.Carries cs) (hstaged : q.staged = p.staged)
    (habove : q.above = p.above) (hline : q.line = p.line) : q.Carries cs := by
  obtain ⟨found, hp, hdocs, rfl⟩ := h
  exact ⟨found, hp.congr habove hline, hstaged ▸ hdocs, by rw [hstaged]⟩

theorem carries_empty (width : Nat) : (empty width).Carries [] :=
  ⟨[], ⟨rfl, .code, rfl, .inl rfl⟩, by simp [empty], rfl⟩

/-! ## Breaking lines -/

/-- A page on which a line has been broken. -/
theorem skims_of_line_nil (hline : p.line = []) (h : start.through p.upper = ⟨.code, found⟩) :
    p.Skims found := by
  refine ⟨?_, .code, ?_, .inl rfl⟩
  · rw [Page.written, hline, List.append_nil, h]
  · rw [hline, Text.trimEnd_nil, List.append_nil, h]

theorem isBlank_of_mem_blanks {n : Nat} : ∀ c ∈ blanks n, Text.isBlank c := by
  intro c hc
  rw [List.eq_of_mem_replicate hc]
  decide

/-- Documentation below other documentation is found line by line. -/
theorem through_below {texts : List (List Char)} (n : Nat) (h : ∀ text ∈ texts, IsStaged text)
    (found : List (List Char)) :
    (⟨.code, found⟩ : Skim).through
        ((texts.map fun text => blanks n ++ Text.trimEnd text).flatMap (· ++ ['\n'])) =
      ⟨.code, found ++ texts.map Text.trim⟩ := by
  induction texts generalizing found with
  | nil => simp
  | cons text texts ih =>
    obtain ⟨htext, htexts⟩ := List.forall_mem_cons.1 h
    obtain ⟨line, hsplit, hend, htrim, hline, hsolid⟩ := htext.solid
    have hblanks : ∀ c ∈ blanks n ++ [' ', ' '], Text.isBlank c :=
      List.forall_mem_append.2 ⟨isBlank_of_mem_blanks, by decide⟩
    have hfirst : blanks n ++ Text.trimEnd text ++ ['\n'] =
        (blanks n ++ [' ', ' ']) ++ line ++ ['\n'] := by
      rw [hend, hsplit]
      simp
    rw [List.map_cons, List.flatMap_cons, through_append, hfirst,
      through_commentLine (.inl rfl) hblanks (by simp) hline hsolid, ih htexts]
    simp [htrim]

/-- What is found when a line is finished: what the line and the first of what is staged make of it,
and the rest of what is staged. -/
theorem skims_finishLine (hdocs : ∀ text ∈ p.staged, IsStaged text)
    (h : ((start.through (p.upper ++ Text.trimEnd p.line)).through (p.staged.headD [])).next '\n' =
      ⟨.code, found⟩) : p.finishLine.Skims (found ++ p.staged.tail.map Text.trim) := by
  refine skims_of_line_nil rfl ?_
  rw [upper_finishLine]
  cases hstaged : p.staged with
  | nil =>
    rw [hstaged, List.headD_nil, through_nil] at h
    simp only [documented, List.reverse_singleton, List.flatMap_singleton, List.tail_nil,
      List.map_nil, List.append_nil]
    rw [← List.append_assoc, through_append, through_cons, through_nil, h]
  | cons first others =>
    rw [hstaged] at hdocs h
    obtain ⟨hfirst, hothers⟩ := List.forall_mem_cons.1 hdocs
    obtain ⟨-, -, hend, -⟩ := hfirst.solid
    have hlines : (documented (Text.trimEnd p.line) (first :: others)).reverse.flatMap
        (· ++ ['\n']) =
        Text.trimEnd p.line ++ first ++ ['\n'] ++
          (others.map fun text => blanks (Text.trimEnd p.line).length ++ Text.trimEnd text).flatMap
            (· ++ ['\n']) := by
      simp [documented, hend]
    rw [hlines, ← List.append_assoc, ← List.append_assoc, ← List.append_assoc, through_append,
      through_append, through_append, through_cons, through_nil]
    rw [List.headD_cons] at h
    rw [h, through_below _ hothers, List.tail_cons]

/-- Breaking a line puts what is staged behind it, and leaves the comments on the page. -/
theorem Carries.newLine (h : p.Carries cs) : p.newLine.Carries cs ∧ p.newLine.staged = [] := by
  obtain ⟨found, hp, hdocs, rfl⟩ := h
  obtain ⟨m, hm, hmode⟩ := hp.trimmed
  rw [newLine_eq_finishLine]
  cases hstaged : p.staged with
  | nil =>
    have hend : (⟨m, found⟩ : Skim).next '\n' = ⟨.code, found⟩ := by
      rw [← through_nil ((⟨m, found⟩ : Skim).next '\n'), ← through_cons,
        through_blank hmode (by decide), if_neg (by simp)]
    have := skims_finishLine hdocs (by rw [hm, hstaged]; exact hend)
    exact ⟨⟨found, by simpa [hstaged] using this, by simp [finishLine], by simp [finishLine]⟩, rfl⟩
  | cons first others =>
    rw [hstaged] at hdocs
    obtain ⟨line, hsplit, -, htrim, hline, hsolid⟩ := (hdocs first List.mem_cons_self).solid
    have hend : ((⟨m, found⟩ : Skim).through first).next '\n' = ⟨.code, found ++ [line]⟩ := by
      have hover : (⟨m, found⟩ : Skim).through ([' ', ' '] ++ line ++ ['\n']) =
          ⟨.code, found ++ [line]⟩ := through_commentLine hmode (by decide) (by simp) hline hsolid
      rwa [← hsplit, through_append, through_cons, through_nil] at hover
    have := skims_finishLine (hstaged ▸ hdocs) (by rw [hm, hstaged]; exact hend)
    refine ⟨⟨_, this, by simp [finishLine], ?_⟩, rfl⟩
    simp [finishLine, hstaged, htrim]

theorem Carries.startOnNewLine (h : p.Carries cs) : p.startOnNewLine.Carries cs := by
  unfold Page.startOnNewLine
  split
  · exact h
  · exact h.newLine.1

theorem Carries.verticalSpacing (h : p.Carries cs) : p.verticalSpacing.Carries cs := by
  unfold Page.verticalSpacing
  split
  · exact h
  · exact h.startOnNewLine
  · exact h.startOnNewLine.newLine.1

/-- The finished lines do not end behind a slash. -/
theorem mode_through_upper (p : Page) : (start.through p.upper).mode ≠ .slash := by
  rcases List.eq_nil_or_concat' p.above.reverse with h | ⟨init, line, h⟩
  · simp [upper, h, start]
  · have hsplit : p.upper = (init.flatMap (· ++ ['\n']) ++ line) ++ ['\n'] := by simp [upper, h]
    rw [hsplit, through_append, through_cons, through_nil]
    exact mode_next_newline _

/-- Ending an indentation takes blanks away only. -/
theorem Carries.indentLess (h : p.Carries cs) : p.indentLess.Carries cs := by
  by_cases hline : Text.allBlank p.line
  · obtain ⟨found, hp, hdocs, rfl⟩ := h
    have hempty : p.indentLess.line = [] := by simp [Page.indentLess, hline]
    obtain ⟨m, hm, hmode⟩ := hp.trimmed
    rw [Text.trimEnd_of_allBlank hline, List.append_nil] at hm
    have hcode : m = .code := by
      have hslash := mode_through_upper p
      rw [hm] at hslash
      exact hmode.resolve_right hslash
    exact ⟨found, skims_of_line_nil hempty (hcode ▸ hm), hdocs, rfl⟩
  · exact h.congr rfl rfl (by simp [Page.indentLess, hline])

/-! ## Writing -/

/-- Whether documentation waits for the end of the line. -/
def waits (p : Page) : Bool := !p.staged.isEmpty

/-- What is visible is skimmed as it is written behind code. -/
theorem through_addToLine (h : start.through p.written = ⟨.code, found⟩) {fragment : List Char}
    (hvisible : Text.allBlank fragment = false) :
    start.through (p.addToLine fragment).written = (⟨.code, found⟩ : Skim).through fragment ∧
      start.through ((p.addToLine fragment).upper ++ Text.trimEnd (p.addToLine fragment).line) =
        (⟨.code, found⟩ : Skim).through (Text.trimEnd fragment) := by
  obtain ⟨habove, -, before, hbefore, -, hline⟩ := p.addToLine_of_visible hvisible
  have hupper : (p.addToLine fragment).upper = p.upper := by rw [upper, upper, habove]
  have hsplit := Text.takeWhile_append_trimStart fragment
  have hbefore : ∀ c ∈ before, Text.isBlank c := by
    rcases hbefore with rfl | rfl
    · exact isBlank_of_mem_blanks
    · exact List.all_eq_true.1 List.all_takeWhile
  have hstart : Text.allBlank (Text.trimStart fragment) = false :=
    (Text.allBlank_trimStart fragment).trans hvisible
  have hfragment : ∀ cs, (⟨.code, found⟩ : Skim).through (fragment.takeWhile Text.isBlank ++ cs) =
      (⟨.code, found⟩ : Skim).through cs := fun cs => by
    rw [through_append, through_blank_code (List.all_eq_true.1 List.all_takeWhile)]
  constructor
  · rw [Page.written, hupper, hline, ← List.append_assoc, ← List.append_assoc, through_append,
      through_append]
    rw [Page.written] at h
    rw [h, through_blank_code hbefore, ← hfragment, hsplit]
  · rw [hupper, hline, Text.trimEnd_append_of_visible _ hstart, ← List.append_assoc,
      ← List.append_assoc, through_append, through_append]
    rw [Page.written] at h
    rw [h, through_blank_code hbefore, ← hfragment,
      ← Text.trimEnd_append_of_visible _ hstart, hsplit]

/-- Writing code leaves the comments on a page. -/
theorem Carries.append (h : p.Carries cs) {text : String} (htext : Passes text.toList) :
    (p.append text).Carries cs := by
  obtain ⟨found, hp, hdocs, rfl⟩ := h
  obtain ⟨hwritten, htrimmed⟩ := through_addToLine hp.written htext.visible
  have hstaged := (p.addToLine_of_visible htext.visible).2.1
  rw [p.append_of_not_mem htext.line]
  refine ⟨found, ⟨hwritten.trans (htext.code found), ?_⟩, hstaged ▸ hdocs, by rw [hstaged]⟩
  obtain ⟨m, hm, hmode⟩ := htext.trimmed found
  exact ⟨m, htrimmed.trans hm, hmode⟩

/-- No text that is staged breaks a line. -/
theorem endsLine_of_isStaged {text : List Char} (h : IsStaged text) :
    ∀ c ∈ text, endsLine c = false := by
  obtain ⟨line, rfl, hline, -⟩ := h
  obtain ⟨w, rfl, hw⟩ := stable_comment_iff.1 hline
  intro c hc
  simp only [List.mem_cons] at hc
  rcases hc with rfl | rfl | rfl | rfl | hc
  all_goals first | exact hw c hc | decide

theorem endsLine_headD (hdocs : ∀ text ∈ p.staged, IsStaged text) :
    ∀ c ∈ p.staged.headD [], endsLine c = false := by
  cases hstaged : p.staged with
  | nil => simp
  | cons first others =>
    rw [hstaged] at hdocs
    exact endsLine_of_isStaged (hdocs first List.mem_cons_self)

/-- What is found when a text and a line break are written. -/
theorem Skims.appendNewLine (hp : p.Skims found) (hdocs : ∀ text ∈ p.staged, IsStaged text)
    {line : String} (hsolid : Solid line.toList) (hbreak : '\n' ∉ line.toList)
    {found' : List (List Char)}
    (h : (((⟨.code, found⟩ : Skim).through line.toList).through (p.staged.headD [])).next '\n' =
      ⟨.code, found'⟩) :
    (p.append line).newLine.Skims (found' ++ p.staged.tail.map Text.trim) ∧
      (p.append line).newLine.staged = [] := by
  obtain ⟨-, htrimmed⟩ := through_addToLine hp.written hsolid.allBlank
  have hstaged := (p.addToLine_of_visible hsolid.allBlank).2.1
  rw [append_of_not_mem hbreak, newLine_eq_finishLine, ← hstaged]
  refine ⟨skims_finishLine (hstaged ▸ hdocs) ?_, rfl⟩
  rw [htrimmed, hstaged, Text.trimEnd_of_getLast hsolid.2.2]
  exact h

/-- Writing a comment on a line of its own adds a comment, unless one that is staged is taken into
it. -/
theorem Carries.commentLine (h : p.Carries cs) {line : String} (hline : Kind.comment.HasLine line) :
    ∃ cs', (p.append line).newLine.Carries cs' ∧ (p.append line).newLine.staged = [] ∧
      Tally p.waits cs' (cs ++ [line.toList]) := by
  obtain ⟨found, hp, hdocs, rfl⟩ := h
  obtain ⟨hstable, hsolid⟩ := hline
  obtain ⟨w, hw, hends⟩ := stable_comment_iff.1 hstable
  have hcomment : (⟨.code, found⟩ : Skim).through line.toList = ⟨.comment line.toList, found⟩ := by
    rw [hw]
    exact through_comment ['/', '/'] hends
  have hend :
      (((⟨.code, found⟩ : Skim).through line.toList).through (p.staged.headD [])).next '\n' =
      ⟨.code, found ++ [Text.trim (line.toList ++ p.staged.headD [])]⟩ := by
    rw [hcomment, through_comment _ (endsLine_headD hdocs), next_of_endsLine (by simp) (by decide)]
    rfl
  obtain ⟨hskims, hnone⟩ := hp.appendNewLine hdocs hsolid (not_mem_of_comment hstable) hend
  refine ⟨_, ⟨_, hskims, by simp [hnone], rfl⟩, hnone, ?_⟩
  rw [hnone]
  cases hstaged : p.staged with
  | nil => simp [Tally, waits, hstaged, hsolid.trim_eq]
  | cons first others => simp [Tally, waits, hstaged]

/-- Writing a back-ticked line leaves the comments, unless one that is staged is taken into it. -/
theorem Carries.tickedLine (h : p.Carries cs) {line : String}
    (hline : Kind.tickedLine.HasLine line) :
    ∃ cs', (p.append line).newLine.Carries cs' ∧ (p.append line).newLine.staged = [] ∧
      Tally p.waits cs' cs := by
  obtain ⟨found, hp, hdocs, rfl⟩ := h
  obtain ⟨hstable, hsolid⟩ := hline
  obtain ⟨w, hw, hends⟩ := stable_tickedLine_iff.1 hstable
  have hticked : (⟨.code, found⟩ : Skim).through line.toList = ⟨.ticked, found⟩ := by
    rw [hw]
    exact through_ticked hends
  have hend :
      (((⟨.code, found⟩ : Skim).through line.toList).through (p.staged.headD [])).next '\n' =
      ⟨.code, found⟩ := by
    rw [hticked, through_ticked (endsLine_headD hdocs), next_of_endsLine (by simp) (by decide)]
    rfl
  obtain ⟨hskims, hnone⟩ := hp.appendNewLine hdocs hsolid (not_mem_of_tickedLine hstable) hend
  refine ⟨_, ⟨_, hskims, by simp [hnone], rfl⟩, hnone, ?_⟩
  rw [hnone]
  cases hstaged : p.staged with
  | nil => simp [Tally, waits, hstaged]
  | cons first others => simp [Tally, waits, hstaged]

/-- Of lines that are written, only the first can take something into it that is staged. -/
theorem Carries.appendLines {k : Kind} (docs : String → List (List Char))
    (hk : ∀ {p : Page} {cs : List (List Char)} {line : String}, p.Carries cs → k.HasLine line →
      ∃ cs', (p.append line).newLine.Carries cs' ∧ (p.append line).newLine.staged = [] ∧
        Tally p.waits cs' (cs ++ docs line))
    {lines : List String} (hlines : ∀ line ∈ lines, k.HasLine line) (h : p.Carries cs) :
    ∃ cs', (Page.appendLines lines p).Carries cs' ∧
      Tally (p.waits && !lines.isEmpty) cs' (cs ++ lines.flatMap docs) := by
  induction lines generalizing p cs with
  | nil => exact ⟨cs, h, by simp [Tally]⟩
  | cons line lines ih =>
    obtain ⟨hline, hlines⟩ := List.forall_mem_cons.1 hlines
    obtain ⟨cs', hfirst, hnone, htally⟩ := hk h hline
    obtain ⟨cs'', hrest, htally'⟩ := ih hlines hfirst
    refine ⟨cs'', hrest, ?_⟩
    have hwaits : (p.append line).newLine.waits = false := by simp [waits, hnone]
    have := htally.trans htally'
    simpa [hwaits] using this

/-- Staging documentation adds it to the comments, unless it takes the place of other
documentation. -/
theorem Carries.stage (h : p.Carries cs) {lines : List String}
    (hlines : ∀ line ∈ lines, Kind.comment.HasLine line) :
    ∃ cs', (p.stage (lines.map fun line => "  " ++ line)).Carries cs' ∧
      Tally p.waits cs' (cs ++ lines.map String.toList) := by
  obtain ⟨found, hp, hdocs, rfl⟩ := h
  have hstaged : (p.stage (lines.map fun line => "  " ++ line)).staged =
      lines.map fun line => ' ' :: ' ' :: line.toList := by
    simp [Page.stage]
  have hnew : ∀ line ∈ lines, IsStaged (' ' :: ' ' :: line.toList) := fun line hl =>
    ⟨line.toList, rfl, (hlines line hl).1, (hlines line hl).2⟩
  have htrim : (lines.map fun line => ' ' :: ' ' :: line.toList).map Text.trim =
      lines.map String.toList := by
    rw [List.map_map]
    refine List.map_congr_left fun line hl => ?_
    obtain ⟨line', hsplit, -, htrim, -⟩ := (hnew line hl).solid
    have hsplit' : [' ', ' '] ++ line.toList = [' ', ' '] ++ line' := hsplit
    obtain rfl := List.append_cancel_left hsplit'
    exact htrim
  refine ⟨_, ⟨found, hp.congr rfl rfl, ?_, rfl⟩, ?_⟩
  · rw [hstaged, List.forall_mem_map]
    exact hnew
  · rw [hstaged, htrim]
    cases hold : p.staged with
    | nil => simp [Tally, waits, hold]
    | cons first others =>
      have hwaits : p.waits = true := by simp [waits, hold]
      rw [hwaits, Tally, if_pos rfl]
      simp only [List.length_append, List.length_map, List.length_cons]
      omega

end Page

end DocExpr
