import DocExpr.Proofs.Layout.Ended

/-!
# The form of the text of a page

Whatever is done with a page, no line of its text ends in a blank, and the text ends with one line
break (`Directive.normalForm_runAll`). A page stays fit for that while parts of it are written
(`Page.Neat`): blanks are taken off a line when it is finished, and the documentation that is put
behind it and below it is visible. The documentation of a tree that is read from a source is so too.
-/

namespace DocExpr

open Text

namespace Text

variable {lines : List (List Char)}

/-- Whether a line does not end in a blank. -/
def Trimmed (line : List Char) : Prop := ∀ c ∈ line.getLast?, isBlank c = false

/-- Whether no line of a text ends in a blank, and the text ends with one line break. Something
visible is before it unless there is nothing else. -/
structure NormalForm (text : List Char) : Prop where
  lines : ∀ line ∈ splitLines text, Trimmed line
  ending : text = ['\n'] ∨ ∃ init c, isBlank c = false ∧ text = init ++ [c, '\n']

theorem trimmed_nil : Trimmed [] := by simp [Trimmed]

theorem trimmed_trimEnd (line : List Char) : Trimmed (trimEnd line) := by
  obtain ⟨-, -, -, hlast⟩ := trimEnd_spec line
  exact hlast

/-- What is put behind a line decides how it ends, if there is something visible in it. -/
theorem trimmed_append_trimEnd (code : List Char) {rest : List Char} (h : allBlank rest = false) :
    Trimmed (code ++ trimEnd rest) := by
  rw [← trimEnd_append_of_visible code h]
  exact trimmed_trimEnd _

/-- Of lines that do not end in blanks, trimming takes away whole lines. -/
theorem exists_trimEnd_joinLines (h : ∀ line ∈ lines, Trimmed line) :
    ∃ kept, (∀ line ∈ kept, line ∈ lines) ∧ trimEnd (joinLines lines) = joinLines kept := by
  induction lines using List.reverseRecOn with
  | nil => exact ⟨[], by simp, rfl⟩
  | append_singleton init last ih =>
    obtain ⟨hinit, hlast⟩ := List.forall_mem_append.1 h
    by_cases hn : last = []
    · obtain ⟨kept, hkept, htrim⟩ := ih hinit
      refine ⟨kept, fun line hm => List.mem_append_left _ (hkept line hm), ?_⟩
      rw [← htrim, hn]
      by_cases hfirst : init = []
      · rw [hfirst]
        rfl
      · rw [joinLines_append hfirst (List.cons_ne_nil [] [])]
        exact trimEnd_append_blank _ (by decide)
    · obtain ⟨c, hc⟩ := Option.isSome_iff_exists.1 (List.getLast?_isSome.2 hn)
      have hvisible : EndsVisibly last := ⟨c, hc, hlast last (by simp) c hc⟩
      exact ⟨init ++ [last], fun _ hm => hm, hvisible.joinLines init⟩

theorem normalForm_joinLines (h : ∀ line ∈ lines, Trimmed line ∧ '\n' ∉ line) :
    NormalForm (trimEnd (joinLines lines) ++ ['\n']) := by
  constructor
  · obtain ⟨kept, hkept, htrim⟩ := exists_trimEnd_joinLines fun line hm => (h line hm).1
    rw [htrim, splitLines_append]
    refine List.forall_mem_append.2 ⟨fun line hm => ?_, by simp [splitLines, trimmed_nil]⟩
    by_cases hn : kept = []
    · subst hn
      obtain rfl : line = [] := by simpa [joinLines, splitLines] using hm
      exact trimmed_nil
    · rw [splitLines_joinLines hn fun line hm => (h line (hkept line hm)).2] at hm
      exact (h line (hkept line hm)).1
  · have hlast := trimmed_trimEnd (joinLines lines)
    rcases List.eq_nil_or_concat' (trimEnd (joinLines lines)) with hnil | ⟨init, c, hconcat⟩
    · exact .inl (by rw [hnil]; rfl)
    · rw [hconcat] at hlast ⊢
      exact .inr ⟨init, c, hlast c (by simp), by simp⟩

/-- Whether a line is a visible one. -/
def VisibleLine (line : String) : Prop := allBlank line.toList = false ∧ '\n' ∉ line.toList

instance : DecidablePred VisibleLine := fun _ => inferInstanceAs (Decidable (_ ∧ _))

theorem VisibleLine.padded {line : String} (h : VisibleLine line) : VisibleLine ("  " ++ line) := by
  obtain ⟨hvisible, hline⟩ := h
  have htext : ("  " ++ line).toList = ' ' :: ' ' :: line.toList := by simp
  refine ⟨?_, by simp [hline]⟩
  rw [htext]
  exact (allBlank_append [' ', ' '] line.toList).trans (by rw [hvisible, Bool.and_false])

theorem visibleLine_of_hasLine {line : String} (h : Kind.comment.HasLine line) : VisibleLine line :=
  ⟨h.2.allBlank, Lexeme.not_mem_of_comment h.1⟩

end Text

namespace Page

/-- Whether the finished lines of a page do not end in blanks, the staged documentation is visible,
and no line has a line break in it. -/
structure Neat (p : Page) : Prop where
  above : ∀ line ∈ p.above, Trimmed line ∧ '\n' ∉ line
  line : '\n' ∉ p.line
  staged : ∀ text ∈ p.staged, allBlank text = false ∧ '\n' ∉ text

namespace Neat

variable {p q : Page}

theorem congr (h : p.Neat) (habove : q.above = p.above) (hline : q.line = p.line)
    (hstaged : q.staged = p.staged) : q.Neat where
  above := habove ▸ h.above
  line := hline ▸ h.line
  staged := hstaged ▸ h.staged

theorem empty (width : Nat) : (Page.empty width).Neat where
  above := List.forall_mem_nil _
  line := List.not_mem_nil
  staged := List.forall_mem_nil _

theorem not_mem_blanks (n : Nat) : '\n' ∉ blanks n := fun hm =>
  absurd (List.eq_of_mem_replicate hm) (by decide)

theorem addToLine (h : p.Neat) {piece : List Char} (hpiece : '\n' ∉ piece) :
    (p.addToLine piece).Neat := by
  unfold Page.addToLine
  split
  · refine ⟨h.above, fun hm => ?_, h.staged⟩
    rcases List.mem_append.1 hm with hm | hm
    · exact not_mem_blanks _ hm
    · exact hpiece ((List.dropWhile_sublist _).subset hm)
  · refine ⟨h.above, fun hm => ?_, h.staged⟩
    exact (List.mem_append.1 hm).elim h.line hpiece

theorem not_mem_trimEnd {line : List Char} (h : '\n' ∉ line) : '\n' ∉ trimEnd line := by
  obtain ⟨tail, hsplit, -⟩ := trimEnd_spec line
  exact fun hm => h (hsplit ▸ List.mem_append_left _ hm)

/-- The lines that a line of code becomes do not end in blanks. -/
theorem trimmed_documented {code : List Char} {docs : List (List Char)}
    (hcode : Trimmed code ∧ '\n' ∉ code)
    (hdocs : ∀ text ∈ docs, allBlank text = false ∧ '\n' ∉ text) :
    ∀ line ∈ documented code docs, Trimmed line ∧ '\n' ∉ line := by
  have hbehind : ∀ before text, '\n' ∉ before → allBlank text = false ∧ '\n' ∉ text →
      Trimmed (before ++ trimEnd text) ∧ '\n' ∉ before ++ trimEnd text :=
        fun before text hbefore htext =>
    ⟨trimmed_append_trimEnd before htext.1, fun hm =>
      (List.mem_append.1 hm).elim hbefore (not_mem_trimEnd htext.2)⟩
  cases docs with
  | nil => exact List.forall_mem_singleton.2 hcode
  | cons first others =>
    obtain ⟨hfirst, hothers⟩ := List.forall_mem_cons.1 hdocs
    intro line hm
    simp only [documented, List.mem_append, List.mem_reverse, List.mem_map,
      List.mem_singleton] at hm
    rcases hm with ⟨text, ht, rfl⟩ | rfl
    · exact hbehind _ text (not_mem_blanks _) (hothers text ht)
    · exact hbehind code first hcode.2 hfirst

theorem finishLine (h : p.Neat) : p.finishLine.Neat where
  above := List.forall_mem_append.2
    ⟨trimmed_documented ⟨trimmed_trimEnd _, not_mem_trimEnd h.line⟩ h.staged, h.above⟩
  line := List.not_mem_nil
  staged := by simp [Page.finishLine]

theorem append (h : p.Neat) (text : String) : (p.append text).Neat := by
  have hpieces : ∀ (pieces : List (List Char)) {p : Page}, p.Neat →
      (∀ piece ∈ pieces, '\n' ∉ piece) →
      (appendPieces pieces p).Neat := by
    intro pieces
    induction pieces with
    | nil => exact fun h _ => h
    | cons piece pieces ih =>
      intro p h hp
      obtain ⟨hpiece, hrest⟩ := List.forall_mem_cons.1 hp
      cases pieces with
      | nil => exact h.addToLine hpiece
      | cons next pieces => exact ih (h.addToLine hpiece).finishLine hrest
  exact hpieces _ h (not_mem_of_mem_splitLines _)

theorem startOnNewLine (h : p.Neat) : p.startOnNewLine.Neat := by
  unfold Page.startOnNewLine
  split
  · exact h
  · exact h.append _

theorem verticalSpacing (h : p.Neat) : p.verticalSpacing.Neat := by
  unfold Page.verticalSpacing
  split
  · exact h
  · exact h.startOnNewLine
  · exact h.startOnNewLine.append _

theorem stage (h : p.Neat) {lines : List String} (hlines : ∀ line ∈ lines, VisibleLine line) :
    (p.stage lines).Neat where
  above := h.above
  line := h.line
  staged := List.forall_mem_map.2 hlines

theorem indentLess (h : p.Neat) : p.indentLess.Neat where
  above := h.above
  line := by
    by_cases hblank : allBlank p.line
    · simp [Page.indentLess, hblank]
    · simpa [Page.indentLess, hblank] using h.line
  staged := h.staged

theorem indented {body : Page → Page} (hbody : ∀ {q : Page}, q.Neat → (body q).Neat) (h : p.Neat) :
    (p.indented body).Neat :=
  (hbody (h.congr (q := p.indentMore) rfl rfl rfl)).indentLess

theorem indentedIfSpaced {body : Page → Page} (hbody : ∀ {q : Page}, q.Neat → (body q).Neat)
    (h : p.Neat) :
    (p.indentedIfSpaced body).Neat := by
  unfold Page.indentedIfSpaced indentedIf
  split
  · exact h.indented hbody
  · exact hbody h

end Neat

/-- A page stays neat whatever is written on it, if the documentation is visible. -/
theorem scriptable_neat :
    Scriptable (fun body => ∀ {p : Page}, p.Neat → (body p).Neat) VisibleLine where
  fixed := fun _ _ => trivial
  nothing := fun h => h
  next := fun hbody hrest _ h => hrest (hbody h)
  append := fun _ _ h => h.append _
  stage := fun hlines _ h => h.stage hlines
  verticalSpacing := fun h => h.verticalSpacing
  indentedIfSpaced := fun hbody _ h => h.indentedIfSpaced hbody
  aligned :=
    fun hbody p h => (hbody (h.congr (q := p.indentToColumn) rfl rfl rfl)).congr rfl rfl rfl
  spaced :=
    fun mode hbody p h => (hbody (h.congr (q := p.pushMode mode) rfl rfl rfl)).congr rfl rfl rfl
  indented := fun hbody _ h => h.indented hbody
  padded := VisibleLine.padded

theorem Neat.normalForm_text {p : Page} (h : p.Neat) : NormalForm p.text.toList := by
  have hfinished : p.finished.Neat := by
    unfold finished
    split
    · exact h
    · exact h.finishLine
  rw [text, String.toList_ofList]
  exact normalForm_joinLines fun line hm => hfinished.above line (List.mem_reverse.1 hm)

end Page

open Directive

/-- The documentation of a tree that is read is visible. -/
theorem Goal.visibleLine_of_parseAs {goal : Goal} {text file : String} {e : Expr}
    (h : parseAs goal text file = .ok e) :
    ∀ line ∈ e.preorder.flatMap Expr.trailing, VisibleLine line := by
  intro line hm
  obtain ⟨n, hn, hline⟩ := List.mem_flatMap.1 hm
  have hlegible := Goal.legible_of_parseAs h n hn
  cases n with
  | block form lines o =>
    cases form with
    | trailing =>
      have hlines := (hlegible (.block .trailing lines) (by simp [Expr.leaf])).2
      exact visibleLine_of_hasLine (hlines line hline)
    | _ => cases hline
  | _ => cases hline

/-- Whatever a script does, no line of the text of the page ends in a blank, and the text ends with
one line break, if all documentation that is staged is visible. That of trees that are read is. -/
theorem Directive.normalForm_runAll :
    (∀ (ds : List Directive) (width : Nat), (∀ line ∈ documentationAll ds, VisibleLine line) →
      NormalForm (runAll ds (.empty width)).text.toList) ∧
    ∀ (goal : Goal) (text file : String) (e : Expr), parseAs goal text file = .ok e →
      ∀ line ∈ e.preorder.flatMap Expr.trailing, VisibleLine line :=
  ⟨fun ds width h => (Page.scriptable_neat.runAll ds h (Page.Neat.empty width)).normalForm_text,
    fun _ _ _ _ h => Goal.visibleLine_of_parseAs h⟩

/-- Documentation below a line that is dropped, and documentation of a tree, behind text with blanks
at the ends of its lines. -/
theorem Directive.normalForm_runAll_documented :
    let name (text : String) : Expr := .atom .identifier text .synthetic
    let noted : Expr :=
      .chain .document [name "b", .block .trailing ["// z\u2003", "// w"] .synthetic] .synthetic
    let ds := [append "a \t\n \n",
      indented [append "c  ", stage ["// x ", "\t// y\t"], newLine, append "  "],
      write noted, newLine, newLine]
    (∀ line ∈ documentationAll ds, VisibleLine line) ∧
      (runAll ds (.empty 2)).text = "a\n\n  c// x\n   \t// y\nb  // z\n   // w\n" ∧
      NormalForm (runAll ds (.empty 2)).text.toList ∧
      ∃ e, parseAs .items "a // b" "" = .ok e ∧ e.preorder.flatMap Expr.trailing = ["// b"] ∧
        ∀ line ∈ e.preorder.flatMap Expr.trailing, VisibleLine line := by
  intro name noted ds
  have h : ∀ line ∈ documentationAll ds, VisibleLine line := by decide +kernel
  obtain ⟨e, he, hlines⟩ := exists_of_toOption (r := parseAs .items "a // b" "")
    (P := fun e => e.preorder.flatMap Expr.trailing = ["// b"]) (by decide +kernel)
  exact ⟨h, by decide +kernel, normalForm_runAll.1 ds 2 h, e, he, hlines,
    normalForm_runAll.2 .items "a // b" "" e he⟩

end DocExpr
