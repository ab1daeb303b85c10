import DocExpr.Layout.Script
import DocExpr.Proofs.Layout.Written

/-!
# What is visible on a page

Blanks come and go while a page is written: they are trimmed where a line starts and where it ends,
put in as indentation, and dropped with a line that has nothing else on it. Nothing visible does.
Every part of a page that stages no documentation adds the visible characters of the texts that it
appends (`Page.Contributes`), so the text of a page has those of all that was appended, in their
order (`Directive.visible_text_runAll`).
-/

namespace DocExpr

namespace Text

variable {cs : List Char}

/-- The visible characters of a text. -/
def visible (cs : List Char) : List Char := cs.filter fun c => !isBlank c

@[simp] theorem visible_nil : visible [] = [] := rfl

@[simp] theorem visible_append (cs ds : List Char) :
    visible (cs ++ ds) = visible cs ++ visible ds :=
  List.filter_append ..

theorem visible_of_allBlank (h : allBlank cs) : visible cs = [] :=
  List.filter_eq_nil_iff.2 fun c hc => by simp [List.all_eq_true.1 h c hc]

@[simp] theorem visible_newline (cs : List Char) : visible ('\n' :: cs) = visible cs := rfl

@[simp] theorem visible_trimStart (cs : List Char) : visible (trimStart cs) = visible cs := by
  conv_rhs => rw [← takeWhile_append_trimStart cs]
  rw [visible_append, visible_of_allBlank List.all_takeWhile, List.nil_append]

@[simp] theorem visible_trimEnd (cs : List Char) : visible (trimEnd cs) = visible cs := by
  obtain ⟨tail, hsplit, htail, -⟩ := trimEnd_spec cs
  conv_rhs => rw [hsplit]
  rw [visible_append, visible_of_allBlank (List.all_eq_true.2 htail), List.append_nil]

theorem visible_joinLines (lines : List (List Char)) :
    visible (joinLines lines) = lines.flatMap visible := by
  induction lines with
  | nil => rfl
  | cons line lines ih =>
    by_cases hn : lines = []
    · simp [hn, joinLines]
    · rw [joinLines_cons hn, visible_append, visible_newline, ih, List.flatMap_cons]

end Text

namespace Page

/-- The visible characters on a page, staged documentation apart. -/
def visible (p : Page) : List Char := Text.visible p.written

/-- Whether writing a part of a page adds some visible characters to it, where no documentation is
staged, and stages none. -/
def Contributes (body : Page → Page) (cs : List Char) : Prop :=
  ∀ p, p.staged = [] → (body p).staged = [] ∧ (body p).visible = p.visible ++ cs

variable {p q : Page} {body next : Page → Page} {cs ds : List Char}

theorem visible_eq (p : Page) :
    p.visible = p.above.reverse.flatMap Text.visible ++ Text.visible p.line := by
  have hupper : ∀ lines : List (List Char),
      Text.visible (lines.flatMap (· ++ ['\n'])) = lines.flatMap Text.visible := by
    intro lines
    induction lines with
    | nil => rfl
    | cons line lines ih => simp [ih]
  rw [visible, written, upper, Text.visible_append, hupper]

theorem visible_congr (habove : q.above = p.above) (hline : q.line = p.line) :
    q.visible = p.visible := by
  rw [visible_eq, visible_eq, habove, hline]

theorem Contributes.comp (h : Contributes body cs) (hnext : Contributes next ds) :
    Contributes (fun p => next (body p)) (cs ++ ds) := by
  intro p hp
  obtain ⟨hstaged, hvisible⟩ := h p hp
  obtain ⟨hstaged', hvisible'⟩ := hnext (body p) hstaged
  exact ⟨hstaged', by rw [hvisible', hvisible, List.append_assoc]⟩

/-- What changes neither the text of a page nor what is staged contributes nothing. -/
theorem contributes_of_eq (h : ∀ p, (body p).staged = p.staged ∧ (body p).above = p.above ∧
    (body p).line = p.line) : Contributes body [] := by
  intro p hp
  obtain ⟨hstaged, habove, hline⟩ := h p
  exact ⟨hstaged.trans hp, by rw [visible_congr habove hline, List.append_nil]⟩

/-! ## Writing -/

theorem contributes_addToLine (fragment : List Char) :
    Contributes (fun p => p.addToLine fragment) (Text.visible fragment) := by
  refine fun p hp => ⟨(p.staged_addToLine fragment).trans hp, ?_⟩
  rw [visible, visible, written, written, upper_addToLine, Text.visible_append, Text.visible_append,
    List.append_assoc]
  congr 1
  by_cases hstart : p.line = [] ∧ Text.allBlank fragment = false
  · have hindent : Text.visible (blanks p.indent) = [] :=
      Text.visible_of_allBlank (allBlank_blanks p.indent)
    rw [line_addToLine_of_nil hstart.1 hstart.2, Text.visible_append,
      Text.visible_trimStart, hindent, hstart.1]
    rfl
  · have hline : (p.addToLine fragment).line = p.line ++ fragment := by
      unfold addToLine
      rw [if_neg (by simpa using hstart)]
    rw [hline, Text.visible_append]

theorem contributes_finishLine : Contributes finishLine [] := by
  intro p hp
  refine ⟨rfl, ?_⟩
  rw [visible, written_finishLine hp]
  simp [visible, written]

theorem contributes_append (text : String) :
    Contributes (fun p => p.append text) (Text.visible text.toList) := by
  have hpieces : ∀ pieces, Contributes (appendPieces pieces) (pieces.flatMap Text.visible) := by
    intro pieces
    induction pieces with
    | nil => exact contributes_of_eq fun _ => ⟨rfl, rfl, rfl⟩
    | cons piece pieces ih =>
      cases pieces with
      | nil => simpa [appendPieces] using contributes_addToLine piece
      | cons next pieces =>
        have := ((contributes_addToLine piece).comp contributes_finishLine).comp ih
        rwa [List.append_nil] at this
  rw [← Text.joinLines_splitLines text.toList, Text.visible_joinLines]
  exact hpieces _

theorem contributes_newLine : Contributes newLine [] := contributes_append "\n"

theorem contributes_startOnNewLine : Contributes startOnNewLine [] := by
  intro p hp
  unfold startOnNewLine
  split
  · exact ⟨hp, (List.append_nil _).symm⟩
  · exact contributes_newLine p hp

theorem contributes_verticalSpacing : Contributes verticalSpacing [] := by
  intro p hp
  unfold verticalSpacing
  split
  · exact ⟨hp, (List.append_nil _).symm⟩
  · exact contributes_startOnNewLine p hp
  · exact contributes_startOnNewLine.comp contributes_newLine p hp

/-- Ending an indentation empties a line only if nothing is visible on it. -/
theorem contributes_indentLess : Contributes indentLess [] := by
  refine fun p hp => ⟨hp, ?_⟩
  rw [List.append_nil, visible_eq, visible_eq]
  congr 1
  by_cases hline : Text.allBlank p.line
  · simp [indentLess, hline, Text.visible_of_allBlank hline]
  · simp [indentLess, hline]

/-! ## Parts of a page -/

theorem Contributes.indented (h : Contributes body cs) :
    Contributes (fun p => p.indented body) cs := by
  have hmore : Contributes indentMore [] := contributes_of_eq fun _ => ⟨rfl, rfl, rfl⟩
  have hall := (hmore.comp h).comp contributes_indentLess
  rwa [List.append_nil] at hall

theorem Contributes.indentedIf (condition : Bool) (h : Contributes body cs) :
    Contributes (fun p => p.indentedIf condition body) cs := by
  cases condition with
  | true => exact h.indented
  | false => exact h

theorem Contributes.indentedIfSpaced (h : Contributes body cs) :
    Contributes (fun p => p.indentedIfSpaced body) cs :=
  fun p hp => h.indentedIf (p.mode != .inline) p hp

theorem Contributes.aligned (h : Contributes body cs) :
    Contributes (fun p => p.aligned body) cs := by
  have hcolumn : Contributes indentToColumn [] := contributes_of_eq fun _ => ⟨rfl, rfl, rfl⟩
  have hpop : Contributes popIndent [] := contributes_of_eq fun _ => ⟨rfl, rfl, rfl⟩
  have hall := (hcolumn.comp h).comp hpop
  rwa [List.append_nil] at hall

theorem Contributes.spaced (mode : Spacing) (h : Contributes body cs) :
    Contributes (fun p => p.spaced mode body) cs := by
  have hpush : Contributes (fun p => p.pushMode mode) [] :=
    contributes_of_eq fun _ => ⟨rfl, rfl, rfl⟩
  have hpop : Contributes popMode [] := contributes_of_eq fun _ => ⟨rfl, rfl, rfl⟩
  have hall := (hpush.comp h).comp hpop
  rwa [List.append_nil] at hall

/-- The text of a page has the visible characters of the page. -/
theorem visible_text (hp : p.staged = []) : Text.visible p.text.toList = p.visible := by
  have hfinished : p.finished.visible = p.visible ∧ p.finished.line = [] := by
    unfold finished
    split
    · next h => exact ⟨rfl, by simpa [hp] using h⟩
    · exact ⟨by rw [(contributes_finishLine p hp).2, List.append_nil], rfl⟩
  rw [← hfinished.1, visible_eq, hfinished.2, text, String.toList_ofList, Text.visible_append,
    Text.visible_trimEnd, Text.visible_joinLines]
  rfl

end Page

/-! ## Scripts -/

namespace Directive

mutual

/-- Whether all that a directive writes is what it appends: it neither stages documentation nor
writes trees. -/
def appendsOnly : Directive → Bool
  | stage _ | write _ | writeFile _ => false
  | append _ | newLine | newLineIf _ | startOnNewLine | verticalSpacing => true
  | indented body | indentedIf _ body | indentedIfSpaced body | aligned body | spaced _ body =>
    appendsOnlyAll body

/-- Whether all that a script writes is what it appends. -/
def appendsOnlyAll : List Directive → Bool
  | [] => true
  | d :: ds => appendsOnly d && appendsOnlyAll ds

end

mutual

/-- The texts that a directive appends, one behind the other. -/
def appended : Directive → List Char
  | append text => text.toList
  | indented body | indentedIf _ body | indentedIfSpaced body | aligned body | spaced _ body =>
    appendedAll body
  | newLine | newLineIf _ | startOnNewLine | verticalSpacing | stage _ | write _ | writeFile _ => []

/-- The texts that a script appends, one behind the other. -/
def appendedAll : List Directive → List Char
  | [] => []
  | d :: ds => appended d ++ appendedAll ds

end

open Page

mutual

/-- A directive adds what is visible of the texts that it appends. -/
theorem contributes_run :
    (d : Directive) → d.appendsOnly → Contributes d.run (Text.visible d.appended)
  | append text, _ => contributes_append text
  | newLine, _ => contributes_newLine
  | newLineIf true, _ => contributes_newLine
  | newLineIf false, _ => contributes_of_eq fun _ => ⟨rfl, rfl, rfl⟩
  | startOnNewLine, _ => contributes_startOnNewLine
  | verticalSpacing, _ => contributes_verticalSpacing
  | indented body, h => (contributes_runAll body h).indented
  | indentedIf condition body, h => (contributes_runAll body h).indentedIf condition
  | indentedIfSpaced body, h => (contributes_runAll body h).indentedIfSpaced
  | aligned body, h => (contributes_runAll body h).aligned
  | spaced mode body, h => (contributes_runAll body h).spaced mode

/-- A script adds what is visible of the texts that it appends. -/
theorem contributes_runAll : (ds : List Directive) → appendsOnlyAll ds →
    Contributes (runAll ds) (Text.visible (appendedAll ds))
  | [], _ => contributes_of_eq fun _ => ⟨rfl, rfl, rfl⟩
  | d :: ds, h => by
    obtain ⟨hd, hds⟩ := Bool.and_eq_true_iff.1 h
    rw [appendedAll, Text.visible_append]
    exact (contributes_run d hd).comp (contributes_runAll ds hds)

end

/-- Whatever a script does without documentation, the text of the page has the visible characters of
the texts that are appended, in their order. -/
theorem visible_text_runAll (ds : List Directive) (width : Nat) (h : appendsOnlyAll ds) :
    Text.visible (runAll ds (.empty width)).text.toList = Text.visible (appendedAll ds) := by
  obtain ⟨hstaged, hvisible⟩ := contributes_runAll ds h (.empty width) rfl
  rw [visible_text hstaged, hvisible]
  rfl

/-- Blanks at the start and at the end of lines are dropped, and so is a line of blanks that an
indentation ends on. -/
theorem visible_text_runAll_nested :
    let ds := [append " a \n\t b", indented [newLine, append "  ", spaced .blankLines
      [verticalSpacing, indentedIfSpaced
        [append "c\n\n", aligned [append " \u2003d"], append "\n "]]],
      startOnNewLine, append "e"]
    appendsOnlyAll ds ∧ (runAll ds (.empty 2)).text = "a\nb\n\n\n    c\n\n    d\ne\n" ∧
      Text.visible (runAll ds (.empty 2)).text.toList = Text.visible (appendedAll ds) := by
  intro ds
  have h : appendsOnlyAll ds := by decide
  exact ⟨h, by decide +kernel, visible_text_runAll ds 2 h⟩

end Directive

end DocExpr
