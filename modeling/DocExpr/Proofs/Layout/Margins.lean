import DocExpr.Proofs.Layout.Compositional
import DocExpr.Proofs.Layout.Written

/-!
# Margins

How far levels of indentation are apart shows in the blanks at the start of lines and nowhere else
(`Expr.unindented_lines_format`). Two pages with different widths on which the same is written stay
the same behind these blanks (`Page.Reindented`): where a line is broken depends on whether
something is on the line, and what is aligned with the end of a line is only more or less indented.
-/

namespace DocExpr

namespace Text

variable {cs ds : List Char}

/-! ## Texts without margins -/

/-- A text without the blanks at the start of its lines; a flag says whether it starts a line. -/
def unindent : Bool → List Char → List Char
  | _, [] => []
  | start, c :: cs =>
    if c = '\n' then '\n' :: unindent true cs
    else if start && isBlank c then unindent true cs
    else c :: unindent false cs

/-- What is left of the lines of a text are its lines without the blanks at their starts. -/
theorem splitLines_unindent (cs : List Char) : ∃ first others, splitLines cs = first :: others ∧
    splitLines (unindent true cs) = trimStart first :: others.map trimStart ∧
    splitLines (unindent false cs) = first :: others.map trimStart := by
  induction cs with
  | nil => exact ⟨[], [], rfl, rfl, rfl⟩
  | cons c cs ih =>
    obtain ⟨first, others, hlines, hstart, hwithin⟩ := ih
    by_cases hc : c = '\n'
    · exact ⟨[], first :: others,
        by simp [splitLines, hc, hlines], by simp [unindent, splitLines, hc, hstart],
        by simp [unindent, splitLines, hc, hstart]⟩
    · refine ⟨c :: first, others, by simp [splitLines, hc, hlines], ?_,
        by simp [unindent, splitLines, hc, hwithin]⟩
      by_cases hblank : isBlank c
      · simp [unindent, hc, hblank, hstart, trimStart]
      · simp [unindent, splitLines, hc, hblank, hwithin, trimStart]

theorem map_trimStart_splitLines (cs : List Char) :
    (splitLines cs).map trimStart = splitLines (unindent true cs) := by
  obtain ⟨first, others, hlines, hstart, -⟩ := splitLines_unindent cs
  rw [hlines, hstart, List.map_cons]

/-- What is left of a text depends on what is before it only by whether it starts a line. -/
theorem unindent_append (start : Bool) (cs : List Char) :
    ∃ within, ∀ ds, unindent start (cs ++ ds) = unindent start cs ++ unindent within ds := by
  induction cs generalizing start with
  | nil => exact ⟨start, fun ds => rfl⟩
  | cons c cs ih =>
    obtain ⟨afterBreak, hbreak⟩ := ih true
    obtain ⟨afterChar, hchar⟩ := ih false
    by_cases hc : c = '\n'
    · exact ⟨afterBreak, fun ds => by simp [unindent, hc, hbreak]⟩
    · by_cases hblank : (start && isBlank c) = true
      · exact ⟨afterBreak,
          fun ds => by rw [List.cons_append, unindent, if_neg hc, if_pos hblank, hbreak,
          unindent, if_neg hc, if_pos hblank]⟩
      · exact ⟨afterChar,
          fun ds => by rw [List.cons_append, unindent, if_neg hc, if_neg hblank, hchar,
          unindent, if_neg hc, if_neg hblank, List.cons_append]⟩

theorem unindent_newline (start : Bool) (cs ds : List Char) :
    unindent start (cs ++ '\n' :: ds) = unindent start cs ++ '\n' :: unindent true ds := by
  obtain ⟨within, happend⟩ := unindent_append start cs
  rw [happend]
  rfl

theorem unindent_blanks (n : Nat) (cs : List Char) :
    unindent true (Page.blanks n ++ cs) = unindent true cs := by
  induction n with
  | zero => rfl
  | succ n ih => exact ih

theorem allBlank_unindent (start : Bool) (h : allBlank cs) : allBlank (unindent start cs) := by
  induction cs generalizing start with
  | nil => rfl
  | cons c cs ih =>
    obtain ⟨hc, hcs⟩ : isBlank c ∧ allBlank cs := by simpa [allBlank] using h
    unfold unindent
    split
    · simpa [allBlank, show isBlank '\n' by decide] using ih true hcs
    · split
      · exact ih true hcs
      · simpa [allBlank, hc] using ih false hcs

/-- Blanks at the end of a text go away whether or not those at the start of its lines are there. -/
theorem trimEnd_unindent (start : Bool) (cs : List Char) :
    trimEnd (unindent start cs) = unindent start (trimEnd cs) := by
  obtain ⟨tail, hsplit, htail, hlast⟩ := trimEnd_spec cs
  have hkept : ∀ c ∈ (unindent start (trimEnd cs)).getLast?, isBlank c = false := by
    rcases List.eq_nil_or_concat' (trimEnd cs) with h | ⟨init, c, h⟩
    · simp [h, unindent]
    · have hc : isBlank c = false := hlast c (by simp [h])
      have hbreak : c ≠ '\n' := by
        rintro rfl
        exact absurd hc (by decide)
      obtain ⟨within, happend⟩ := unindent_append start init
      rw [h, happend]
      simp [unindent, hbreak, hc]
  obtain ⟨within, happend⟩ := unindent_append start (trimEnd cs)
  have hblank := allBlank_unindent within (List.all_eq_true.2 htail)
  conv_lhs => rw [hsplit, happend, trimEnd_append_blank _ (List.all_eq_true.1 hblank)]
  exact trimEnd_of_getLast hkept

theorem unindent_joinLines {lines lines' : List (List Char)}
    (h : lines.map (unindent true) = lines'.map (unindent true)) :
    unindent true (joinLines lines) = unindent true (joinLines lines') := by
  have hjoin : ∀ lines : List (List Char),
      unindent true (joinLines lines) = joinLines (lines.map (unindent true)) := by
    intro lines
    induction lines with
    | nil => rfl
    | cons line lines ih =>
      by_cases hn : lines = []
      · subst hn
        rfl
      · rw [joinLines_cons hn, unindent_newline, ih, List.map_cons,
          joinLines_cons (by simpa using hn)]
  rw [hjoin, hjoin, h]

/-- Whether two lines are the same behind blanks. -/
def Offset (line line' : List Char) : Prop :=
  ∃ m n rest, line = Page.blanks m ++ rest ∧ line' = Page.blanks n ++ rest

theorem Offset.refl (line : List Char) : Offset line line := ⟨0, 0, line, rfl, rfl⟩

theorem Offset.append {line line' : List Char} (h : Offset line line') (rest : List Char) :
    Offset (line ++ rest) (line' ++ rest) := by
  obtain ⟨m, n, common, rfl, rfl⟩ := h
  exact ⟨m, n, common ++ rest, by rw [List.append_assoc], by rw [List.append_assoc]⟩

theorem Offset.allBlank {line line' : List Char} (h : Offset line line') :
    allBlank line = allBlank line' := by
  obtain ⟨m, n, common, rfl, rfl⟩ := h
  have hall : ∀ k, Text.allBlank (Page.blanks k ++ common) = Text.allBlank common := fun k => by
    rw [allBlank_append, Page.allBlank_blanks, Bool.true_and]
  rw [hall, hall]

theorem Offset.unindent {line line' : List Char} (h : Offset line line') :
    unindent true line = unindent true line' := by
  obtain ⟨m, n, common, rfl, rfl⟩ := h
  rw [unindent_blanks, unindent_blanks]

/-- What is left of a blank line is nothing, however far it is indented. -/
theorem Offset.trimEnd {line line' : List Char} (h : Offset line line') :
    Offset (trimEnd line) (trimEnd line') := by
  by_cases hblank : Text.allBlank line
  · rw [trimEnd_of_allBlank hblank, trimEnd_of_allBlank (h.allBlank ▸ hblank)]
    exact .refl []
  · obtain ⟨m, n, common, rfl, rfl⟩ := h
    have hcommon : Text.allBlank common = false := by
      rw [allBlank_append, Page.allBlank_blanks, Bool.true_and] at hblank
      exact Bool.eq_false_iff.2 hblank
    rw [trimEnd_append_of_visible _ hcommon, trimEnd_append_of_visible _ hcommon]
    exact ⟨m, n, Text.trimEnd common, rfl, rfl⟩

end Text

namespace Page

variable {p q : Page} {body : Page → Page}

/-- Whether two pages are the same apart from indentation. -/
structure Reindented (p q : Page) : Prop where
  above : p.above.map (Text.unindent true) = q.above.map (Text.unindent true)
  line : Text.Offset p.line q.line
  begun : p.line.isEmpty = q.line.isEmpty
  staged : p.staged = q.staged
  modes : p.modes = q.modes

namespace Reindented

theorem addToLine (h : Reindented p q) (fragment : List Char) :
    Reindented (p.addToLine fragment) (q.addToLine fragment) := by
  unfold Page.addToLine
  rw [h.begun]
  split
  · next hstart =>
    obtain ⟨-, hvisible⟩ := Bool.and_eq_true_iff.1 hstart
    have hrest : Text.trimStart fragment ≠ [] :=
      Text.ne_nil_of_visible ((Text.allBlank_trimStart fragment).trans (by simpa using hvisible))
    exact {
      above := h.above
      line := ⟨p.indent, q.indent, _, rfl, rfl⟩
      begun := by rw [Bool.eq_iff_iff, List.isEmpty_iff, List.isEmpty_iff]; simp [hrest]
      staged := h.staged
      modes := h.modes }
  · exact {
      above := h.above
      line := h.line.append fragment
      begun := by
        have hbegun := h.begun
        rw [Bool.eq_iff_iff, List.isEmpty_iff, List.isEmpty_iff] at hbegun ⊢
        simp [hbegun]
      staged := h.staged
      modes := h.modes }

theorem finishLine (h : Reindented p q) : Reindented p.finishLine q.finishLine where
  above := by
    have hcode := h.line.trimEnd
    have hlines : (documented (Text.trimEnd p.line) p.staged).map (Text.unindent true) =
        (documented (Text.trimEnd q.line) q.staged).map (Text.unindent true) := by
      rw [h.staged]
      cases q.staged with
      | nil => simp [documented, hcode.unindent]
      | cons first others =>
        simp [documented, (hcode.append (Text.trimEnd first)).unindent, Function.comp_def,
          Text.unindent_blanks]
    simp [Page.finishLine, hlines, h.above]
  line := .refl []
  begun := rfl
  staged := rfl
  modes := h.modes

theorem append (h : Reindented p q) (text : String) :
    Reindented (p.append text) (q.append text) := by
  have hpieces : ∀ (pieces : List (List Char)) {p q : Page}, Reindented p q →
      Reindented (appendPieces pieces p) (appendPieces pieces q) := by
    intro pieces
    induction pieces with
    | nil => exact fun h => h
    | cons piece pieces ih =>
      intro p q h
      cases pieces with
      | nil => exact h.addToLine piece
      | cons next pieces => exact ih (h.addToLine piece).finishLine
  exact hpieces _ h

theorem congr {p' q' : Page} (h : Reindented p q)
    (hp : p'.above = p.above ∧ p'.line = p.line ∧ p'.staged = p.staged)
    (hq : q'.above = q.above ∧ q'.line = q.line ∧ q'.staged = q.staged)
    (hmodes : p'.modes = q'.modes) :
    Reindented p' q' where
  above := by rw [hp.1, hq.1, h.above]
  line := by rw [hp.2.1, hq.2.1]; exact h.line
  begun := by rw [hp.2.1, hq.2.1, h.begun]
  staged := by rw [hp.2.2, hq.2.2, h.staged]
  modes := hmodes

theorem indentLess (h : Reindented p q) : Reindented p.indentLess q.indentLess := by
  by_cases hblank : Text.allBlank p.line
  · have hblank' : Text.allBlank q.line := h.line.allBlank ▸ hblank
    exact {
      above := h.above
      line := by simp [Page.indentLess, hblank, hblank', Text.Offset.refl]
      begun := by simp [Page.indentLess, hblank, hblank']
      staged := h.staged
      modes := h.modes }
  · have hblank' : ¬Text.allBlank q.line := h.line.allBlank ▸ hblank
    exact h.congr ⟨rfl, by simp [Page.indentLess, hblank], rfl⟩
      ⟨rfl, by simp [Page.indentLess, hblank'], rfl⟩ h.modes

theorem text (h : Reindented p q) :
    Text.unindent true p.text.toList = Text.unindent true q.text.toList := by
  have hfinished : Reindented p.finished q.finished := by
    unfold finished
    rw [h.begun, h.staged]
    split
    · exact h
    · exact h.finishLine
  have habove : p.finished.above.reverse.map (Text.unindent true) =
      q.finished.above.reverse.map (Text.unindent true) := by
    rw [List.map_reverse, List.map_reverse, hfinished.above]
  rw [Page.text, Page.text, String.toList_ofList, String.toList_ofList, Text.unindent_newline,
    Text.unindent_newline, ← Text.trimEnd_unindent, ← Text.trimEnd_unindent,
    Text.unindent_joinLines habove]

end Reindented

/-- Pages that are the same apart from indentation stay so, whatever is written on them. -/
theorem parallel_reindented :
    Parallel (fun (_ : Unit) p q => Reindented p q) (fun _ => True) fun _ => True where
  fixed := fun _ _ => trivial
  mode := fun h => by rw [mode, mode, h.modes]
  begun := fun h => h.begun
  append := fun {_ _ _ text} _ h => h.append text
  stage := fun _ h => { h with staged := rfl }
  indented := fun h => ⟨(), h.congr ⟨rfl, rfl, rfl⟩ ⟨rfl, rfl, rfl⟩ h.modes, fun h => h.indentLess⟩
  aligned := fun h => ⟨(), h.congr ⟨rfl, rfl, rfl⟩ ⟨rfl, rfl, rfl⟩ h.modes,
    fun h => h.congr ⟨rfl, rfl, rfl⟩ ⟨rfl, rfl, rfl⟩ h.modes⟩
  spaced := fun mode h =>
    ⟨(), h.congr ⟨rfl, rfl, rfl⟩ ⟨rfl, rfl, rfl⟩ (congrArg (mode :: ·) h.modes),
      fun h => h.congr ⟨rfl, rfl, rfl⟩ ⟨rfl, rfl, rfl⟩ (congrArg List.tail h.modes)⟩

end Page

namespace Expr

open Page

/-- The text of a tree has as many lines with one indentation as with another, and they are the same
from their first visible characters on; so has the text of the items of a file. -/
theorem unindented_lines_format (e : Expr) (width width' : Nat) :
    (Text.splitLines (e.format width).toList).map Text.trimStart =
        (Text.splitLines (e.format width').toList).map Text.trimStart ∧
      (Text.splitLines (e.formatItems width).toList).map Text.trimStart =
        (Text.splitLines (e.formatItems width').toList).map Text.trimStart := by
  have hleaves : ∀ n ∈ e.preorder, n.LeafOf (fun _ => True) fun _ => True := by
    intro n _
    cases n with
    | block form => cases form <;> simp [LeafOf]
    | _ => trivial
  have hempty : Reindented (.empty width) (.empty width') := ⟨rfl, .refl [], rfl, rfl, rfl⟩
  have hwrite : Reindented (e.write (.empty width)) (e.write (.empty width')) :=
    parallel_reindented.compositional.write e hleaves (i := ()) hempty
  have hfile : Reindented (e.writeFile (.empty width)) (e.writeFile (.empty width')) :=
    parallel_reindented.compositional.writeFile e hleaves (i := ()) hempty
  simp only [Text.map_trimStart_splitLines]
  exact ⟨congrArg Text.splitLines hwrite.text, congrArg Text.splitLines hfile.text⟩

end Expr

end DocExpr
