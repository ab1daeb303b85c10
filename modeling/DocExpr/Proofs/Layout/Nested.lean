import DocExpr.Proofs.Layout.Ended

/-!
# Groups and their items

A group that is set on lines of its own is written as its items are written as those of a file, one
level deeper and between parentheses (`Goal.format_group`), unless it has documentation behind
something. Two pages of which one is the other one below some lines and moved to the right stay so,
whatever is written on both (`Page.parallel_deepened`), and what the last item writes ends in
something visible, so that only the spacing stands between it and the closing parenthesis.
-/

namespace DocExpr

open Text

namespace Page

variable {p q : Page} {n : Nat} {top : List (List Char)} {indents : List Nat}

/-! ## Lines moved to the right -/

/-- A line moved to the right, unless nothing is visible on it. -/
def deepen (n : Nat) (line : List Char) : List Char :=
  if allBlank line then line else blanks n ++ line

theorem deepen_nil (n : Nat) : deepen n [] = [] := rfl

theorem deepen_of_visible (n : Nat) {line : List Char} (h : allBlank line = false) :
    deepen n line = blanks n ++ line := by
  simp [deepen, h]

theorem allBlank_deepen (n : Nat) (line : List Char) :
    allBlank (deepen n line) = allBlank line := by
  unfold deepen
  split
  · rfl
  · rw [allBlank_append, allBlank_blanks, Bool.true_and]

theorem trimEnd_deepen (n : Nat) (line : List Char) :
    trimEnd (deepen n line) = deepen n (trimEnd line) := by
  cases h : allBlank line with
  | true =>
    rw [trimEnd_of_allBlank ((allBlank_deepen n line).trans h), trimEnd_of_allBlank h]
    rfl
  | false =>
    rw [deepen_of_visible n h, deepen_of_visible n ((allBlank_trimEnd line).trans h),
      trimEnd_append_of_visible _ h]

theorem blanks_add (m n : Nat) : blanks (m + n) = blanks m ++ blanks n := List.replicate_add m n ' '

/-- Writing behind the line under construction changes nothing else. -/
theorem addToLine_eq (p : Page) (fragment : List Char) :
    p.addToLine fragment = { p with line := (p.addToLine fragment).line } := by
  unfold addToLine
  split <;> rfl

/-- Whether all lines of a text have something visible on them or are empty. -/
def NoBlankLine (text : String) : Prop :=
  ∀ line ∈ splitLines text.toList, line = [] ∨ allBlank line = false

instance : DecidablePred NoBlankLine := fun text =>
  inferInstanceAs (Decidable (∀ line ∈ splitLines text.toList, line = [] ∨ allBlank line = false))

/-- Whether a page is another one below some lines and moved to the right. -/
structure Deepened (n : Nat) (top : List (List Char)) (indents : List Nat) (p q : Page) : Prop where
  above : q.above = p.above.map (deepen n) ++ top
  line : q.line = deepen n p.line
  visible : p.line = [] ∨ allBlank p.line = false
  unbroken : '\n' ∉ p.line ∧ ∀ line ∈ p.above, '\n' ∉ line
  unstaged : p.staged = [] ∧ q.staged = []
  modes : p.modes = q.modes
  width : p.width = q.width
  indents : p.indents = indents ∧ q.indents = indents.map (· + n) ++ [0] ∧ indents ≠ []

namespace Deepened

theorem begun (h : Deepened n top indents p q) : p.line.isEmpty = q.line.isEmpty := by
  rw [h.line]
  rcases h.visible with hline | hline
  · rw [hline]
    rfl
  · have hn := ne_nil_of_visible hline
    rw [deepen_of_visible n hline, List.isEmpty_eq_false_iff.2 hn, eq_comm,
      List.isEmpty_eq_false_iff]
    exact List.append_ne_nil_of_right_ne_nil _ hn

theorem indent (h : Deepened n top indents p q) : q.indent = n + p.indent := by
  obtain ⟨hp, hq, hn⟩ := h.indents
  obtain ⟨first, others, rfl⟩ := List.exists_cons_of_ne_nil hn
  rw [Page.indent, Page.indent, hp, hq]
  exact Nat.add_comm first n

theorem addToLine (h : Deepened n top indents p q) {piece : List Char} (hline : '\n' ∉ piece)
    (hpiece : piece = [] ∨ allBlank piece = false) :
    Deepened n top indents (p.addToLine piece) (q.addToLine piece) := by
  rcases hpiece with rfl | hpiece
  · rwa [addToLine_nil, addToLine_nil]
  have hvisible := p.allBlank_addToLine hpiece
  have hadded : '\n' ∉ (p.addToLine piece).line ∧
      (q.addToLine piece).line = blanks n ++ (p.addToLine piece).line := by
    by_cases hp : p.line = []
    · have hq : q.line = [] := by rw [h.line, hp, deepen_nil]
      have hblank : '\n' ∉ blanks p.indent :=
        fun hm => absurd (List.eq_of_mem_replicate hm) (by decide)
      have htrim : '\n' ∉ trimStart piece := fun hm => hline ((List.dropWhile_suffix _).subset hm)
      rw [line_addToLine_of_nil hp hpiece, line_addToLine_of_nil hq hpiece, h.indent, blanks_add]
      exact ⟨fun hm => (List.mem_append.1 hm).elim hblank htrim, List.append_assoc ..⟩
    · have hq := h.line
      rw [deepen_of_visible n (h.visible.resolve_left hp)] at hq
      rw [line_addToLine hp, line_addToLine (by simp [hq, hp]), hq, List.append_assoc]
      exact ⟨fun hm => (List.mem_append.1 hm).elim h.unbroken.1 hline, rfl⟩
  rw [p.addToLine_eq, q.addToLine_eq]
  exact { h with
    line := by rw [deepen_of_visible n hvisible, hadded.2]
    visible := .inr hvisible
    unbroken := ⟨hadded.1, h.unbroken.2⟩ }

theorem finishLine (h : Deepened n top indents p q) :
    Deepened n top indents p.finishLine q.finishLine where
  above := by simp [Page.finishLine, h.unstaged, documented, h.above, h.line, trimEnd_deepen]
  line := rfl
  visible := .inl rfl
  unbroken := by
    have htrim : '\n' ∉ trimEnd p.line := fun hm => h.unbroken.1 (by
      obtain ⟨tail, hsplit, -⟩ := trimEnd_spec p.line
      exact hsplit ▸ List.mem_append_left _ hm)
    simpa [Page.finishLine, h.unstaged, documented, htrim] using h.unbroken.2
  unstaged := ⟨rfl, rfl⟩
  modes := h.modes
  width := h.width
  indents := h.indents

theorem append (h : Deepened n top indents p q) {text : String} (ht : NoBlankLine text) :
    Deepened n top indents (p.append text) (q.append text) := by
  have hpieces : ∀ (pieces : List (List Char)) {p q : Page}, Deepened n top indents p q →
      (∀ piece ∈ pieces, '\n' ∉ piece ∧ (piece = [] ∨ allBlank piece = false)) →
      Deepened n top indents (appendPieces pieces p) (appendPieces pieces q) := by
    intro pieces
    induction pieces with
    | nil => exact fun h _ => h
    | cons piece pieces ih =>
      intro p q h ht
      obtain ⟨⟨hline, hpiece⟩, hrest⟩ := List.forall_mem_cons.1 ht
      cases pieces with
      | nil => exact h.addToLine hline hpiece
      | cons next pieces => exact ih (h.addToLine hline hpiece).finishLine hrest
  exact hpieces _ h fun piece hm => ⟨not_mem_of_mem_splitLines _ piece hm, ht piece hm⟩

theorem indentMore (h : Deepened n top indents p q) :
    Deepened n top ((p.indent + p.width) :: indents) p.indentMore q.indentMore := { h with
  indents := by
    obtain ⟨hp, hq, -⟩ := h.indents
    refine ⟨by simp [Page.indentMore, hp], ?_, List.cons_ne_nil _ _⟩
    simp [Page.indentMore, hq, h.indent, h.width]
    omega }

/-- Behind a part that was written one level deeper, the indentation is what it was before it. -/
theorem indentLess {first : Nat} (h : Deepened n top (first :: indents) p q) (hn : indents ≠ []) :
    Deepened n top indents p.indentLess q.indentLess := by
  obtain ⟨hp, hq, -⟩ := h.indents
  obtain ⟨second, others, rfl⟩ := List.exists_cons_of_ne_nil hn
  exact { h with
    line := by
      simp only [Page.indentLess, h.line, allBlank_deepen]
      split <;> rfl
    visible := by
      cases hline : allBlank p.line <;> simp [Page.indentLess, hline]
    unbroken := by
      refine ⟨?_, h.unbroken.2⟩
      simp only [Page.indentLess]
      split
      · exact List.not_mem_nil
      · exact h.unbroken.1
    indents :=
      ⟨by simp [Page.indentLess, hp], by simp [Page.indentLess, hq], List.cons_ne_nil _ _⟩ }

theorem indentToColumn (h : Deepened n top indents p q) :
    Deepened n top ((if p.line.isEmpty then p.indent else p.line.length) :: indents)
      p.indentToColumn q.indentToColumn := { h with
  indents := by
    obtain ⟨hp, hq, -⟩ := h.indents
    have hcolumn : (if q.line.isEmpty then q.indent else q.line.length) =
        (if p.line.isEmpty then p.indent else p.line.length) + n := by
      rw [← h.begun, h.line, h.indent]
      split
      · exact Nat.add_comm n p.indent
      · next hline =>
        rw [deepen_of_visible n (h.visible.resolve_left (by simpa using hline)),
          List.length_append, blanks, List.length_replicate]
        exact Nat.add_comm n p.line.length
    refine ⟨by simp [Page.indentToColumn, hp], ?_, List.cons_ne_nil _ _⟩
    rw [Page.indentToColumn, hcolumn, hq]
    rfl }

theorem popIndent {first : Nat} (h : Deepened n top (first :: indents) p q) (hn : indents ≠ []) :
    Deepened n top indents p.popIndent q.popIndent := { h with
  indents := by
    obtain ⟨hp, hq, -⟩ := h.indents
    exact ⟨by simp [Page.popIndent, hp], by simp [Page.popIndent, hq], hn⟩ }

/-- Behind the last line break of a group, the closing parenthesis has a line of its own. -/
theorem close (h : Deepened n top [0] p q) (hline : p.line = []) :
    (q.indentLess.popMode.append ")").line = [')'] ∧
    (q.indentLess.popMode.append ")").above = q.above ∧
      (q.indentLess.popMode.append ")").staged = [] := by
  have hempty : q.indentLess.popMode.line = [] := by
    simp [popMode, Page.indentLess, h.line, hline, deepen_nil, allBlank]
  have hindent : q.indentLess.popMode.indent = 0 := by
    simp [Page.indent, popMode, Page.indentLess, h.indents.2.1]
  rw [append_of_not_mem (by decide)]
  refine ⟨?_, ?_⟩
  · rw [line_addToLine_of_nil hempty (by decide), hindent]
    rfl
  · rw [addToLine_eq]
    exact ⟨rfl, h.unstaged.2⟩

end Deepened

/-- Two pages of which one is the other one below some lines and moved to the right stay so. -/
theorem parallel_deepened (n : Nat) (top : List (List Char)) :
    Parallel (Deepened n top) NoBlankLine fun _ => False where
  fixed := by decide
  mode := fun h => by rw [mode, mode, h.modes]
  begun := fun h => h.begun
  append := fun ht h => h.append ht
  stage := fun hf => hf.elim
  indented := fun h => ⟨_, h.indentMore, fun h' => h'.indentLess h.indents.2.2⟩
  aligned := fun h => ⟨_, h.indentToColumn, fun h' => h'.popIndent h.indents.2.2⟩
  spaced := fun mode h => ⟨_, { h with modes := congrArg (mode :: ·) h.modes },
    fun h' => { h' with modes := congrArg List.tail h'.modes }⟩

/-! ## Groups -/

/-- Where the first item of a group is written, the page is that of a file with the parenthesis
above it. -/
theorem deepened_group {spacing : Spacing} (h : spacing ≠ .inline) (width : Nat) :
    Deepened width (spacing.gap ++ [['(']]) [0] ((empty width).pushMode spacing)
      (((empty width).append "(").pushMode spacing).verticalSpacing.indentMore := by
  cases spacing with
  | inline => exact absurd rfl h
  | lines | blankLines =>
    exact ⟨rfl, rfl, .inl rfl, ⟨List.not_mem_nil, by simp [pushMode, empty]⟩, ⟨rfl, rfl⟩, rfl,
      rfl, rfl, rfl,
      List.cons_ne_nil 0 []⟩

/-- The text of a page whose last line ends visibly. -/
theorem text_of_line (hline : EndsVisibly p.line) (hstaged : p.staged = []) :
    p.text.toList = joinLines (p.above.reverse ++ [p.line]) ++ ['\n'] := by
  have htrim : trimEnd p.line = p.line := by
    obtain ⟨c, hlast, hc⟩ := hline
    exact trimEnd_of_getLast fun d hd =>
      Option.some.inj ((Option.mem_def.1 hlast).symm.trans hd) ▸ hc
  have hbegun : p.line.isEmpty = false := by
    rw [List.isEmpty_eq_false_iff]
    exact ne_nil_of_visible hline.allBlank
  rw [text, finished, hbegun, Bool.false_and, if_neg Bool.false_ne_true, finishLine, hstaged,
    documented, htrim, String.toList_ofList, List.singleton_append, List.reverse_cons,
    hline.joinLines]

/-- The text of a page whose last line is followed by a break and by the blank lines of a
spacing. -/
theorem text_of_gap {spacing : Spacing} {last : List Char} {above : List (List Char)}
    (hline : p.line = []) (hstaged : p.staged = [])
    (habove : p.above = spacing.gap ++ last :: above) (hlast : EndsVisibly last) :
    p.text.toList = joinLines (above.reverse ++ [last]) ++ ['\n'] := by
  have htext : p.text.toList = trimEnd (joinLines p.above.reverse) ++ ['\n'] := by
    simp [text, finished, hline, hstaged]
  rw [htext, habove, List.reverse_append, List.reverse_cons]
  cases spacing with
  | inline | lines => rw [Spacing.gap, List.reverse_nil, List.append_nil, hlast.joinLines]
  | blankLines =>
    rw [Spacing.gap, List.reverse_singleton, joinLines_append (by simp) (by simp),
      trimEnd_append_blank _ (by decide), hlast.joinLines]

end Page

namespace Expr

open Page

variable {items : List Expr} {o : Origin}

theorem ne_nil_of_spacing (h : (group items o).spacing ≠ .inline) : items ≠ [] := by
  rintro rfl
  exact h rfl

/-- What is written below the opening parenthesis of a group is what is written for its items as
those of a file, one level deeper, and the spacing is behind the last line. -/
theorem exists_deepened (he : (group items o).Admissible)
    (hbare : ∀ n ∈ (group items o).preorder, n.Bare)
    {spacing : Spacing} (hspacing : spacing ≠ .inline) (hn : items ≠ []) (width : Nat) :
    ∃ p q last above, p = writeItems items ((empty width).pushMode spacing) ∧
      q = writeItems items
        (((empty width).append "(").pushMode spacing).verticalSpacing.indentMore ∧
      Deepened width (spacing.gap ++ [['(']]) [0] p q ∧ p.line = [] ∧
      p.above = spacing.gap ++ last :: above ∧ EndsVisibly last := by
  obtain ⟨hnode, hparts⟩ := forall_preorder.1 hbare
  have hclosed : ∀ text : String, Closed text.toList → NoBlankLine text :=
    fun text h line hm => .inr (h line hm).allBlank
  have hleaves : ∀ e ∈ items, ∀ n ∈ e.preorder, n.LeafOf NoBlankLine fun _ => False :=
    fun e hm n hn => (hparts e hm n hn).leafOf hclosed
  have hends : ∀ e ∈ items, e.Ends := fun e hm => ends_of_bare (he.child hm) (hparts e hm)
  obtain ⟨q, hq, hmodes, hwrite⟩ :=
    exists_writeItems (p := (empty width).pushMode spacing) hn hends rfl
  have hmode : q.mode = spacing := by
    rw [mode, hmodes]
    rfl
  obtain ⟨hline, -, last, above, habove, hlast⟩ := hq.verticalSpacing (hmode ▸ hspacing)
  rw [hmode, ← hwrite] at habove
  rw [← hwrite] at hline
  exact ⟨_, _, last, above, rfl, rfl,
    (parallel_deepened width _).compositional.writeItems items hleaves
    (deepened_group hspacing width), hline, habove, hlast⟩

theorem reverse_gap (spacing : Spacing) : spacing.gap.reverse = spacing.gap := by
  cases spacing <;> rfl

theorem map_deepen_gap (spacing : Spacing) (n : Nat) :
    spacing.gap.map (deepen n) = spacing.gap := by
  cases spacing <;> rfl

theorem endsVisibly_parenthesis : EndsVisibly [')'] := by decide

/-- The lines of the items of a group as those of a file, and the lines of the group. -/
theorem exists_lines_group (he : (group items o).Admissible)
    (hbare : ∀ n ∈ (group items o).preorder, n.Bare)
    (hspacing : (group items o).spacing ≠ .inline) (width : Nat) :
    ∃ lines : List (List Char), lines ≠ [] ∧
      (∀ line ∈ lines, '\n' ∉ line) ∧
      ((group items o).formatItems width).toList = joinLines lines ++ ['\n'] ∧
      ((group items o).format width).toList = joinLines ([['(']] ++ (group items o).spacing.gap ++
        lines.map (deepen width) ++ (group items o).spacing.gap ++ [[')']]) ++ ['\n'] := by
  obtain ⟨p, q, last, above, hp, hq, hdeep, hline, habove, hlast⟩ :=
    exists_deepened he hbare hspacing (ne_nil_of_spacing hspacing) width
  have hwrite : (group items o).write (empty width) = q.indentLess.popMode.append ")" := by
    rw [write, parenthesized_of_spaced hspacing, hq]
  obtain ⟨hclose, habove', hstaged⟩ := hdeep.close hline
  refine ⟨above.reverse ++ [last], by simp, fun line hm => ?_, ?_, ?_⟩
  · refine hdeep.unbroken.2 line (habove ▸ List.mem_append_right _ ?_)
    simpa using List.mem_reverse.2 hm
  · have hfile : (group items o).formatItems width = p.popMode.text := by
      rw [hp]
      rfl
    rw [hfile]
    exact text_of_gap (p := p.popMode) hline hdeep.unstaged.1 habove hlast
  · rw [format, hwrite, text_of_line (hclose ▸ endsVisibly_parenthesis) hstaged, hclose, habove',
      hdeep.above, habove]
    simp [reverse_gap, map_deepen_gap]

end Expr

/-- A group that is set on lines of its own, with no documentation behind something, is written as
its items as those of a file: between parentheses, with the blank lines of its spacing, and one
level deeper. -/
theorem Goal.format_group (goal : Goal) (text file : String) (e : Expr) (width : Nat)
    (h : parseAs goal text file = .ok e) (hgroup : e.isGroup)
    (hdocs : ∀ n ∈ e.preorder, n.isBlock .trailing = false) (hspacing : e.spacing ≠ .inline) :
    (e.format width).toList = joinLines ([['(']] ++ e.spacing.gap ++
      (splitLines (e.formatItems width).toList).dropLast.map (Page.deepen width) ++ e.spacing.gap ++
        [[')']]) ++ ['\n'] := by
  cases e with
  | group items o =>
    obtain ⟨lines, hn, hunbroken, hfile, hformat⟩ :=
      Expr.exists_lines_group (Goal.parseAs_spelled h).1
        (Goal.bare_of_parseAs h hdocs) hspacing width
    have hlines : (splitLines ((Expr.group items o).formatItems width).toList).dropLast =
        lines := by
      rw [hfile, splitLines_append, splitLines_joinLines hn hunbroken]
      exact List.dropLast_concat
    rw [hformat, hlines]
  | _ => cases hgroup

/-- A union, a literal with a line break, and back-ticked lines below the end of a line move
together; blank lines stay blank. -/
theorem Goal.format_group_nested :
    let text := "// a\nx | y | z, \"s\\\n  t\",\nf(`l\n`m\n)"
    let written := "(\n\n\n      // a\n      x\n\n      | y\n\n      | z,\n\n" ++
      "   \"s\\\n   t\",\n\n   f(`l\n     `m\n   )\n\n)\n"
    ∃ e, parseAs .items text "" = .ok e ∧ e.isGroup ∧
      (∀ n ∈ e.preorder, n.isBlock .trailing = false) ∧
      e.spacing ≠ .inline ∧
      e.format 3 = written ∧
      (e.format 3).toList = joinLines ([['(']] ++ e.spacing.gap ++
        (splitLines (e.formatItems 3).toList).dropLast.map (Page.deepen 3) ++ e.spacing.gap ++
          [[')']]) ++ ['\n'] := by
  intro text written
  obtain ⟨e, he, hgroup, hdocs, hspacing, hformat⟩ := exists_of_toOption
    (r := parseAs .items text "")
    (P := fun e => e.isGroup ∧ (∀ n ∈ e.preorder, n.isBlock .trailing = false) ∧
      e.spacing ≠ .inline ∧ e.format 3 = written) (by decide +kernel)
  exact ⟨e, he, hgroup, hdocs, hspacing, hformat,
    Goal.format_group .items text "" e 3 he hgroup hdocs hspacing⟩

end DocExpr
