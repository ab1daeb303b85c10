import DocExpr.Layout.Writer

/-!
# Groupings

A tree is set at least as wide as its parts are (`Expr.wider_spacing`), so whatever asks for lines
of its own gets them from the grouping that it is in. Writing a tree ends the groupings that it
begins (`Expr.modes_write`).
-/

namespace DocExpr

/-! ## Spacings -/

namespace Spacing

/-- A spacing is at least as wide as another one if it is the wider of the two. -/
theorem of_wider_eq {s t : Spacing} (h : s.wider t = t) :
    (t = .inline → s = .inline) ∧ (s = .blankLines → t = .blankLines) := by
  cases s <;> cases t <;> revert h <;> decide

theorem wider_wider_of_eq {s t : Spacing} (h : s.wider t = t) (u : Spacing) :
    s.wider (u.wider t) = u.wider t := by
  cases s <;> cases t <;> cases u <;> revert h <;> decide

end Spacing

namespace Expr

theorem wider_spacingAll {e : Expr} {es : List Expr} (h : e ∈ es) :
    e.spacing.wider (spacingAll es) = spacingAll es := by
  induction es with
  | nil => cases h
  | cons f es ih =>
    rw [spacingAll]
    rcases List.mem_cons.1 h with rfl | h
    · rw [← Spacing.wider_assoc]
      cases e.spacing <;> rfl
    · exact Spacing.wider_wider_of_eq (ih h) f.spacing

/-- A tree is set at least as wide as its parts are. -/
theorem wider_spacing {e c : Expr} (h : c ∈ e.children) :
    c.spacing.wider e.spacing = e.spacing := by
  rw [spacing_eq e]
  exact Spacing.wider_wider_of_eq (wider_spacingAll h) e.ownSpacing

end Expr

/-! ## Writing -/

namespace Page

variable {body : Page → Page}

@[simp] theorem modes_addToLine (p : Page) (fragment : List Char) :
    (p.addToLine fragment).modes = p.modes := by
  unfold addToLine
  split <;> rfl

theorem modes_appendPieces (pieces : List (List Char)) (p : Page) :
    (appendPieces pieces p).modes = p.modes := by
  fun_induction appendPieces pieces p with
  | case1 => rfl
  | case2 piece p => exact p.modes_addToLine piece
  | case3 piece pieces p hn ih => exact ih.trans (p.modes_addToLine piece)

@[simp] theorem modes_append (p : Page) (text : String) : (p.append text).modes = p.modes :=
  modes_appendPieces _ p

@[simp] theorem modes_newLine (p : Page) : p.newLine.modes = p.modes := p.modes_append _

@[simp] theorem modes_startOnNewLine (p : Page) : p.startOnNewLine.modes = p.modes := by
  unfold startOnNewLine
  split <;> simp

@[simp] theorem modes_verticalSpacing (p : Page) : p.verticalSpacing.modes = p.modes := by
  unfold verticalSpacing
  split <;> simp

@[simp] theorem modes_appendLines (lines : List String) (p : Page) :
    (appendLines lines p).modes = p.modes := by
  induction lines generalizing p with
  | nil => rfl
  | cons line lines ih => simp [appendLines, ih]

theorem modes_indentedIfSpaced (h : ∀ q, (body q).modes = q.modes) (p : Page) :
    (p.indentedIfSpaced body).modes = p.modes := by
  unfold indentedIfSpaced indentedIf
  split
  · exact h p.indentMore
  · exact h p

theorem modes_spaced (mode : Spacing) (h : ∀ q, (body q).modes = q.modes) (p : Page) :
    (p.spaced mode body).modes = p.modes := by
  simp [spaced, popMode, pushMode, h]

theorem modes_parenthesized (spacing : Spacing) (h : ∀ q, (body q).modes = q.modes) (p : Page) :
    (p.parenthesized spacing body).modes = p.modes := by
  have hinner : ∀ q : Page, (q.verticalSpacing.indentedIfSpaced body).modes = q.modes := fun q => by
    rw [modes_indentedIfSpaced h, modes_verticalSpacing]
  rw [parenthesized, modes_append, modes_spaced spacing hinner, modes_append]

/-- Parentheses around what is set on lines of its own. -/
theorem parenthesized_of_spaced {spacing : Spacing} (h : spacing ≠ .inline) (p : Page) :
    p.parenthesized spacing body =
      (body ((p.append "(").pushMode spacing).verticalSpacing.indentMore).indentLess.popMode.append
        ")" := by
  have hmode : ((p.append "(").pushMode spacing).verticalSpacing.mode = spacing := by
    rw [mode, modes_verticalSpacing]
    rfl
  have hspaced : (((p.append "(").pushMode spacing).verticalSpacing.mode != .inline) = true := by
    rw [hmode]
    simpa using h
  rw [parenthesized, spaced, indentedIfSpaced, hspaced]
  rfl

end Page

namespace Expr

open Page

mutual

/-- Writing a tree ends the groupings that it begins. -/
theorem modes_write : (e : Expr) → (p : Page) → (e.write p).modes = p.modes
  | atom .., p => by simp [write]
  | block form _ _, p => by cases form <;> simp [write, aligned, popIndent, indentToColumn, stage]
  | suffixed _ item _, p => by simp [write, modes_write item]
  | map item key _, p => by simp [write, modes_write item, modes_write key]
  | call callee arguments _, p => by
    have hcallee := modes_write callee p
    have harguments := modes_write arguments
    cases arguments with
    | group items o => rw [write, modes_parenthesized _ (modes_writeItems items), hcallee]
    | _ =>
      rw [write, modes_parenthesized _ fun q => by rw [modes_verticalSpacing, harguments], hcallee]
      simp
  | array elements _, p => by simp [write, modes_writeSeparated _ elements]
  | group items _, p => by rw [write, modes_parenthesized _ (modes_writeItems items)]
  | chain op operands _, p => by
    cases op <;> simp [write, modes_writeSeparated _ operands,
      modes_spaced _ (modes_writeUnion true operands)]
  | unary _ operand _, p => by simp [write, modes_write operand]

theorem modes_writeSeparated (separator : String) : (es : List Expr) → (p : Page) →
    (writeSeparated separator es p).modes = p.modes
  | [], p => rfl
  | [e], p => by rw [writeSeparated, modes_write e]
  | e :: f :: es, p => by
    rw [writeSeparated, modes_writeSeparated separator (f :: es), modes_append, modes_write e]
    simp

theorem modes_writeItems : (es : List Expr) → (p : Page) → (writeItems es p).modes = p.modes
  | [], p => by rw [writeItems, modes_verticalSpacing]
  | [e], p => by rw [writeItems, modes_verticalSpacing, modes_write e]
  | e :: f :: es, p => by
    rw [writeItems, modes_writeItems (f :: es), modes_verticalSpacing, modes_append, modes_write e]
    simp

theorem modes_writeUnion (first : Bool) :
    (es : List Expr) → (p : Page) → (writeUnion first es p).modes = p.modes
  | [], p => rfl
  | e :: es, p => by
    rw [writeUnion, modes_writeUnion false es, modes_indentedIfSpaced fun q => by
      rw [modes_write e]; split <;> simp]
    simp

end

end Expr

end DocExpr
