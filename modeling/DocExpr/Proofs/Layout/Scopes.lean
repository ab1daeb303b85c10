import DocExpr.Proofs.Comments.Script
import DocExpr.Proofs.Layout.Compositional
import DocExpr.Proofs.Layout.Groupings

/-!
# Scopes

Indentations and groupings end where they begin: behind whatever is done with a page, the two stacks
are what they were before it (`Page.Restores`). This holds of all that a script does, and of all
that is done inside of that down to the texts of the leaves of a tree (`Directive.Does`): a
directive with a scope does what is inside of it between the begin and the end of the scope
(`Directive.run_of_isScope`). So a page on which no part is being written has no indentation and
breaks no lines (`Directive.stacks_restored`).
-/

namespace DocExpr

/-! ## What is done inside of a directive -/

namespace Expr

open Directive

/-- Writing lines, each with a line break behind it. -/
def lineOperations (lines : List String) : List Directive :=
  lines.flatMap fun line => [.append line, .newLine]

/-- Writing trees, with something done between each two. -/
def separatedOperations (between : List Directive) : List Expr → List Directive
  | [] => []
  | [e] => [.write e]
  | e :: es => .write e :: (between ++ separatedOperations between es)

/-- Writing items. -/
def itemOperations (items : List Expr) : List Directive :=
  separatedOperations [.append ", ", .verticalSpacing] items ++ [.verticalSpacing]

/-- Writing the operands of a union. -/
def unionOperations (first : Bool) : List Expr → List Directive
  | [] => []
  | e :: es =>
    .verticalSpacing :: .indentedIfSpaced ((if first then [] else [.append " | "]) ++ [.write e]) ::
      unionOperations false es

/-- What is done to write a tree. Its parts are written as trees of their own. -/
def operations : Expr → List Directive
  | atom _ text _ => [.append text]
  | block .leading lines _ => lineOperations lines
  | block .trailing lines _ => [.stage (lines.map fun line => "  " ++ line)]
  | block .multiline lines _ => [.aligned (lineOperations lines)]
  | suffixed form item _ => [.write item, .append form.text]
  | map item key _ => [.write item, .append "\x7b", .write key, .append "\x7d"]
  | call callee arguments _ =>
    .write callee :: parenthesized arguments.spacing (itemOperations arguments.items)
  | array elements _ =>
    [.append "["] ++ separatedOperations [.append ", "] elements ++ [.append "]"]
  | e@(group items _) => parenthesized e.spacing (itemOperations items)
  | e@(chain .union operands _) => [.spaced e.spacing (unionOperations true operands)]
  | chain op operands _ => separatedOperations [.append op.separator] operands
  | unary op operand _ => [.append op.text, .write operand]

theorem runAll_lineOperations (lines : List String) :
    runAll (lineOperations lines) = Page.appendLines lines := by
  funext p
  induction lines generalizing p with
  | nil => rfl
  | cons line lines ih => exact ih (p.append line).newLine

theorem runAll_separatedOperations (separator : String) (es : List Expr) :
    runAll (separatedOperations [.append separator] es) = writeSeparated separator es := by
  funext p
  induction es generalizing p with
  | nil => rfl
  | cons e es ih =>
    cases es with
    | nil => rfl
    | cons f es => exact ih ((e.write p).append separator)

theorem runAll_itemOperations (items : List Expr) :
    runAll (itemOperations items) = writeItems items := by
  funext p
  induction items generalizing p with
  | nil => rfl
  | cons e items ih =>
    cases items with
    | nil => rfl
    | cons f items => exact ih ((e.write p).append ", ").verticalSpacing

theorem runAll_unionOperations (first : Bool) (operands : List Expr) :
    runAll (unionOperations first operands) = writeUnion first operands := by
  funext p
  induction operands generalizing first p with
  | nil => rfl
  | cons e es ih =>
    have hoperand : runAll ((if first then [] else [.append " | "]) ++ [.write e]) =
        fun p => e.write (if first then p else p.append " | ") := by
      cases first <;> rfl
    rw [unionOperations, writeUnion, ← ih, ← hoperand]
    rfl

/-- Doing what writing a tree consists of is writing it. -/
theorem runAll_operations (e : Expr) : runAll e.operations = e.write := by
  funext p
  cases e with
  | atom | suffixed | map | unary => rfl
  | block form lines o =>
    cases form with
    | leading => exact congrFun (runAll_lineOperations lines) p
    | trailing => rfl
    | multiline =>
      show p.aligned (runAll (lineOperations lines)) = _
      rw [runAll_lineOperations]
      rfl
  | call callee arguments o =>
    show (callee.write p).parenthesized arguments.spacing
        (runAll (itemOperations arguments.items)) = _
    rw [runAll_itemOperations]
    cases arguments <;> rfl
  | array elements o =>
    rw [operations, runAll_append, runAll_append, runAll_separatedOperations]
    rfl
  | group items o =>
    rw [operations, runAll_parenthesized, runAll_itemOperations, write]
  | chain op operands o =>
    have hseparated := congrFun (runAll_separatedOperations op.separator operands) p
    cases op with
    | union =>
      show p.spaced _ (runAll (unionOperations true operands)) = _
      rw [runAll_unionOperations]
      rfl
    | _ => exact hseparated

end Expr

namespace Directive

open DocExpr.Expr

/-- Whether something else is done inside of a directive. -/
def isScope : Directive → Bool
  | append _ | newLine | newLineIf _ | startOnNewLine | verticalSpacing | stage _ => false
  | indented _ | indentedIf .. | indentedIfSpaced _ | aligned _ | spaced .. | write _
  | writeFile _ => true

/-- What is done inside of a directive. -/
def inside : Directive → List Directive
  | append _ | newLine | newLineIf _ | startOnNewLine | verticalSpacing | stage _ => []
  | indented body | indentedIf _ body | indentedIfSpaced body | aligned body | spaced _ body => body
  | write e => e.operations
  | writeFile e => [.spaced e.spacing (itemOperations e.items)]

/-- The page with the scope of a directive begun. -/
def opened : Directive → Page → Page
  | indented _, p => p.indentMore
  | indentedIf condition _, p => if condition then p.indentMore else p
  | indentedIfSpaced _, p => if p.mode != .inline then p.indentMore else p
  | aligned _, p => p.indentToColumn
  | spaced mode _, p => p.pushMode mode
  | _, p => p

/-- The page with the scope of a directive ended that was begun on a page. -/
def closed : Directive → Page → Page → Page
  | indented _, _, q => q.indentLess
  | indentedIf condition _, _, q => if condition then q.indentLess else q
  | indentedIfSpaced _, p, q => if p.mode != .inline then q.indentLess else q
  | aligned _, _, q => q.popIndent
  | spaced _ _, _, q => q.popMode
  | _, _, q => q

/-- A directive with a scope does what is inside of it, between the begin and the end of the
scope. -/
theorem run_of_isScope {d : Directive} (h : d.isScope) (p : Page) :
    d.run p = d.closed p (runAll d.inside (d.opened p)) := by
  cases d with
  | indented | aligned | spaced => rfl
  | indentedIf condition body => cases condition <;> rfl
  | indentedIfSpaced body =>
    simp only [run, Page.indentedIfSpaced, Page.indentedIf, inside, opened, closed]
    split <;> rfl
  | write e => exact (congrFun e.runAll_operations p).symm
  | writeFile e =>
    show _ = p.spaced e.spacing (runAll (itemOperations e.items))
    rw [runAll_itemOperations]
    rfl
  | _ => cases h

/-- Whether doing a script on a page comes to doing a directive on another page, perhaps inside of
other directives. -/
inductive Does : List Directive → Page → Directive → Page → Prop where
  | here (d : Directive) (ds : List Directive) (p : Page) : Does (d :: ds) p d p
  | within {d d' : Directive} {ds : List Directive} {p q : Page}
    (h : Does d.inside (d.opened p) d' q) :
    Does (d :: ds) p d' q
  | later {d d' : Directive} {ds : List Directive} {p q : Page} (h : Does ds (d.run p) d' q) :
    Does (d :: ds) p d' q

end Directive

/-! ## Stacks -/

namespace Page

variable {p : Page} {body : Page → Page}

theorem indents_addToLine (p : Page) (fragment : List Char) :
    (p.addToLine fragment).indents = p.indents := by
  unfold addToLine
  split <;> rfl

@[simp] theorem indents_append (p : Page) (text : String) :
    (p.append text).indents = p.indents := by
  have hpieces : ∀ (pieces : List (List Char)) (p : Page),
      (appendPieces pieces p).indents = p.indents := by
    intro pieces p
    fun_induction appendPieces pieces p with
    | case1 => rfl
    | case2 piece p => exact p.indents_addToLine piece
    | case3 piece pieces p hn ih => exact ih.trans (p.indents_addToLine piece)
  exact hpieces _ p

@[simp] theorem indents_startOnNewLine (p : Page) : p.startOnNewLine.indents = p.indents := by
  unfold startOnNewLine
  split <;> simp [newLine]

@[simp] theorem indents_verticalSpacing (p : Page) : p.verticalSpacing.indents = p.indents := by
  unfold verticalSpacing
  split <;> simp [newLine]

/-- Whether a part ends the indentations and the groupings that it begins, and no others, on a page
with at least one indentation. -/
def Restores (body : Page → Page) : Prop :=
  ∀ p : Page, p.indents ≠ [] → (body p).indents = p.indents ∧ (body p).modes = p.modes

theorem Restores.indented (h : Restores body) : Restores fun p => p.indented body := by
  intro p hp
  obtain ⟨hindents, hmodes⟩ := h p.indentMore (List.cons_ne_nil _ _)
  refine ⟨?_, hmodes⟩
  -- the indentation of the level is not the last one, so it is taken away
  have hlength : (body p.indentMore).indents.length > 1 := by
    have := List.length_pos_iff.2 hp
    rw [hindents, indentMore, List.length_cons]
    omega
  show (if (body p.indentMore).indents.length > 1 then (body p.indentMore).indents.tail else _) = _
  rw [if_pos hlength, hindents]
  rfl

theorem Restores.indentedIfSpaced (h : Restores body) :
    Restores fun p => p.indentedIfSpaced body := by
  intro p hp
  show (p.indentedIf (p.mode != .inline) body).indents = _ ∧
      (p.indentedIf (p.mode != .inline) body).modes = _
  unfold indentedIf
  split
  · exact h.indented p hp
  · exact h p hp

theorem Restores.aligned (h : Restores body) : Restores fun p => p.aligned body := by
  intro p _
  obtain ⟨hindents, hmodes⟩ := h p.indentToColumn (List.cons_ne_nil _ _)
  exact ⟨congrArg List.tail hindents, hmodes⟩

theorem Restores.spaced (mode : Spacing) (h : Restores body) :
    Restores fun p => p.spaced mode body := by
  intro p hp
  obtain ⟨hindents, hmodes⟩ := h (p.pushMode mode) hp
  exact ⟨hindents, congrArg List.tail hmodes⟩

/-- Whatever is done with a page restores its stacks. -/
theorem scriptable_restores : Scriptable Restores fun _ => True where
  fixed := fun _ _ => trivial
  nothing := fun _ _ => ⟨rfl, rfl⟩
  next := fun hbody hrest p hp => by
    obtain ⟨hindents, hmodes⟩ := hbody p hp
    obtain ⟨hindents', hmodes'⟩ := hrest _ (hindents ▸ hp)
    exact ⟨hindents'.trans hindents, hmodes'.trans hmodes⟩
  append := fun _ p _ => ⟨p.indents_append _, p.modes_append _⟩
  stage := fun _ _ _ => ⟨rfl, rfl⟩
  verticalSpacing := fun p _ => ⟨p.indents_verticalSpacing, p.modes_verticalSpacing⟩
  indentedIfSpaced := Restores.indentedIfSpaced
  aligned := Restores.aligned
  spaced := fun mode h => h.spaced mode
  indented := Restores.indented
  padded := fun _ => trivial

end Page

namespace Directive

open Page

variable {ds : List Directive} {d : Directive} {p q : Page}

theorem restores_run (d : Directive) : Restores d.run :=
  scriptable_restores.run d fun _ _ => trivial

theorem restores_runAll (ds : List Directive) : Restores (runAll ds) :=
  scriptable_restores.runAll ds fun _ _ => trivial

theorem indents_opened (d : Directive) (h : p.indents ≠ []) : (d.opened p).indents ≠ [] := by
  cases d with
  | indented | aligned => exact List.cons_ne_nil _ _
  | indentedIf | indentedIfSpaced =>
    simp only [opened]
    split
    · exact List.cons_ne_nil _ _
    · exact h
  | _ => exact h

/-- Wherever something is done, there is an indentation. -/
theorem Does.indents_ne_nil (h : Does ds p d q) (hp : p.indents ≠ []) : q.indents ≠ [] := by
  induction h with
  | here => exact hp
  | @within d _ _ _ _ _ ih => exact ih (d.indents_opened hp)
  | @later d _ _ p _ _ ih => exact ih ((restores_run d p hp).1 ▸ hp)

/-- Visible text on a new line stands at its start where there is no indentation. -/
theorem line_newLine_append (hp : p.indent = 0) {text : String} (hline : '\n' ∉ text.toList)
    (hvisible : Text.allBlank text.toList = false) :
    (p.newLine.append text).line = Text.trimStart text.toList := by
  have hindent : p.newLine.indent = 0 := by
    rw [indent, Page.newLine, indents_append]
    exact hp
  rw [append_of_not_mem hline,
    line_addToLine_of_nil (by rw [newLine_eq_finishLine]; rfl) hvisible, hindent]
  rfl

/-- Whatever a script does, on any level and inside of any tree, leaves the indentations and the
spacings as they were, and there always is an indentation. So behind the first directives of a
script, whichever, no lines are broken, and visible text on a new line starts at its start. -/
theorem stacks_restored (ds : List Directive) (width : Nat) :
    (∀ d q, Does ds (.empty width) d q →
      q.indents ≠ [] ∧ (d.run q).indents = q.indents ∧ (d.run q).modes = q.modes) ∧
    ∀ n, (runAll (ds.take n) (.empty width)).mode = .inline ∧
      (runAll (ds.take n) (.empty width)).indent = 0 ∧
      ∀ text : String, '\n' ∉ text.toList → Text.allBlank text.toList = false →
        ((runAll (ds.take n) (.empty width)).newLine.append text).line =
          Text.trimStart text.toList := by
  constructor
  · intro d q h
    have hq := h.indents_ne_nil (List.cons_ne_nil 0 [])
    exact ⟨hq, restores_run d q hq⟩
  · intro n
    obtain ⟨hindents, hmodes⟩ := restores_runAll (ds.take n) (.empty width) (List.cons_ne_nil 0 [])
    have hindent : (runAll (ds.take n) (.empty width)).indent = 0 := by
      rw [indent, hindents]
      rfl
    refine ⟨?_, hindent, fun text hline hvisible => line_newLine_append hindent hline hvisible⟩
    rw [mode, hmodes]
    rfl

/-- The bar between the operands of a union, in a group that is aligned and one level deeper. -/
theorem stacks_restored_bar :
    let name (text : String) : Expr := .atom .identifier text .synthetic
    let e : Expr := .group [.chain .union [name "a", name "b", name "c"] .synthetic] .synthetic
    let ds := [append "x", indented [aligned [write e]]]
    ∃ q, Does ds (.empty 2) (append " | ") q ∧ q.indents = [5, 3, 1, 2, 0] ∧
      q.modes = [.lines, .lines, .inline] ∧ q.indents ≠ [] ∧
      ((append " | ").run q).indents = q.indents ∧ ((append " | ").run q).modes = q.modes ∧
      (runAll (ds.take 2) (.empty 2)).mode = .inline ∧
      ((runAll (ds.take 2) (.empty 2)).newLine.append "y").line = Text.trimStart "y".toList := by
  intro name e ds
  obtain ⟨hdone, hrest⟩ := stacks_restored ds 2
  -- into the level, the alignment, the group, its items and the union, up to its second operand
  have hdoes : ∃ q, Does ds (.empty 2) (append " | ") q ∧ q.indents = [5, 3, 1, 2, 0] ∧
      q.modes = [.lines, .lines, .inline] :=
    ⟨_, .later (.within (.within (.within (.later (.within (.later (
      .within (.within (.within (.later (.later (.later (.within (.here ..)))))))))))))),
      by decide +kernel, by decide +kernel⟩
  obtain ⟨q, hq, hindents, hmodes⟩ := hdoes
  obtain ⟨hmode, -, hline⟩ := hrest 2
  exact ⟨q, hq, hindents, hmodes, (hdone _ q hq).1, (hdone _ q hq).2.1, (hdone _ q hq).2.2, hmode,
    hline "y" (by decide) (by decide)⟩

end Directive

end DocExpr
