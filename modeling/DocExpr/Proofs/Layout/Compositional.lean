import DocExpr.Proofs.Documentation
import DocExpr.Proofs.Layout.Places

/-!
# Properties of what writes on a page

A property of parts of a page is `Page.Compositional` if a part that is put together from others has
it whenever they do. What a tree writes has every such property (`Page.Compositional.write`), and so
has what the items of a file write (`Page.Compositional.writeFile`), if the texts and the
documentation of the leaves are such as the property allows for. So has what a script does
(`Page.Scriptable.runAll`), if levels of indentation do not take the property away.

Properties of two pages on which the same is written come with a relation between the pages. Where
related pages break lines at the same places, it is enough to say what appending, staging and the
three ways to change a stack do to the relation (`Page.Parallel`).
-/

namespace DocExpr

namespace Page

/-- What is written for a tree apart from the texts of its leaves. -/
def fixedTexts : List String :=
  ["(", ")", "[", "]", "\x7b", "\x7d", ", ", " | ", "\n"] ++ Suffix.all.map Suffix.text ++
    BinaryOp.all.map BinaryOp.separator ++ UnaryOp.all.map UnaryOp.text

/-- A property of parts of a page that is inherited from parts to what they make up. It may restrict
the texts that are written and the documentation that is staged. -/
structure Compositional (P : (Page → Page) → Prop) (Writes : String → Prop)
    (Stages : List String → Prop) : Prop where
  fixed : ∀ text ∈ fixedTexts, Writes text
  nothing : P fun p => p
  next {body rest : Page → Page} : P body → P rest → P fun p => rest (body p)
  append {text : String} : Writes text → P fun p => p.append text
  stage {lines : List String} : Stages lines → P fun p => p.stage lines
  verticalSpacing : P verticalSpacing
  indentedIfSpaced {body : Page → Page} : P body → P fun p => p.indentedIfSpaced body
  aligned {body : Page → Page} : P body → P fun p => p.aligned body
  spaced {body : Page → Page} (mode : Spacing) : P body → P fun p => p.spaced mode body

end Page

/-- Whether a node, if it is a leaf, has texts and documentation of some kinds. -/
def Expr.LeafOf (Writes : String → Prop) (Stages : List String → Prop) : Expr → Prop
  | .atom _ text _ => Writes text
  | .block .trailing lines _ => Stages (lines.map fun line => "  " ++ line)
  | .block _ lines _ => ∀ line ∈ lines, Writes line
  | _ => True

namespace Page.Compositional

open DocExpr.Expr

variable {P : (Page → Page) → Prop} {Writes : String → Prop} {Stages : List String → Prop}
  {body rest : Page → Page} {lines : List String}

theorem congr (hbody : P body) (h : ∀ p, rest p = body p) : P rest :=
  (funext h : rest = body) ▸ hbody

variable (h : Compositional P Writes Stages)

include h

theorem appendFixed (text : String) (ht : text ∈ fixedTexts) : P fun p => p.append text :=
  h.append (h.fixed text ht)

theorem appendLines (hlines : ∀ line ∈ lines, Writes line) : P (appendLines lines) := by
  induction lines with
  | nil => exact h.nothing
  | cons line lines ih =>
    obtain ⟨hline, hlines⟩ := List.forall_mem_cons.1 hlines
    exact congr (h.next (h.next (h.append hline) (h.appendFixed "\n" (by decide))) (ih hlines))
      fun _ => rfl

theorem parenthesized (spacing : Spacing) (hbody : P body) :
    P fun p => p.parenthesized spacing body :=
  have hinner := h.spaced spacing (h.next h.verticalSpacing (h.indentedIfSpaced hbody))
  congr (h.next (h.next (h.appendFixed "(" (by decide)) hinner) (h.appendFixed ")" (by decide)))
    fun _ => rfl

mutual

/-- What a tree writes has a property that is inherited from parts, if its leaves allow for it. -/
theorem write : (e : Expr) → (∀ n ∈ e.preorder, n.LeafOf Writes Stages) → P e.write
  | .atom form text o, he =>
    congr (h.append (forall_preorder.1 he).1) fun p => by rw [Expr.write]
  | .block form lines o, he => by
    have hleaf := (forall_preorder.1 he).1
    cases form with
    | leading => exact congr (h.appendLines hleaf) fun p => by rw [Expr.write]
    | trailing => exact congr (h.stage hleaf) fun p => by rw [Expr.write]
    | multiline => exact congr (h.aligned (h.appendLines hleaf)) fun p => by rw [Expr.write]
  | .suffixed form item o, he =>
    have hitem := write item ((forall_preorder.1 he).2 item (by simp [children]))
    congr (h.next hitem (h.appendFixed form.text (by cases form <;> decide))) fun p => by
      rw [Expr.write]
  | .map item key o, he =>
    have hitem := write item ((forall_preorder.1 he).2 item (by simp [children]))
    have hkey := write key ((forall_preorder.1 he).2 key (by simp [children]))
    have hopened := h.next (h.next hitem (h.appendFixed "\x7b" (by decide))) hkey
    congr (h.next hopened (h.appendFixed "\x7d" (by decide))) fun p => by rw [Expr.write]
  | .call callee arguments o, he => by
    have hcallee := write callee ((forall_preorder.1 he).2 callee (by simp [children]))
    have harguments := (forall_preorder.1 he).2 arguments (by simp [children])
    by_cases hgroup : arguments.isGroup
    · cases arguments with
      | group items o' =>
        have hitems := writeItems items (forall_preorder.1 harguments).2
        exact congr (h.next hcallee (h.parenthesized _ hitems)) fun p => by rw [Expr.write]
      | _ => cases hgroup
    · have hwrite := h.next (write arguments harguments) h.verticalSpacing
      exact congr (h.next hcallee (h.parenthesized _ hwrite))
        fun p => by rw [write_call (by simpa using hgroup)]
  | .array elements o, he =>
    have helements := writeSeparated ", " (by decide) elements (forall_preorder.1 he).2
    have hopened := h.next (h.appendFixed "[" (by decide)) helements
    congr (h.next hopened (h.appendFixed "]" (by decide))) fun p => by rw [Expr.write]
  | .group items o, he =>
    congr (h.parenthesized _ (writeItems items (forall_preorder.1 he).2)) fun p => by
      rw [Expr.write]
  | .chain op operands o, he => by
    have hoperands := (forall_preorder.1 he).2
    by_cases hop : op = .union
    · subst hop
      exact congr (h.spaced _ (writeUnion true operands hoperands)) fun p => by rw [Expr.write]
    · have hseparator : op.separator ∈ fixedTexts := by cases op <;> decide
      exact congr (writeSeparated _ hseparator operands hoperands) fun p => by
        rw [Expr.write]; exact hop
  | .unary op operand o, he =>
    have hoperand := write operand ((forall_preorder.1 he).2 operand (by simp [children]))
    congr (h.next (h.appendFixed op.text (by cases op <;> decide)) hoperand) fun p => by
      rw [Expr.write]

theorem writeSeparated (separator : String) (hseparator : separator ∈ fixedTexts) :
    (es : List Expr) →
    (∀ e ∈ es, ∀ n ∈ e.preorder, n.LeafOf Writes Stages) → P (Expr.writeSeparated separator es)
  | [], _ => congr h.nothing fun p => by rw [Expr.writeSeparated]
  | [e], hes =>
    congr (write e (List.forall_mem_singleton.1 hes)) fun p => by rw [Expr.writeSeparated]
  | e :: f :: es, hes =>
    have he := write e (List.forall_mem_cons.1 hes).1
    have hrest := writeSeparated separator hseparator (f :: es) (List.forall_mem_cons.1 hes).2
    congr (h.next (h.next he (h.appendFixed separator hseparator)) hrest) fun p => by
      rw [Expr.writeSeparated]
      simp

theorem writeItems : (es : List Expr) → (∀ e ∈ es, ∀ n ∈ e.preorder, n.LeafOf Writes Stages) →
    P (Expr.writeItems es)
  | [], _ => congr h.verticalSpacing fun p => by rw [Expr.writeItems]
  | [e], hes =>
    congr (h.next (write e (List.forall_mem_singleton.1 hes)) h.verticalSpacing)
      fun p => by rw [Expr.writeItems]
  | e :: f :: es, hes =>
    have he := write e (List.forall_mem_cons.1 hes).1
    have hrest := writeItems (f :: es) (List.forall_mem_cons.1 hes).2
    congr (h.next (h.next (h.next he (h.appendFixed ", " (by decide))) h.verticalSpacing) hrest)
      fun p => by
        rw [Expr.writeItems]
        simp

theorem writeUnion (first : Bool) : (es : List Expr) →
    (∀ e ∈ es, ∀ n ∈ e.preorder, n.LeafOf Writes Stages) → P (Expr.writeUnion first es)
  | [], _ => congr h.nothing fun p => by rw [Expr.writeUnion]
  | e :: es, hes =>
    have he := write e (List.forall_mem_cons.1 hes).1
    have hrest := writeUnion false es (List.forall_mem_cons.1 hes).2
    have hbar : P fun p => if first then p else p.append " | " := by
      cases first with
      | true => exact h.nothing
      | false => exact h.appendFixed " | " (by decide)
    congr (h.next (h.next h.verticalSpacing (h.indentedIfSpaced (h.next hbar he))) hrest)
      fun p => by
        rw [Expr.writeUnion]

end

/-- What the items of a file write has a property that is inherited from parts, if their leaves
allow for it. -/
theorem writeFile (e : Expr) (he : ∀ n ∈ e.preorder, n.LeafOf Writes Stages) : P e.writeFile := by
  refine h.spaced _ (h.writeItems e.items ?_)
  cases e with
  | group items o => exact (forall_preorder.1 he).2
  | _ => exact List.forall_mem_singleton.2 he

end Page.Compositional

/-! ## Scripts -/

/-- The documentation that writing a node stages, line by line, without the blanks before the
lines. -/
def Expr.trailing : Expr → List String
  | .block .trailing lines _ => lines
  | _ => []

namespace Directive

mutual

/-- The lines of documentation that a directive stages, those of the trees that it writes
included. -/
def documentation : Directive → List String
  | stage lines => lines
  | write e | writeFile e => e.preorder.flatMap Expr.trailing
  | indented body | indentedIf _ body | indentedIfSpaced body | aligned body | spaced _ body =>
    documentationAll body
  | append _ | newLine | newLineIf _ | startOnNewLine | verticalSpacing => []

/-- The lines of documentation that a script stages. -/
def documentationAll : List Directive → List String
  | [] => []
  | d :: ds => documentation d ++ documentationAll ds

end

end Directive

namespace Page.Compositional

/-- A line is broken where something is on it as vertical spacing does it in a grouping on lines. -/
theorem startOnNewLine {P : (Page → Page) → Prop} {Writes : String → Prop}
    {Stages : List String → Prop} (h : Compositional P Writes Stages) : P startOnNewLine := by
  refine congr (h.spaced .lines h.verticalSpacing) fun p => ?_
  show p.startOnNewLine = (p.pushMode .lines).startOnNewLine.popMode
  unfold Page.startOnNewLine
  show _ = (if p.line.isEmpty then p.pushMode .lines else (p.pushMode .lines).newLine).popMode
  rw [newLine_eq_finishLine, newLine_eq_finishLine]
  split <;> rfl

end Page.Compositional

namespace Page

/-- A property that is inherited from parts to what they make up, also if they are written one level
deeper. It may restrict the lines of documentation that are staged. -/
structure Scriptable (P : (Page → Page) → Prop) (Good : String → Prop) : Prop
    extends Compositional P (fun _ => True) fun lines => ∀ line ∈ lines, Good line where
  indented {body : Page → Page} : P body → P fun p => p.indented body
  padded {line : String} : Good line → Good ("  " ++ line)

namespace Scriptable

open Directive

variable {P : (Page → Page) → Prop} {Good : String → Prop} (h : Scriptable P Good)

include h

/-- A tree stages good documentation if all its documentation is good. -/
theorem leafOf {e : Expr} (he : ∀ line ∈ e.preorder.flatMap Expr.trailing, Good line) :
    ∀ n ∈ e.preorder, n.LeafOf (fun _ => True) fun lines => ∀ line ∈ lines, Good line := by
  intro n hn
  cases n with
  | block form lines o =>
    cases form with
    | trailing =>
      refine List.forall_mem_map.2 fun line hline => h.padded (he line ?_)
      exact List.mem_flatMap.2 ⟨_, hn, hline⟩
    | _ => exact fun _ _ => trivial
  | _ => trivial

mutual

/-- What a directive does has a property that is inherited from parts, if its documentation is
good. -/
theorem run : (d : Directive) → (∀ line ∈ d.documentation, Good line) → P d.run
  | .append text, _ => h.append trivial
  | .newLine, _ => h.appendFixed "\n" (by decide)
  | .newLineIf true, _ => h.appendFixed "\n" (by decide)
  | .newLineIf false, _ => h.nothing
  | .startOnNewLine, _ => h.startOnNewLine
  | .verticalSpacing, _ => h.verticalSpacing
  | .stage lines, hd => h.stage hd
  | .indented body, hd => h.indented (runAll body hd)
  | .indentedIf true body, hd => h.indented (runAll body hd)
  | .indentedIf false body, hd => runAll body hd
  | .indentedIfSpaced body, hd => h.indentedIfSpaced (runAll body hd)
  | .aligned body, hd => h.aligned (runAll body hd)
  | .spaced mode body, hd => h.spaced mode (runAll body hd)
  | .write e, hd => h.write e (h.leafOf hd)
  | .writeFile e, hd => h.writeFile e (h.leafOf hd)

/-- What a script does has a property that is inherited from parts, if its documentation is good. -/
theorem runAll : (ds : List Directive) → (∀ line ∈ documentationAll ds, Good line) →
    P (Directive.runAll ds)
  | [], _ => h.nothing
  | d :: ds, hds =>
    have hsplit := List.forall_mem_append.1 hds
    Compositional.congr (h.next (run d hsplit.1) (runAll ds hsplit.2)) fun _ => rfl

end

end Scriptable

end Page

/-! ## Two pages -/

namespace Page

/-- A relation between pages on which the same is written. The index says what the relation is while
a part is written and what it has to be again behind the part. -/
structure Parallel {ι : Type} (R : ι → Page → Page → Prop) (Writes : String → Prop)
    (Stages : List String → Prop) : Prop where
  fixed : ∀ text ∈ fixedTexts, Writes text
  mode {i : ι} {p q : Page} : R i p q → p.mode = q.mode
  /-- The lines under construction have been begun on both pages or on none. -/
  begun {i : ι} {p q : Page} : R i p q → p.line.isEmpty = q.line.isEmpty
  append {i : ι} {p q : Page} {text : String} : Writes text → R i p q →
    R i (p.append text) (q.append text)
  stage {i : ι} {p q : Page} {lines : List String} : Stages lines → R i p q →
    R i (p.stage lines) (q.stage lines)
  indented {i : ι} {p q : Page} : R i p q → ∃ j, R j p.indentMore q.indentMore ∧
    ∀ {p' q' : Page}, R j p' q' → R i p'.indentLess q'.indentLess
  aligned {i : ι} {p q : Page} : R i p q → ∃ j, R j p.indentToColumn q.indentToColumn ∧
    ∀ {p' q' : Page}, R j p' q' → R i p'.popIndent q'.popIndent
  spaced {i : ι} {p q : Page} (mode : Spacing) : R i p q →
    ∃ j, R j (p.pushMode mode) (q.pushMode mode) ∧
    ∀ {p' q' : Page}, R j p' q' → R i p'.popMode q'.popMode

/-- Whether a part keeps a relation between pages. -/
def Keeps {ι : Type} (R : ι → Page → Page → Prop) (body : Page → Page) : Prop :=
  ∀ {i p q}, R i p q → R i (body p) (body q)

namespace Parallel

variable {ι : Type} {R : ι → Page → Page → Prop} {Writes : String → Prop}
  {Stages : List String → Prop}
  {i : ι} {p q : Page}

theorem newLine (h : Parallel R Writes Stages) (hpq : R i p q) : R i p.newLine q.newLine :=
  h.append (h.fixed "\n" (by decide)) hpq

theorem startOnNewLine (h : Parallel R Writes Stages) (hpq : R i p q) :
    R i p.startOnNewLine q.startOnNewLine := by
  unfold Page.startOnNewLine
  rw [h.begun hpq]
  split
  · exact hpq
  · exact h.newLine hpq

theorem verticalSpacing (h : Parallel R Writes Stages) (hpq : R i p q) :
    R i p.verticalSpacing q.verticalSpacing := by
  unfold Page.verticalSpacing
  rw [h.mode hpq]
  split
  · exact hpq
  · exact h.startOnNewLine hpq
  · exact h.newLine (h.startOnNewLine hpq)

theorem indentedIfSpaced (h : Parallel R Writes Stages) {body : Page → Page} (hbody : Keeps R body)
    (hpq : R i p q) : R i (p.indentedIfSpaced body) (q.indentedIfSpaced body) := by
  unfold Page.indentedIfSpaced indentedIf
  rw [h.mode hpq]
  split
  · obtain ⟨j, hmore, hless⟩ := h.indented hpq
    exact hless (hbody hmore)
  · exact hbody hpq

/-- Whether two pages stay related is inherited from parts. -/
theorem compositional (h : Parallel R Writes Stages) : Compositional (Keeps R) Writes Stages where
  fixed := h.fixed
  nothing := fun hpq => hpq
  next := fun hbody hrest _ _ _ hpq => hrest (hbody hpq)
  append := fun htext _ _ _ hpq => h.append htext hpq
  stage := fun hlines _ _ _ hpq => h.stage hlines hpq
  verticalSpacing := h.verticalSpacing
  indentedIfSpaced := fun hbody _ _ _ hpq => h.indentedIfSpaced hbody hpq
  aligned := fun hbody _ _ _ hpq => by
    obtain ⟨j, hcolumn, hpop⟩ := h.aligned hpq
    exact hpop (hbody hcolumn)
  spaced := fun mode hbody _ _ _ hpq => by
    obtain ⟨j, hpush, hpop⟩ := h.spaced mode hpq
    exact hpop (hbody hpush)

end Parallel

end Page

end DocExpr
