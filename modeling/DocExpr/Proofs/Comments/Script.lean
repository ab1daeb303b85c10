import DocExpr.Format
import DocExpr.Layout.Script
import DocExpr.Proofs.Comments.Literal
import DocExpr.Proofs.Grammar.Canonical

/-!
# Trees as scripts

`Expr.script` is what is done to write a tree, one directive after the other, and doing it is
writing the tree (`Expr.runAll_script`). Of a script it can be said whether documentation that waits
for the end of its line ever meets something that takes that end from it (`Directive.collidesAll`).
A directive leaves all comments that it writes on the page, or fewer if it does (`Directive.Bears`).
-/

namespace DocExpr

namespace Directive

@[simp] theorem runAll_nil (p : Page) : runAll [] p = p := rfl

@[simp] theorem runAll_cons (d : Directive) (ds : List Directive) (p : Page) :
    runAll (d :: ds) p = runAll ds (d.run p) := rfl

theorem runAll_append (ds ds' : List Directive) (p : Page) :
    runAll (ds ++ ds') p = runAll ds' (runAll ds p) := by
  induction ds generalizing p with
  | nil => rfl
  | cons d ds ih => exact ih (d.run p)

/-- Items in parentheses. -/
def parenthesized (spacing : Spacing) (items : List Directive) : List Directive :=
  [.append "(", .spaced spacing [.verticalSpacing, .indentedIfSpaced items], .append ")"]

theorem runAll_parenthesized (spacing : Spacing) (items : List Directive) (p : Page) :
    runAll (parenthesized spacing items) p = p.parenthesized spacing (runAll items) := rfl

end Directive

namespace Expr

open Directive

mutual

/-- What is done to write a tree. -/
def script : Expr → List Directive
  | suffixed form item _ => script item ++ [.append form.text]
  | map item key _ => script item ++ [.append "\x7b"] ++ script key ++ [.append "\x7d"]
  | call callee (group items o) _ =>
    script callee ++ parenthesized (group items o).spacing (scriptItems items)
  | call callee arguments _ =>
    script callee ++ parenthesized arguments.spacing (script arguments ++ [.verticalSpacing])
  | array elements _ => [.append "["] ++ scriptSeparated ", " elements ++ [.append "]"]
  | e@(group items _) => parenthesized e.spacing (scriptItems items)
  | e@(chain .union operands _) => [.spaced e.spacing (scriptUnion true operands)]
  | chain op operands _ => scriptSeparated op.separator operands
  | unary op operand _ => [.append op.text] ++ script operand
  | e@(atom ..) => [.write e]
  | e@(block ..) => [.write e]

/-- What is done to write trees with a text between each two. -/
def scriptSeparated (separator : String) : List Expr → List Directive
  | [] => []
  | [e] => script e
  | e :: es => script e ++ [.append separator] ++ scriptSeparated separator es

/-- What is done to write items. -/
def scriptItems : List Expr → List Directive
  | [] => [.verticalSpacing]
  | [e] => script e ++ [.verticalSpacing]
  | e :: es => script e ++ [.append ", ", .verticalSpacing] ++ scriptItems es

/-- What is done to write the operands of a union. -/
def scriptUnion (first : Bool) : List Expr → List Directive
  | [] => []
  | e :: es =>
    [.verticalSpacing,
      .indentedIfSpaced ((if first then [] else [.append " | "]) ++ script e)] ++
      scriptUnion false es

end

mutual

/-- Doing what the script of a tree says is writing the tree. -/
theorem runAll_script : (e : Expr) → runAll e.script = e.write
  | atom .. | block .. => rfl
  | suffixed form item _ => by
    funext p
    rw [script, runAll_append, runAll_script item]
    rfl
  | map item key _ => by
    funext p
    simp only [script, runAll_append, runAll_script item, runAll_script key]
    rfl
  | call callee arguments _ => by
    have hcallee := runAll_script callee
    have harguments := runAll_script arguments
    funext p
    cases arguments with
    | group items o =>
      rw [script, runAll_append, runAll_parenthesized, hcallee, runAll_scriptItems items]
      rfl
    | _ =>
      have hspaced : runAll (script _ ++ [.verticalSpacing]) =
          fun p => (write _ p).verticalSpacing :=
        funext fun p => by rw [runAll_append, harguments]; rfl
      rw [script, runAll_append, runAll_parenthesized, hcallee, hspaced]
      all_goals first | rfl | simp
  | array elements _ => by
    funext p
    simp only [script, runAll_append, runAll_scriptSeparated _ elements]
    rfl
  | group items o => by
    funext p
    rw [script, runAll_parenthesized, runAll_scriptItems items]
    rfl
  | chain op operands o => by
    have hseparated := runAll_scriptSeparated op.separator operands
    have hunion := runAll_scriptUnion true operands
    funext p
    cases op with
    | union =>
      show p.spaced _ (runAll (scriptUnion true operands)) = _
      rw [hunion]
      rfl
    | _ => exact congrFun hseparated p
  | unary op operand _ => by
    funext p
    rw [script, runAll_append, runAll_script operand]
    rfl

theorem runAll_scriptSeparated (separator : String) :
    (es : List Expr) → runAll (scriptSeparated separator es) = writeSeparated separator es
  | [] => rfl
  | [e] => runAll_script e
  | e :: f :: es => by
    have hscript : scriptSeparated separator (e :: f :: es) =
      script e ++ [.append separator] ++ scriptSeparated separator (f :: es) := rfl
    funext p
    rw [hscript, runAll_append, runAll_append, runAll_script e,
      runAll_scriptSeparated separator (f :: es)]
    rfl

theorem runAll_scriptItems : (es : List Expr) → runAll (scriptItems es) = writeItems es
  | [] => rfl
  | [e] => by
    funext p
    rw [scriptItems, runAll_append, runAll_script e]
    rfl
  | e :: f :: es => by
    have hscript : scriptItems (e :: f :: es) =
      script e ++ [.append ", ", .verticalSpacing] ++ scriptItems (f :: es) := rfl
    funext p
    rw [hscript, runAll_append, runAll_append, runAll_script e, runAll_scriptItems (f :: es)]
    rfl

theorem runAll_scriptUnion : (first : Bool) → (es : List Expr) →
    runAll (scriptUnion first es) = writeUnion first es
  | _, [] => rfl
  | first, e :: es => by
    have hoperand : runAll ((if first then [] else [.append " | "]) ++ script e) =
        fun p => write e (if first then p else p.append " | ") := by
      funext p
      rw [runAll_append, runAll_script e]
      cases first <;> rfl
    funext p
    rw [scriptUnion, runAll_append, runAll_scriptUnion false es]
    show writeUnion false es (p.verticalSpacing.indentedIfSpaced (runAll _)) = _
    rw [hoperand]
    rfl

end

end Expr

/-- What is done to write a tree that is read as an expression or as a file of items. -/
def Goal.script (goal : Goal) (e : Expr) : List Directive :=
  match goal with
  | .expression => e.script
  | .items => [.spaced e.spacing (Expr.scriptItems e.items)]

theorem Goal.format_eq (goal : Goal) (e : Expr) (width : Nat) :
    goal.format e width = (Directive.runAll (goal.script e) (.empty width)).text := by
  cases goal with
  | expression => rw [script, Expr.runAll_script, format, Expr.format]
  | items =>
    show _ = (Page.spaced _ _ (Directive.runAll (Expr.scriptItems e.items))).text
    rw [Expr.runAll_scriptItems, format, Expr.formatItems, Expr.writeFile]

/-! ## Texts of code -/

/-- Texts without quotes, back ticks and slashes are code. -/
theorem passes_plain {text : List Char} (hvisible : Text.allBlank text = false)
    (hline : '\n' ∉ text) (h : ∀ c ∈ text, Skim.opened c = .code) : Passes text := by
  refine ⟨hvisible, hline, fun _ => Skim.through_plain h,
    fun _ => ⟨.code, Skim.through_plain ?_, .inl rfl⟩⟩
  obtain ⟨tail, hsplit, -⟩ := Text.trimEnd_spec text
  intro c hc
  refine h c ?_
  rw [hsplit]
  exact List.mem_append_left _ hc

theorem passes_operator (op : BinaryOp) (h : op ≠ .document) : Passes op.text.toList := by
  cases op
  case document => exact absurd rfl h
  case divide => exact ⟨by decide, by decide, fun _ => rfl, fun _ => ⟨.slash, rfl, .inr rfl⟩⟩
  all_goals exact passes_plain (by decide) (by decide) (by decide)

theorem passes_unary (op : UnaryOp) : Passes op.text.toList := by
  cases op <;> exact passes_plain (by decide) (by decide) (by decide)

theorem passes_mark {m : Mark} (h : m ≠ .slash) : Passes m.spelling.toList := by
  cases m
  case slash => exact absurd rfl h
  all_goals exact passes_plain (by decide) (by decide) (by decide)

theorem passes_comma : Passes ", ".toList := passes_plain (by decide) (by decide) (by decide)

/-- Names, numbers and literals on one line are code. -/
theorem passes_atom {form : Atom} {text : List Char} (h : Lexeme.Stable (.atom form) text)
    (hline : '\n' ∉ text) : Passes text := by
  have hsolid := Lexeme.solid_atom h
  obtain ⟨c, w, rfl, -, hread⟩ := h
  have hcode : ∀ found, (⟨.code, found⟩ : Skim).through (c :: w) = ⟨.code, found⟩ := by
    intro found
    obtain ⟨m, hm, hleaves⟩ := Skim.leaves_read found (hread [] (by simp))
    rw [hm]
    cases hleaves with
    | code => rfl
    | slash hk | ticked hk | comment hk | quoted _ hk | escaped _ hk => cases hk
  refine ⟨hsolid.allBlank, hline, hcode, fun found => ⟨.code, ?_, .inl rfl⟩⟩
  rw [Text.trimEnd_of_getLast hsolid.2.2]
  exact hcode found

namespace Directive

/-- Whether a leaf takes the end of its line, or has a line break in it. -/
def takesLine : Expr → Bool
  | .block .. => true
  | .atom _ text _ => '\n' ∈ text.toList
  | _ => false

mutual

/-- Whether a directive writes something that takes the end of a line, where documentation waits for
that end. -/
def collides : Directive → Page → Bool
  | write e, p => p.waits && takesLine e
  | stage _, p => p.waits
  | indented body, p => collidesAll body p.indentMore
  | indentedIf condition body, p => collidesAll body (if condition then p.indentMore else p)
  | indentedIfSpaced body, p => collidesAll body (if p.mode != .inline then p.indentMore else p)
  | aligned body, p => collidesAll body p.indentToColumn
  | spaced mode body, p => collidesAll body (p.pushMode mode)
  | _, _ => false

/-- Whether a directive of a script does so. -/
def collidesAll : List Directive → Page → Bool
  | [], _ => false
  | d :: ds, p => collides d p || collidesAll ds (d.run p)

end

theorem collidesAll_append (ds ds' : List Directive) (p : Page) :
    collidesAll (ds ++ ds') p = (collidesAll ds p || collidesAll ds' (runAll ds p)) := by
  induction ds generalizing p with
  | nil => rfl
  | cons d ds ih => rw [List.cons_append, collidesAll, ih, collidesAll, Bool.or_assoc, runAll_cons]

@[simp] theorem collidesAll_singleton (d : Directive) (p : Page) :
    collidesAll [d] p = collides d p := by
  simp [collidesAll]

variable {ds ds' : List Directive} {docs docs' cs : List (List Char)} {p : Page}

/-- Whether doing a script leaves the comments on a page that there should be, or fewer after a
collision. -/
def Bears (ds : List Directive) (docs : List (List Char)) (p : Page)
    (cs : List (List Char)) : Prop :=
  ∃ cs', (runAll ds p).Carries cs' ∧ Tally (collidesAll ds p) cs' (cs ++ docs)

/-- What is left by two scripts, one after the other. -/
theorem Bears.concat (h : Bears ds docs p cs)
    (h' : ∀ cs', (runAll ds p).Carries cs' → Bears ds' docs' (runAll ds p) cs') :
    Bears (ds ++ ds') (docs ++ docs') p cs := by
  obtain ⟨cs', hp, htally⟩ := h
  obtain ⟨cs'', hp', htally'⟩ := h' cs' hp
  refine ⟨cs'', by rwa [runAll_append], ?_⟩
  rw [collidesAll_append]
  exact htally.trans htally'

/-- A directive that leaves the comments on a page. -/
theorem bears_of_carries {d : Directive} (hd : (d.run p).Carries cs)
    (hcollides : d.collides p = false) :
    Bears [d] [] p cs :=
  ⟨cs, hd, by simp [hcollides, Tally]⟩

/-- Writing a name or a literal. -/
theorem carries_atom {form : Atom} {text : String} (hp : p.Carries cs)
    (hstable : Lexeme.Stable (.atom form) text.toList)
    (hline : p.waits → '\n' ∉ text.toList) : (p.append text).Carries cs := by
  by_cases hm : '\n' ∈ text.toList
  · obtain ⟨-, quote, w, htext, hquote, hread⟩ := hstable.readQuoted_of_mem hm
    have hnone : p.staged = [] := by
      by_contra hn
      exact hline (by simpa [Page.waits] using hn) hm
    exact hp.literal htext hquote (Lexeme.body_of_readQuoted hread) hnone
  · exact hp.append (passes_atom hstable hm)

/-- Writing a block of lines. -/
theorem carries_block {form : Block} {lines : List String} (o : Origin) (hp : p.Carries cs)
    (hlines : (Symbol.block form lines).Legible) :
    ∃ cs', ((Expr.block form lines o).write p).Carries cs' ∧
      Tally p.waits cs' (cs ++ (Symbol.block form lines).comments) := by
  obtain ⟨hn, hlines⟩ := hlines
  have hwaits : (p.waits && !lines.isEmpty) = p.waits := by simp [hn]
  cases form with
  | leading =>
    obtain ⟨cs', hp', htally⟩ := hp.appendLines (fun line => [line.toList])
      (fun h hline => h.commentLine hline) hlines
    rw [hwaits, ← List.map_eq_flatMap] at htally
    exact ⟨cs', hp', htally⟩
  | trailing => exact hp.stage hlines
  | multiline =>
    have hp' : p.indentToColumn.Carries cs := hp.congr rfl rfl rfl
    obtain ⟨cs', hp', htally⟩ := hp'.appendLines (fun _ => [])
      (fun h hline => by simpa using h.tickedLine hline) hlines
    have hwaits' : (p.indentToColumn.waits && !lines.isEmpty) = p.waits := hwaits
    rw [hwaits', List.flatMap_eq_nil_iff.2 fun _ _ => rfl] at htally
    exact ⟨cs', hp'.congr rfl rfl rfl, by simpa [Symbol.comments] using htally⟩

end Directive

end DocExpr
