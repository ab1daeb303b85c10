import DocExpr.Proofs.Layout.Compositional
import DocExpr.Proofs.Layout.Groupings
import DocExpr.Proofs.Layout.Visible
import DocExpr.Proofs.Literals.Kept

/-!
# Where what is written ends

All lines of a leaf that is read from a source end in something visible (`Expr.Bare`). So what a
tree without documentation behind something writes ends in something visible, perhaps with one line
break behind it (`Expr.ended_write`), and behind the last of some items there are as many blank
lines as their spacing asks for (`Expr.exists_writeItems`).
-/

namespace DocExpr

open Lexeme

/-! ## Lines that end visibly -/

namespace Text

/-- Whether a line ends in something visible. -/
def EndsVisibly (line : List Char) : Prop := ∃ c ∈ line.getLast?, isBlank c = false

instance : DecidablePred EndsVisibly := fun line =>
  decidable_of_iff (line.getLast?.any fun c => !isBlank c)
    (by simp [EndsVisibly, Option.any_eq_true])

theorem EndsVisibly.allBlank {line : List Char} (h : EndsVisibly line) : allBlank line = false := by
  obtain ⟨c, hlast, hc⟩ := h
  exact List.all_eq_false.2 ⟨c, List.mem_of_getLast? hlast, by simp [hc]⟩

theorem endsVisibly_trimEnd {line : List Char} (h : allBlank line = false) :
    EndsVisibly (trimEnd line) := by
  obtain ⟨-, -, -, hlast⟩ := trimEnd_spec line
  have hn : trimEnd line ≠ [] := ne_nil_of_visible ((allBlank_trimEnd line).trans h)
  obtain ⟨c, hc⟩ := Option.isSome_iff_exists.1 (List.getLast?_isSome.2 hn)
  exact ⟨c, hc, hlast c hc⟩

/-- Lines end visibly if the last one does. -/
theorem EndsVisibly.joinLines {last : List Char} (h : EndsVisibly last) (lines : List (List Char)) :
    trimEnd (joinLines (lines ++ [last])) = joinLines (lines ++ [last]) := by
  obtain ⟨c, hlast, hc⟩ := h
  have hn : last ≠ [] := by
    rintro rfl
    cases hlast
  refine trimEnd_of_getLast fun d hd => ?_
  by_cases hlines : lines = []
  · subst hlines
    rw [show Text.joinLines ([] ++ [last]) = last from rfl, Option.mem_def.1 hlast] at hd
    exact Option.some.inj hd ▸ hc
  · rw [joinLines_append hlines (List.cons_ne_nil last []),
      show Text.joinLines [last] = last from rfl, List.getLast?_append, List.getLast?_cons,
      Option.mem_def.1 hlast] at hd
    exact Option.some.inj hd ▸ hc

/-- Whether all lines of a text end in something visible. -/
def Closed (text : List Char) : Prop := ∀ line ∈ splitLines text, EndsVisibly line

instance : DecidablePred Closed := fun text =>
  inferInstanceAs (Decidable (∀ line ∈ splitLines text, EndsVisibly line))

theorem Closed.cons {text : List Char} {c : Char} (hc : c ≠ '\n') (h : Closed text) :
    Closed (c :: text) := by
  obtain ⟨first, others, hlines⟩ := List.exists_cons_of_ne_nil (splitLines_ne_nil text)
  rw [Closed, hlines, List.forall_mem_cons] at h
  obtain ⟨⟨d, hlast, hd⟩, hothers⟩ := h
  rw [Closed, splitLines, if_neg hc, hlines, List.modifyHead_cons, List.forall_mem_cons]
  exact ⟨⟨d, by simp [List.getLast?_cons, Option.mem_def.1 hlast], hd⟩, hothers⟩

theorem closed_of_solid {text : List Char} (h : Solid text) (hline : '\n' ∉ text) :
    Closed text := by
  obtain ⟨hn, -, hlast⟩ := h
  rw [Closed, splitLines_of_not_mem hline, List.forall_mem_singleton]
  obtain ⟨c, hc⟩ := Option.isSome_iff_exists.1 (List.getLast?_isSome.2 hn)
  exact ⟨c, hc, hlast c hc⟩

end Text

open Text

/-- The lines of a literal end in its closing quote or in the backslash before a line break. -/
theorem Lexeme.Body.closed {quote : Char} (hquote : quote = '\x22' ∨ quote = '\x27') {w : List Char}
    (h : Body quote w) : Closed w := by
  induction h with
  | close => rcases hquote with rfl | rfl <;> decide
  | escape c h ih =>
    by_cases hc : c = '\n'
    · subst hc
      exact List.forall_mem_cons.2 ⟨⟨'\\', rfl, by decide⟩, ih⟩
    · exact .cons (by decide) (ih.cons hc)
  | plain hc h ih =>
    refine ih.cons fun hnewline => ?_
    rw [hnewline] at hc
    exact absurd hc.1 (by decide)

theorem Stable.closed {form : Atom} {text : List Char} (h : Stable (.atom form) text) :
    Closed text := by
  by_cases hline : '\n' ∈ text
  · obtain ⟨-, quote, w, rfl, hquote, hread⟩ := h.readQuoted_of_mem hline
    exact ((body_of_readQuoted hread).closed hquote).cons
      (by rcases hquote with rfl | rfl <;> decide)
  · exact closed_of_solid (solid_atom h) hline

theorem Kind.HasLine.closed {form : Block} {line : String} (h : form.line.HasLine line) :
    Closed line.toList := by
  refine closed_of_solid h.2 ?_
  cases form with
  | multiline => exact not_mem_of_tickedLine h.1
  | _ => exact not_mem_of_comment h.1

/-! ## Leaves -/

namespace Expr

/-- Whether a node is no documentation behind something, and the lines of a leaf end visibly. -/
def Bare : Expr → Prop
  | atom _ text _ => Closed text.toList
  | block form lines _ => form ≠ .trailing ∧ lines ≠ [] ∧ ∀ line ∈ lines, Closed line.toList
  | _ => True

theorem Bare.leafOf {Writes : String → Prop} {Stages : List String → Prop}
    (hwrites : ∀ text : String, Closed text.toList → Writes text) {n : Expr} (h : n.Bare) :
    n.LeafOf Writes Stages := by
  cases n with
  | atom form text o => exact hwrites text h
  | block form lines o =>
    cases form with
    | trailing => exact absurd rfl h.1
    | _ => exact fun line hline => hwrites line (h.2.2 line hline)
  | _ => trivial

end Expr

/-- What is said of the symbols of a tree is said of those of its nodes. -/
theorem Expr.forall_spell_preorder {P : Symbol → Prop} {e : Expr} (h : ∀ x ∈ e.spell, P x) :
    ∀ n ∈ e.preorder, ∀ x ∈ n.spell, P x := by
  induction e using inductionOnChildren with
  | node e ih => exact forall_preorder.2 ⟨h, fun c hc => ih c hc (forall_spell_children h c hc)⟩

/-- What is said of the symbols of a tree is said of its leaves. -/
theorem Expr.forall_leaf {P : Symbol → Prop} {e : Expr} (h : ∀ x ∈ e.spell, P x) :
    ∀ n ∈ e.preorder, ∀ x ∈ n.leaf, P x := by
  intro n hn x hx
  refine forall_spell_preorder h n hn x ?_
  cases n <;> simp_all [leaf, spell]

/-- The leaves of a tree that is read can be written such that they are found again. -/
theorem Goal.legible_of_parseAs {goal : Goal} {text file : String} {e : Expr}
    (h : parseAs goal text file = .ok e) : ∀ n ∈ e.preorder, ∀ x ∈ n.leaf, x.Legible := by
  obtain ⟨gs, hscan⟩ := Glyph.exists_scans text.toList
  have hlegible : ∀ x ∈ goal.spell e, x.Legible := fun x hx => (Goal.clear_spell hscan h x hx).1
  cases goal with
  | expression => exact Expr.forall_leaf hlegible
  | items =>
    have hitems : ∀ f ∈ e.items, ∀ n ∈ f.preorder, ∀ x ∈ n.leaf, x.Legible := fun f hf =>
      Expr.forall_leaf (Expr.forall_mem_spell hlegible f hf)
    cases e with
    | group items o => exact Expr.forall_preorder.2 ⟨by simp [Expr.leaf], hitems⟩
    | _ => exact hitems _ (List.mem_singleton_self _)

/-- The leaves of a tree that is read end visibly, unless one is documentation behind something. -/
theorem Goal.bare_of_parseAs {goal : Goal} {text file : String} {e : Expr}
    (h : parseAs goal text file = .ok e) (hdocs : ∀ n ∈ e.preorder, n.isBlock .trailing = false) :
    ∀ n ∈ e.preorder, n.Bare := by
  intro n hn
  have hlegible := Goal.legible_of_parseAs h n hn
  cases n with
  | atom form text o => exact Stable.closed (hlegible (.atom form text) (by simp [Expr.leaf]))
  | block form lines o =>
    obtain ⟨hlines, hline⟩ := hlegible (.block form lines) (by simp [Expr.leaf])
    exact ⟨of_decide_eq_false (hdocs _ hn), hlines, fun line hl => (hline line hl).closed⟩
  | _ => trivial

/-! ## Writing -/

/-- The blank lines that a spacing puts before the first of some parts and behind the last one. -/
def Spacing.gap : Spacing → List (List Char)
  | blankLines => [[]]
  | inline | lines => []

namespace Page

variable {p : Page} {body : Page → Page} {text : String} {lines : List String}

/-- Whether nothing is staged on a page and what is written ends in something visible, perhaps with
a line break behind it. -/
def Ended (p : Page) : Prop := p.staged = [] ∧
  (allBlank p.line = false ∨ p.line = [] ∧ ∃ last ∈ p.above.head?, EndsVisibly last)

/-- What adds visible characters and stages nothing is inherited from parts. -/
theorem compositional_contributes :
    Compositional (fun body => ∃ cs, Contributes body cs) (fun _ => True) fun _ => False where
  fixed := fun _ _ => trivial
  nothing := ⟨[], contributes_of_eq fun _ => ⟨rfl, rfl, rfl⟩⟩
  next := fun ⟨_, hbody⟩ ⟨_, hrest⟩ => ⟨_, hbody.comp hrest⟩
  append := fun {text} _ => ⟨_, contributes_append text⟩
  stage := fun h => h.elim
  verticalSpacing := ⟨[], contributes_verticalSpacing⟩
  indentedIfSpaced := fun ⟨_, hbody⟩ => ⟨_, hbody.indentedIfSpaced⟩
  aligned := fun ⟨_, hbody⟩ => ⟨_, hbody.aligned⟩
  spaced := fun mode ⟨_, hbody⟩ => ⟨_, hbody.spaced mode⟩

theorem allBlank_addToLine (p : Page) {fragment : List Char} (h : allBlank fragment = false) :
    allBlank (p.addToLine fragment).line = false := by
  obtain ⟨-, -, before, -, -, hline⟩ := p.addToLine_of_visible h
  have hrest : allBlank (trimStart fragment) = false := (allBlank_trimStart fragment).trans h
  rw [hline, allBlank_append, hrest, Bool.and_false]

/-- What is written ends visibly behind a text whose lines do. -/
theorem visible_append (h : Closed text.toList) (p : Page) :
    allBlank (p.append text).line = false := by
  have hpieces : ∀ (pieces : List (List Char)) (p : Page), pieces ≠ [] →
      (∀ piece ∈ pieces, EndsVisibly piece) →
      allBlank (appendPieces pieces p).line = false := by
    intro pieces
    induction pieces with
    | nil => exact fun p hn => absurd rfl hn
    | cons piece pieces ih =>
      intro p _ h
      obtain ⟨hpiece, hrest⟩ := List.forall_mem_cons.1 h
      by_cases hn : pieces = []
      · subst hn
        exact p.allBlank_addToLine hpiece.allBlank
      · rw [appendPieces_cons p piece hn]
        exact ih _ hn hrest
  exact hpieces _ p (splitLines_ne_nil _) h

theorem ended_append (h : Closed text.toList) (hp : p.staged = []) : (p.append text).Ended :=
  ⟨(contributes_append text p hp).1, .inl (visible_append h p)⟩

theorem ended_appendLines (hn : lines ≠ []) (h : ∀ line ∈ lines, Closed line.toList)
    (hp : p.staged = []) :
    (appendLines lines p).Ended := by
  induction lines generalizing p with
  | nil => exact absurd rfl hn
  | cons line lines ih =>
    obtain ⟨hline, hlines⟩ := List.forall_mem_cons.1 h
    have hstaged := (contributes_append line p hp).1
    have hnext := (contributes_newLine _ hstaged).1
    by_cases hlast : lines = []
    · subst hlast
      refine ⟨hnext, .inr ?_⟩
      rw [appendLines, appendLines, newLine_eq_finishLine, finishLine, hstaged]
      exact ⟨rfl, _, rfl, endsVisibly_trimEnd (visible_append hline p)⟩
    · exact ih hlast hlines hnext

theorem Ended.congr {q : Page} (h : p.Ended) (hstaged : q.staged = p.staged)
    (habove : q.above = p.above) (hline : q.line = p.line) : q.Ended := by
  rw [Ended, hstaged, habove, hline]
  exact h

theorem Ended.indentLess (h : p.Ended) : p.indentLess.Ended := by
  obtain ⟨hstaged, hline | ⟨hline, hlast⟩⟩ := h
  · exact ⟨hstaged, .inl (by simp [Page.indentLess, hline])⟩
  · exact ⟨hstaged, .inr ⟨by simp [Page.indentLess, hline], hlast⟩⟩

/-- Behind vertical spacing, a line is begun, and the blank lines of the spacing are above it. -/
theorem Ended.verticalSpacing (h : p.Ended) (hmode : p.mode ≠ .inline) :
    p.verticalSpacing.line = [] ∧ p.verticalSpacing.staged = [] ∧
      ∃ last above, p.verticalSpacing.above = p.mode.gap ++ last :: above ∧ EndsVisibly last := by
  obtain ⟨hstaged, hended⟩ := h
  have hbroken : p.startOnNewLine.line = [] ∧ p.startOnNewLine.staged = [] ∧
      ∃ last above, p.startOnNewLine.above = last :: above ∧ EndsVisibly last := by
    unfold startOnNewLine
    rcases hended with hline | ⟨hline, last, hlast, hvisible⟩
    · have hbegun : ¬p.line.isEmpty := by
        rw [List.isEmpty_iff]
        exact ne_nil_of_visible hline
      rw [if_neg hbegun, newLine_eq_finishLine, finishLine, hstaged]
      exact ⟨rfl, rfl, _, p.above, rfl, endsVisibly_trimEnd hline⟩
    · obtain ⟨above, habove⟩ := List.head?_eq_some_iff.1 (Option.mem_def.1 hlast)
      rw [if_pos (by simp [hline])]
      exact ⟨hline, hstaged, last, above, habove, hvisible⟩
  unfold Page.verticalSpacing
  cases hm : p.mode with
  | inline => exact absurd hm hmode
  | lines => exact hbroken
  | blankLines =>
    obtain ⟨hline, hnone, last, above, habove, hvisible⟩ := hbroken
    refine ⟨by rw [newLine_eq_finishLine]; rfl, by rw [newLine_eq_finishLine]; rfl, last, above,
      ?_, hvisible⟩
    rw [newLine_eq_finishLine, finishLine, hnone, hline, habove]
    rfl

theorem Ended.indentedIfSpaced (h : ∀ p : Page, p.staged = [] → (body p).Ended)
    (hp : p.staged = []) :
    (p.indentedIfSpaced body).Ended := by
  unfold Page.indentedIfSpaced indentedIf
  split
  · exact (h p.indentMore hp).indentLess
  · exact h p hp

theorem staged_of_contributes (hbody : ∃ cs, Contributes body cs) (hp : p.staged = []) :
    (body p).staged = [] := by
  obtain ⟨cs, hbody⟩ := hbody
  exact (hbody p hp).1

theorem ended_parenthesized (spacing : Spacing) (hbody : ∃ cs, Contributes body cs)
    (hp : p.staged = []) :
    (p.parenthesized spacing body).Ended := by
  have h := compositional_contributes
  have hinner := h.spaced spacing (h.next h.verticalSpacing (h.indentedIfSpaced hbody))
  have hstaged := staged_of_contributes hinner (contributes_append "(" p hp).1
  exact ended_append (by decide) hstaged

end Page

namespace Expr

open Page

variable {es : List Expr} {p : Page}

/-- Whether what a tree writes ends visibly. -/
def Ends (e : Expr) : Prop := ∀ p : Page, p.staged = [] → (e.write p).Ended

theorem ended_writeSeparated (separator : String) (hn : es ≠ []) (hes : ∀ e ∈ es, e.Ends)
    (hp : p.staged = []) :
    (writeSeparated separator es p).Ended := by
  induction es generalizing p with
  | nil => exact absurd rfl hn
  | cons e es ih =>
    obtain ⟨he, hrest⟩ := List.forall_mem_cons.1 hes
    cases es with
    | nil =>
      rw [writeSeparated]
      exact he p hp
    | cons f es =>
      rw [writeSeparated]
      · exact ih (List.cons_ne_nil f es) hrest (contributes_append separator _ (he p hp).1).1
      · simp

theorem ended_writeUnion (first : Bool) (hn : es ≠ []) (hes : ∀ e ∈ es, e.Ends)
    (hp : p.staged = []) :
    (writeUnion first es p).Ended := by
  induction es generalizing first p with
  | nil => exact absurd rfl hn
  | cons e es ih =>
    obtain ⟨he, hrest⟩ := List.forall_mem_cons.1 hes
    have hbar : ∀ q : Page, q.staged = [] → (if first then q else q.append " | ").staged = [] := by
      intro q hq
      split
      · exact hq
      · exact (contributes_append _ q hq).1
    have hhead :=
      Ended.indentedIfSpaced (fun q hq => he _ (hbar q hq)) (contributes_verticalSpacing p hp).1
    rw [writeUnion]
    by_cases hlast : es = []
    · subst hlast
      rw [writeUnion]
      exact hhead
    · exact ih false hlast hrest hhead.1

/-- What an admissible tree writes ends visibly if its leaves do. -/
theorem ends_of_bare {e : Expr} (he : e.Admissible) (hbare : ∀ n ∈ e.preorder, n.Bare) :
    e.Ends := by
  have hleaves : ∀ {e : Expr}, (∀ n ∈ e.preorder, n.Bare) →
      ∀ n ∈ e.preorder, n.LeafOf (fun _ => True) fun _ => False :=
    fun hbare n hn => (hbare n hn).leafOf fun _ _ => trivial
  induction e using inductionOnChildren with
  | node e ih =>
    obtain ⟨hnode, hparts⟩ := forall_preorder.1 hbare
    have h := compositional_contributes
    have hwrite : ∀ c ∈ e.children, ∀ p : Page, p.staged = [] → (c.write p).staged = [] :=
      fun c hc _ => staged_of_contributes (h.write c (hleaves (hparts c hc)))
    have hends : ∀ c ∈ e.children, c.Ends := fun c hc => ih c hc (he.child hc) (hparts c hc)
    have hall : ∀ c ∈ e.children, ∀ n ∈ c.preorder, n.LeafOf (fun _ => True) fun _ => False :=
      fun c hc => hleaves (hparts c hc)
    intro p hp
    cases e with
    | atom form text o =>
      rw [write]
      exact ended_append hnode hp
    | block form lines o =>
      obtain ⟨hform, hn, hlines⟩ := hnode
      cases form with
      | trailing => exact absurd rfl hform
      | leading =>
        rw [write]
        exact ended_appendLines hn hlines hp
      | multiline =>
        rw [write]
        exact (ended_appendLines hn hlines (p := p.indentToColumn) hp).congr rfl rfl rfl
    | suffixed form item o =>
      rw [write]
      exact ended_append (by cases form <;> decide) (hwrite item (by simp [children]) p hp)
    | map item key o =>
      have hitem := hwrite item (by simp [children]) p hp
      have hkey := hwrite key (by simp [children]) _ (contributes_append "\x7b" _ hitem).1
      rw [write]
      exact ended_append (by decide) hkey
    | call callee arguments o =>
      have hcallee := hwrite callee (by simp [children]) p hp
      have hgroup : arguments.isGroup := ((forall_preorder.1 he).1).2
      cases arguments with
      | group items o' =>
        have hitems := hparts (group items o') (by simp [children])
        rw [write]
        exact ended_parenthesized _
          (h.writeItems items (forall_preorder.1 (hleaves hitems)).2) hcallee
      | _ => cases hgroup
    | array elements o =>
      rw [write]
      exact ended_append (by decide) (staged_of_contributes
        (h.writeSeparated ", " (by decide) elements hall) (contributes_append "[" p hp).1)
    | group items o =>
      rw [write]
      exact ended_parenthesized _ (h.writeItems items hall) hp
    | chain op operands o =>
      have hn : operands ≠ [] := by
        rintro rfl
        exact absurd (forall_preorder.1 he).1.1 (by decide)
      by_cases hop : op = .union
      · subst hop
        rw [write]
        exact (ended_writeUnion true hn hends (p := p.pushMode _) hp).congr rfl rfl rfl
      · rw [write]
        · exact ended_writeSeparated _ hn hends hp
        · exact hop
    | unary op operand o =>
      rw [write]
      exact hends operand (by simp [children]) _ (contributes_append _ p hp).1

/-- Behind the last of some items, what is written ends visibly up to vertical spacing. -/
theorem exists_writeItems (hn : es ≠ []) (hes : ∀ e ∈ es, e.Ends) (hp : p.staged = []) :
    ∃ q : Page, q.Ended ∧ q.modes = p.modes ∧ writeItems es p = q.verticalSpacing := by
  induction es generalizing p with
  | nil => exact absurd rfl hn
  | cons e es ih =>
    obtain ⟨he, hrest⟩ := List.forall_mem_cons.1 hes
    cases es with
    | nil => exact ⟨e.write p, he p hp, modes_write e p, by rw [writeItems]⟩
    | cons f es =>
      have hcomma := (contributes_append ", " _ (he p hp).1).1
      obtain ⟨q, hq, hmodes, hwrite⟩ :=
        ih (List.cons_ne_nil f es) hrest (contributes_verticalSpacing _ hcomma).1
      refine ⟨q, hq, by rw [hmodes, modes_verticalSpacing, modes_append, modes_write], ?_⟩
      rw [writeItems, hwrite]
      simp

end Expr

end DocExpr
