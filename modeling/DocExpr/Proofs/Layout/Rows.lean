import DocExpr.Proofs.Layout.Nested
import DocExpr.Proofs.Layout.Spacings

/-!
# Rows

The rows of a page are the lines that have something visible on them. What is written does not make
them fewer (`Page.Grows`), and a text on one line has one at most (`Page.rows_le_one`). A grouping
that is set on lines of its own has two: the parentheses of a group, or the first two operands of a
union. So has each tree with such a grouping in it (`Expr.two_le_rows`), because a tree includes
what is written for its parts (`Expr.includes_write`).
-/

namespace DocExpr

open Text

namespace Text

theorem allBlank_joinLines (lines : List (List Char)) :
    allBlank (joinLines lines) = lines.all allBlank := by
  induction lines with
  | nil => rfl
  | cons line lines ih =>
    by_cases hn : lines = []
    · simp [hn, joinLines]
    · rw [joinLines_cons hn, allBlank_append, List.all_cons, ← ih]
      rfl

/-- A line break with something visible behind it is not trimmed off. -/
theorem mem_trimEnd_joinLines (first : List Char) {lines : List (List Char)}
    (h : ∃ line ∈ lines, allBlank line = false) : '\n' ∈ trimEnd (joinLines (first :: lines)) := by
  obtain ⟨line, hline, hvisible⟩ := h
  have hrest : allBlank (joinLines lines) = false := by
    rw [allBlank_joinLines]
    exact List.all_eq_false.2 ⟨line, hline, by simp [hvisible]⟩
  have hsplit : joinLines (first :: lines) = (first ++ ['\n']) ++ joinLines lines := by
    rw [joinLines_cons (List.ne_nil_of_mem hline), List.append_assoc]
    rfl
  rw [hsplit, trimEnd_append_of_visible _ hrest]
  simp

end Text

namespace Page

variable {p q : Page} {body part rest : Page → Page} {text : String} {line : List Char}

/-- The number of lines on a page that have something visible on them. -/
def rows (p : Page) : Nat := (p.line :: p.above).countP fun line => !allBlank line

theorem rows_eq (p : Page) :
    p.rows = p.above.countP (fun line => !allBlank line) + if allBlank p.line then 0 else 1 := by
  cases h : allBlank p.line <;> simp [rows, h]

theorem rows_of_line_nil (hline : p.line = []) :
    p.rows = p.above.countP fun line => !allBlank line := by
  rw [rows_eq, hline]
  rfl

theorem rows_le_of_line (habove : q.above = p.above) (hline : allBlank q.line → allBlank p.line) :
    p.rows ≤ q.rows := by
  rw [rows_eq, rows_eq, habove]
  cases h : allBlank q.line with
  | true => simp [hline h]
  | false => cases allBlank p.line <;> simp

theorem rows_addToLine (p : Page) (fragment : List Char) :
    p.rows ≤ (p.addToLine fragment).rows := by
  refine rows_le_of_line (by rw [addToLine_eq]) fun h => ?_
  by_cases hline : p.line = []
  · rw [hline]
    rfl
  · rw [line_addToLine hline, allBlank_append, Bool.and_eq_true] at h
    exact h.1

theorem rows_finishLine (hp : p.staged = []) : p.finishLine.rows = p.rows := by
  rw [rows_of_line_nil rfl, rows_eq]
  simp only [finishLine, hp, documented, List.singleton_append, List.countP_cons, allBlank_trimEnd]
  cases allBlank p.line <;> rfl

theorem rows_indentLess (p : Page) : p.indentLess.rows = p.rows := by
  rw [rows_eq, rows_eq]
  cases h : allBlank p.line <;> simp [indentLess, h, show allBlank [] = true from rfl]

theorem rows_append_of_line_nil (text : String) (hp : p.line = []) (hline : '\n' ∉ text.toList)
    (hvisible : allBlank text.toList = false) : (p.append text).rows = p.rows + 1 := by
  have hadded := p.allBlank_addToLine hvisible
  rw [append_of_not_mem hline, rows_eq, rows_of_line_nil hp, hadded, addToLine_eq]
  rfl

/-- The text of a page with more than one row is not on one line. -/
theorem rows_le_one (h : p.text.toList = line ++ ['\n']) (hline : '\n' ∉ line)
    (hp : p.staged = []) :
    p.rows ≤ 1 := by
  have hfinished : p.finished.line = [] ∧ p.finished.rows = p.rows := by
    unfold finished
    split
    · next hempty => exact ⟨by simp_all, rfl⟩
    · exact ⟨rfl, rows_finishLine hp⟩
  rw [text, String.toList_ofList, List.append_left_inj] at h
  rw [← hfinished.2, rows_of_line_nil hfinished.1, ← List.countP_reverse]
  by_contra! hrows
  cases hlines : p.finished.above.reverse with
  | nil => simp [hlines] at hrows
  | cons first lines =>
    rw [hlines] at h hrows
    have hrest : 0 < lines.countP fun line => !allBlank line := by
      rw [List.countP_cons] at hrows
      split at hrows <;> omega
    obtain ⟨second, hsecond, hvisible⟩ := List.countP_pos_iff.1 hrest
    exact hline (h ▸ mem_trimEnd_joinLines first ⟨second, hsecond, by simpa using hvisible⟩)

/-- Whether a part of a page stages nothing and leaves visible what is visible. -/
def Grows (body : Page → Page) : Prop :=
  ∀ p, p.staged = [] → (body p).staged = [] ∧ p.rows ≤ (body p).rows

theorem grows_append (text : String) : Grows fun p => p.append text := by
  refine fun p hp => ⟨(contributes_append text p hp).1, ?_⟩
  have hpieces : ∀ (pieces : List (List Char)) (p : Page), p.staged = [] →
      p.rows ≤ (appendPieces pieces p).rows := by
    intro pieces p hp
    fun_induction appendPieces pieces p with
    | case1 => exact le_rfl
    | case2 piece p => exact p.rows_addToLine piece
    | case3 piece pieces p hn ih =>
      have hadded : (p.addToLine piece).staged = [] := (p.staged_addToLine piece).trans hp
      calc p.rows ≤ (p.addToLine piece).rows := p.rows_addToLine piece
        _ = (p.addToLine piece).finishLine.rows := (rows_finishLine hadded).symm
        _ ≤ _ := ih rfl
  exact hpieces _ p hp

theorem grows_startOnNewLine : Grows startOnNewLine := by
  intro p hp
  unfold startOnNewLine
  split
  · exact ⟨hp, le_rfl⟩
  · exact grows_append "\n" p hp

theorem Grows.next (hbody : Grows body) (hrest : Grows rest) : Grows fun p => rest (body p) := by
  intro p hp
  obtain ⟨hstaged, hrows⟩ := hbody p hp
  obtain ⟨hstaged', hrows'⟩ := hrest _ hstaged
  exact ⟨hstaged', hrows.trans hrows'⟩

theorem grows_verticalSpacing : Grows verticalSpacing := by
  intro p hp
  unfold verticalSpacing
  split
  · exact ⟨hp, le_rfl⟩
  · exact grows_startOnNewLine p hp
  · exact grows_startOnNewLine.next (grows_append "\n") p hp

theorem Grows.indentedIfSpaced (h : Grows body) : Grows fun p => p.indentedIfSpaced body := by
  intro p hp
  show (p.indentedIf (p.mode != .inline) body).staged = _ ∧
      _ ≤ (p.indentedIf (p.mode != .inline) body).rows
  unfold indentedIf
  split
  · exact ⟨(h p.indentMore hp).1, (h p.indentMore hp).2.trans (rows_indentLess _).ge⟩
  · exact h p hp

/-- What leaves visible what is visible is inherited from parts. -/
theorem compositional_grows : Compositional Grows (fun _ => True) fun _ => False where
  fixed := fun _ _ => trivial
  nothing := fun _ hp => ⟨hp, le_rfl⟩
  next := Grows.next
  append := fun _ => grows_append _
  stage := fun h => h.elim
  verticalSpacing := grows_verticalSpacing
  indentedIfSpaced := Grows.indentedIfSpaced
  aligned := fun h p hp => h p.indentToColumn hp
  spaced := fun mode h p hp => h (p.pushMode mode) hp

/-- Vertical spacing that breaks lines ends a row. -/
theorem Ended.rows_verticalSpacing (h : p.Ended) (hmode : p.mode ≠ .inline) :
    p.verticalSpacing.line = [] ∧ p.verticalSpacing.staged = [] ∧ 1 ≤ p.verticalSpacing.rows := by
  obtain ⟨hline, hstaged, last, above, habove, hlast⟩ := h.verticalSpacing hmode
  refine ⟨hline, hstaged, ?_⟩
  rw [rows_of_line_nil hline]
  exact List.countP_pos_iff.2 ⟨last, by simp [habove], by simp [hlast.allBlank]⟩

/-- Parentheses around items that are set on lines of their own are on two lines. -/
theorem two_le_rows_parenthesized {spacing : Spacing} {items : List Expr}
    (hspacing : spacing ≠ .inline) (hn : items ≠ []) (hitems : ∀ e ∈ items, e.Ends)
    (hp : p.staged = []) :
    2 ≤ (p.parenthesized spacing (Expr.writeItems items)).rows := by
  have hopened : ((p.append "(").pushMode spacing).verticalSpacing.indentMore.staged = [] :=
    (grows_verticalSpacing ((p.append "(").pushMode spacing) (grows_append "(" p hp).1).1
  obtain ⟨q, hq, hmodes, hwrite⟩ := Expr.exists_writeItems hn hitems hopened
  have hmode : q.mode = spacing := by
    rw [mode, hmodes]
    show ((p.append "(").pushMode spacing).verticalSpacing.modes.headD _ = _
    rw [modes_verticalSpacing]
    rfl
  obtain ⟨hline, -, hrows⟩ := hq.rows_verticalSpacing (hmode ▸ hspacing)
  -- the last item ends in spacing, so the closing parenthesis begins a row
  rw [parenthesized_of_spaced hspacing, hwrite]
  have hless : q.verticalSpacing.indentLess.popMode.line = [] := by
    simp [popMode, indentLess, hline]
  rw [rows_append_of_line_nil ")" hless (by decide) (by decide)]
  show 2 ≤ q.verticalSpacing.indentLess.rows + 1
  rw [rows_indentLess]
  omega

/-- Whether a part of a page is written in another one, which leaves visible what is visible of
it. -/
def Includes (body part : Page → Page) : Prop :=
  ∀ p, p.staged = [] → ∃ q, q.staged = [] ∧ (part q).rows ≤ (body p).rows

theorem Includes.refl (body : Page → Page) : Includes body body := fun p hp => ⟨p, hp, le_rfl⟩

theorem Includes.next (h : Includes body part) (hbody : Grows body) (hrest : Grows rest) :
    Includes (fun p => rest (body p)) part := by
  intro p hp
  obtain ⟨q, hq, hrows⟩ := h p hp
  exact ⟨q, hq, hrows.trans (hrest _ (hbody p hp).1).2⟩

theorem Includes.behind (h : Includes rest part) (hbody : Grows body) :
    Includes (fun p => rest (body p)) part := fun p hp => h (body p) (hbody p hp).1

theorem Includes.indentedIfSpaced (h : Includes body part) :
    Includes (fun p => p.indentedIfSpaced body) part := by
  intro p hp
  show ∃ q, _ ∧ _ ≤ (p.indentedIf (p.mode != .inline) body).rows
  unfold indentedIf
  split
  · obtain ⟨q, hq, hrows⟩ := h p.indentMore hp
    exact ⟨q, hq, hrows.trans (rows_indentLess _).ge⟩
  · exact h p hp

theorem Includes.parenthesized (spacing : Spacing) (h : Includes body part) (hbody : Grows body) :
    Includes (fun p => p.parenthesized spacing body) part := by
  have hgrows := compositional_grows
  have hinner : Includes
      (fun p => p.spaced spacing fun p => p.verticalSpacing.indentedIfSpaced body) part :=
    fun p hp => h.indentedIfSpaced.behind grows_verticalSpacing (p.pushMode spacing) hp
  have hspaced :=
    hgrows.spaced spacing (hgrows.next hgrows.verticalSpacing (hgrows.indentedIfSpaced hbody))
  exact (hinner.next hspaced (grows_append ")")).behind (grows_append "(")

end Page

namespace Expr

open Page

variable {e c : Expr} {es : List Expr} {p : Page}

/-- Whether a node is neither documentation nor back-ticked lines, nor a name or a literal with a
line break. -/
def IsPlain : Expr → Prop
  | atom _ text _ => '\n' ∉ text.toList
  | block .. => False
  | _ => True

instance : DecidablePred IsPlain
  | atom _ text _ => inferInstanceAs (Decidable ('\n' ∉ text.toList))
  | block .. => inferInstanceAs (Decidable False)
  | suffixed .. | map .. | call .. | array .. | group .. | chain .. | unary .. =>
    inferInstanceAs (Decidable True)

/-- Whether the parts of a node are set on lines of their own where its spacing asks for lines. -/
def isGrouping : Expr → Bool
  | group .. => true
  | chain op .. => op = .union
  | _ => false

theorem IsPlain.isBlock (h : e.IsPlain) (form : Block) : e.isBlock form = false := by
  cases e with
  | block => exact h.elim
  | _ => rfl

theorem IsPlain.leafOf {Stages : List String → Prop} (h : e.IsPlain) :
    e.LeafOf (fun _ => True) Stages := by
  cases e with
  | block => exact h.elim
  | _ => trivial

/-! ## Trees on several lines -/

theorem grows_write (he : ∀ n ∈ e.preorder, n.IsPlain) : Grows e.write :=
  compositional_grows.write e fun n hn => (he n hn).leafOf

section Lists

variable (hes : ∀ e ∈ es, ∀ n ∈ e.preorder, n.IsPlain)

include hes

theorem grows_writeSeparated (separator : String) (hseparator : separator ∈ fixedTexts) :
    Grows (writeSeparated separator es) :=
  compositional_grows.writeSeparated separator hseparator es fun e he n hn => (hes e he n hn).leafOf

theorem grows_writeItems : Grows (writeItems es) :=
  compositional_grows.writeItems es fun e he n hn => (hes e he n hn).leafOf

theorem grows_writeUnion (first : Bool) : Grows (writeUnion first es) :=
  compositional_grows.writeUnion first es fun e he n hn => (hes e he n hn).leafOf

theorem includes_writeSeparated (separator : String) (hseparator : separator ∈ fixedTexts)
    (hc : c ∈ es) :
    Includes (writeSeparated separator es) c.write := by
  induction es with
  | nil => cases hc
  | cons e es ih =>
    obtain ⟨he, hrest⟩ := List.forall_mem_cons.1 hes
    cases es with
    | nil =>
      obtain rfl := List.mem_singleton.1 hc
      exact .refl _
    | cons f es =>
      have hhead := (grows_write he).next (grows_append separator)
      rcases List.mem_cons.1 hc with rfl | hc
      · have hbody := (Includes.refl c.write).next (grows_write he) (grows_append separator)
        exact hbody.next hhead (grows_writeSeparated hrest separator hseparator)
      · exact (ih hrest hc).behind hhead

theorem includes_writeItems (hc : c ∈ es) : Includes (writeItems es) c.write := by
  induction es with
  | nil => cases hc
  | cons e es ih =>
    obtain ⟨he, hrest⟩ := List.forall_mem_cons.1 hes
    have hbody := Includes.refl e.write
    cases es with
    | nil =>
      obtain rfl := List.mem_singleton.1 hc
      exact hbody.next (grows_write he) grows_verticalSpacing
    | cons f es =>
      have hhead := ((grows_write he).next (grows_append ", ")).next grows_verticalSpacing
      rcases List.mem_cons.1 hc with rfl | hc
      · have hcomma := (grows_append ", ").next grows_verticalSpacing
        exact (hbody.next (grows_write he) hcomma).next hhead (grows_writeItems hrest)
      · exact (ih hrest hc).behind hhead

theorem includes_writeUnion (first : Bool) (hc : c ∈ es) :
    Includes (writeUnion first es) c.write := by
  induction es generalizing first with
  | nil => cases hc
  | cons e es ih =>
    obtain ⟨he, hrest⟩ := List.forall_mem_cons.1 hes
    have hbar : Grows fun p => if first then p else p.append " | " := by
      cases first with
      | true => exact compositional_grows.nothing
      | false => exact grows_append " | "
    have hoperand := hbar.next (grows_write he)
    have hhead := grows_verticalSpacing.next hoperand.indentedIfSpaced
    rcases List.mem_cons.1 hc with rfl | hc
    · have hbody :=
        ((Includes.refl c.write).behind hbar).indentedIfSpaced.behind grows_verticalSpacing
      exact hbody.next hhead (grows_writeUnion hrest false)
    · exact (ih hrest false hc).behind hhead

end Lists

/-- A tree includes what is written for its parts. -/
theorem includes_write (he : e.Admissible) (hplain : ∀ n ∈ e.preorder, n.IsPlain)
    (hc : c ∈ e.children) :
    Includes e.write c.write := by
  obtain ⟨hnode, hparts⟩ := forall_preorder.1 hplain
  have hgrows : ∀ c ∈ e.children, Grows c.write := fun c hc => grows_write (hparts c hc)
  cases e with
  | atom => cases hc
  | block => exact hnode.elim
  | suffixed form item o =>
    obtain rfl := List.mem_singleton.1 hc
    exact (Includes.refl c.write).next (hgrows c hc) (grows_append form.text)
  | map item key o =>
    have hitem := hgrows item (by simp [children])
    have hkey := hgrows key (by simp [children])
    have hrest := ((grows_append "\x7b").next hkey).next (grows_append "\x7d")
    rcases List.mem_pair.1 hc with rfl | rfl
    · exact (Includes.refl c.write).next hitem hrest
    · exact ((Includes.refl _).next hkey (grows_append "\x7d")).behind
        (hitem.next (grows_append "\x7b"))
  | call callee arguments o =>
    have hgroup : arguments.isGroup := (admissible_call.1 he).1.2
    have hcallee := hgrows callee (by simp [children])
    have harguments := hgrows arguments (by simp [children])
    cases arguments with
    | group items o' =>
      have hwrite : (call callee (group items o') o).write =
          fun p => (group items o').write (callee.write p) := by
        funext p
        rw [write, write]
      rw [hwrite]
      rcases List.mem_pair.1 hc with rfl | rfl
      · exact (Includes.refl c.write).next hcallee harguments
      · exact (Includes.refl _).behind hcallee
    | _ => cases hgroup
  | array elements o =>
    have helements := grows_writeSeparated hparts ", " (by decide)
    exact ((includes_writeSeparated hparts ", " (by decide) hc).next helements
      (grows_append "]")).behind
      (grows_append "[")
  | group items o =>
    exact (includes_writeItems hparts hc).parenthesized (group items o).spacing
      (grows_writeItems hparts)
  | chain op operands o =>
    by_cases hop : op = .union
    · subst hop
      have hunion := includes_writeUnion hparts true hc
      intro p hp
      rw [write]
      exact hunion (p.pushMode _) hp
    · have hwrite : (chain op operands o).write = writeSeparated op.separator operands := by
        funext p
        rw [write]
        exact hop
      rw [hwrite]
      exact includes_writeSeparated hparts op.separator (by cases op <;> decide) hc
  | unary op operand o =>
    obtain rfl := List.mem_singleton.1 hc
    exact (Includes.refl _).behind (grows_append op.text)

/-- Where lines are broken, an operand with a bar before it begins a row behind what ends
visibly. -/
theorem two_le_rows_operand (hplain : ∀ n ∈ e.preorder, n.IsPlain) (hp : p.Ended)
    (hmode : p.mode ≠ .inline) :
    (p.verticalSpacing.indentedIfSpaced fun p => e.write (p.append " | ")).staged = [] ∧
      2 ≤ (p.verticalSpacing.indentedIfSpaced fun p => e.write (p.append " | ")).rows := by
  obtain ⟨hline, hstaged, hrows⟩ := hp.rows_verticalSpacing hmode
  refine ⟨(((grows_append " | ").next (grows_write hplain)).indentedIfSpaced _ hstaged).1, ?_⟩
  have hoperand : ∀ p : Page, p.line = [] → p.staged = [] → 1 ≤ p.rows →
      2 ≤ (e.write (p.append " | ")).rows := by
    intro p hline hp hrows
    have hbar := rows_append_of_line_nil " | " hline (by decide) (by decide)
    have hwrite : (p.append " | ").rows ≤ (e.write (p.append " | ")).rows :=
      (grows_write hplain _ (grows_append " | " p hp).1).2
    omega
  unfold indentedIfSpaced indentedIf
  split
  · exact (hoperand p.verticalSpacing.indentMore hline hstaged hrows).trans (rows_indentLess _).ge
  · exact hoperand _ hline hstaged hrows

/-- What is written for a union that is set on lines of its own is on two lines. -/
theorem two_le_rows_union {spacing : Spacing} (hlength : 2 ≤ es.length)
    (hplain : ∀ e ∈ es, ∀ n ∈ e.preorder, n.IsPlain) (hends : ∀ e ∈ es, e.Ends)
    (hspacing : spacing ≠ .inline) (hp : p.staged = []) :
    2 ≤ (p.spaced spacing (writeUnion true es)).rows := by
  obtain ⟨first, second, others, rfl⟩ := exists_cons_cons hlength
  simp only [List.forall_mem_cons] at hplain hends
  obtain ⟨hfirst, hsecond, hothers⟩ := hplain
  have hended : ((p.pushMode spacing).verticalSpacing.indentedIfSpaced first.write).Ended :=
    Ended.indentedIfSpaced hends.1 (grows_verticalSpacing (p.pushMode spacing) hp).1
  have hmode :
      ((p.pushMode spacing).verticalSpacing.indentedIfSpaced first.write).mode ≠ .inline := by
    rw [mode, modes_indentedIfSpaced (modes_write first), modes_verticalSpacing]
    exact hspacing
  obtain ⟨hstaged, hrows⟩ := two_le_rows_operand hsecond hended hmode
  rw [spaced, writeUnion, writeUnion]
  exact hrows.trans (grows_writeUnion hothers false _ hstaged).2

/-- What is written for a grouping that is set on lines of its own is on two lines. -/
theorem two_le_rows_of_isGrouping (he : e.Admissible) (hplain : ∀ n ∈ e.preorder, n.IsPlain)
    (hbare : ∀ n ∈ e.preorder, n.Bare) (hgrouping : e.isGrouping) (hspacing : e.spacing ≠ .inline)
    (hp : p.staged = []) : 2 ≤ (e.write p).rows := by
  have hparts := (forall_preorder.1 hplain).2
  have hends : ∀ c ∈ e.children, c.Ends := fun c hc =>
    ends_of_bare (he.child hc) ((forall_preorder.1 hbare).2 c hc)
  cases e with
  | group items o =>
    rw [write]
    exact two_le_rows_parenthesized hspacing (ne_nil_of_spacing hspacing) hends hp
  | chain op operands o =>
    obtain rfl : op = .union := of_decide_eq_true hgrouping
    rw [write]
    exact two_le_rows_union (admissible_chain.1 he).1.1 hparts hends hspacing hp
  | _ => cases hgrouping

/-- A tree with a grouping that is set on lines of its own is written on two lines. -/
theorem two_le_rows (he : e.Admissible) (hplain : ∀ n ∈ e.preorder, n.IsPlain)
    (hbare : ∀ n ∈ e.preorder, n.Bare) (h : ∃ n ∈ e.preorder, n.isGrouping ∧ n.spacing ≠ .inline)
    (hp : p.staged = []) : 2 ≤ (e.write p).rows := by
  induction e using inductionOnChildren generalizing p with
  | node e ih =>
    rcases exists_preorder.1 h with ⟨hgrouping, hspacing⟩ | ⟨c, hc, hn⟩
    · exact two_le_rows_of_isGrouping he hplain hbare hgrouping hspacing hp
    · obtain ⟨q, hq, hrows⟩ := includes_write he hplain hc p hp
      have hpart := ih c hc (he.child hc) ((forall_preorder.1 hplain).2 c hc)
        ((forall_preorder.1 hbare).2 c hc) hn hq
      exact hpart.trans hrows

end Expr

end DocExpr
