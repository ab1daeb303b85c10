import DocExpr.Proofs.Layout.NormalForm
import DocExpr.Proofs.Layout.Rows

/-!
# Trees on one line

Lines are broken in groups and in unions, if a node with more than two parts is somewhere in them. A
tree without such groupings is written without a line break (`Expr.flat_write`), so a tree that is
read, without documentation and without line breaks in its leaves, is written on one line exactly if
it has none (`Goal.oneLine_format_iff`).
-/

namespace DocExpr

open Text

/-! ## Writing without line breaks -/

namespace Page

variable {p : Page} {body rest : Page → Page}

/-- Whether a part of a page breaks no line in a grouping that asks for none. -/
def Flat (body : Page → Page) : Prop :=
  ∀ p, p.mode = .inline → (body p).above = p.above ∧ (body p).modes = p.modes

theorem flat_append (text : String) (h : '\n' ∉ text.toList) : Flat fun p => p.append text := by
  refine fun p _ => ⟨?_, p.modes_append text⟩
  show (p.append text).above = _
  rw [append_of_not_mem h, addToLine_eq]

theorem flat_verticalSpacing : Flat verticalSpacing := by
  intro p hp
  unfold verticalSpacing
  rw [hp]
  exact ⟨rfl, rfl⟩

theorem Flat.next (hbody : Flat body) (hrest : Flat rest) : Flat fun p => rest (body p) := by
  intro p hp
  obtain ⟨habove, hmodes⟩ := hbody p hp
  have hmode : (body p).mode = .inline := by rwa [mode, hmodes]
  obtain ⟨habove', hmodes'⟩ := hrest (body p) hmode
  exact ⟨habove'.trans habove, hmodes'.trans hmodes⟩

theorem Flat.indentedIfSpaced (h : Flat body) : Flat fun p => p.indentedIfSpaced body := by
  intro p hp
  have hbody : p.indentedIfSpaced body = body p := by simp [Page.indentedIfSpaced, indentedIf, hp]
  show (p.indentedIfSpaced body).above = _ ∧ (p.indentedIfSpaced body).modes = _
  exact hbody ▸ h p hp

theorem Flat.spaced (h : Flat body) : Flat fun p => p.spaced .inline body := by
  intro p _
  obtain ⟨habove, hmodes⟩ := h (p.pushMode .inline) rfl
  exact ⟨habove, congrArg List.tail hmodes⟩

theorem Flat.parenthesized (h : Flat body) : Flat fun p => p.parenthesized .inline body :=
  ((flat_append "(" (by decide)).next (flat_verticalSpacing.next h.indentedIfSpaced).spaced).next
    (flat_append ")" (by decide))

end Page

namespace Expr

open Page

variable {e : Expr} {es : List Expr}

theorem flat_writeSeparated (separator : String) (hseparator : '\n' ∉ separator.toList)
    (hes : ∀ e ∈ es, Flat e.write) : Flat (writeSeparated separator es) := by
  induction es with
  | nil => exact fun p _ => ⟨rfl, rfl⟩
  | cons e es ih =>
    obtain ⟨he, hrest⟩ := List.forall_mem_cons.1 hes
    cases es with
    | nil => exact he
    | cons f es => exact (he.next (flat_append separator hseparator)).next (ih hrest)

theorem flat_writeItems (hes : ∀ e ∈ es, Flat e.write) : Flat (writeItems es) := by
  induction es with
  | nil => exact flat_verticalSpacing
  | cons e es ih =>
    obtain ⟨he, hrest⟩ := List.forall_mem_cons.1 hes
    cases es with
    | nil => exact he.next flat_verticalSpacing
    | cons f es =>
      exact ((he.next (flat_append ", " (by decide))).next flat_verticalSpacing).next (ih hrest)

theorem flat_writeUnion (first : Bool) (hes : ∀ e ∈ es, Flat e.write) :
    Flat (writeUnion first es) := by
  induction es generalizing first with
  | nil => exact fun p _ => ⟨rfl, rfl⟩
  | cons e es ih =>
    obtain ⟨he, hrest⟩ := List.forall_mem_cons.1 hes
    have hbar : Flat fun p => if first then p else p.append " | " := by
      cases first with
      | true => exact fun p _ => ⟨rfl, rfl⟩
      | false => exact flat_append " | " (by decide)
    exact (flat_verticalSpacing.next (hbar.next he).indentedIfSpaced).next (ih false hrest)

/-- A tree is written without a line break if no grouping in it asks for lines. -/
theorem flat_write (he : e.Admissible) (hplain : ∀ n ∈ e.preorder, n.IsPlain)
    (hinline : ∀ n ∈ e.preorder, n.isGrouping → n.spacing = .inline) : Flat e.write := by
  induction e using inductionOnChildren with
  | node e ih =>
    obtain ⟨hnode, hparts⟩ := forall_preorder.1 hplain
    obtain ⟨hspacing, hinner⟩ := forall_preorder.1 hinline
    have hflat : ∀ c ∈ e.children, Flat c.write :=
      fun c hc => ih c hc (he.child hc) (hparts c hc) (hinner c hc)
    cases e with
    | atom form text o => exact flat_append text hnode
    | block => exact hnode.elim
    | suffixed form item o =>
      exact (hflat item (by simp [children])).next
        (flat_append form.text (by cases form <;> decide))
    | map item key o =>
      have hitem := hflat item (by simp [children])
      have hkey := hflat key (by simp [children])
      have hopened := hitem.next (flat_append "\x7b" (by decide))
      exact (hopened.next hkey).next (flat_append "\x7d" (by decide))
    | call callee arguments o =>
      have hgroup : arguments.isGroup := (admissible_call.1 he).1.2
      have hcallee := hflat callee (by simp [children])
      have harguments := hflat arguments (by simp [children])
      cases arguments with
      | group items o' => exact hcallee.next harguments
      | _ => cases hgroup
    | array elements o =>
      have helements := flat_writeSeparated ", " (by decide) hflat
      exact ((flat_append "[" (by decide)).next helements).next (flat_append "]" (by decide))
    | group items o =>
      have hitems := (flat_writeItems hflat).parenthesized
      rw [← hspacing rfl] at hitems
      exact hitems
    | chain op operands o =>
      by_cases hop : op = .union
      · subst hop
        have hoperands := (flat_writeUnion true hflat).spaced
        rw [← hspacing rfl] at hoperands
        exact hoperands
      · intro p hp
        rw [write]
        · exact flat_writeSeparated op.separator (by cases op <;> decide) hflat p hp
        · exact hop
    | unary op operand o =>
      exact (flat_append op.text (by cases op <;> decide)).next (hflat operand (by simp [children]))

end Expr

/-- The text of a page with no finished lines. -/
theorem Page.text_of_above_nil {p : Page} (habove : p.above = []) (hp : p.staged = []) :
    p.text.toList = trimEnd p.line ++ ['\n'] := by
  have htrim : trimEnd (trimEnd p.line) = trimEnd p.line :=
    trimEnd_of_getLast (trimmed_trimEnd p.line)
  rw [text, String.toList_ofList, finished, hp]
  by_cases hline : p.line = []
  · simp [hline, habove, joinLines]
  · simp [hline, finishLine, documented, habove, hp, joinLines, htrim]

/-! ## Trees that are read -/

namespace Kind

/-- Where there is no documentation, there is no document operator. -/
theorem not_mem_of_joined {before behind : Option Kind} {ks : List Kind}
    (h : Neighbours Joined before ks behind) (hbefore : before ≠ some (.block .leading))
    (hbehind : behind ≠ some (.block .trailing)) (hks : ∀ form, .block form ∉ ks) :
    .document ∉ ks := by
  induction ks generalizing before with
  | nil => exact List.not_mem_nil
  | cons k ks ih =>
    obtain ⟨hk, hrest⟩ := h
    have htail : ∀ form, .block form ∉ ks := fun form hm => hks form (List.mem_cons_of_mem _ hm)
    have hdocument : k ≠ .document := by
      rintro rfl
      rcases hk with hleading | htrailing
      · exact hbefore hleading
      · cases ks with
        | nil => exact hbehind htrailing
        | cons next ks => exact htail .trailing (by simp_all)
    refine List.not_mem_cons_of_ne_of_not_mem hdocument.symm (ih hrest ?_ htail)
    rintro ⟨rfl⟩
    exact hks .leading List.mem_cons_self

end Kind

/-- The form of a block, if a symbol is one. -/
def Symbol.blocks (x : Symbol) : List Block :=
  match x.tokenKind with
  | .block form => [form]
  | _ => []

namespace Expr

variable {e : Expr}

/-- The blocks of a tree are nodes of it. -/
theorem block_not_mem_kinds (hplain : ∀ n ∈ e.preorder, n.IsPlain) (form : Block) :
    .block form ∉ e.kinds := by
  have hkind : ∀ k : Kind, k.fault? = none → (∀ form, k ≠ .block form) →
      (Symbol.kind k).blocks = [] := by
    intro k _ hk
    cases k with
    | block form => exact absurd rfl (hk form)
    | _ => rfl
  have hleaves : e.spell.flatMap Symbol.blocks = [] := by
    rw [flatMap_spell hkind, List.flatMap_assoc, List.flatMap_eq_nil_iff]
    intro n hn
    have := hplain n hn
    cases n with
    | block => exact this.elim
    | _ => rfl
  intro hm
  obtain ⟨x, hx, hx'⟩ := List.mem_map.1 hm
  have hnone := List.flatMap_eq_nil_iff.1 hleaves x hx
  simp [Symbol.blocks, hx'] at hnone

end Expr

/-- A tree that is read has no document chain in it if it has no documentation. -/
theorem Goal.isChainOf_document {goal : Goal} {text file : String} {e : Expr}
    (h : parseAs goal text file = .ok e) (hplain : ∀ n ∈ e.preorder, n.IsPlain) :
    ∀ n ∈ e.preorder, n.isChainOf .document = false := by
  obtain ⟨gs, hscan⟩ := Glyph.exists_scans text.toList
  obtain ⟨he, hspelled⟩ := Goal.parseAs_spelled h
  have hjoined := Kind.neighbours_joined (hscan.documented_ofSource file) none none
  have hkinds : (Stream.ofSource text file).tokens.map Token.kind =
      ((Stream.ofSource text file).tokens.map Token.symbol).map Symbol.tokenKind := by
    simp [Function.comp_def]
  rw [hkinds, Kind.indifferent_joined.spelledBy hspelled] at hjoined
  have hnone := Kind.not_mem_of_joined hjoined (by simp) (by simp) (Expr.block_not_mem_kinds hplain)
  have hsymbols : ∀ x ∈ e.spell, x ≠ .kind .document := fun x hx hdocument =>
    hnone (List.mem_map.2 ⟨x, hx, by rw [hdocument]; rfl⟩)
  intro n hn
  have hspell := Expr.forall_spell_preorder hsymbols n hn
  cases n with
  | chain op operands o =>
    refine decide_eq_false fun hop => ?_
    subst hop
    obtain ⟨first, second, others, rfl⟩ := Expr.exists_cons_cons (he _ hn).1
    exact hspell (.kind .document) (by simp [Expr.spell, Expr.spellAll_cons, BinaryOp.kind]) rfl
  | _ => rfl

/-- The spacing of the nodes of a tree without document chains. -/
theorem Expr.spacing_ne_inline {e : Expr} (h : ∀ n ∈ e.preorder, n.isChainOf .document = false) :
    ∀ n ∈ e.preorder, n.spacing ≠ .inline ↔ ∃ m ∈ n.preorder, 2 < m.children.length := by
  intro n hn
  have hchain := forall_preorder_preorder h n hn
  rw [Ne, spacing_eq_inline]
  push Not
  exact exists_congr fun m => and_congr_right fun hm => by simp [Spread, hchain m hm]

open DocExpr.Expr in
/-- A tree that is read, without documentation, back-ticked lines and literals with line breaks, is
written on one line exactly if in no group and in no union, however deep, there is a node with more
than two parts. -/
theorem Goal.oneLine_format_iff (goal : Goal) (text file : String) (e : Expr) (width : Nat)
    (h : parseAs goal text file = .ok e) (hplain : ∀ n ∈ e.preorder, n.IsPlain) :
    (∃ line, '\n' ∉ line ∧ (e.format width).toList = line ++ ['\n']) ↔
      ¬∃ n ∈ e.preorder, n.isGrouping ∧ ∃ m ∈ n.preorder, 2 < m.children.length := by
  have he := (Goal.parseAs_spelled h).1
  have hspacing := spacing_ne_inline (Goal.isChainOf_document h hplain)
  have hwritten := grows_write hplain (Page.empty width) rfl
  constructor
  · rintro ⟨line, hline, htext⟩ ⟨n, hn, hgrouping, hwide⟩
    have hbare := Goal.bare_of_parseAs h fun n hn => (hplain n hn).isBlock .trailing
    have htwo := two_le_rows he hplain hbare ⟨n, hn, hgrouping, (hspacing n hn).2 hwide⟩
      (p := Page.empty width) rfl
    have hone := Page.rows_le_one htext hline hwritten.1
    omega
  · intro hnarrow
    have hinline : ∀ n ∈ e.preorder, n.isGrouping → n.spacing = .inline := fun n hn hgrouping =>
      not_not.1 fun hspaced => hnarrow ⟨n, hn, hgrouping, (hspacing n hn).1 hspaced⟩
    have hneat :=
      Page.scriptable_neat.write e (fun n hn => (hplain n hn).leafOf) (Page.Neat.empty width)
    have habove := (flat_write he hplain hinline (Page.empty width) rfl).1
    exact ⟨_, Page.Neat.not_mem_trimEnd hneat.line, Page.text_of_above_nil habove hwritten.1⟩

/-- A wide array that is in no group, and the same array as an argument. -/
theorem Goal.oneLine_format_iff_array :
    ∃ e e', parseAs .expression "[a, b, c] + f(x | y)" "" = .ok e ∧
      parseAs .expression "g([a, b, c])" "" = .ok e' ∧
      (∀ n ∈ e.preorder, n.IsPlain) ∧ (∀ n ∈ e'.preorder, n.IsPlain) ∧
      e.format 2 = "[a, b, c] + f(x | y)\n" ∧ e'.format 2 = "g(\n  [a, b, c]\n)\n" ∧
      (¬∃ n ∈ e.preorder, n.isGrouping ∧ ∃ m ∈ n.preorder, 2 < m.children.length) ∧
      ¬∃ line, '\n' ∉ line ∧ (e'.format 2).toList = line ++ ['\n'] := by
  obtain ⟨e, he, hplain, hformat⟩ := exists_of_toOption
    (r := parseAs .expression "[a, b, c] + f(x | y)" "")
    (P := fun e => (∀ n ∈ e.preorder, n.IsPlain) ∧
      e.format 2 = "[a, b, c] + f(x | y)\n") (by decide +kernel)
  obtain ⟨e', he', hplain', hformat', hwide⟩ := exists_of_toOption
    (r := parseAs .expression "g([a, b, c])" "") (P := fun e => (∀ n ∈ e.preorder, n.IsPlain) ∧
      e.format 2 = "g(\n  [a, b, c]\n)\n" ∧
      ∃ n ∈ e.preorder, n.isGrouping ∧ ∃ m ∈ n.preorder, 2 < m.children.length) (by decide +kernel)
  refine ⟨e, e', he, he', hplain, hplain', hformat, hformat', ?_, fun hline => ?_⟩
  · rw [← Goal.oneLine_format_iff .expression _ "" e 2 he hplain, hformat]
    exact ⟨"[a, b, c] + f(x | y)".toList, by decide, by decide⟩
  · exact (Goal.oneLine_format_iff .expression _ "" e' 2 he' hplain').1 hline hwide

end DocExpr
