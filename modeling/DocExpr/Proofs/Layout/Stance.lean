import DocExpr.Proofs.Layout.Noted
import DocExpr.Proofs.Layout.Spelling

/-!
# Stances of a page

What can be written on a page depends on how what touches its end can go on (`Stance`): behind
something that has been opened an operand can follow, behind an operand an operator, and behind a
line break either. `Page.Stands` says which glyphs are on a page and in which stance it is, and
`Page.Adds` that writing a text adds one glyph and leads from one stance to another.
-/

namespace DocExpr

open Lexeme

/-- How what touches the end of a page can go on. -/
inductive Stance where
  /-- With an operand, behind something that has been opened. -/
  | ready
  /-- With an operator, behind an operand. -/
  | done
  /-- With anything, because the line is broken. -/
  | broken
  /-- With what separates or closes. -/
  | settled
deriving DecidableEq

namespace Stance

/-- What can touch the end of a page. -/
def admits : Stance → Kind → Bool
  | ready, k => k.opens
  | done, k => k.ends
  | broken, _ => false
  | settled, k => k.opens || k.ends

/-- Whether whatever touches the end of a page in one stance can do so in another one. -/
def Le (st st' : Stance) : Prop := ∀ k, st.admits k → st'.admits k

theorem Le.refl (st : Stance) : Le st st := fun _ => id

theorem broken_le (st : Stance) : Le broken st := fun _ h => by cases h

theorem ready_le_settled : Le ready settled := fun _ h => by simp_all [admits]

theorem done_le_settled : Le done settled := fun _ h => by simp_all [admits]

end Stance

namespace Glyph

variable {g : Glyph} {k : Kind} {before text : List Char}

theorem near_of_opens (hg : g.kind.opens)
    (hhead : ∀ c ∈ (before ++ text).head?, c ≠ '.' ∧ c ≠ '>') :
    Near g ⟨before, k, text⟩ :=
  fun _ c hc => Kind.extendedBy_of_opens hg (hhead c hc).1 (hhead c hc).2

theorem near_of_ends (hg : g.kind.ends) (hhead : ∀ c ∈ (before ++ text).head?,
    continuesWord c = false ∧ c ≠ '-' ∧ (c = ':' → k = .mark .colon ∧ before = [])) :
    Near g ⟨before, k, text⟩ := by
  intro htouch c hc
  obtain ⟨hword, hdash, hcolon⟩ := hhead c hc
  refine Kind.extendedBy_of_ends hg hword hdash fun hquestion hc' => htouch ⟨hquestion, ?_⟩
  exact hcolon hc'

end Glyph

namespace Page

open Glyph

/-- Whether some glyphs, with a gap behind them, are what is written on a page, and a page is in a
stance. -/
structure Stands (p : Page) (st : Stance) (gs : List Glyph) (gap : List Char) : Prop
    extends Prints p gs gap where
  stance : gap = [] → ∀ g ∈ gs.getLast?, st.admits g.kind

variable {p q : Page} {st st' : Stance} {gs : List Glyph} {gap : List Char}

theorem stands_empty (width : Nat) : (empty width).Stands .ready [] [] :=
  ⟨prints_empty width, by simp⟩

theorem Stands.mono (h : p.Stands st gs gap) (hle : st.Le st') : p.Stands st' gs gap :=
  ⟨h.toPrints, fun hgap g hg => hle _ (h.stance hgap g hg)⟩

theorem Stands.congr (h : p.Stands st gs gap) (hstaged : q.staged = p.staged)
    (habove : q.above = p.above) (hline : q.line = p.line) : q.Stands st gs gap :=
  ⟨h.toPrints.congr hstaged habove hline, h.stance⟩

/-- Breaking a line adds the comments that are staged for it. -/
theorem Stands.newLine (h : p.Stands st gs gap) :
    ∃ front column, front.count '\n' = gap.count '\n' ∧
    p.newLine.Stands .broken (gs ++ notes front column p.staged)
      ((if p.staged = [] then front else []) ++ ['\n']) ∧ p.newLine.staged = [] := by
  obtain ⟨front, column, hcount, hp, hstaged⟩ := h.toPrints.newLine
  exact ⟨front, column, hcount, ⟨hp, by simp⟩, hstaged⟩

theorem Stands.indentLess (h : p.Stands st gs gap) :
    ∃ gap', gap'.count '\n' = gap.count '\n' ∧ p.indentLess.Stands st gs gap' := by
  obtain ⟨gap', hcount, hp, hgap⟩ := h.toPrints.indentLess
  refine ⟨gap', hcount, hp, fun hnil => ?_⟩
  rcases hgap hnil with hgap | rfl
  · exact h.stance hgap
  · simp

/-! ## Writing a lexeme -/

/-- Whether writing a text adds a glyph with a gap behind it, and leads from one stance to
another. -/
def Adds (st : Stance) (fragment : String) (k : Kind) (text behind : List Char)
    (st' : Stance) : Prop :=
  ∀ (p : Page) (gs : List Glyph) (gap : List Char), p.Stands st gs gap →
    (p.append fragment).staged = p.staged ∧ (p.append fragment).line ≠ [] ∧ ∃ gap',
      gap'.count '\n' = gap.count '\n' ∧
      (p.append fragment).Stands st' (gs ++ [⟨gap', k, text⟩]) behind

theorem adds_lexeme (before text behind : List Char) {fragment : String} {k : Kind}
    (hfragment : fragment.toList = before ++ text ++ behind)
    (hstable : Stable k text ∧ Solid text ∧ '\n' ∉ text)
    (hblank : (∀ c ∈ before, c = ' ') ∧ ∀ c ∈ behind, c = ' ') (hk : k ≠ .comment ∧ k ≠ .tickedLine)
    (hfits : ∀ g : Glyph, st.admits g.kind → Near g ⟨before, k, text⟩)
    (hnext : behind = [] → st'.admits k) : Adds st fragment k text behind st' := by
  intro p gs gap h
  obtain ⟨hstaged, hline, gap', hcount, hp⟩ :=
    h.toPrints.append hfragment hstable.1 hstable.2.1 hstable.2.2
    hblank.1 hblank.2 hk fun hgap g hg => hfits g (h.stance hgap g hg)
  refine ⟨hstaged, hline, gap', hcount, hp, fun hnil g hg => ?_⟩
  obtain rfl : (⟨gap', k, text⟩ : Glyph) = g := by simpa using hg
  exact hnext hnil

/-- What starts with none of the characters with which an operand or a mark can go on. -/
theorem near_of_settled {k : Kind} {before text : List Char} (hhead : ∀ c ∈ (before ++ text).head?,
      continuesWord c = false ∧ c ≠ '-' ∧ c ≠ '.' ∧ c ≠ '>' ∧ c ≠ ':') (g : Glyph)
    (hg : Stance.settled.admits g.kind) : Near g ⟨before, k, text⟩ := by
  rcases Bool.or_eq_true_iff.1 hg with hg | hg
  · exact near_of_opens hg fun c hc => ⟨(hhead c hc).2.2.1, (hhead c hc).2.2.2.1⟩
  · exact near_of_ends hg fun c hc => ⟨(hhead c hc).1, (hhead c hc).2.1,
      fun h => absurd h (hhead c hc).2.2.2.2⟩

theorem adds_open {m : Mark}
    (hm : m = .leftParenthesis ∨ m = .leftBracket ∨ m = .leftBrace ∨ m = .semicolon) :
    Adds .settled m.spelling (.mark m) m.spelling.toList [] .ready := by
  refine adds_lexeme [] m.spelling.toList [] (by simp) ⟨stable_mark m, solid_mark m, ?_⟩ (by simp)
    (by simp) (near_of_settled ?_) fun _ => ?_
  all_goals rcases hm with rfl | rfl | rfl | rfl
  all_goals first | rfl | decide

theorem adds_close {m : Mark} (hm : m = .rightParenthesis ∨ m = .rightBracket ∨ m = .rightBrace) :
    Adds .settled m.spelling (.mark m) m.spelling.toList [] .done := by
  refine adds_lexeme [] m.spelling.toList [] (by simp) ⟨stable_mark m, solid_mark m, ?_⟩ (by simp)
    (by simp) (near_of_settled ?_) fun _ => ?_
  all_goals rcases hm with rfl | rfl | rfl
  all_goals first | rfl | decide

theorem adds_comma : Adds .settled ", " (.mark .comma) [','] [' '] .ready :=
  adds_lexeme [] [','] [' '] rfl ⟨stable_mark .comma, solid_mark .comma, by decide⟩
    (by simp) (by simp)
    (near_of_settled (by decide)) (by simp)

theorem adds_operator {op : BinaryOp} (hop : op ≠ .document) :
    Adds .done op.text op.kind op.kind.text.toList op.behind .ready := by
  have hk : op.kind ≠ .comment := by cases op <;> simp [BinaryOp.kind]
  refine adds_lexeme op.before op.kind.text.toList op.behind (op.text_eq hop)
    (op.stable hop) op.blank
    ⟨hk, op.kind_ne_tickedLine⟩ (fun g (hg : g.kind.ends) => near_of_ends hg ?_) op.opens_of_behind
  cases op <;> first | exact absurd rfl hop | decide

/-- A union can have line breaks before its bars. -/
theorem adds_bar : Adds .settled " | " (.mark .bar) ['|'] [' '] .ready :=
  adds_lexeme [' '] ['|'] [' '] rfl ⟨stable_mark .bar, solid_mark .bar, by decide⟩
    (by simp) (by simp)
    (near_of_settled (by decide)) (by simp)

theorem adds_unary (op : UnaryOp) :
    ∃ behind, Adds .ready op.text op.kind op.kind.text.toList behind .ready := by
  cases op with
  | negate =>
    exact ⟨[], adds_lexeme [] ['-'] [] rfl
      ⟨stable_mark .dash, solid_mark .dash, by decide⟩ (by simp)
      (by simp [UnaryOp.kind]) (fun g (hg : g.kind.opens) => near_of_opens hg (by decide))
      fun _ => rfl⟩
  | logicNot =>
    exact ⟨[' '], adds_lexeme [] ['n', 'o', 't'] [' '] rfl
      ⟨stable_keyword .notWord, solid_keyword .notWord, by decide⟩ (by simp)
      (by simp [UnaryOp.kind])
      (fun g (hg : g.kind.opens) => near_of_opens hg (by decide)) (by simp)⟩

theorem adds_question : Adds .done "?" (.mark .question) ['?'] [] .done :=
  adds_lexeme [] ['?'] [] rfl ⟨stable_mark .question, solid_mark .question, by decide⟩
    (by simp) (by simp)
    (fun g (hg : g.kind.ends) => near_of_ends hg (by decide)) fun _ => rfl

/-- A name or a literal can touch whatever has been opened. -/
theorem near_atom {form : Atom} {text w : List Char} {g : Glyph} (h : Stable (.atom form) text)
    (hw : w.head? = text.head?) (hg : Stance.ready.admits g.kind) : Near g ⟨[], .atom form, w⟩ := by
  refine near_of_opens hg fun c hc => ?_
  have := toNat_of_isEdge (h.edges.2.1 c (by rw [← hw]; simpa using hc))
  constructor <;> rintro rfl <;> revert this <;> decide

/-- A line of a block can touch whatever has been opened. -/
theorem near_line {k : Kind} {line : String} {g : Glyph} (hk : k = .comment ∨ k = .tickedLine)
    (h : k.HasLine line) (hg : Stance.ready.admits g.kind) : Near g ⟨[], k, line.toList⟩ := by
  refine near_of_opens hg fun c hc => ?_
  rcases hk with rfl | rfl
  · obtain ⟨w, hw, -⟩ := stable_comment_iff.1 h.1
    rw [hw] at hc
    obtain rfl : '/' = c := by simpa using hc
    decide
  · obtain ⟨w, hw, -⟩ := stable_tickedLine_iff.1 h.1
    rw [hw] at hc
    obtain rfl : '\x60' = c := by simpa using hc
    decide

/-- A name or a literal on one line. -/
theorem adds_atom {form : Atom} {text : String} (h : Stable (.atom form) text.toList)
    (hline : '\n' ∉ text.toList) : Adds .ready text (.atom form) text.toList [] .done :=
  adds_lexeme [] text.toList [] (by simp) ⟨h, solid_atom h, hline⟩ (by simp) (by simp)
    (fun _ => near_atom h rfl) fun _ => rfl

end Page

end DocExpr
