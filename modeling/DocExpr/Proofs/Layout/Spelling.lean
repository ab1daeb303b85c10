import DocExpr.Layout.Writer
import DocExpr.Proofs.Layout.Page

/-!
# Symbols on a page

`Page.Holds` says as which symbols a page without documentation is read, and in which of three
states it is: something has been opened that an operand can follow (`Ready`), an operand is complete
(`Done`), or either of the two with perhaps a gap behind it (`Settled`). Everything that is written
takes a page from one of these states to another and adds its symbols.
-/

namespace DocExpr

open Lexeme

/-- Whether an operand can directly follow. -/
def Kind.opens : Kind → Bool
  | .mark .leftParenthesis | .mark .leftBracket | .mark .leftBrace | .mark .dash | .mark .dot
  | .mark .doubleDot | .mark .semicolon => true
  | _ => false

/-- Whether an operand can end so. Back-ticked lines end operands, too, but not their line. -/
def Kind.ends : Kind → Bool
  | .atom _ | .mark .question | .mark .rightParenthesis | .mark .rightBracket
  | .mark .rightBrace => true
  | _ => false

theorem Kind.extendedBy_of_opens {k : Kind} {c : Char} (hk : k.opens) (hdot : c ≠ '.')
    (hgreater : c ≠ '>') : k.extendedBy c = false := by
  unfold opens at hk
  split at hk
  case h_8 => cases hk
  all_goals
    simp [extendedBy, Mark.longestFirst, Mark.spelling, List.isPrefixOf, hdot, hgreater]

theorem Kind.extendedBy_of_ends {k : Kind} {c : Char} (hk : k.ends)
    (hword : continuesWord c = false) (hdash : c ≠ '-') (hcolon : k = .mark .question → c ≠ ':') :
    k.extendedBy c = false := by
  unfold ends at hk
  split at hk
  case h_1 a =>
    have hdigit : Literal.isDigit c = false := by simp_all [continuesWord]
    cases a <;> simp [extendedBy, hword, hdash, hdigit]
  case h_6 => cases hk
  all_goals simp [extendedBy, Mark.longestFirst, Mark.spelling, List.isPrefixOf]
  exact hcolon rfl

namespace Page

open Glyph

/-- Something has been opened, and an operand can follow. -/
def Ready (gs : List Glyph) (gap : List Char) : Prop :=
  ∀ g ∈ gs.getLast?, g.kind ≠ .tickedLine ∧ (gap = [] → g.kind.opens)

/-- An operand is complete. Behind back-ticked lines the line is broken. -/
def Done (gs : List Glyph) (gap : List Char) : Prop :=
  ∃ g ∈ gs.getLast?, gap = [] ∧ g.kind.ends ∨ gap ≠ [] ∧ g.kind = .tickedLine

/-- What touches the end of the page is open or complete. -/
def Settled (gs : List Glyph) (gap : List Char) : Prop :=
  gap = [] → ∀ g ∈ gs.getLast?, g.kind.opens ∨ g.kind.ends

/-- Whether a page is read as symbols and is in a state. -/
def Holds (p : Page) (s : List Symbol) (state : List Glyph → List Char → Prop) : Prop :=
  ∃ gs gap, p.Shows gs gap ∧ symbols none gs = s ∧ state gs gap

variable {p q : Page} {s : List Symbol} {state : List Glyph → List Char → Prop}

theorem Holds.settled_of_ready (h : p.Holds s Ready) : p.Holds s Settled := by
  obtain ⟨gs, gap, hp, hs, hready⟩ := h
  exact ⟨gs, gap, hp, hs, fun hgap g hg => .inl ((hready g hg).2 hgap)⟩

theorem Holds.settled_of_done (h : p.Holds s Done) : p.Holds s Settled := by
  obtain ⟨gs, gap, hp, hs, g, hg, hdone⟩ := h
  refine ⟨gs, gap, hp, hs, fun hgap g' hg' => .inr ?_⟩
  obtain rfl : g = g' := Option.some.inj (hg.symm.trans hg')
  rcases hdone with ⟨-, hends⟩ | ⟨hn, -⟩
  · exact hends
  · exact absurd hgap hn

theorem Holds.congr (h : p.Holds s state) (hstaged : q.staged = p.staged)
    (habove : q.above = p.above) (hline : q.line = p.line) : q.Holds s state := by
  obtain ⟨gs, gap, hp, hs, hstate⟩ := h
  exact ⟨gs, gap, hp.congr hstaged habove hline, hs, hstate⟩

theorem holds_empty (width : Nat) : (empty width).Holds [] Ready :=
  ⟨[], [], ⟨lays_empty width, rfl, by simp, .nil, by simp⟩, rfl, by simp [Ready]⟩

theorem Holds.verticalSpacing_ready (h : p.Holds s Ready) : p.verticalSpacing.Holds s Ready := by
  obtain ⟨gs, gap, hp, hs, hready⟩ := h
  obtain ⟨gap', hp', hgap⟩ := hp.verticalSpacing
  refine ⟨gs, gap', hp', hs, fun g hg => ⟨(hready g hg).1, fun hnil => (hready g hg).2 ?_⟩⟩
  rcases hgap with rfl | hn
  · exact hnil
  · exact absurd hnil hn

theorem Holds.verticalSpacing (h : p.Holds s Settled) : p.verticalSpacing.Holds s Settled := by
  obtain ⟨gs, gap, hp, hs, hsettled⟩ := h
  obtain ⟨gap', hp', hgap⟩ := hp.verticalSpacing
  refine ⟨gs, gap', hp', hs, fun hnil => hsettled ?_⟩
  rcases hgap with rfl | hn
  · exact hnil
  · exact absurd hnil hn

theorem Holds.indentLess_done (h : p.Holds s Done) : p.indentLess.Holds s Done := by
  obtain ⟨gs, gap, hp, hs, g, hg, hdone⟩ := h
  obtain ⟨gap', hp', hkeep, hcut⟩ := hp.indentLess
  refine ⟨gs, gap', hp', hs, g, hg,
    hdone.imp (fun h => ⟨hkeep h.1, h.2⟩) fun h => ⟨fun hnil => ?_, h.2⟩⟩
  rcases hcut hnil with hgap | rfl
  · exact h.1 hgap
  · cases hg

theorem Holds.indentLess (h : p.Holds s Settled) : p.indentLess.Holds s Settled := by
  obtain ⟨gs, gap, hp, hs, hsettled⟩ := h
  obtain ⟨gap', hp', -, hcut⟩ := hp.indentLess
  refine ⟨gs, gap', hp', hs, fun hnil => ?_⟩
  rcases hcut hnil with hgap | rfl
  · exact hsettled hgap
  · simp

theorem symbols_concat {gs : List Glyph} {g : Glyph} (hg : g.kind ≠ .tickedLine) :
    symbols none (gs ++ [g]) = symbols none gs ++ [g.symbol] :=
  symbols_append_cons hg gs [] none

/-! ## What can be written in a state -/

/-- Whether a lexeme with blanks before it can be written in a state. -/
def Fits (state : List Glyph → List Char → Prop) (k : Kind) (before text : List Char) : Prop :=
  ∀ gs gap, state gs gap →
    (k = .mark .questionColon → before ≠ [] ∧ gs ≠ []) ∧
    (gap = [] → ∀ g ∈ gs.getLast?, Beside g ⟨before, k, text⟩) ∧
    (gap ≠ [] → ∀ g ∈ gs.getLast?, ¬(g.kind = .mark .question ∧ k = .mark .colon) ∧
      (k = .mark .question → g.kind = .tickedLine))

section Fits

variable {k : Kind} {before text behind : List Char}

/-- Where something is open or complete, what starts with neither of these can be written. -/
theorem fits_settled (hk : k ≠ .mark .question ∧ k ≠ .mark .colon ∧ k ≠ .mark .questionColon)
    (hhead : ∀ c ∈ (before ++ text).head?,
      continuesWord c = false ∧ c ≠ '-' ∧ c ≠ '.' ∧ c ≠ '>' ∧ c ≠ ':') :
    Fits Settled k before text := by
  intro gs gap hsettled
  refine ⟨fun h => absurd h hk.2.2, fun hgap g hg => ⟨fun _ c hc => ?_, fun _ h => absurd h hk.2.1,
    fun h => absurd h hk.1⟩, fun _ g _ => ⟨fun h => hk.2.1 h.2, fun h => absurd h hk.1⟩⟩
  obtain ⟨hword, hdash, hdot, hgreater, hcolon⟩ := hhead c hc
  rcases hsettled hgap g hg with hopens | hends
  · exact Kind.extendedBy_of_opens hopens hdot hgreater
  · exact Kind.extendedBy_of_ends hends hword hdash fun _ => hcolon

theorem fits_ready (hk : k ≠ .mark .question ∧ k ≠ .mark .colon ∧ k ≠ .mark .questionColon)
    (hhead : ∀ c ∈ (before ++ text).head?, c ≠ '.' ∧ c ≠ '>') : Fits Ready k before text := by
  intro gs gap hready
  refine ⟨fun h => absurd h hk.2.2, fun hgap g hg => ⟨fun _ c hc => ?_, fun _ h => absurd h hk.2.1,
    fun h => absurd h hk.1⟩, fun _ g _ => ⟨fun h => hk.2.1 h.2, fun h => absurd h hk.1⟩⟩
  obtain ⟨hdot, hgreater⟩ := hhead c hc
  exact Kind.extendedBy_of_opens ((hready g hg).2 hgap) hdot hgreater

theorem fits_done (hdefault : k = .mark .questionColon → before ≠ [])
    (hcolon : k = .mark .colon → before = []) (hquestion : k = .mark .question → before = [])
    (hhead : ∀ c ∈ (before ++ text).head?,
      continuesWord c = false ∧ c ≠ '-' ∧ (c = ':' → k = .mark .colon)) :
    Fits Done k before text := by
  rintro gs gap ⟨g, hg, hdone⟩
  refine ⟨fun h => ⟨hdefault h, (by rintro rfl; cases hg)⟩, fun hgap g' hg' => ?_,
    fun hgap g' hg' => ?_⟩
  all_goals
    obtain rfl : g = g' := Option.some.inj (hg.symm.trans hg')
  · have hends : g.kind.ends := hdone.elim (·.2) fun h => absurd hgap h.1
    refine ⟨fun hne c hc => ?_, fun _ h => hcolon h, fun h => ?_⟩
    · obtain ⟨hword, hdash, hc⟩ := hhead c hc
      exact Kind.extendedBy_of_ends hends hword hdash fun hg hc' => hne ⟨hg, hc hc'⟩
    · refine ⟨fun _ hg => ?_, fun _ => hquestion h⟩
      rw [hg] at hends
      cases hends
  · have hline : g.kind = .tickedLine := hdone.elim (fun h => absurd h.1 hgap) (·.2)
    exact ⟨fun h => (by rw [hline] at h; cases h.1), fun _ => hline⟩

/-- Writing a lexeme that can be written adds its symbol. -/
theorem Holds.append (before text behind : List Char) (h : p.Holds s state) {fragment : String}
    (hfragment : fragment.toList = before ++ text ++ behind) (hfits : Fits state k before text)
    (hstable : Stable k text) (hsolid : Solid text) (hline : '\n' ∉ text)
    (hbefore : ∀ c ∈ before, c = ' ') (hbehind : ∀ c ∈ behind, c = ' ')
    (hclear : behind ≠ [] → k.extendedBy ' ' = false) (hk : k ≠ .tickedLine)
    {next : List Glyph → List Char → Prop}
    (hnext : ∀ gs gap, next (gs ++ [⟨gap, k, text⟩]) behind) :
    (p.append fragment).Holds (s ++ [(⟨[], k, text⟩ : Glyph).symbol]) next := by
  obtain ⟨gs, gap, hp, rfl, hstate⟩ := h
  obtain ⟨hdefault, htouch, hapart⟩ := hfits gs gap hstate
  obtain ⟨between, -, hp'⟩ :=
    hp.append before text behind hfragment hstable hsolid hline hbefore hbehind hclear
    hdefault htouch hapart
  exact ⟨_, _, hp', symbols_concat hk, hnext gs _⟩

end Fits

theorem ready_concat {gs : List Glyph} {g : Glyph} {behind : List Char} (hk : g.kind ≠ .tickedLine)
    (h : behind = [] → g.kind.opens) : Ready (gs ++ [g]) behind := by
  intro g' hg'
  obtain rfl : g = g' := by simpa using hg'
  exact ⟨hk, h⟩

theorem done_concat {gs : List Glyph} {g : Glyph} (h : g.kind.ends) : Done (gs ++ [g]) [] :=
  ⟨g, by simp, .inl ⟨rfl, h⟩⟩

/-! ## Marks -/

/-- Marks that open something, wherever something is open or complete. -/
theorem Holds.open (h : p.Holds s Settled) {m : Mark}
    (hm : m = .leftParenthesis ∨ m = .leftBracket ∨ m = .leftBrace ∨ m = .semicolon) :
    (p.append m.spelling).Holds (s ++ [.mark m]) Ready := by
  refine h.append [] m.spelling.toList [] (k := .mark m) (by simp)
    ?_ (stable_mark m) (solid_mark m) ?_ (by simp) (by simp) (by simp) (by simp) fun gs gap =>
      ready_concat (by simp) fun _ => ?_
  all_goals rcases hm with rfl | rfl | rfl | rfl
  all_goals first | exact fits_settled (by decide) (by decide) | rfl | decide

theorem Holds.close (h : p.Holds s Settled) {m : Mark}
    (hm : m = .rightParenthesis ∨ m = .rightBracket ∨ m = .rightBrace) :
    (p.append m.spelling).Holds (s ++ [.mark m]) Done := by
  refine h.append [] m.spelling.toList [] (k := .mark m) (by simp)
    ?_ (stable_mark m) (solid_mark m) ?_ (by simp) (by simp) (by simp) (by simp) fun gs gap =>
      done_concat ?_
  all_goals rcases hm with rfl | rfl | rfl
  all_goals first | exact fits_settled (by decide) (by decide) | rfl | decide

theorem Holds.comma (h : p.Holds s Settled) :
    (p.append ", ").Holds (s ++ [.mark .comma]) Ready :=
  h.append [] [','] [' '] (k := .mark .comma) (by decide)
    (fits_settled (by decide) (by decide)) (stable_mark .comma) (solid_mark .comma) (by decide)
    (by simp) (by simp) (by decide) (by simp) fun gs gap => ready_concat (by simp) (by simp)

end Page

/-! ## Operators -/

namespace BinaryOp

/-- The blanks that are written before an operator. -/
def before : BinaryOp → List Char
  | qualify | range | field => []
  | _ => [' ']

/-- The blanks that are written behind an operator. -/
def behind : BinaryOp → List Char
  | range | field => []
  | _ => [' ']

variable {op : BinaryOp}

theorem text_eq (h : op ≠ document) :
    op.text.toList = op.before ++ op.kind.text.toList ++ op.behind := by
  cases op <;> first | exact absurd rfl h | decide

theorem stable (h : op ≠ document) :
    Stable op.kind op.kind.text.toList ∧ Solid op.kind.text.toList ∧
    '\n' ∉ op.kind.text.toList := by
  cases op
  case document => exact absurd rfl h
  case logicOr | logicAnd | member | instanceOf =>
    exact ⟨stable_keyword _, solid_keyword _, by decide⟩
  all_goals exact ⟨stable_mark _, solid_mark _, by decide⟩

theorem blank (op : BinaryOp) : (∀ c ∈ op.before, c = ' ') ∧ ∀ c ∈ op.behind, c = ' ' := by
  cases op <;> decide

theorem kind_ne_tickedLine (op : BinaryOp) : op.kind ≠ .tickedLine := by cases op <;> decide

theorem extendedBy_blank (op : BinaryOp) : op.kind.extendedBy ' ' = false := by cases op <;> decide

theorem opens_of_behind (h : op.behind = []) : op.kind.opens := by
  revert h
  cases op <;> decide

theorem fits_done (h : op ≠ document) :
    Page.Fits Page.Done op.kind op.before op.kind.text.toList := by
  cases op <;> first
    | exact absurd rfl h
    | exact Page.fits_done (by decide) (by decide) (by decide) (by decide)

end BinaryOp

namespace Page

open Glyph

variable {p q : Page} {s : List Symbol} {op : BinaryOp}

theorem Holds.appendOperator (op : BinaryOp) {state : List Glyph → List Char → Prop}
    (h : p.Holds s state) (hop : op ≠ .document)
    (hfits : Fits state op.kind op.before op.kind.text.toList) :
    (p.append op.text).Holds (s ++ [.kind op.kind]) Ready := by
  obtain ⟨hstable, hsolid, hline⟩ := op.stable hop
  have hsymbol : (⟨[], op.kind, op.kind.text.toList⟩ : Glyph).symbol = .kind op.kind := by
    cases op <;> rfl
  rw [← hsymbol]
  exact h.append op.before op.kind.text.toList op.behind (op.text_eq hop) hfits hstable hsolid hline
    op.blank.1 op.blank.2 (fun _ => op.extendedBy_blank) op.kind_ne_tickedLine
    fun gs gap => ready_concat op.kind_ne_tickedLine op.opens_of_behind

theorem Holds.operator (h : p.Holds s Done) (hop : op ≠ .document) :
    (p.append op.text).Holds (s ++ [.kind op.kind]) Ready :=
  h.appendOperator op hop (op.fits_done hop)

/-- A union can have line breaks before its bars. -/
theorem Holds.bar (h : p.Holds s Settled) : (p.append " | ").Holds (s ++ [.mark .bar]) Ready :=
  h.appendOperator .union (by simp) (fits_settled (by decide) (by decide))

theorem Holds.unary (h : p.Holds s Ready) (op : UnaryOp) :
    (p.append op.text).Holds (s ++ [.kind op.kind]) Ready := by
  cases op with
  | negate =>
    exact h.append [] ['-'] [] (k := .mark .dash) (by decide)
      (fits_ready (by decide) (by decide)) (stable_mark .dash) (solid_mark .dash) (by decide)
      (by simp) (by simp) (by simp) (by simp) fun gs gap => ready_concat (by simp) fun _ => rfl
  | logicNot =>
    exact h.append [] ['n', 'o', 't'] [' '] (k := .keyword .notWord) (by decide)
      (fits_ready (by decide) (by decide))
      (stable_keyword .notWord) (solid_keyword .notWord) (by decide) (by simp) (by simp) (by decide)
      (by simp) fun gs gap => ready_concat (by simp) (by simp)

/-! ## Operands -/

/-- Names and literals on one line. -/
theorem Holds.atom (h : p.Holds s Ready) {form : Atom} {text : String}
    (hstable : Stable (.atom form) text.toList) (hline : '\n' ∉ text.toList) :
    (p.append text).Holds (s ++ [.atom form text]) Done := by
  have hsymbol : (⟨[], .atom form, text.toList⟩ : Glyph).symbol = .atom form text := by
    simp [Glyph.symbol, Token.symbol]
  rw [← hsymbol]
  refine h.append [] text.toList [] (by simp) (fits_ready (by simp) fun c hc => ?_) hstable
    (solid_atom hstable) hline (by simp) (by simp) (by simp) (by simp) fun gs gap => done_concat rfl
  have := toNat_of_isEdge (hstable.edges.2.1 c (by simpa using hc))
  constructor <;> rintro rfl <;> revert this <;> decide

theorem Holds.question (h : p.Holds s Done) : (p.append "?").Holds (s ++ [.mark .question]) Done :=
  h.append [] ['?'] [] (k := .mark .question) (by decide)
    (fits_done (by decide) (by decide) (by decide) (by decide)) (stable_mark .question)
    (solid_mark .question) (by decide) (by simp) (by simp) (by simp) (by simp)
    fun gs gap => done_concat rfl

theorem Holds.suffix (h : p.Holds s Done) (form : Suffix) :
    (p.append form.text).Holds (s ++ form.symbols) Done := by
  cases form with
  | array =>
    have htext : Suffix.array.text = Mark.leftBracket.spelling ++ Mark.rightBracket.spelling := rfl
    rw [htext, append_append (solid_mark _) (by decide) (by decide)]
    simpa [Suffix.symbols] using
      (h.settled_of_done.open (m := .leftBracket) (by simp)).settled_of_ready.close
        (m := .rightBracket) (by simp)
  | list =>
    have htext : Suffix.list.text = Mark.leftBracket.spelling ++
        (Mark.semicolon.spelling ++ Mark.rightBracket.spelling) := rfl
    rw [htext, append_append (solid_mark _) (by decide) (by decide),
      append_append (solid_mark _) (by decide) (by decide)]
    simpa [Suffix.symbols] using
      ((h.settled_of_done.open (m := .leftBracket) (by simp)).settled_of_ready.open
        (m := .semicolon) (by simp)).settled_of_ready.close (m := .rightBracket) (by simp)
  | optional => exact h.question
  | set =>
    have htext : Suffix.set.text = Mark.leftBrace.spelling ++ Mark.rightBrace.spelling := rfl
    rw [htext, append_append (solid_mark _) (by decide) (by decide)]
    simpa [Suffix.symbols] using
      (h.settled_of_done.open (m := .leftBrace) (by simp)).settled_of_ready.close
        (m := .rightBrace) (by simp)

/-- A back-ticked line ends its line. -/
theorem Shows.tickedLine {gs : List Glyph} {gap : List Char} (h : p.Shows gs gap) {line : String}
    (hline : Stable .tickedLine line.toList ∧ Solid line.toList)
    (hopens : gap = [] → ∀ g ∈ gs.getLast?, g.kind.opens) :
    ∃ between, (∀ c ∈ between, c = ' ') ∧
      (p.append line).newLine.Shows (gs ++ [⟨gap ++ between, .tickedLine, line.toList⟩])
      ['\n'] := by
  obtain ⟨w, hw, -⟩ := stable_tickedLine_iff.1 hline.1
  have hbeside : gap = [] → ∀ g ∈ gs.getLast?, Beside g ⟨[], .tickedLine, line.toList⟩ := by
    refine fun hgap g hg => ⟨fun _ c hc => ?_, by simp, by simp⟩
    obtain rfl : '\x60' = c := by simpa [hw] using hc
    exact Kind.extendedBy_of_opens (hopens hgap g hg) (by decide) (by decide)
  have hfragment : line.toList = [] ++ line.toList ++ [] := by simp
  obtain ⟨between, hbetween, hp⟩ := h.append [] line.toList [] hfragment hline.1 hline.2
    (not_mem_of_tickedLine hline.1) (by simp) (by simp)
    (by simp) (by simp) hbeside (by simp)
  obtain ⟨gap', hp', -, hgap'⟩ := hp.newLine
  obtain rfl := hgap' rfl
  exact ⟨between, hbetween, hp'⟩

/-- Back-ticked lines behind a line break are each directly below what is before them. -/
theorem Shows.appendLines {gs : List Glyph} (h : p.Shows gs ['\n']) {lines : List String}
    (hlines : ∀ line ∈ lines, Stable .tickedLine line.toList ∧ Solid line.toList) :
    ∃ hs, (Page.appendLines lines p).Shows (gs ++ hs) ['\n'] ∧
      hs.map Glyph.text = lines.map String.toList ∧
      ∀ g ∈ hs, g.kind = .tickedLine ∧ g.isBelow := by
  induction lines generalizing p gs with
  | nil => exact ⟨[], by simpa [Page.appendLines] using h, rfl, by simp⟩
  | cons line lines ih =>
    obtain ⟨hline, hlines⟩ := List.forall_mem_cons.1 hlines
    obtain ⟨between, hbetween, hp⟩ := h.tickedLine hline (by simp)
    obtain ⟨hs, hp', htexts, hhs⟩ := ih hp hlines
    refine ⟨_ :: hs, by simpa [Page.appendLines] using hp', by simp [htexts],
      List.forall_mem_cons.2 ⟨⟨rfl, ?_⟩, hhs⟩⟩
    have hcount : between.count '\n' = 0 :=
      List.count_eq_zero_of_not_mem fun hm => absurd (hbetween _ hm) (by decide)
    simp [isBelow, hcount]

theorem symbols_append {gs : List Glyph} (hgs : ∀ g ∈ gs.getLast?, g.kind ≠ .tickedLine)
    (hs : List Glyph) : symbols none (gs ++ hs) = symbols none gs ++ symbols none hs := by
  rcases List.eq_nil_or_concat' gs with rfl | ⟨init, g, rfl⟩
  · rfl
  · have hg := hgs g (by simp)
    rw [List.append_assoc, List.singleton_append, symbols_append_cons hg, symbols_concat hg,
      List.append_assoc, List.singleton_append]

/-- The lines of a multi-line string. -/
theorem Holds.block (h : p.Holds s Ready) {lines : List String} (hn : lines ≠ [])
    (hlines : ∀ line ∈ lines, Stable .tickedLine line.toList ∧ Solid line.toList) :
    (appendLines lines p).Holds (s ++ [.block .multiline lines]) Done := by
  obtain ⟨gs, gap, hp, rfl, hready⟩ := h
  cases lines with
  | nil => exact absurd rfl hn
  | cons line lines =>
    obtain ⟨hline, hothers⟩ := List.forall_mem_cons.1 hlines
    obtain ⟨between, -, hp⟩ := hp.tickedLine hline fun hgap g hg => (hready g hg).2 hgap
    obtain ⟨hs, hp', htexts, hhs⟩ := hp.appendLines hothers
    rw [List.append_assoc, List.singleton_append] at hp'
    have hkinds : ∀ g ∈ (⟨gap ++ between, .tickedLine, line.toList⟩ :: hs : List Glyph),
        g.kind = .tickedLine := List.forall_mem_cons.2 ⟨rfl, fun g hg => (hhs g hg).1⟩
    refine ⟨_, _, hp', ?_, ?_⟩
    · have hticked := symbols_ticked (List.cons_ne_nil _ hs) (fun g hg => by
          have hg' := hp'.printed g (List.mem_append_right _ hg)
          exact ⟨hkinds g hg, hkinds g hg ▸ hg'.stable, hg'.solid⟩) fun g hg => (hhs g hg).2
      have htexts' := congrArg (List.map String.ofList) htexts
      simp only [List.map_map, Function.comp_def, String.ofList_toList, List.map_id'] at htexts'
      rw [symbols_append fun g hg => (hready g hg).1, hticked]
      simp [htexts']
    · obtain ⟨g, hg⟩ := Option.isSome_iff_exists.1
        (List.getLast?_isSome.2
          (List.cons_ne_nil (⟨gap ++ between, .tickedLine, line.toList⟩ : Glyph) hs))
      refine ⟨g, by rw [List.getLast?_append, hg]; rfl, .inr ⟨by simp, ?_⟩⟩
      exact hkinds g (List.mem_of_getLast? hg)

end Page

end DocExpr
