import DocExpr.Proofs.Layout.Written
import DocExpr.Proofs.Lexing.TickedLines

/-!
# Glyphs on a page

What is written on a page without documentation is a list of glyphs that can be written again with a
gap behind them (`Page.Shows`). Each operation of a page has a lemma that says what it makes of the
glyphs and the gap: writing a lexeme with blanks around it adds a glyph (`Page.Shows.append`),
breaking a line or ending an indentation changes the gap only.

Two glyphs may stand next to each other if the second does not extend the first, with one exception
(`Glyph.Beside`): a question mark and a colon behind it, which are read as one mark.
-/

namespace DocExpr

open Lexeme

namespace Glyph

/-- Whether a glyph can be on a page. What stands between a value and its default has blanks around
it. -/
structure Printed (g : Glyph) : Prop where
  blank : ∀ c ∈ g.gap, c = ' ' ∨ c = '\n'
  stable : Stable g.kind g.text
  solid : Solid g.text
  loose : g.kind = .mark .questionColon → g.gap ≠ []

/-- Whether a glyph can be on a page behind another one: it does not extend the other one, unless
these are a question mark and a colon, which touch. A question mark touches what is before it unless
that is a back-ticked line. -/
structure Beside (g h : Glyph) : Prop where
  follows : ¬(g.kind = .mark .question ∧ h.kind = .mark .colon) → Follows g h
  touches : g.kind = .mark .question → h.kind = .mark .colon → h.gap = []
  question : h.kind = .mark .question → (h.gap = [] ↔ g.kind ≠ .tickedLine)

theorem Printed.isLexeme {g : Glyph} (h : g.Printed) : g.IsLexeme :=
  ⟨fun c hc => by rcases h.blank c hc with rfl | rfl <;> rfl, h.stable⟩

end Glyph

namespace Page

open Glyph

/-- Whether a page has no documentation, and some glyphs, with a gap behind them, are what is
written on it. -/
structure Shows (p : Page) (gs : List Glyph) (gap : List Char) : Prop extends Lays p gs gap where
  staged : p.staged = []
  printed : ∀ g ∈ gs, g.Printed
  beside : gs.IsChain Beside
  clear : ∀ g ∈ gs.getLast?, ∀ c ∈ gap.head?, g.kind.extendedBy c = false

variable {p q : Page} {gs : List Glyph} {gap : List Char}

/-- A page shows what it shows whatever its indentations and spacings are. -/
theorem Shows.congr (h : p.Shows gs gap) (hstaged : q.staged = p.staged)
    (habove : q.above = p.above) (hline : q.line = p.line) : q.Shows gs gap where
  toLays := h.toLays.congr habove hline
  staged := hstaged.trans h.staged
  printed := h.printed
  beside := h.beside
  clear := h.clear

/-- What does not extend the last glyph at the start of a gap does not do so at the start of the
rest of the gap. -/
theorem clear_of_append {gap' tail : List Char} (h : ∀ g ∈ gs.getLast?, ∀ c ∈ (gap' ++ tail).head?,
    g.kind.extendedBy c = false) :
      ∀ g ∈ gs.getLast?, ∀ c ∈ gap'.head?, g.kind.extendedBy c = false := by
  intro g hg c hc
  refine h g hg c ?_
  rw [List.head?_append, Option.mem_def.1 hc]
  rfl

/-! ## Breaking lines -/

theorem Shows.newLine (h : p.Shows gs gap) :
    ∃ gap', p.newLine.Shows gs gap' ∧ gap' ≠ [] ∧ (gap = [] → gap' = ['\n']) := by
  rw [newLine_eq_finishLine]
  obtain ⟨gap', tail, hlays, rfl, -⟩ := h.toLays.finishLine h.staged
  refine ⟨gap' ++ ['\n'], ⟨hlays, rfl, h.printed, h.beside, ?_⟩, by simp, ?_⟩
  · intro g hg c hc
    cases gap' with
    | nil =>
      obtain rfl : '\n' = c := by simpa using hc
      exact g.kind.extendedBy_newline
    | cons d gap' => exact h.clear g hg c (by simpa using hc)
  · intro hgap
    rw [(List.append_eq_nil_iff.1 hgap).1]
    rfl

theorem Shows.startOnNewLine (h : p.Shows gs gap) :
    ∃ gap', p.startOnNewLine.Shows gs gap' ∧ (gap' = gap ∨ gap' ≠ []) := by
  unfold Page.startOnNewLine
  split
  · exact ⟨gap, h, .inl rfl⟩
  · obtain ⟨gap', h', hn, -⟩ := h.newLine
    exact ⟨gap', h', .inr hn⟩

theorem Shows.verticalSpacing (h : p.Shows gs gap) :
    ∃ gap', p.verticalSpacing.Shows gs gap' ∧ (gap' = gap ∨ gap' ≠ []) := by
  unfold Page.verticalSpacing
  split
  · exact ⟨gap, h, .inl rfl⟩
  · exact h.startOnNewLine
  · obtain ⟨gap', h', -⟩ := h.startOnNewLine
    obtain ⟨gap'', h'', hn, -⟩ := h'.newLine
    exact ⟨gap'', h'', .inr hn⟩

/-- Ending an indentation may empty a line that has only blanks on it. -/
theorem Shows.indentLess (h : p.Shows gs gap) :
    ∃ gap', p.indentLess.Shows gs gap' ∧ (gap = [] → gap' = []) ∧
      (gap' = [] → gap = [] ∨ gs = []) := by
  obtain ⟨gap', tail, hlays, rfl, -, hcut⟩ := h.toLays.indentLess
  exact ⟨gap', ⟨hlays, h.staged, h.printed, h.beside, clear_of_append h.clear⟩,
    fun hgap => (List.append_eq_nil_iff.1 hgap).1, hcut⟩

/-- The text of a page is what is written on it up to the gap, and a line break. -/
theorem Shows.text (h : p.Shows gs gap) : p.text.toList = laid gs ++ ['\n'] := by
  by_cases hline : p.line = []
  · have hfinished : p.finished = p := by simp [finished, hline, h.staged]
    exact Lays.text (by rw [hfinished]; exact h.toLays) (by rw [hfinished]; exact hline)
  · have hfinished : p.finished = p.finishLine := by simp [finished, hline]
    obtain ⟨gap', -, hlays, -⟩ := h.toLays.finishLine h.staged
    exact Lays.text (by rw [hfinished]; exact hlays) (by rw [hfinished]; rfl)

/-! ## Writing lexemes -/

/-- Writing a lexeme with blanks around it adds a glyph. The lexeme must be fit to stand beside the
last glyph: where they touch but for the blanks, and anywhere else. -/
theorem Shows.append (h : p.Shows gs gap) (before text behind : List Char) {fragment : String}
    {k : Kind} (hfragment : fragment.toList = before ++ text ++ behind) (hstable : Stable k text)
    (hsolid : Solid text) (hline : '\n' ∉ text) (hbefore : ∀ c ∈ before, c = ' ')
    (hbehind : ∀ c ∈ behind, c = ' ') (hclear : behind ≠ [] → k.extendedBy ' ' = false)
    (hdefault : k = .mark .questionColon → before ≠ [] ∧ gs ≠ [])
    (htouch : gap = [] → ∀ g ∈ gs.getLast?, Beside g ⟨before, k, text⟩)
    (hapart : gap ≠ [] → ∀ g ∈ gs.getLast?, ¬(g.kind = .mark .question ∧ k = .mark .colon) ∧
      (k = .mark .question → g.kind = .tickedLine)) :
    ∃ between, (∀ c ∈ between, c = ' ') ∧
      (p.append fragment).Shows (gs ++ [⟨gap ++ between, k, text⟩]) behind := by
  obtain ⟨hstaged, -, between, hbetween, htight, hlays⟩ :=
    h.toLays.append k hfragment hsolid hline hbefore hbehind
  refine ⟨between, hbetween, hlays, hstaged.trans h.staged, ?_, ?_, ?_⟩
  · refine List.forall_mem_append.2 ⟨h.printed, ?_⟩
    rw [List.forall_mem_singleton]
    refine ⟨?_, hstable, hsolid, ?_⟩
    · exact List.forall_mem_append.2 ⟨h.blank, fun c hc => .inl (hbetween c hc)⟩
    · intro hk hgap
      obtain ⟨hgap, hbetween⟩ := List.append_eq_nil_iff.1 hgap
      exact (hdefault hk).1 (htight hgap (hdefault hk).2 ▸ hbetween)
  · refine h.beside.append (.singleton _) ?_
    intro g hg h' hh'
    obtain rfl : ⟨gap ++ between, k, text⟩ = h' := by simpa using hh'
    by_cases hgap : gap = []
    · have := htouch hgap g hg
      rwa [hgap, List.nil_append, htight hgap (by rintro rfl; cases hg)]
    · obtain ⟨hcolon, hquestion⟩ := hapart hgap g hg
      obtain ⟨c, gap, rfl⟩ := List.exists_cons_of_ne_nil hgap
      refine ⟨fun _ d hd => h.clear g hg d (by simpa using hd), fun hg hk => absurd ⟨hg, hk⟩ hcolon,
        fun hk => ?_⟩
      simp [hquestion hk]
  · intro g hg c hc
    obtain rfl : ⟨gap ++ between, k, text⟩ = g := by simpa using hg
    cases behind with
    | nil => cases hc
    | cons d behind =>
      obtain rfl : d = c := by simpa using hc
      rw [hbehind d (by simp)]
      exact hclear (by simp)

end Page

end DocExpr
