import DocExpr.Proofs.Layout.Page

/-!
# Question marks before colons

A question mark and a colon are written next to each other, and read as one mark. `Glyph.glue` makes
one glyph of such two, so that glyphs that extend each other nowhere else (`Glyph.Near`) are read as
what it makes of them (`Glyph.scans_glue`). Where no question mark is before a colon, nothing is
glued (`Glyph.glue_of_apart`).

Whether a question mark is before a colon can be told from kinds, and as well from the symbols of
the glyphs (`Glyph.isChain_symbols`).
-/

namespace DocExpr

/-- Whether two kinds are not those of a question mark and a colon. -/
def Kind.Apart (k k' : Kind) : Prop := ¬(k = .mark .question ∧ k' = .mark .colon)

instance : DecidableRel Kind.Apart := fun _ _ => inferInstanceAs (Decidable ¬_)

/-- Whether two symbols are not a question mark and a colon. -/
def Symbol.Apart (x y : Symbol) : Prop := ¬(x = .mark .question ∧ y = .mark .colon)

open Lexeme

theorem extendedBy_questionColon (c : Char) : (Kind.mark .questionColon).extendedBy c = false := by
  simp [Kind.extendedBy, Mark.longestFirst, Mark.spelling, List.isPrefixOf]

namespace Glyph

theorem symbol_eq_mark {g : Glyph} {m : Mark} : g.symbol = .mark m ↔ g.kind = .mark m :=
  Token.symbol_eq_mark

theorem head?_symbols_some (run : String) (gs : List Glyph) :
    ∃ text, (symbols (some run) gs).head? = some (blockSymbol text) := by
  induction gs generalizing run with
  | nil => exact ⟨run, rfl⟩
  | cons g gs ih =>
    simp only [symbols]
    split
    · split
      · exact ih _
      · exact ⟨run, rfl⟩
    · exact ⟨run, rfl⟩

/-- A mark is the first symbol exactly if it is the first glyph. -/
theorem head?_symbols {gs : List Glyph} {m : Mark} :
    (symbols none gs).head? = some (.mark m) ↔ (gs.map kind).head? = some (.mark m) := by
  cases gs with
  | nil => simp [symbols]
  | cons g gs =>
    by_cases hline : g.kind = .tickedLine
    · obtain ⟨text, htext⟩ := head?_symbols_some (String.ofList g.text) gs
      simp [symbols, hline, htext, blockSymbol]
    · simp [symbols, hline, symbol_eq_mark]

/-- A question mark is before a colon among the symbols of glyphs exactly if it is among the
glyphs. -/
theorem isChain_symbols (gs : List Glyph) :
    (symbols none gs).IsChain Symbol.Apart ↔ (gs.map kind).IsChain Kind.Apart := by
  suffices ∀ run, (symbols run gs).IsChain Symbol.Apart ↔ (gs.map kind).IsChain Kind.Apart from
    this none
  induction gs with
  | nil => intro run; cases run <;> simp [symbols]
  | cons g gs ih =>
    have hblock : ∀ text s, (blockSymbol text :: s).IsChain Symbol.Apart ↔
        s.IsChain Symbol.Apart := by
      intro text s
      rw [List.isChain_cons]
      simp [Symbol.Apart, blockSymbol]
    have hhead : (∀ y ∈ (symbols none gs).head?, Symbol.Apart g.symbol y) ↔
        ∀ k ∈ (gs.map kind).head?, Kind.Apart g.kind k := by
      simp only [Symbol.Apart, Kind.Apart, symbol_eq_mark, Option.mem_def]
      constructor
      · rintro h k hk ⟨hg, rfl⟩
        exact h _ (head?_symbols.2 hk) ⟨hg, rfl⟩
      · rintro h y hy ⟨hg, rfl⟩
        exact h _ (head?_symbols.1 hy) ⟨hg, rfl⟩
    intro run
    rw [List.map_cons, List.isChain_cons]
    by_cases hline : g.kind = .tickedLine
    · rw [and_iff_right (by simp [Kind.Apart, hline])]
      cases run with
      | none => simpa [symbols, hline] using ih _
      | some text =>
        simp only [symbols, hline, if_true]
        split
        · exact ih _
        · rw [hblock]
          exact ih _
    · rw [← hhead, ← ih none, ← List.isChain_cons]
      cases run with
      | none => simp [symbols, hline]
      | some text => simp [symbols, hline, hblock]

/-! ## Gluing -/

/-- Whether a glyph is a question mark and the other one a colon that touches it. -/
def Touch (g h : Glyph) : Prop := g.kind = .mark .question ∧ h.kind = .mark .colon ∧ h.gap = []

instance : DecidableRel Touch := fun _ _ => inferInstanceAs (Decidable (_ ∧ _))

/-- Whether a glyph does not extend the one before it, unless these are a question mark and a colon
that touch. -/
def Near (g h : Glyph) : Prop := ¬Touch g h → Follows g h

/-- Glyphs with each question mark and the colon that touches it made one. -/
def glue : List Glyph → List Glyph
  | g :: h :: gs =>
    if Touch g h then ⟨g.gap, .mark .questionColon, g.text ++ h.text⟩ :: glue gs
    else g :: glue (h :: gs)
  | gs => gs

theorem Beside.near {g h : Glyph} (hgh : Beside g h) : Near g h :=
  fun hn => hgh.follows fun ⟨hg, hh⟩ => hn ⟨hg, hh, hgh.touches hg hh⟩

theorem glue_of_apart {gs : List Glyph} (h : (gs.map kind).IsChain Kind.Apart) : glue gs = gs := by
  fun_induction glue gs with
  | case1 g h' gs hglue ih =>
    exact absurd ⟨hglue.1, hglue.2.1⟩ (List.isChain_cons_cons.1 h).1
  | case2 g h' gs hglue ih => rw [ih h.tail]
  | case3 => rfl

theorem laid_glue (gs : List Glyph) : laid (glue gs) = laid gs := by
  fun_induction glue gs with
  | case1 g h gs hglue ih => simp [ih, hglue.2.2]
  | case2 g h gs hglue ih => simp [ih]
  | case3 => rfl

/-- The first of glued glyphs starts as the first glyph does. -/
theorem glue_cons (h : Glyph) (gs : List Glyph) : ∃ x rest, glue (h :: gs) = x :: rest ∧
    x.gap = h.gap ∧ (∃ more, x.text = h.text ++ more) ∧
    (x.kind = h.kind ∨ x.kind = .mark .questionColon) := by
  cases gs with
  | nil => exact ⟨h, [], rfl, rfl, ⟨[], by simp⟩, .inl rfl⟩
  | cons h' gs =>
    rw [glue]
    split
    · exact ⟨_, _, rfl, rfl, ⟨h'.text, rfl⟩, .inr rfl⟩
    · exact ⟨_, _, rfl, rfl, ⟨[], by simp⟩, .inl rfl⟩

/-- Gluing leaves no question mark before a colon. -/
theorem apart_glue {gs : List Glyph} (hgs : gs.IsChain Beside) :
    ((glue gs).map kind).IsChain Kind.Apart := by
  fun_induction glue gs with
  | case1 g h gs hglue ih =>
    rw [List.map_cons, List.isChain_cons]
    exact ⟨by simp [Kind.Apart], ih hgs.tail.tail⟩
  | case2 g h gs hglue ih =>
    have ih := ih hgs.tail
    obtain ⟨x, rest, hx, -, -, hkind⟩ := glue_cons h gs
    rw [hx] at ih ⊢
    refine List.isChain_cons_cons.2 ⟨fun ⟨hg, hcolon⟩ => ?_, ih⟩
    rcases hkind with hk | hk
    · have hh := hk ▸ hcolon
      exact hglue ⟨hg, hh, (List.isChain_cons_cons.1 hgs).1.touches hg hh⟩
    · rw [hk] at hcolon
      cases hcolon
  | case3 gs hshort =>
    match gs, hshort with
    | [], _ => simp
    | [g], _ => simp
    | g :: h :: gs, hshort => exact absurd rfl (hshort g h gs)

theorem isLexeme_glue {gs : List Glyph} (hgs : ∀ g ∈ gs, g.IsLexeme) :
    ∀ g ∈ glue gs, g.IsLexeme := by
  fun_induction glue gs with
  | case1 g h gs hglue ih =>
    simp only [List.forall_mem_cons] at hgs ⊢
    obtain ⟨hg, hh, hgs⟩ := hgs
    refine ⟨⟨hg.1, ?_⟩, ih hgs⟩
    rw [(hglue.1 ▸ hg.2 : Stable (.mark .question) g.text).eq_spelling,
      (hglue.2.1 ▸ hh.2 : Stable (.mark .colon) h.text).eq_spelling]
    exact stable_mark .questionColon
  | case2 g h gs hglue ih =>
    obtain ⟨hg, hgs⟩ := List.forall_mem_cons.1 hgs
    exact List.forall_mem_cons.2 ⟨hg, ih hgs⟩
  | case3 => exact hgs

theorem follows_glue {gs : List Glyph} (hgs : gs.IsChain Near) (hlexeme : ∀ g ∈ gs, g.IsLexeme) :
    (glue gs).IsChain Follows := by
  fun_induction glue gs with
  | case1 g h gs hglue ih =>
    rw [List.isChain_cons]
    exact ⟨fun x _ c _ => extendedBy_questionColon c,
      ih hgs.tail.tail fun g hg => hlexeme g (by simp [hg])⟩
  | case2 g h gs hglue ih =>
    have ih := ih hgs.tail fun g hg => hlexeme g (List.mem_cons_of_mem _ hg)
    obtain ⟨x, rest, hx, hgap, ⟨more, htext⟩, -⟩ := glue_cons h gs
    rw [hx] at ih ⊢
    refine List.isChain_cons_cons.2 ⟨fun c hc => ?_, ih⟩
    obtain ⟨-, d, w, hw, -⟩ := hlexeme h (by simp)
    refine (List.isChain_cons_cons.1 hgs).1 hglue c ?_
    rw [hgap, htext, hw] at hc
    rw [hw]
    simpa [List.head?_append] using hc
  | case3 gs hshort =>
    match gs, hshort with
    | [], _ => simp
    | [g], _ => simp
    | g :: h :: gs, hshort => exact absurd rfl (hshort g h gs)

/-- What is written is read as the glyphs, glued. -/
theorem scans_glue {gs : List Glyph} (hgs : gs.IsChain Near) (hlexeme : ∀ g ∈ gs, g.IsLexeme) :
    Scans (laid gs ++ ['\n']) (glue gs) := by
  rw [← laid_glue gs]
  refine scans_laid (isLexeme_glue hlexeme) (follows_glue hgs hlexeme) (by decide)
    fun g _ c hc => ?_
  obtain rfl : '\n' = c := by simpa using hc
  exact g.kind.extendedBy_newline

end Glyph

end DocExpr
