import DocExpr.Proofs.Lexing.Edges
import DocExpr.Proofs.Lexing.Symbols

/-!
# Back-ticked lines

The lines of a multi-line string, as they are read: a back tick at the start, nothing blank at the
end. `Glyph.symbols_ticked` says that such lines, each directly below the one before it, are read as
the block of these lines, and `Glyph.printable_symbols` that every symbol of a source text without
comments can be written again (`Symbol.Printable`).
-/

namespace DocExpr

namespace Lexeme

/-- A back-ticked line that is trimmed is one. -/
theorem trim_tickedLine {text : List Char} (h : Stable .tickedLine text) :
    Stable .tickedLine (Text.trim text) ∧ Solid (Text.trim text) := by
  obtain ⟨w, rfl, hw⟩ := stable_tickedLine_iff.1 h
  obtain ⟨tail, hsplit, htail, hlast⟩ := Text.trim_spec ('\x60' :: w) (by simp; decide)
  cases htrim : Text.trim ('\x60' :: w) with
  | nil =>
    rw [htrim, List.nil_append] at hsplit
    exact absurd (htail '\x60' (by simp [← hsplit])) (by decide)
  | cons c w' =>
    rw [htrim] at hsplit hlast
    obtain ⟨rfl, rfl⟩ := List.cons.inj hsplit
    exact ⟨stable_tickedLine_iff.2 ⟨w', rfl, fun d hd => hw d (List.mem_append_left _ hd)⟩,
      by simp, by simp; decide, hlast⟩

/-- A comment that is trimmed is one. -/
theorem trim_comment {text : List Char} (h : Stable .comment text) :
    Stable .comment (Text.trim text) ∧ Solid (Text.trim text) := by
  obtain ⟨w, rfl, hw⟩ := stable_comment_iff.1 h
  obtain ⟨tail, hsplit, htail, hlast⟩ := Text.trim_spec ('/' :: '/' :: w) (by simp; decide)
  have hslash : '/' ∉ tail := fun hm => absurd (htail '/' hm) (by decide)
  rcases htrim : Text.trim ('/' :: '/' :: w) with _ | ⟨c, _ | ⟨d, w'⟩⟩
  · rw [htrim] at hsplit
    obtain rfl : tail = '/' :: '/' :: w := hsplit.symm
    exact absurd (by simp) hslash
  · rw [htrim] at hsplit
    obtain rfl : '/' :: w = tail := (List.cons.inj hsplit).2
    exact absurd (by simp) hslash
  · rw [htrim] at hsplit hlast
    obtain ⟨rfl, hrest⟩ := List.cons.inj hsplit
    obtain ⟨rfl, rfl⟩ := List.cons.inj hrest
    exact ⟨stable_comment_iff.2 ⟨w', rfl, fun e he => hw e (List.mem_append_left _ he)⟩,
      by simp, by simp; decide, hlast⟩

end Lexeme

/-- Whether a symbol can be written such that it is read again. -/
def Symbol.Printable : Symbol → Prop
  | .atom form text => Lexeme.Stable (.atom form) text.toList
  | .block form lines => form = .multiline ∧ lines ≠ [] ∧
    ∀ line ∈ lines, Lexeme.Stable .tickedLine line.toList ∧ Lexeme.Solid line.toList
  | .kind k => k ≠ .document ∧ k ≠ .eof ∧ k ≠ .comment

namespace Glyph

open Lexeme

/-- The block of back-ticked lines has these lines, trimmed. -/
theorem blockSymbol_joinLines {lines : List (List Char)} {run : String}
    (hrun : run.toList = Text.joinLines lines) (hn : lines ≠ [])
    (h : ∀ line ∈ lines, Stable .tickedLine line) :
    blockSymbol run = .block .multiline (lines.map fun line => String.ofList (Text.trim line)) := by
  have hsplit : Text.splitLines run.toList = lines := by
    rw [hrun, Text.splitLines_joinLines hn fun line hl => not_mem_of_tickedLine (h line hl)]
  have hfilter : (lines.map Text.trim).filter (fun line => !line.isEmpty) =
      lines.map Text.trim := by
    refine List.filter_eq_self.2 fun _ hm => ?_
    obtain ⟨line, hl, rfl⟩ := List.mem_map.1 hm
    simpa using (trim_tickedLine (h line hl)).2.1
  rw [blockSymbol, Text.visibleLines, hsplit, hfilter, List.map_map]
  rfl

theorem printable_blockSymbol {lines : List (List Char)} {run : String}
    (hrun : run.toList = Text.joinLines lines) (hn : lines ≠ [])
    (h : ∀ line ∈ lines, Stable .tickedLine line) : (blockSymbol run).Printable := by
  rw [blockSymbol_joinLines hrun hn h]
  refine ⟨rfl, by simpa using hn, fun _ hm => ?_⟩
  obtain ⟨line, hl, rfl⟩ := List.mem_map.1 hm
  simpa using trim_tickedLine (h line hl)

/-- A text of lines with one more line. -/
theorem joinLines_push {lines : List (List Char)} {run : String}
    (hrun : run.toList = Text.joinLines lines) (hn : lines ≠ []) (line : List Char) :
    (run ++ "\n" ++ String.ofList line).toList = Text.joinLines (lines ++ [line]) := by
  rw [Text.joinLines_append hn (by simp), ← hrun]
  simp [Text.joinLines]

/-- Whether a text is that of back-ticked lines with line breaks between them. -/
def IsRun (run : String) : Prop := ∃ lines : List (List Char), lines ≠ [] ∧
  run.toList = Text.joinLines lines ∧ ∀ line ∈ lines, Stable .tickedLine line

theorem isRun_line {line : List Char} (h : Stable .tickedLine line) : IsRun (String.ofList line) :=
  ⟨[line], by simp, by simp [Text.joinLines], by simpa using h⟩

theorem IsRun.push {run : String} (hrun : IsRun run) {line : List Char}
    (h : Stable .tickedLine line) : IsRun (run ++ "\n" ++ String.ofList line) := by
  obtain ⟨lines, hn, htext, hlines⟩ := hrun
  exact ⟨lines ++ [line], by simp, joinLines_push htext hn line,
    List.forall_mem_append.2 ⟨hlines, by simpa using h⟩⟩

/-- Whether a glyph can be written again, if it is one that the grammar knows. -/
def IsCode (g : Glyph) : Prop :=
  (g.kind.isFault = false → Stable g.kind g.text) ∧ g.kind ≠ .document ∧ g.kind ≠ .eof ∧
    g.kind ≠ .comment ∧ ∀ b, g.kind ≠ .block b

theorem IsCode.printable {g : Glyph} (hg : g.IsCode) : g.symbol.Printable := by
  obtain ⟨gap, k, text⟩ := g
  obtain ⟨hstable, hdoc, heof, hcomment, hblock⟩ := hg
  cases k <;>
    simp_all [symbol, Token.symbol, Symbol.Printable, Kind.isFault, Kind.fault?]

/-- The symbols of glyphs that are read can be written again. -/
theorem printable_symbols {gs : List Glyph} (hgs : ∀ g ∈ gs, g.IsCode) {run : Option String}
    (hrun : ∀ text ∈ run, IsRun text) : ∀ x ∈ symbols run gs, x.Printable := by
  have printable : ∀ {text}, IsRun text → (blockSymbol text).Printable :=
    fun ⟨lines, hn, htext, hlines⟩ => printable_blockSymbol htext hn hlines
  induction gs generalizing run with
  | nil =>
    cases run with
    | none => simp [symbols]
    | some text => simpa [symbols] using printable (hrun text rfl)
  | cons g gs ih =>
    obtain ⟨hg, hgs⟩ := List.forall_mem_cons.1 hgs
    have hnone : ∀ x ∈ symbols none gs, x.Printable := ih hgs (by simp)
    have hsome : ∀ {text}, IsRun text → ∀ x ∈ symbols (some text) gs, x.Printable :=
      fun h => ih hgs (by simpa using h)
    by_cases hline : g.kind = .tickedLine
    · have hstable : Stable .tickedLine g.text := hline ▸ hg.1 (by rw [hline]; rfl)
      cases run with
      | none => simpa [symbols, hline] using hsome (isRun_line hstable)
      | some text =>
        have htext := hrun text rfl
        rw [symbols, if_pos hline]
        split
        · exact hsome (htext.push hstable)
        · exact List.forall_mem_cons.2 ⟨printable htext, hsome (isRun_line hstable)⟩
    · cases run with
      | none => simpa [symbols, hline] using ⟨hg.printable, hnone⟩
      | some text => simpa [symbols, hline] using ⟨printable (hrun text rfl), hg.printable, hnone⟩

theorem symbols_append_cons {g : Glyph} (hg : g.kind ≠ .tickedLine) (gs hs : List Glyph)
    (run : Option String) :
    symbols run (gs ++ g :: hs) = symbols run gs ++ g.symbol :: symbols none hs := by
  induction gs generalizing run with
  | nil => cases run <;> simp [symbols, hg]
  | cons h gs ih =>
    cases run <;> simp only [List.cons_append, symbols] <;> (repeat' split) <;> simp [ih]

theorem symbols_some_ticked {gs : List Glyph} (hgs : ∀ g ∈ gs, g.kind = .tickedLine ∧ g.isBelow)
    (lines : List (List Char)) {run : String} (hrun : run.toList = Text.joinLines lines)
    (hn : lines ≠ []) : ∃ run' : String, symbols (some run) gs = [blockSymbol run'] ∧
      run'.toList = Text.joinLines (lines ++ gs.map text) := by
  induction gs generalizing run lines with
  | nil => exact ⟨run, rfl, by simpa using hrun⟩
  | cons g gs ih =>
    obtain ⟨⟨hline, hbelow⟩, hgs⟩ := List.forall_mem_cons.1 hgs
    obtain ⟨run', hsymbols, hrun'⟩ := ih hgs _ (joinLines_push hrun hn g.text) (by simp)
    exact ⟨run', by rw [symbols, if_pos hline, if_pos hbelow, hsymbols], by simpa using hrun'⟩

/-- Back-ticked lines directly below each other are read as one block. -/
theorem symbols_ticked {gs : List Glyph} (hn : gs ≠ [])
    (hgs : ∀ g ∈ gs, g.kind = .tickedLine ∧ Stable .tickedLine g.text ∧ Solid g.text)
    (hbelow : ∀ g ∈ gs.tail, g.isBelow) :
    symbols none gs = [.block .multiline (gs.map fun g => String.ofList g.text)] := by
  cases gs with
  | nil => exact absurd rfl hn
  | cons g gs =>
    have hstart : (String.ofList g.text).toList = Text.joinLines [g.text] := by
      simp [Text.joinLines]
    have hlines : ∀ h ∈ gs, h.kind = .tickedLine ∧ h.isBelow := fun h hh =>
      ⟨(hgs h (by simp [hh])).1, hbelow h hh⟩
    obtain ⟨run, hsymbols, hrun⟩ := symbols_some_ticked hlines [g.text] hstart (by simp)
    rw [symbols, if_pos (hgs g (by simp)).1, hsymbols, blockSymbol_joinLines hrun (by simp)]
    · rw [List.singleton_append, ← List.map_cons, List.map_map]
      refine congrArg (fun lines => [Symbol.block .multiline lines])
        (List.map_congr_left fun h hh => ?_)
      simp [(hgs h hh).2.2.trim_eq]
    · rw [List.singleton_append, ← List.map_cons, List.forall_mem_map]
      exact fun h hh => (hgs h hh).2.1

end Glyph

end DocExpr
