import DocExpr.Proofs.Comments.Page
import DocExpr.Proofs.Lexing.Quoted

/-!
# Literals with line breaks on a page

A literal between quotes has a line break only behind a backslash (`Lexeme.Body.split`). It is
written over several lines, and blanks at the start of these are replaced by the indentation, but it
is a closed literal again, so that writing it leaves the comments if none is staged
(`Page.Carries.literal`).
-/

namespace DocExpr

open Lexeme

namespace Skim

variable {quote : Char} {w piece rest : List Char} {found : List (List Char)}

theorem next_quoted {c : Char} (hc : endsLine c = false ∧ c ≠ quote ∧ c ≠ '\\') :
    (⟨.quoted quote, found⟩ : Skim).next c = ⟨.quoted quote, found⟩ := by
  simp [next, hc.1, hc.2.1, hc.2.2]

theorem next_backslash (hquote : quote = '\x22' ∨ quote = '\x27') :
    (⟨.quoted quote, found⟩ : Skim).next '\\' = ⟨.escaped quote, found⟩ := by
  rcases hquote with rfl | rfl <;> rfl

/-- A literal is left at its closing quote. -/
theorem through_body (hquote : quote = '\x22' ∨ quote = '\x27') (h : Body quote w) :
    (⟨.quoted quote, found⟩ : Skim).through w = ⟨.code, found⟩ := by
  induction h with
  | close => simp [next]
  | escape c h ih =>
    rw [through_cons, through_cons, next_backslash hquote]
    exact ih
  | plain hc h ih => rw [through_cons, next_quoted hc, ih]

/-- What is before a body leaves the literal between its quotes. -/
theorem through_within (hquote : quote = '\x22' ∨ quote = '\x27') (h : Within quote w) :
    (⟨.quoted quote, found⟩ : Skim).through w = ⟨.quoted quote, found⟩ := by
  induction h with
  | nil => rfl
  | escape c h ih =>
    rw [through_cons, through_cons, next_backslash hquote]
    exact ih
  | plain hc h ih => rw [through_cons, next_quoted hc, ih]

/-- A line break in a literal is behind a backslash, and the rest of the literal goes on behind
it. -/
theorem through_piece (found : List (List Char)) (hquote : quote = '\x22' ∨ quote = '\x27')
    (h : Body quote (piece ++ '\n' :: rest)) (hpiece : '\n' ∉ piece) :
    Body quote rest ∧ piece.getLast? = some '\\' ∧
      (⟨.quoted quote, found⟩ : Skim).through piece = ⟨.escaped quote, found⟩ := by
  obtain ⟨hrest, front, rfl, hfront⟩ := h.split (by rcases hquote with rfl | rfl <;> decide) hpiece
  refine ⟨hrest, by simp, ?_⟩
  rw [through_append, through_within hquote hfront, through_cons, next_backslash hquote,
    through_nil]

end Skim

namespace Page

open Skim

variable {p : Page} {quote : Char} {w : List Char} {cs found : List (List Char)}

theorem through_blanks_quoted (hquote : quote = '\x22' ∨ quote = '\x27') (n : Nat) :
    (⟨.quoted quote, found⟩ : Skim).through (blanks n) = ⟨.quoted quote, found⟩ := by
  have hblank : endsLine ' ' = false ∧ ' ' ≠ quote ∧ ' ' ≠ '\\' := by
    rcases hquote with rfl | rfl <;> decide
  unfold blanks
  induction n with
  | zero => rfl
  | succ n ih => rw [List.replicate_succ, through_cons, next_quoted hblank, ih]

/-- A piece of a literal is skimmed as it is written. -/
theorem through_addToLine_quoted (hquote : quote = '\x22' ∨ quote = '\x27')
    (hp : start.through p.written = ⟨.quoted quote, found⟩) {piece more : List Char}
    (h : Body quote (piece ++ more)) (hvisible : Text.allBlank piece = false) :
    start.through (p.addToLine piece).written = (⟨.quoted quote, found⟩ : Skim).through piece := by
  obtain ⟨habove, -, before, hbefore, -, hline⟩ := p.addToLine_of_visible hvisible
  have hupper : (p.addToLine piece).upper = p.upper := by rw [upper, upper, habove]
  have hsplit := Text.takeWhile_append_trimStart piece
  have hstart : (⟨.quoted quote, found⟩ : Skim).through (piece.takeWhile Text.isBlank) =
      ⟨.quoted quote, found⟩ := by
    rw [← hsplit, List.append_assoc] at h
    exact through_within hquote (h.drop_blanks (isBlank_of_isQuote hquote)
      (List.all_eq_true.1 List.all_takeWhile)).2
  have hindent : (⟨.quoted quote, found⟩ : Skim).through before = ⟨.quoted quote, found⟩ := by
    rcases hbefore with rfl | rfl
    · exact through_blanks_quoted hquote _
    · exact hstart
  rw [Page.written] at hp
  rw [Page.written, hupper, hline, ← List.append_assoc, ← List.append_assoc, through_append,
    through_append, hp, hindent]
  conv_rhs => rw [← hsplit, through_append, hstart]

/-- The lines of the rest of a literal close it. -/
theorem appendPieces_body (hquote : quote = '\x22' ∨ quote = '\x27') (h : Body quote w)
    (hstaged : p.staged = []) (hp : start.through p.written = ⟨.quoted quote, found⟩) :
    (appendPieces (Text.splitLines w) p).staged = [] ∧
      start.through (appendPieces (Text.splitLines w) p).written = ⟨.code, found⟩ ∧
      Text.trimEnd (appendPieces (Text.splitLines w) p).line =
        (appendPieces (Text.splitLines w) p).line := by
  induction hn : w.length using Nat.strongRecOn generalizing w p with
  | ind n ih =>
    by_cases hline : '\n' ∈ w
    · obtain ⟨piece, rest, rfl, hpiece⟩ := List.eq_append_cons_of_mem hline
      obtain ⟨hrest, hlast, hover⟩ := through_piece found hquote h hpiece
      obtain ⟨hvisible, htrim⟩ := p.trimEnd_addToLine _ ⟨_, hlast, by decide⟩
      have hadded := through_addToLine_quoted hquote hp h hvisible
      have hnone : (p.addToLine piece).staged = [] :=
        (p.addToLine_of_visible hvisible).2.1.trans hstaged
      have hnext : start.through (p.addToLine piece).finishLine.written =
          ⟨.quoted quote, found⟩ := by
        rw [written_finishLine hnone, htrim]
        show start.through ((p.addToLine piece).written ++ ['\n']) = _
        rw [through_append, hadded, hover]
        rfl
      have hpieces : appendPieces (Text.splitLines (piece ++ '\n' :: rest)) p =
          appendPieces (Text.splitLines rest) (p.addToLine piece).finishLine := by
        rw [Text.splitLines_append_newline hpiece,
          appendPieces_cons _ _ (Text.splitLines_ne_nil rest)]
      rw [hpieces]
      exact ih rest.length (by simp [← hn]; omega) hrest rfl hnext rfl
    · have hlast : ∃ c, w.getLast? = some c ∧ Text.isBlank c = false :=
        ⟨quote, h.getLast?, isBlank_of_isQuote hquote⟩
      obtain ⟨hvisible, htrim⟩ := p.trimEnd_addToLine _ hlast
      rw [← List.append_nil w] at h
      have hadded := through_addToLine_quoted hquote hp h hvisible
      rw [List.append_nil] at h
      rw [Text.splitLines_of_not_mem hline, appendPieces]
      exact ⟨(p.addToLine_of_visible hvisible).2.1.trans hstaged,
        hadded.trans (through_body hquote h), htrim⟩

/-- Writing a literal leaves the comments on a page if none is staged. -/
theorem Carries.literal (h : p.Carries cs) {text : String} (htext : text.toList = quote :: w)
    (hquote : quote = '\x22' ∨ quote = '\x27') (hbody : Body quote w) (hnone : p.staged = []) :
    (p.append text).Carries cs := by
  obtain ⟨found, hp, -, rfl⟩ := h
  have hvisible : Text.allBlank [quote] = false := by
    simp [Text.allBlank, isBlank_of_isQuote hquote]
  have hopened : start.through (p.addToLine [quote]).written = ⟨.quoted quote, found⟩ := by
    rw [(through_addToLine hp.written hvisible).1]
    rcases hquote with rfl | rfl <;> rfl
  obtain ⟨hstaged, hwritten, htrim⟩ := appendPieces_body hquote hbody
    ((p.addToLine_of_visible hvisible).2.1.trans hnone) hopened
  rw [append_quote p htext hquote]
  refine ⟨found, ⟨hwritten, .code, ?_, .inl rfl⟩, by simp [hstaged], by simp [hstaged, hnone]⟩
  rw [htrim]
  exact hwritten

end Page

end DocExpr
