import DocExpr.Proofs.Lexing.Tiling

/-!
# Texts in parentheses

A line break ends every lexeme, so a text without faults has the same lexemes where a line break and
more is behind it (`Glyph.Scans.closed`). Between two parentheses, each on a line of its own, its
tokens stand one line further down and are the same otherwise (`Glyph.Scans.tokens_enclosed`).
-/

namespace DocExpr

namespace Lexeme

variable {p : Char → Bool} {c : Char} {w cs : List Char}

/-! ## A line break behind a text -/

theorem takeWhile_cons_newline (h : p '\n' = false) (cs rest : List Char) :
    (cs ++ '\n' :: rest).takeWhile p = cs.takeWhile p := by
  induction cs with
  | nil => simp [h]
  | cons c cs ih => rw [List.cons_append, List.takeWhile_cons, List.takeWhile_cons, ih]

theorem head?_any_cons_newline (h : p '\n' = false) (cs rest : List Char) :
    (cs ++ '\n' :: rest).head?.any p = cs.head?.any p := by
  cases cs with
  | nil => exact h
  | cons c cs => rfl

theorem isPrefixOf_cons_newline (hw : '\n' ∉ w) (cs rest : List Char) :
    w.isPrefixOf (cs ++ '\n' :: rest) = w.isPrefixOf cs := by
  induction w generalizing cs with
  | nil => rfl
  | cons d w ih =>
    rw [List.mem_cons, not_or] at hw
    cases cs with
    | nil => simp [List.isPrefixOf, Ne.symm hw.1]
    | cons c cs =>
      rw [List.cons_append, List.isPrefixOf_cons_cons, List.isPrefixOf_cons_cons, ih hw.2]

theorem wordLength_cons_newline (cs rest : List Char) :
    wordLength (cs ++ '\n' :: rest) = wordLength cs := by
  induction cs with
  | nil => rfl
  | cons c cs ih =>
    rw [List.cons_append, wordLength, wordLength, ih, head?_any_cons_newline (by decide)]

theorem mark?_cons_newline (cs rest : List Char) : mark? (cs ++ '\n' :: rest) = mark? cs := by
  have hspelling : ∀ m : Mark, '\n' ∉ m.spelling.toList := by
    intro m
    cases m <;> decide
  rw [mark?, mark?]
  exact congrArg (List.find? · _) (funext fun m => isPrefixOf_cons_newline (hspelling m) cs rest)

/-- A closed literal is read alike before anything. -/
theorem readQuoted_cons_newline {quote : Char} (h : (readQuoted quote cs).2 = true)
    (rest : List Char) :
    readQuoted quote (cs ++ '\n' :: rest) = readQuoted quote cs := by
  have hlength : (cs.take (readQuoted quote cs).1).length = (readQuoted quote cs).1 :=
    List.length_take_of_le (Glyph.readQuoted_le quote cs)
  have hread : readQuoted quote
      (cs.take (readQuoted quote cs).1 ++ cs.drop (readQuoted quote cs).1) =
      ((cs.take (readQuoted quote cs).1).length, true) := by
    rw [List.take_append_drop, hlength, ← h]
  have happend :=
    readQuoted_append quote _ _ (cs.drop (readQuoted quote cs).1 ++ '\n' :: rest) hread
  rw [← List.append_assoc, List.take_append_drop, hlength, ← h] at happend
  exact happend

/-- A lexeme without a fault is read alike where a line break is behind the text. -/
theorem read_cons_newline (h : (read c cs).kind.isFault = false) (rest : List Char) :
    read c (cs ++ '\n' :: rest) = read c cs := by
  have hline : lineLength (cs ++ '\n' :: rest) = lineLength cs := by
    rw [lineLength, lineLength, takeWhile_cons_newline (by decide)]
  by_cases hdigit : Literal.isDigit c
  · rw [read_digit hdigit, read_digit hdigit, takeWhile_cons_newline (by decide)]
  by_cases htick : c = '\x60'
  · rw [htick, read_tick, read_tick, hline]
  by_cases hdouble : c = '\x22'
  · subst hdouble
    have hclosed : (readQuoted '\x22' cs).2 = true := by
      by_contra hopen
      rw [read_doubleQuote, if_neg hopen] at h
      cases h
    rw [read_doubleQuote, read_doubleQuote, readQuoted_cons_newline hclosed]
  by_cases hsingle : c = '\x27'
  · subst hsingle
    have hclosed : (readQuoted '\x27' cs).2 = true := by
      by_contra hopen
      rw [read_singleQuote, if_neg hopen] at h
      cases h
    rw [read_singleQuote, read_singleQuote, readQuoted_cons_newline hclosed,
      List.take_append_of_le_length (Glyph.readQuoted_le '\x27' cs)]
  · have hother := read_other (by simpa using hdigit) ⟨htick, hdouble, hsingle⟩
    have hslash : ((cs ++ '\n' :: rest).head? == some '/') = (cs.head? == some '/') := by
      cases cs <;> rfl
    rw [hother, hother, hslash, hline, ← List.cons_append, mark?_cons_newline,
      wordLength_cons_newline, List.take_append_of_le_length (Glyph.wordLength_le cs)]

end Lexeme

open Lexeme

/-! ## Places one line further down -/

/-- The place one line further down. -/
def Origin.below (o : Origin) : Origin := { o with line := o.line + 1 }

/-- The token one line further down. -/
def Token.below (t : Token) : Token := { t with origin := t.origin.below }

@[simp] theorem Token.kind_below (t : Token) : t.below.kind = t.kind := rfl

/-- The position one line further down. -/
def Position.below (p : Position) : Position := { p with line := p.line + 1 }

theorem Position.below_next (p : Position) (c : Char) : p.below.next c = (p.next c).below := by
  unfold next
  split <;> rfl

theorem Position.below_behind (p : Position) (cs : List Char) :
    p.below.behind cs = (p.behind cs).below := by
  induction cs generalizing p with
  | nil => rfl
  | cons c cs ih =>
    have hcons : ∀ p : Position, p.behind (c :: cs) = (p.next c).behind cs := fun _ => rfl
    rw [hcons, hcons, below_next, ih]

namespace Glyph

variable {text : String} {cs : List Char} {gs : List Glyph}

theorem placed_below (file : String) (p : Position) (gs : List Glyph) :
    placed file p.below gs = (placed file p gs).map Token.below := by
  induction gs generalizing p with
  | nil => rfl
  | cons g gs ih =>
    rw [placed, placed, List.map_cons, Position.below_behind, Position.below_behind, ih]
    rfl

/-! ## Parentheses around a text -/

/-- The parenthesis behind a text and a line break. -/
def closing (gap : List Char) : Glyph := ⟨gap, .mark .rightParenthesis, [')']⟩

/-- A text without faults has the same glyphs before a parenthesis on a line of its own. -/
theorem Scans.closed (h : Scans cs gs) (hgs : ∀ g ∈ gs, g.kind.isFault = false) :
    ∃ gap, Scans (cs ++ ['\n', ')']) (gs ++ [closing gap]) := by
  induction h with
  | @done tail htail =>
    have hread : Lexeme.read ')' ([] ++ []) = ⟨.mark .rightParenthesis, 0⟩ := by decide
    have hgap : ∀ c ∈ tail ++ ['\n'], isSpace c := List.forall_mem_append.2 ⟨htail, by decide⟩
    refine ⟨tail ++ ['\n'], ?_⟩
    simpa [closing] using Scans.next (w := []) hgap (by decide) hread (.done (by simp))
  | @next gap k c w rest gs hgap hc hread hrest ih =>
    obtain ⟨hk, hgs⟩ := List.forall_mem_cons.1 hgs
    obtain ⟨gap', hclosed⟩ := ih hgs
    have hread' : Lexeme.read c (w ++ (rest ++ ['\n', ')'])) = ⟨k, w.length⟩ := by
      rw [← List.append_assoc, read_cons_newline (by rw [hread]; exact hk), hread]
    exact ⟨gap', by simpa using Scans.next hgap hc hread' hclosed⟩

theorem Scans.newline (h : Scans cs gs) :
    Scans ('\n' :: cs) (gs.modifyHead fun g => { g with gap := '\n' :: g.gap }) := by
  cases h with
  | done htail => exact .done (List.forall_mem_cons.2 ⟨by decide, htail⟩)
  | next hgap hc hread hrest =>
    exact .next (List.forall_mem_cons.2 ⟨by decide, hgap⟩) hc hread hrest

theorem placed_newline (file : String) (p : Position) (gs : List Glyph) :
    placed file p (gs.modifyHead fun g => { g with gap := '\n' :: g.gap }) =
      placed file (p.next '\n') gs := by
  cases gs <;> rfl

/-- The tokens of a text in parentheses are, one line further down, those of the text behind a
parenthesis, and a parenthesis. -/
theorem Scans.tokens_enclosed (h : Scans text.toList gs) (hgs : ∀ g ∈ gs, g.kind.isFault = false)
    (file : String) : ∃ o o', o.line = 0 ∧ (Stream.ofText ("(\n" ++ text ++ "\n)") file).tokens =
      (⟨.mark .leftParenthesis, "(", o⟩ :: (Stream.ofText text file).tokens).map Token.below ++
        [⟨.mark .rightParenthesis, ")", o'⟩] := by
  obtain ⟨gap, hclosed⟩ := h.closed hgs
  have hopening : Lexeme.read '(' ([] ++ []) =
      ⟨.mark .leftParenthesis, ([] : List Char).length⟩ := by decide
  have hread : Lexeme.read '(' ([] ++ '\n' :: (text.toList ++ ['\n', ')'])) =
      ⟨.mark .leftParenthesis, ([] : List Char).length⟩ := by
    refine read_append hopening rfl fun d hd => ?_
    obtain rfl : '\n' = d := by simpa using hd
    exact Kind.extendedBy_newline _
  have hspace : ∀ d ∈ ([] : List Char), isSpace d := by simp
  have hopened := Scans.next hspace (by decide) hread hclosed.newline
  have htext : ("(\n" ++ text ++ "\n)").toList =
      [] ++ (['('] ++ '\n' :: (text.toList ++ ['\n', ')'])) := by
    simp
  have hstart : ((Position.start.behind []).behind ['(']).next '\n' = Position.start.below := rfl
  rw [← htext] at hopened
  simp only [List.map_cons]
  rw [hopened.tokens_ofText, h.tokens_ofText, ← placed_below, placed, placed_newline, hstart,
    placed_append]
  exact ⟨⟨file, 0, 1, 1⟩, _, rfl, rfl⟩

end Glyph

end DocExpr
