import DocExpr.Layout.Page
import DocExpr.Proofs.Lexing.Edges
import DocExpr.Proofs.Lexing.Glyph

/-!
# What is written on a page

What is written on a page is the text of some glyphs and a gap behind them (`Page.Lays`). Each
operation of a page has a lemma that says what it makes of the glyphs and the gap: writing a lexeme
with blanks around it adds a glyph (`Page.Lays.append`), breaking a line adds the documentation that
is staged for it, comment by comment (`Page.notes`), and ending an indentation changes the gap only.
-/

namespace DocExpr

open Lexeme

namespace Glyph

/-- The text of glyphs ends in something visible. -/
theorem getLast?_laid {gs : List Glyph} (hgs : ∀ g ∈ gs, Solid g.text) :
    ∀ c ∈ (laid gs).getLast?, Text.isBlank c = false := by
  rcases List.eq_nil_or_concat' gs with rfl | ⟨init, g, rfl⟩
  · simp
  · obtain ⟨hn, -, hlast⟩ := hgs g (by simp)
    rw [laid_append, laid_cons, laid_nil, List.append_nil,
      List.getLast?_append_of_ne_nil _ (by simp [hn]), List.getLast?_append_of_ne_nil _ hn]
    exact hlast

theorem laid_eq_nil {gs : List Glyph} (hgs : ∀ g ∈ gs, Solid g.text) (h : laid gs = []) :
    gs = [] := by
  cases gs with
  | nil => rfl
  | cons g gs =>
    rw [laid_cons, List.append_eq_nil_iff, List.append_eq_nil_iff] at h
    exact absurd h.2.1 (hgs g (by simp)).1

end Glyph

/-- Whether a text is documentation as it is staged: a comment behind two blanks. -/
def IsStaged (text : List Char) : Prop :=
  ∃ line, text = ' ' :: ' ' :: line ∧ Stable .comment line ∧ Solid line

theorem IsStaged.solid {text : List Char} (h : IsStaged text) :
    ∃ line, text = [' ', ' '] ++ line ∧ Text.trimEnd text = text ∧ Text.trim text = line ∧
      Stable .comment line ∧ Solid line := by
  obtain ⟨line, rfl, hline, hsolid⟩ := h
  have hlast : ∀ c ∈ (' ' :: ' ' :: line).getLast?, Text.isBlank c = false := by
    rw [List.getLast?_cons_cons, List.getLast?_cons_of_ne_nil hsolid.1]
    exact hsolid.2.2
  refine ⟨line, rfl, Text.trimEnd_of_getLast hlast, ?_, hline, hsolid⟩
  have hstart : Text.trimStart (' ' :: ' ' :: line) = line := by
    show Text.trimStart ([' ', ' '] ++ line) = line
    rw [Text.trimStart, List.dropWhile_append_of_pos (by decide)]
    exact Text.trimStart_of_head hsolid.2.1
  rw [Text.trim, hstart, Text.trimEnd_of_getLast hsolid.2.2]

namespace Page

open Glyph

/-- The finished lines. -/
def upper (p : Page) : List Char := p.above.reverse.flatMap (· ++ ['\n'])

/-- What is written, staged documentation apart. -/
def written (p : Page) : List Char := p.upper ++ p.line

/-- Whether some glyphs, with a gap behind them, are what is written on a page. -/
structure Lays (p : Page) (gs : List Glyph) (gap : List Char) : Prop where
  written : p.written = laid gs ++ gap
  blank : ∀ c ∈ gap, c = ' ' ∨ c = '\n'
  solid : ∀ g ∈ gs, Solid g.text
  line : '\n' ∉ p.line

variable {p q : Page} {gs : List Glyph} {gap : List Char}

theorem getLast?_upper (p : Page) : ∀ c ∈ p.upper.getLast?, c = '\n' := by
  unfold upper
  rcases List.eq_nil_or_concat' p.above.reverse with h | ⟨init, line, h⟩
  · simp [h]
  · simp [h]

theorem lays_empty (width : Nat) : (empty width).Lays [] [] :=
  ⟨rfl, by simp, by simp, by simp [empty]⟩

/-- What is written does not depend on indentations, spacings and what is staged. -/
theorem Lays.congr (h : p.Lays gs gap) (habove : q.above = p.above) (hline : q.line = p.line) :
    q.Lays gs gap where
  written := by rw [Page.written, upper, habove, hline]; exact h.written
  blank := h.blank
  solid := h.solid
  line := hline ▸ h.line

/-- What is above does not end in glyphs. -/
theorem Lays.eq_nil_of_upper (hgs : ∀ g ∈ gs, Solid g.text) (h : p.upper = laid gs) : gs = [] := by
  by_contra hn
  obtain ⟨c, hc⟩ := Option.isSome_iff_exists.1
    (List.getLast?_isSome.2 fun hl => hn (laid_eq_nil hgs hl))
  have hblank := getLast?_laid hgs c hc
  rw [getLast?_upper p c (h ▸ hc)] at hblank
  exact absurd hblank (by decide)

/-- Where something touches the end of what is written, the line has been begun. -/
theorem Lays.line_ne_nil (h : p.Lays gs []) (hn : gs ≠ []) : p.line ≠ [] := by
  intro hline
  have hw := h.written
  rw [Page.written, hline, List.append_nil, List.append_nil] at hw
  exact hn (Lays.eq_nil_of_upper h.solid hw)

/-- Blanks that are taken away at the end of what is written are taken from the gap. -/
theorem Lays.cut (h : p.Lays gs gap) (front : List Char) {tail : List Char}
    (hw : p.written = front ++ tail) (htail : ∀ c ∈ tail, Text.isBlank c) :
    ∃ gap', front = laid gs ++ gap' ∧ gap = gap' ++ tail := by
  have hsplit := h.written.symm.trans hw
  rcases List.append_eq_append_iff.1 hsplit with ⟨gap', rfl, hgap⟩ | ⟨rest, hlaid, rfl⟩
  · exact ⟨gap', rfl, hgap⟩
  · -- the blanks cannot reach into the last glyph
    cases hrest : rest.getLast? with
    | none =>
      obtain rfl := List.getLast?_eq_none_iff.1 hrest
      exact ⟨[], by simpa using hlaid.symm, rfl⟩
    | some c =>
      have hvisible := getLast?_laid h.solid c (by
        rw [hlaid, List.getLast?_append, hrest]
        rfl)
      rw [htail c (List.mem_append_left _ (List.mem_of_getLast? hrest))] at hvisible
      cases hvisible

/-! ## Breaking lines -/

@[simp] theorem addToLine_nil (p : Page) : p.addToLine [] = p := by
  simp [addToLine, Text.allBlank]

@[simp] theorem indent_addToLine (p : Page) (fragment : List Char) :
    (p.addToLine fragment).indent = p.indent := by
  unfold addToLine
  split <;> rfl

@[simp] theorem upper_addToLine (p : Page) (fragment : List Char) :
    (p.addToLine fragment).upper = p.upper := by
  unfold addToLine
  split <;> rfl

@[simp] theorem staged_addToLine (p : Page) (fragment : List Char) :
    (p.addToLine fragment).staged = p.staged := by
  unfold addToLine
  split <;> rfl

theorem line_addToLine_of_nil (hline : p.line = []) {fragment : List Char}
    (hvisible : Text.allBlank fragment = false) :
    (p.addToLine fragment).line = blanks p.indent ++ Text.trimStart fragment := by
  simp [addToLine, hline, hvisible]

theorem line_addToLine (hline : p.line ≠ []) (fragment : List Char) :
    (p.addToLine fragment).line = p.line ++ fragment := by
  simp [addToLine, hline]

theorem newLine_eq_finishLine (p : Page) : p.newLine = p.finishLine := by
  have h : Text.splitLines "\n".toList = [[], []] := by decide
  rw [newLine, append, h]
  simp [appendPieces]

theorem upper_finishLine (p : Page) : p.finishLine.upper =
    p.upper ++ (documented (Text.trimEnd p.line) p.staged).reverse.flatMap (· ++ ['\n']) := by
  simp [upper, finishLine]

/-- The glyphs of staged documentation: the first comment stands behind a gap on the line that it
documents, and the others each on a line of its own, below the end of the code. -/
def notes (gap : List Char) (column : Nat) : List (List Char) → List Glyph
  | [] => []
  | first :: others =>
    ⟨gap ++ [' ', ' '], .comment, Text.trim first⟩ ::
      others.map fun text => ⟨'\n' :: (blanks column ++ [' ', ' ']), .comment, Text.trim text⟩

theorem forall_notes {P : Glyph → Prop} {column : Nat} {texts : List (List Char)}
    (hfirst : ∀ text ∈ texts.head?, P ⟨gap ++ [' ', ' '], .comment, Text.trim text⟩)
    (hothers : ∀ text ∈ texts,
      P ⟨'\n' :: (blanks column ++ [' ', ' ']), .comment, Text.trim text⟩) :
    ∀ g ∈ notes gap column texts, P g := by
  cases texts with
  | nil => simp [notes]
  | cons first others =>
    refine List.forall_mem_cons.2 ⟨hfirst first rfl, List.forall_mem_map.2 fun text ht => ?_⟩
    exact hothers text (List.mem_cons_of_mem _ ht)

theorem laid_notes {first : List Char} {others : List (List Char)} (gap : List Char) (column : Nat)
    (h : ∀ text ∈ first :: others, IsStaged text) :
    laid (notes gap column (first :: others)) ++ ['\n'] =
      gap ++ first ++ ['\n'] ++
        (others.map fun text => blanks column ++ Text.trimEnd text).flatMap (· ++ ['\n']) := by
  obtain ⟨hfirst, hothers⟩ := List.forall_mem_cons.1 h
  have hlines : laid (others.map fun text =>
      ⟨'\n' :: (blanks column ++ [' ', ' ']), .comment, Text.trim text⟩) ++ ['\n'] = '\n' ::
        (others.map fun text => blanks column ++ Text.trimEnd text).flatMap (· ++ ['\n']) := by
    clear h hfirst
    induction others with
    | nil => rfl
    | cons text others ih =>
      obtain ⟨htext, hrest⟩ := List.forall_mem_cons.1 hothers
      specialize ih hrest
      obtain ⟨line, rfl, hend, htrim, -⟩ := htext.solid
      simp only [List.map_cons, laid_cons, List.append_assoc, ih, List.flatMap_cons, hend, htrim]
      simp
  obtain ⟨line, rfl, -, htrim, -⟩ := hfirst.solid
  simp only [notes, laid_cons, List.append_assoc, hlines, htrim]
  simp

/-- A line that ends takes blanks off the gap. -/
theorem Lays.trimmed (h : p.Lays gs gap) :
    ∃ gap' tail, p.upper ++ Text.trimEnd p.line = laid gs ++ gap' ∧
    gap = gap' ++ tail ∧ (∀ c ∈ tail, c = ' ') ∧ (p.line = [] → tail = []) := by
  obtain ⟨tail, hsplit, htail, -⟩ := Text.trimEnd_spec p.line
  obtain ⟨gap', hfront, rfl⟩ := h.cut (p.upper ++ Text.trimEnd p.line)
    (by rw [Page.written, List.append_assoc, ← hsplit]) htail
  refine ⟨gap', tail, hfront, rfl, fun c hc => ?_, fun hline => ?_⟩
  · refine (h.blank c (List.mem_append_right _ hc)).resolve_right ?_
    rintro rfl
    exact h.line (hsplit ▸ List.mem_append_right _ hc)
  · rw [hline] at hsplit
    exact (List.append_eq_nil_iff.1 hsplit.symm).2

theorem Lays.finishLine (h : p.Lays gs gap) (hnone : p.staged = []) : ∃ gap' tail,
    p.finishLine.Lays gs (gap' ++ ['\n']) ∧ gap = gap' ++ tail ∧ (∀ c ∈ tail, c = ' ') ∧
      (p.line = [] → tail = []) := by
  obtain ⟨gap', tail, hfront, rfl, htail, hline⟩ := h.trimmed
  refine ⟨gap', tail, ⟨?_, ?_, h.solid, by simp [Page.finishLine]⟩, rfl, htail, hline⟩
  · have hempty : p.finishLine.line = [] := rfl
    rw [Page.written, upper_finishLine, hempty, hnone, documented, ← List.append_assoc, ← hfront]
    simp
  · exact List.forall_mem_append.2 ⟨fun c hc => h.blank c (List.mem_append_left _ hc), by simp⟩

/-- A line that ends has the documentation behind it that is staged. -/
theorem Lays.finishLine_notes (h : p.Lays gs gap) (hdocs : ∀ text ∈ p.staged, IsStaged text)
    (hn : p.staged ≠ []) : ∃ gap' tail,
    p.finishLine.Lays (gs ++ notes gap' (Text.trimEnd p.line).length p.staged) ['\n'] ∧
      gap = gap' ++ tail ∧ (∀ c ∈ tail, c = ' ') ∧ (p.line = [] → tail = []) := by
  obtain ⟨gap', tail, hfront, rfl, htail, hline⟩ := h.trimmed
  obtain ⟨first, others, hstaged⟩ := List.exists_cons_of_ne_nil hn
  refine ⟨gap', tail, ⟨?_, by simp, ?_, by simp [Page.finishLine]⟩, rfl, htail, hline⟩
  · have hempty : p.finishLine.line = [] := rfl
    rw [hstaged] at hdocs
    obtain ⟨-, -, hend, -⟩ := (hdocs first (by simp)).solid
    rw [Page.written, upper_finishLine, hempty, hstaged, List.append_nil, laid_append,
      List.append_assoc, laid_notes gap' _ hdocs]
    simp only [documented, List.reverse_append, List.reverse_singleton, List.singleton_append,
      List.reverse_reverse, List.flatMap_cons, hend]
    simp only [← List.append_assoc, ← hfront]
  · refine List.forall_mem_append.2 ⟨h.solid, forall_notes (fun text ht => ?_) fun text ht => ?_⟩
    · obtain ⟨line, -, -, htrim, -, hsolid⟩ := (hdocs text (List.mem_of_head? ht)).solid
      exact htrim ▸ hsolid
    · obtain ⟨line, -, -, htrim, -, hsolid⟩ := (hdocs text ht).solid
      exact htrim ▸ hsolid

/-- Ending an indentation may empty a line that has only blanks on it. -/
theorem Lays.indentLess (h : p.Lays gs gap) : ∃ gap' tail, p.indentLess.Lays gs gap' ∧
    gap = gap' ++ tail ∧ (∀ c ∈ tail, c = ' ') ∧ (gap' = [] → gap = [] ∨ gs = []) := by
  by_cases hline : Text.allBlank p.line
  · obtain ⟨gap', hfront, rfl⟩ := h.cut p.upper rfl (List.all_eq_true.1 hline)
    have hempty : p.indentLess.line = [] := by simp [Page.indentLess, hline]
    have hblank : ∀ c ∈ gap', c = ' ' ∨ c = '\n' :=
      fun c hc => h.blank c (List.mem_append_left _ hc)
    refine ⟨gap', p.line, ⟨?_, hblank, h.solid, by simp [hempty]⟩, rfl, fun c hc => ?_, ?_⟩
    · rw [Page.written, hempty, List.append_nil]
      exact hfront
    · refine (h.blank c (List.mem_append_right _ hc)).resolve_right ?_
      rintro rfl
      exact h.line hc
    · rintro rfl
      rw [List.append_nil] at hfront
      exact .inr (Lays.eq_nil_of_upper h.solid hfront)
  · exact ⟨gap, [], h.congr rfl (by simp [Page.indentLess, hline]), by simp, by simp, .inl⟩

/-! ## The text of a page -/

theorem flatMap_newline {lines : List (List Char)} (h : lines ≠ []) :
    lines.flatMap (· ++ ['\n']) = Text.joinLines lines ++ ['\n'] := by
  induction lines with
  | nil => exact absurd rfl h
  | cons line lines ih =>
    by_cases hn : lines = []
    · simp [hn, Text.joinLines]
    · rw [List.flatMap_cons, ih hn, Text.joinLines_cons hn]
      simp

theorem isBlank_of_gap {c : Char} (h : c = ' ' ∨ c = '\n') : Text.isBlank c = true := by
  rcases h with rfl | rfl <;> decide

/-- The text of a page is what is written when its last line is finished, up to the gap, and a line
break. -/
theorem Lays.text (h : p.finished.Lays gs gap) (hline : p.finished.line = []) :
    p.text.toList = laid gs ++ ['\n'] := by
  have hw := h.written
  rw [Page.written, hline, List.append_nil, upper] at hw
  rw [Page.text, String.toList_ofList]
  congr 1
  by_cases hn : p.finished.above.reverse = []
  · rw [hn] at hw ⊢
    exact (List.append_eq_nil_iff.1 hw.symm).1.symm
  · -- the last line break is in the gap
    rw [flatMap_newline hn] at hw
    rcases List.eq_nil_or_concat' gap with rfl | ⟨init, c, rfl⟩
    · have hblank := getLast?_laid h.solid '\n' (by rw [← List.append_nil (laid gs), ← hw]; simp)
      exact absurd hblank (by decide)
    · rw [← List.append_assoc] at hw
      obtain ⟨hjoin, -⟩ := List.append_inj' hw rfl
      rw [hjoin]
      have hblank : ∀ d ∈ init, Text.isBlank d := fun d hd =>
        isBlank_of_gap (h.blank d (List.mem_append_left _ hd))
      rw [Text.trimEnd_append_blank _ hblank, Text.trimEnd_of_getLast (getLast?_laid h.solid)]

/-! ## Writing lexemes -/

theorem append_of_not_mem {text : String} (h : '\n' ∉ text.toList) :
    p.append text = p.addToLine text.toList := by
  rw [append, Text.splitLines_of_not_mem h, appendPieces]

@[simp] theorem append_empty (p : Page) : p.append "" = p := addToLine_nil p

/-- What starts with something visible can be written in two parts. -/
theorem append_append {first second : String} (hfirst : Solid first.toList)
    (hline : '\n' ∉ first.toList) (hline' : '\n' ∉ second.toList) :
    p.append (first ++ second) = (p.append first).append second := by
  rw [append_of_not_mem (by simp [hline, hline']), append_of_not_mem hline,
    append_of_not_mem hline', String.toList_append]
  obtain ⟨hn, hvisible, -⟩ := hfirst
  obtain ⟨c, w, hw⟩ := List.exists_cons_of_ne_nil hn
  rw [hw] at hvisible ⊢
  have hc := hvisible c rfl
  cases hp : p.line <;> simp [addToLine, Text.allBlank, Text.trimStart, hc, hp]

theorem isBlank_blank {c : Char} (h : c = ' ') : Text.isBlank c = true := h ▸ by decide

theorem allBlank_blanks (n : Nat) : Text.allBlank (blanks n) :=
  List.all_eq_true.2 fun _ hc => isBlank_blank (List.eq_of_mem_replicate hc)

/-- What is visible is written behind the line, perhaps with other blanks before it. -/
theorem addToLine_of_visible (p : Page) {fragment : List Char}
    (h : Text.allBlank fragment = false) :
    (p.addToLine fragment).above = p.above ∧ (p.addToLine fragment).staged = p.staged ∧
      ∃ before, (before = blanks p.indent ∨ before = fragment.takeWhile Text.isBlank) ∧
        (p.line ≠ [] → before = fragment.takeWhile Text.isBlank) ∧
        (p.addToLine fragment).line = p.line ++ before ++ Text.trimStart fragment := by
  cases hline : p.line with
  | nil =>
    have hadd : p.addToLine fragment =
        { p with line := blanks p.indent ++ Text.trimStart fragment } := by
      simp [addToLine, hline, h]
    exact ⟨by rw [hadd], by rw [hadd], blanks p.indent, .inl rfl, by simp, by rw [hadd]; rfl⟩
  | cons c line =>
    have hadd : p.addToLine fragment = { p with line := p.line ++ fragment } := by
      simp [addToLine, hline]
    refine ⟨by rw [hadd], by rw [hadd], fragment.takeWhile Text.isBlank, .inr rfl, fun _ => rfl, ?_⟩
    rw [hadd, hline, List.append_assoc, Text.takeWhile_append_trimStart]

/-- Writing a lexeme with blanks around it adds a glyph. Where it starts a line, it has the
indentation before it. -/
theorem Lays.append (h : p.Lays gs gap) (k : Kind) {before text behind : List Char}
    {fragment : String} (hfragment : fragment.toList = before ++ text ++ behind)
    (htext : Solid text) (hline : '\n' ∉ text) (hbefore : ∀ c ∈ before, c = ' ')
    (hbehind : ∀ c ∈ behind, c = ' ') :
    (p.append fragment).staged = p.staged ∧ (p.append fragment).line ≠ [] ∧
      ∃ between, (∀ c ∈ between, c = ' ') ∧ (gap = [] → gs ≠ [] → between = before) ∧
        (p.append fragment).Lays (gs ++ [⟨gap ++ between, k, text⟩]) behind := by
  have hbreak : '\n' ∉ before ∧ '\n' ∉ behind :=
    ⟨fun h => absurd (hbefore _ h) (by decide), fun h => absurd (hbehind _ h) (by decide)⟩
  obtain ⟨c, w, rfl⟩ := List.exists_cons_of_ne_nil htext.1
  have hblanks : ∀ d ∈ before, Text.isBlank d := fun d hd => isBlank_blank (hbefore d hd)
  have hc : Text.isBlank c = false := htext.2.1 c rfl
  have htake : (before ++ (c :: w ++ behind)).takeWhile Text.isBlank = before := by
    rw [List.takeWhile_append_of_pos hblanks, List.cons_append,
      List.takeWhile_cons_of_neg (by simp [hc]), List.append_nil]
  have htrim : Text.trimStart (before ++ (c :: w ++ behind)) = c :: w ++ behind := by
    rw [Text.trimStart, List.dropWhile_append_of_pos hblanks, List.cons_append,
      List.dropWhile_cons_of_neg (by simp [hc])]
  have hvisible : Text.allBlank fragment.toList = false := by
    rw [hfragment, Text.allBlank, List.all_append, List.all_append, List.all_cons, hc]
    simp
  obtain ⟨habove, hstaged, between, hbetween, hbegun, hadded⟩ := p.addToLine_of_visible hvisible
  rw [hfragment, List.append_assoc, htake] at hbetween
  rw [hfragment, List.append_assoc, htake] at hbegun
  rw [append_of_not_mem
    (by rw [hfragment]; simp only [List.mem_append, not_or]; exact ⟨⟨hbreak.1, hline⟩, hbreak.2⟩)]
  have hblank : ∀ d ∈ between, d = ' ' := by
    rcases hbetween with rfl | rfl
    · exact fun d hd => List.eq_of_mem_replicate hd
    · exact hbefore
  rw [hfragment, List.append_assoc, htrim] at hadded
  refine ⟨hstaged, by rw [hfragment, List.append_assoc, hadded]; simp, between, hblank, ?_,
    ⟨?_, ?_, ?_, ?_⟩⟩
  · rintro rfl hgs
    exact hbegun (h.line_ne_nil hgs)
  · rw [Page.written, upper, habove, hfragment, List.append_assoc, hadded]
    have hw := h.written
    rw [Page.written, upper] at hw
    rw [List.append_assoc, ← List.append_assoc _ p.line, hw]
    simp
  · exact fun d hd => .inl (hbehind d hd)
  · exact List.forall_mem_append.2 ⟨h.solid, List.forall_mem_singleton.2 htext⟩
  · rw [hfragment, List.append_assoc, hadded]
    simp only [List.mem_append, not_or]
    exact ⟨⟨h.line, fun hm => absurd (hblank _ hm) (by decide)⟩, hline, hbreak.2⟩

/-! ## Writing several lines -/

/-- A line that is given a visible end has no blanks there. -/
theorem trimEnd_addToLine (p : Page) (piece : List Char)
    (hlast : ∃ c, piece.getLast? = some c ∧ Text.isBlank c = false) :
    Text.allBlank piece = false ∧
    Text.trimEnd (p.addToLine piece).line = (p.addToLine piece).line := by
  obtain ⟨c, hlast, hc⟩ := hlast
  have hvisible : Text.allBlank piece = false := by
    rw [Text.allBlank, List.all_eq_false]
    exact ⟨c, List.mem_of_getLast? hlast, by simp [hc]⟩
  have hstart := (Text.allBlank_trimStart piece).trans hvisible
  obtain ⟨-, -, before, -, -, hline⟩ := p.addToLine_of_visible hvisible
  refine ⟨hvisible, ?_⟩
  have hpiece : Text.trimEnd piece = piece :=
    Text.trimEnd_of_getLast fun d hd => Option.some.inj (hlast.symm.trans hd) ▸ hc
  rw [← Text.takeWhile_append_trimStart piece, Text.trimEnd_append_of_visible _ hstart] at hpiece
  rw [hline, Text.trimEnd_append_of_visible _ hstart, List.append_cancel_left hpiece]

theorem written_finishLine (h : p.staged = []) :
    p.finishLine.written = p.upper ++ Text.trimEnd p.line ++ ['\n'] := by
  have hline : p.finishLine.line = [] := rfl
  rw [Page.written, upper_finishLine, h, hline]
  simp [documented]

theorem appendPieces_cons (p : Page) (piece : List Char) {pieces : List (List Char)}
    (h : pieces ≠ []) :
    appendPieces (piece :: pieces) p = appendPieces pieces (p.addToLine piece).finishLine := by
  obtain ⟨next, others, rfl⟩ := List.exists_cons_of_ne_nil h
  rfl

theorem isBlank_of_isQuote {quote : Char} (hquote : quote = '\x22' ∨ quote = '\x27') :
    Text.isBlank quote = false := by
  rcases hquote with rfl | rfl <;> decide

/-- A literal is written as its opening quote and the rest. -/
theorem append_quote (p : Page) {text : String} {quote : Char} {w : List Char}
    (htext : text.toList = quote :: w) (hquote : quote = '\x22' ∨ quote = '\x27') :
    p.append text = appendPieces (Text.splitLines w) (p.addToLine [quote]) := by
  have hblank := isBlank_of_isQuote hquote
  have hbreak : quote ≠ '\n' := by rcases hquote with rfl | rfl <;> decide
  have hadd : ∀ first, p.addToLine (quote :: first) = (p.addToLine [quote]).addToLine first := by
    intro first
    cases hline : p.line <;> simp [addToLine, hline, Text.allBlank, Text.trimStart, hblank]
  obtain ⟨first, others, hpieces⟩ := List.exists_cons_of_ne_nil (Text.splitLines_ne_nil w)
  rw [append, htext, Text.splitLines, if_neg hbreak, hpieces, List.modifyHead_cons]
  cases others with
  | nil => exact hadd first
  | cons second others =>
    rw [appendPieces_cons _ _ (List.cons_ne_nil second others),
      appendPieces_cons _ _ (List.cons_ne_nil second others), hadd]

end Page

end DocExpr
