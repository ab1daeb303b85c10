import DocExpr.Layout.Writer
import DocExpr.Proofs.Comments.Source
import DocExpr.Proofs.Lexing.Glued

/-!
# Documentation on a page

What is written on a page is read as its glyphs also where there is documentation on it, if these
are glued where a question mark and a colon touch (`Page.Prints`). A line that is finished adds the
comments that are staged (`Page.Prints.newLine`), or has the first of them taken into a comment or a
back-ticked line at its end (`Page.Prints.appendNewLine`).
-/

namespace DocExpr

open Lexeme

theorem Kind.extendedBy_blank {k : Kind} (hcomment : k ≠ .comment) (hline : k ≠ .tickedLine) :
    k.extendedBy ' ' = false := by
  cases k with
  | comment => exact absurd rfl hcomment
  | tickedLine => exact absurd rfl hline
  | mark m => cases m <;> decide
  | atom a => cases a <;> decide
  | _ => rfl

/-- A comment or a back-ticked line goes on up to the end of its line. -/
theorem Lexeme.Stable.append_line {k : Kind} {text more : List Char}
    (hk : k = .comment ∨ k = .tickedLine) (h : Stable k text)
    (hmore : ∀ c ∈ more, endsLine c = false) : Stable k (text ++ more) := by
  rcases hk with rfl | rfl
  · obtain ⟨w, rfl, hw⟩ := stable_comment_iff.1 h
    exact stable_comment_iff.2 ⟨w ++ more, rfl, List.forall_mem_append.2 ⟨hw, hmore⟩⟩
  · obtain ⟨w, rfl, hw⟩ := stable_tickedLine_iff.1 h
    exact stable_tickedLine_iff.2 ⟨w ++ more, rfl, List.forall_mem_append.2 ⟨hw, hmore⟩⟩

/-- No text that is staged breaks a line. -/
theorem IsStaged.endsLine {text : List Char} (h : IsStaged text) :
    ∀ c ∈ text, endsLine c = false := by
  obtain ⟨line, rfl, hline, -⟩ := h
  obtain ⟨w, rfl, hw⟩ := stable_comment_iff.1 hline
  simp only [List.forall_mem_cons]
  exact ⟨by decide, by decide, by decide, by decide, hw⟩

namespace Glyph

theorem isLexeme_of_gap {g : Glyph} (hgap : ∀ c ∈ g.gap, c = ' ' ∨ c = '\n')
    (hstable : Stable g.kind g.text) : g.IsLexeme :=
  ⟨fun c hc => by rcases hgap c hc with rfl | rfl <;> rfl, hstable⟩

/-- What starts a line does not extend what is before it. -/
theorem near_of_newline {g h : Glyph} (hgap : h.gap.head? = some '\n') : Near g h := by
  intro _ c hc
  rw [List.head?_append, hgap] at hc
  obtain rfl : '\n' = c := Option.some.inj hc
  exact g.kind.extendedBy_newline

theorem near_of_newlines {gs hs : List Glyph} (hgs : gs.IsChain Near)
    (hhs : ∀ h ∈ hs, h.gap.head? = some '\n') : (gs ++ hs).IsChain Near := by
  refine hgs.append (List.pairwise_of_forall_mem_list fun g _ h hh =>
    near_of_newline (hhs h hh)).isChain ?_
  exact fun g _ h hh => near_of_newline (hhs h (List.mem_of_head? hh))

end Glyph

namespace Page

open Glyph

/-- Whether some glyphs, with a gap behind them, are what is written on a page, documentation
included, and are read as what they are. A comment or a back-ticked line at the end has its line
ended. -/
structure Prints (p : Page) (gs : List Glyph) (gap : List Char) : Prop extends Lays p gs gap where
  staged : ∀ text ∈ p.staged, IsStaged text
  lexeme : ∀ g ∈ gs, g.IsLexeme
  near : gs.IsChain Near
  clear : ∀ g ∈ gs.getLast?, ∀ c ∈ (gap ++ [' ']).head?, g.kind.extendedBy c = false

variable {p q : Page} {gs hs : List Glyph} {gap gap' tail : List Char}

theorem prints_empty (width : Nat) : (empty width).Prints [] [] :=
  ⟨lays_empty width, by simp [empty], by simp, .nil, by simp⟩

theorem Prints.congr (h : p.Prints gs gap) (hstaged : q.staged = p.staged)
    (habove : q.above = p.above) (hline : q.line = p.line) : q.Prints gs gap where
  toLays := h.toLays.congr habove hline
  staged := hstaged ▸ h.staged
  lexeme := h.lexeme
  near := h.near
  clear := h.clear

/-- Staging documentation changes nothing that is written. -/
theorem Prints.stage (h : p.Prints gs gap) {lines : List String}
    (hlines : ∀ line ∈ lines, Kind.comment.HasLine line) :
    (p.stage (lines.map fun line => "  " ++ line)).Prints gs gap where
  toLays := h.toLays.congr rfl rfl
  staged := by
    simp only [Page.stage, List.map_map, List.forall_mem_map]
    exact fun line hl => ⟨line.toList, by simp, hlines line hl⟩
  lexeme := h.lexeme
  near := h.near
  clear := h.clear

/-! ## Breaking lines -/

/-- Blanks that are cut off a gap leave the last glyph with what does not extend it behind it. -/
theorem clear_of_cut
    (h : ∀ g ∈ gs.getLast?, ∀ c ∈ (gap' ++ tail ++ [' ']).head?, g.kind.extendedBy c = false)
    (htail : ∀ c ∈ tail, c = ' ') :
    ∀ g ∈ gs.getLast?, ∀ c ∈ (gap' ++ [' ']).head?, g.kind.extendedBy c = false := by
  intro g hg c hc
  refine h g hg c ?_
  cases gap' with
  | cons d gap' => exact hc
  | nil =>
    obtain rfl : ' ' = c := by simpa using hc
    cases tail with
    | nil => rfl
    | cons d tail => simp [htail d (by simp)]

theorem isLexeme_notes {column : Nat} {texts : List (List Char)} (h : ∀ text ∈ texts, IsStaged text)
    (hgap : ∀ c ∈ gap, c = ' ' ∨ c = '\n') : ∀ g ∈ notes gap column texts, g.IsLexeme := by
  have stable : ∀ text ∈ texts, Stable .comment (Text.trim text) := by
    intro text ht
    obtain ⟨line, -, -, htrim, hline, -⟩ := (h text ht).solid
    exact htrim ▸ hline
  refine forall_notes (fun text ht => isLexeme_of_gap ?_ (stable text (List.mem_of_head? ht)))
    fun text ht => isLexeme_of_gap ?_ (stable text ht)
  · exact List.forall_mem_append.2 ⟨hgap, by simp⟩
  · refine List.forall_mem_cons.2
      ⟨.inr rfl, List.forall_mem_append.2 ⟨fun c hc => .inl ?_, by simp⟩⟩
    exact List.eq_of_mem_replicate hc

theorem kind_notes {column : Nat} {texts : List (List Char)} :
    ∀ g ∈ notes gap column texts, g.kind = .comment :=
  forall_notes (fun _ _ => rfl) fun _ _ => rfl

/-- Staged comments are near each other and what is before them. -/
theorem near_notes {column : Nat} {texts : List (List Char)}
    (hclear : ∀ g ∈ gs.getLast?, ∀ c ∈ (gap ++ [' ']).head?, g.kind.extendedBy c = false)
    (hgs : gs.IsChain Near) : (gs ++ notes gap column texts).IsChain Near := by
  cases texts with
  | nil => simpa [notes] using hgs
  | cons first others =>
    have hothers : ∀ g ∈ others.map fun text =>
        (⟨'\n' :: (blanks column ++ [' ', ' ']), .comment, Text.trim text⟩ : Glyph),
          g.gap.head? = some '\n' :=
      List.forall_mem_map.2 fun _ _ => rfl
    refine hgs.append (near_of_newlines (.singleton _) hothers) fun g hg h hh _ c hc => ?_
    · obtain rfl := Option.some.inj hh
      refine hclear g hg c ?_
      cases gap with
      | nil => exact hc
      | cons d gap => exact hc

/-- Blanks behind a gap break no lines. -/
theorem count_append_blank {between : List Char} (h : ∀ c ∈ between, c = ' ') :
    (gap ++ between).count '\n' = gap.count '\n' := by
  rw [List.count_append, List.count_eq_zero.2 fun hm => absurd (h _ hm) (by decide), Nat.add_zero]

/-- Breaking a line adds the comments that are staged for it. -/
theorem Prints.newLine (h : p.Prints gs gap) : ∃ front column, front.count '\n' = gap.count '\n' ∧
    p.newLine.Prints (gs ++ notes front column p.staged)
      ((if p.staged = [] then front else []) ++ ['\n']) ∧ p.newLine.staged = [] := by
  rw [newLine_eq_finishLine]
  have hclear := h.clear
  by_cases hnone : p.staged = []
  · obtain ⟨front, tail, hlays, rfl, htail, -⟩ := h.toLays.finishLine hnone
    refine ⟨front, 0, (count_append_blank htail).symm, ?_, by simp [finishLine]⟩
    rw [hnone, if_pos rfl, notes, List.append_nil]
    refine ⟨hlays, by simp [finishLine], h.lexeme, h.near, fun g hg c hc => ?_⟩
    cases front with
    | nil =>
      obtain rfl : '\n' = c := by simpa using hc
      exact g.kind.extendedBy_newline
    | cons d front => exact hclear g hg c (by simpa using hc)
  · obtain ⟨front, tail, hlays, rfl, htail, -⟩ := h.toLays.finishLine_notes h.staged hnone
    refine ⟨front, (Text.trimEnd p.line).length, (count_append_blank htail).symm,
      ?_, by simp [finishLine]⟩
    rw [if_neg hnone, List.nil_append]
    refine ⟨hlays, by simp [finishLine], ?_, near_notes (clear_of_cut hclear htail) h.near,
      fun g _ c hc => ?_⟩
    · exact List.forall_mem_append.2 ⟨h.lexeme, isLexeme_notes h.staged fun c hc =>
        h.blank c (List.mem_append_left _ hc)⟩
    · obtain rfl : '\n' = c := by simpa using hc
      exact g.kind.extendedBy_newline

/-- What is written on a page that is finished is read as its glyphs and the comments that are
staged, glued. -/
theorem Prints.text (h : p.Prints gs gap) :
    ∃ front column, Scans p.text.toList (glue (gs ++ notes front column p.staged)) := by
  have read : ∀ {hs gap'}, p.finished.Prints hs gap' → p.finished.line = [] →
      Scans p.text.toList (glue hs) :=
    fun hp hline => hp.toLays.text hline ▸ scans_glue hp.near hp.lexeme
  by_cases hdone : p.line.isEmpty && p.staged.isEmpty
  · have hfinished : p.finished = p := if_pos hdone
    rw [Bool.and_eq_true, List.isEmpty_iff, List.isEmpty_iff] at hdone
    have hp : p.finished.Prints (gs ++ notes [] 0 p.staged) gap := by
      rw [hfinished, hdone.2, notes, List.append_nil]
      exact h
    exact ⟨[], 0, read hp (by rw [hfinished]; exact hdone.1)⟩
  · have hfinished : p.finished = p.newLine := by rw [newLine_eq_finishLine]; exact if_neg hdone
    obtain ⟨front, column, -, hp, -⟩ := h.newLine
    refine ⟨front, column, read (hfinished ▸ hp) ?_⟩
    rw [hfinished, newLine_eq_finishLine]
    rfl

/-- Ending an indentation may empty a line that has only blanks on it. -/
theorem Prints.indentLess (h : p.Prints gs gap) :
    ∃ gap', gap'.count '\n' = gap.count '\n' ∧ p.indentLess.Prints gs gap' ∧
      (gap' = [] → gap = [] ∨ gs = []) := by
  obtain ⟨gap', tail, hlays, rfl, htail, hcut⟩ := h.toLays.indentLess
  exact ⟨gap', (count_append_blank htail).symm,
    ⟨hlays, h.staged, h.lexeme, h.near, clear_of_cut h.clear htail⟩, hcut⟩

/-! ## Writing -/

/-- What does not extend the last glyph is near it, wherever it is written. -/
theorem Prints.near_concat (h : p.Prints gs gap) {k : Kind} {before between text : List Char}
    (htight : gap = [] → gs ≠ [] → between = before)
    (htouch : gap = [] → ∀ g ∈ gs.getLast?, Near g ⟨before, k, text⟩) :
    List.IsChain Near (gs ++ [⟨gap ++ between, k, text⟩]) := by
  refine h.near.append (.singleton _) fun g hg h' hh' => ?_
  obtain rfl : (⟨gap ++ between, k, text⟩ : Glyph) = h' := by simpa using hh'
  by_cases hgap : gap = []
  · have := htouch hgap g hg
    rwa [hgap, List.nil_append, htight hgap (by rintro rfl; cases hg)]
  · obtain ⟨c, gap, rfl⟩ := List.exists_cons_of_ne_nil hgap
    exact fun _ d hd => h.clear g hg d (by simpa using hd)

/-- Writing a lexeme with blanks around it adds a glyph, if it can touch what is before it. -/
theorem Prints.append (h : p.Prints gs gap) {k : Kind} {before text behind : List Char}
    {fragment : String} (hfragment : fragment.toList = before ++ text ++ behind)
    (hstable : Stable k text) (hsolid : Solid text) (hline : '\n' ∉ text)
    (hbefore : ∀ c ∈ before, c = ' ') (hbehind : ∀ c ∈ behind, c = ' ')
    (hk : k ≠ .comment ∧ k ≠ .tickedLine)
    (htouch : gap = [] → ∀ g ∈ gs.getLast?, Near g ⟨before, k, text⟩) :
    (p.append fragment).staged = p.staged ∧ (p.append fragment).line ≠ [] ∧ ∃ gap',
      gap'.count '\n' = gap.count '\n' ∧
      (p.append fragment).Prints (gs ++ [⟨gap', k, text⟩]) behind := by
  obtain ⟨hstaged, hbegun, between, hbetween, htight, hlays⟩ :=
    h.toLays.append k hfragment hsolid hline hbefore hbehind
  refine ⟨hstaged, hbegun, gap ++ between, count_append_blank hbetween,
    hlays, hstaged ▸ h.staged, ?_, h.near_concat htight htouch, ?_⟩
  · refine List.forall_mem_append.2
      ⟨h.lexeme, List.forall_mem_singleton.2 (isLexeme_of_gap ?_ hstable)⟩
    exact List.forall_mem_append.2 ⟨h.blank, fun c hc => .inl (hbetween c hc)⟩
  · intro g hg c hc
    obtain rfl : ⟨gap ++ between, k, text⟩ = g := by simpa using hg
    have hblank : c = ' ' := by
      rw [List.head?_append] at hc
      cases behind with
      | nil => exact (Option.some.inj hc).symm
      | cons d behind => exact (Option.some.inj hc) ▸ hbehind d (by simp)
    exact hblank ▸ Kind.extendedBy_blank hk.1 hk.2

/-- Where documentation is staged for a line that ends in a glyph, its first comment can be taken
for a part of that glyph. -/
theorem Lays.finishLine_line {g : Glyph} (h : p.Lays (gs ++ [g]) [])
    (hdocs : ∀ text ∈ p.staged, IsStaged text) :
    ∃ column, p.finishLine.Lays
      (gs ++ [⟨g.gap, g.kind, g.text ++ p.staged.headD []⟩] ++ (notes [] column p.staged).tail)
      ['\n'] := by
  have hsolid := h.solid g (by simp)
  by_cases hnone : p.staged = []
  · obtain ⟨gap', tail, hlays, hgap, -⟩ := h.finishLine hnone
    obtain ⟨rfl, -⟩ := List.append_eq_nil_iff.1 hgap.symm
    exact ⟨0, by simpa [hnone, notes] using hlays⟩
  · obtain ⟨gap', tail, hlays, hgap, -⟩ := h.finishLine_notes hdocs hnone
    obtain ⟨rfl, -⟩ := List.append_eq_nil_iff.1 hgap.symm
    obtain ⟨first, others, hp⟩ := List.exists_cons_of_ne_nil hnone
    obtain ⟨line, hfirst, -, htrim, -, hline⟩ := (hdocs first (by simp [hp])).solid
    refine ⟨(Text.trimEnd p.line).length, ⟨?_, hlays.blank, ?_, hlays.line⟩⟩
    · rw [hlays.written, hp]
      simp only [notes, List.headD_cons, List.tail_cons, htrim]
      simp [hfirst]
    · have hnotes := hlays.solid
      rw [hp, notes] at hnotes
      simp only [List.forall_mem_append, List.forall_mem_cons] at hnotes
      rw [hp, notes, List.tail_cons]
      refine List.forall_mem_append.2 ⟨List.forall_mem_append.2 ⟨hnotes.1.1, ?_⟩, hnotes.2.2⟩
      rw [List.forall_mem_singleton, List.headD_cons, hfirst]
      refine ⟨by simp [hsolid.1], fun c hc => hsolid.2.1 c ?_, fun c hc => hline.2.2 c ?_⟩
      · rwa [List.head?_append_of_ne_nil _ hsolid.1] at hc
      · rwa [← List.append_assoc, List.getLast?_append_of_ne_nil _ hline.1] at hc

/-- A comment or a back-ticked line ends its line, and takes the first comment that is staged for it
into its text. -/
theorem Prints.appendNewLine (h : p.Prints gs gap) {k : Kind} (hk : k = .comment ∨ k = .tickedLine)
    {line : String} (hline : k.HasLine line)
    (htouch : gap = [] → ∀ g ∈ gs.getLast?, Near g ⟨[], k, line.toList⟩) :
    ∃ gap' column, gap'.count '\n' = gap.count '\n' ∧
      (p.append line).newLine.Prints (gs ++ ⟨gap', k, line.toList ++ p.staged.headD []⟩ ::
        (notes [] column p.staged).tail) ['\n'] ∧ (p.append line).newLine.staged = [] := by
  obtain ⟨hstable, hsolid⟩ := hline
  have hbreak : '\n' ∉ line.toList := by
    rcases hk with rfl | rfl
    · exact not_mem_of_comment hstable
    · exact not_mem_of_tickedLine hstable
  have hwhole : line.toList = [] ++ line.toList ++ [] := by simp
  obtain ⟨hstaged, -, between, hbetween, htight, hlays⟩ :=
    h.toLays.append k hwhole hsolid hbreak (by simp) (by simp)
  have hdocs : ∀ text ∈ (p.append line).staged, IsStaged text := hstaged ▸ h.staged
  obtain ⟨column, hfinished⟩ := hlays.finishLine_line hdocs
  rw [← newLine_eq_finishLine, hstaged, List.append_assoc, List.singleton_append] at hfinished
  have hends : ∀ c ∈ p.staged.headD [], endsLine c = false := by
    cases hp : p.staged with
    | nil => simp
    | cons first others => exact (h.staged first (by simp [hp])).endsLine
  have hothers : ∀ g ∈ (notes [] column p.staged).tail, g.kind = .comment ∧
      g.gap.head? = some '\n' ∧
      g.IsLexeme := by
    intro g hg
    refine ⟨kind_notes g (List.mem_of_mem_tail hg), ?_,
      isLexeme_notes h.staged (by simp) g (List.mem_of_mem_tail hg)⟩
    cases hp : p.staged with
    | nil => simp [hp, notes] at hg
    | cons first others =>
      rw [hp, notes, List.tail_cons, List.mem_map] at hg
      obtain ⟨text, -, rfl⟩ := hg
      rfl
  refine ⟨gap ++ between, column, count_append_blank hbetween, ⟨hfinished, ?_, ?_, ?_, ?_⟩,
    by simp [newLine_eq_finishLine, finishLine]⟩
  · simp [newLine_eq_finishLine, finishLine]
  · refine List.forall_mem_append.2 ⟨h.lexeme, List.forall_mem_cons.2 ⟨isLexeme_of_gap ?_ ?_,
      fun g hg => (hothers g hg).2.2⟩⟩
    · exact List.forall_mem_append.2 ⟨h.blank, fun c hc => .inl (hbetween c hc)⟩
    · exact hstable.append_line hk hends
  · rw [← List.singleton_append, ← List.append_assoc]
    refine near_of_newlines (h.near_concat htight fun hgap g hg => ?_) fun g hg =>
      (hothers g hg).2.1
    -- what is taken into the line does not change its start
    refine fun htouching c hc => htouch hgap g hg (fun ht => htouching ⟨ht.1, ht.2.1, rfl⟩) c ?_
    obtain ⟨d, w, hw⟩ := List.exists_cons_of_ne_nil hsolid.1
    simpa [hw] using hc
  · intro g _ c hc
    obtain rfl : '\n' = c := by simpa using hc
    exact g.kind.extendedBy_newline

end Page

end DocExpr
