import DocExpr.Proofs.Layout.Stance
import DocExpr.Proofs.Stream.Attached

/-!
# Blocks of lines on a page

Lines that are written one below the other are a block among the glyphs of a page
(`Page.Stands.appendLines`), and so is documentation that was staged when its line is ended
(`Page.isBlock_notes`).
-/

namespace DocExpr

open Lexeme

/-- Documentation as it is staged. -/
def stagedLines (lines : List String) : List (List Char) :=
  (lines.map fun line => "  " ++ line).map String.toList

theorem stagedLines_cons (line : String) (lines : List String) :
    stagedLines (line :: lines) = (' ' :: ' ' :: line.toList) :: stagedLines lines := by
  simp [stagedLines]

namespace Page

open Glyph

variable {p : Page} {gs : List Glyph} {gap front : List Char} {lines : List String} {k : Kind}

theorem trim_staged {line : String} (h : Kind.comment.HasLine line) :
    Text.trim (' ' :: ' ' :: line.toList) = line.toList := by
  obtain ⟨text, heq, -, htrim, -⟩ := IsStaged.solid ⟨line.toList, rfl, h⟩
  rw [htrim]
  exact (List.cons.inj (List.cons.inj heq).2).2.symm

/-- Documentation that is staged becomes a block of comments. -/
theorem isBlock_notes {column : Nat} (hlines : ∀ line ∈ lines, Kind.comment.HasLine line) :
    IsBlock .comment (notes front column (stagedLines lines)) lines := by
  cases lines with
  | nil => exact ⟨rfl, hlines, by simp [stagedLines, notes]⟩
  | cons line lines =>
    obtain ⟨hline, hrest⟩ := List.forall_mem_cons.1 hlines
    rw [stagedLines_cons, notes, trim_staged hline]
    refine ⟨?_, hlines, List.forall_mem_map.2 fun text _ => ?_⟩
    · rw [List.map_cons, List.map_cons, List.map_map]
      refine congrArg _ ?_
      rw [stagedLines, List.map_map, List.map_map]
      refine List.map_congr_left fun line hline => ?_
      simpa using trim_staged (hrest line hline)
    · have hblank : (blanks column ++ [' ', ' ']).count '\n' = 0 := by
        simp [blanks, List.count_replicate]
      rw [isBelow_eq, breaks, List.count_cons_self, hblank]
      rfl

theorem breaks_notes {column : Nat} {texts : List (List Char)} :
    ∀ g ∈ (notes front column texts).head?, g.breaks = front.count '\n' := by
  cases texts with
  | nil => simp [notes]
  | cons first others =>
    rintro g ⟨⟩
    simp [breaks]

/-- Lines that end their lines are a block, in the stead of what comes next. -/
theorem Stands.appendLines (hk : k = .comment ∨ k = .tickedLine) (h : p.Stands .ready gs gap)
    (hstaged : p.staged = []) (hn : lines ≠ []) (hlines : ∀ line ∈ lines, k.HasLine line) :
    ∃ cs gap', (appendLines lines p).Stands .broken (gs ++ cs) gap' ∧
      (appendLines lines p).staged = [] ∧ (appendLines lines p).line = [] ∧ IsBlock k cs lines ∧
      ∀ c ∈ cs.head?, c.breaks = gap.count '\n' := by
  induction lines generalizing p gs gap with
  | nil => exact absurd rfl hn
  | cons line lines ih =>
    obtain ⟨hline, hrest⟩ := List.forall_mem_cons.1 hlines
    obtain ⟨gap', column, hcount, hp, hstaged'⟩ :=
      h.toPrints.appendNewLine hk hline fun hgap g hg => near_line hk hline (h.stance hgap g hg)
    rw [hstaged] at hp
    simp only [notes, List.tail_nil, List.headD_nil, List.append_nil] at hp
    by_cases hnil : lines = []
    · subst hnil
      refine ⟨[⟨gap', k, line.toList⟩], ['\n'], ⟨hp, by simp⟩, hstaged', ?_,
        ⟨by simp, hlines, by simp⟩, ?_⟩
      · simp [Page.appendLines, newLine_eq_finishLine, finishLine]
      · simpa [breaks] using hcount
    · obtain ⟨cs, gap'', hp', hstaged'', hline', hcs, hbreaks⟩ :=
        ih ⟨hp, by simp⟩ hstaged' hnil hrest
      refine ⟨⟨gap', k, line.toList⟩ :: cs, gap'', by simpa [Page.appendLines] using hp',
        hstaged'', hline',
        ⟨by simp [hcs.texts], hlines, ?_⟩, by simpa [breaks] using hcount⟩
      intro g hg
      cases cs with
      | nil => cases hg
      | cons c cs =>
        rcases List.mem_cons.1 hg with rfl | hg
        · rw [isBelow_eq, hbreaks g rfl]
          rfl
        · exact hcs.below g hg

end Page

end DocExpr
