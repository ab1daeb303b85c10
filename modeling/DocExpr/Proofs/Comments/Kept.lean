import DocExpr.Proofs.Layout.Spelled

/-!
# Which comments are kept

The text of a tree has the comments of the source text that the tree was read from, unless something
collides while it is written; if something does, and all literals are on one line, it has fewer
(`Goal.comments_format`). This goes by induction on what the script of the tree spells
(`Directive.Spells.bears`).
-/

namespace DocExpr

open Directive Page

/-! ## Scripts -/

theorem Page.Appends.carries {st st' : Stance} {text : String} {s : List Symbol}
    (h : Appends st text s st') {p : Page} {cs : List (List Char)} (hp : p.Carries cs) :
    (p.append text).Carries cs := by
  induction h generalizing p with
  | one _ _ _ hpasses => exact hp.append hpasses
  | concat _ _ hfirst hline hline' ih ih' =>
    rw [append_append hfirst hline hline']
    exact ih' (ih hp)
  | mono _ _ _ ih => exact ih hp

/-- What a script leaves: the comments on the page and those that it spells, if nothing collides,
and fewer if something does. In the latter case names and literals must be on one line. -/
theorem Directive.Spells.bears {j j' : Juncture} {ds : List Directive} {s : List Symbol}
    (h : Spells j ds s j') {p : Page} {cs : List (List Char)} (hp : p.Carries cs)
    (hline : collidesAll ds p → ∀ x ∈ s, x.OneLine) :
    Bears ds (s.flatMap Symbol.comments) p cs := by
  induction h generalizing p cs with
  | nil => exact ⟨cs, hp, by simp [collidesAll, Tally]⟩
  | concat _ _ ih ih' =>
    rw [collidesAll_append] at hline
    rw [List.flatMap_append]
    refine (ih hp fun hc x hx =>
      hline (by rw [hc, Bool.true_or]) x (List.mem_append_left _ hx)).concat fun cs' hp' =>
        ih' hp' fun hc x hx => hline (by rw [hc, Bool.or_true]) x (List.mem_append_right _ hx)
  | mono _ _ _ ih => exact ih hp hline
  | append h _ =>
    rw [h.flatMap_eq_nil (fun _ => rfl) fun _ => rfl]
    exact bears_of_carries (h.carries hp) rfl
  | comma => exact bears_of_carries (hp.append passes_comma) rfl
  | leads | ties =>
    have hsame : (Directive.append "").run p = p := append_empty p
    exact bears_of_carries (by rwa [hsame]) rfl
  | verticalSpacing => exact bears_of_carries hp.verticalSpacing rfl
  | @indentedIfSpaced j j' body s _ ih =>
    have hinner : (if p.mode != .inline then p.indentMore else p).Carries cs := by
      split
      · exact hp.congr rfl rfl rfl
      · exact hp
    rw [collidesAll_singleton] at hline
    obtain ⟨cs', hp', htally⟩ := ih hinner hline
    refine ⟨cs', ?_, by rwa [collidesAll_singleton]⟩
    show (p.indentedIf _ (runAll body)).Carries cs'
    unfold Page.indentedIf
    split at hp'
    · next hmode => rw [if_pos hmode]; exact hp'.indentLess
    · next hmode => rw [if_neg hmode]; exact hp'
  | @spaced j j' body s mode _ ih =>
    have hinner : (p.pushMode mode).Carries cs := hp.congr rfl rfl rfl
    rw [collidesAll_singleton] at hline
    obtain ⟨cs', hp', htally⟩ := ih hinner hline
    exact ⟨cs', hp'.congr rfl rfl rfl, by rwa [collidesAll_singleton]⟩
  | @atom form text o h =>
    have hatom : p.waits → '\n' ∉ text.toList := by
      intro hwaits hm
      exact hline (by simp [collides, takesLine, hwaits, hm]) (.atom form text) (by simp) hm
    refine bears_of_carries (carries_atom hp h hatom) ?_
    by_cases hwaits : p.waits
    · simp [collides, takesLine, hatom hwaits]
    · simp [collides, hwaits]
  | leading o h | trailing o h | multiline o h =>
    obtain ⟨cs', hp', htally⟩ := carries_block o hp h
    exact ⟨cs', hp', by simpa [collides, takesLine] using htally⟩

/-! ## Sources -/

/-- The text of a page has the comments that the page has. -/
theorem Page.Carries.text {p : Page} {cs : List (List Char)} (h : p.Carries cs) :
    (Skim.start.through p.text.toList).finish = cs := by
  obtain ⟨hp, hline, hstaged⟩ : p.finished.Carries cs ∧ p.finished.line = [] ∧
      p.finished.staged = [] := by
    unfold Page.finished
    split
    · next hempty => exact ⟨h, by simpa using hempty⟩
    · have := h.newLine.1
      rw [newLine_eq_finishLine] at this
      exact ⟨this, rfl, rfl⟩
  obtain ⟨found, hskims, -, rfl⟩ := hp
  have hupper := hskims.written
  rw [Page.written, hline, List.append_nil] at hupper
  have hjoin : (Skim.start.through (Text.joinLines p.finished.above.reverse)).finish = found := by
    by_cases hn : p.finished.above.reverse = []
    · rw [upper, hn] at hupper
      rw [hn]
      exact congrArg Skim.found hupper
    · have hbreak : ∀ c ∈ ['\n'], Text.isBlank c := by decide
      rw [upper, flatMap_newline hn, Skim.through_append] at hupper
      rw [← Skim.finish_through_blank _ hbreak, hupper]
      rfl
  obtain ⟨tail, hsplit, htail, -⟩ := Text.trimEnd_spec (Text.joinLines p.finished.above.reverse)
  rw [hsplit, Skim.through_append, Skim.finish_through_blank _ htail] at hjoin
  rw [Page.text, String.toList_ofList, Skim.through_append,
    Skim.finish_through_blank _ (by decide), hjoin]
  simp [hstaged]

/-- The comments of a source text, trimmed. -/
def commentsOf (text : String) : List String :=
  ((Stream.ofText text "").tokens.filter fun t => t.kind = .comment).map fun t =>
    String.ofList (Text.trim t.text.toList)

theorem commentsOf_eq {text : String} {gs : List Glyph} (h : Glyph.Scans text.toList gs) :
    commentsOf text = (Glyph.comments gs).map String.ofList := by
  rw [commentsOf, h.tokens_ofText, Glyph.comments]
  generalize Position.start = p
  clear h
  induction gs generalizing p with
  | nil => rfl
  | cons g gs ih =>
    by_cases hg : g.kind = .comment
    · simpa [Glyph.placed, hg] using ih _
    · simpa [Glyph.placed, hg] using ih _

/-- The text of a tree has the comments of the source text, if nothing collides. -/
theorem Goal.comments_format (goal : Goal) (file text : String) (width : Nat) (e : Expr)
    (h : parseAs goal text file = .ok e)
    (hsingle : collidesAll (goal.script e) (.empty width) →
      ∀ t ∈ (Stream.ofText text file).tokens, t.kind.isQuoted → '\n' ∉ t.text.toList) :
    commentsOf (goal.format e width) = commentsOf text ↔
      collidesAll (goal.script e) (.empty width) = false := by
  obtain ⟨gs, hscan⟩ := Glyph.exists_scans text.toList
  obtain ⟨hs, hscan'⟩ := Glyph.exists_scans (goal.format e width).toList
  have hcomments : (goal.spell e).flatMap Symbol.comments = Glyph.comments gs :=
    ((parseAs_spelled h).2.flatMap rfl).trans (hscan.comments_ofSource file)
  obtain ⟨cs, hcs, htally⟩ := (spells_script h).bears (Page.carries_empty width)
    fun hc x hx => (clear_spell hscan h x hx).2 (hscan.oneLine_of_tokens (hsingle hc))
  have hformat : cs = Glyph.comments hs := by
    rw [← hcs.text, ← goal.format_eq]
    exact hscan'.skim []
  rw [hformat, hcomments, List.nil_append] at htally
  rw [commentsOf_eq hscan, commentsOf_eq hscan']
  constructor
  · intro heq
    by_contra hc
    rw [Bool.not_eq_false] at hc
    have hlength := congrArg List.length heq
    rw [hc] at htally
    simp [Tally] at htally hlength
    omega
  · intro hc
    rw [hc] at htally
    have heq : Glyph.comments hs = Glyph.comments gs := by simpa [Tally] using htally
    rw [heq]

/-- Of two comments behind the operands of a sum, the second takes the place of the first. -/
theorem Goal.comments_format_sum :
    let text := "a // first\n+ b // second"
    ∃ e, parseAs .items text "" = .ok e ∧
      (∀ t ∈ (Stream.ofText text "").tokens, t.kind.isQuoted → '\n' ∉ t.text.toList) ∧
      (commentsOf (Goal.items.format e 4) = commentsOf text ↔
        collidesAll (Goal.items.script e) (.empty 4) = false) := by
  intro text
  obtain ⟨e, h⟩ := exists_of_isOk (r := parseAs .items text "") (by decide +kernel)
  have hsingle : ∀ t ∈ (Stream.ofText text "").tokens, t.kind.isQuoted → '\n' ∉ t.text.toList := by
    decide +kernel
  exact ⟨e, h, hsingle, Goal.comments_format .items "" text 4 e h fun _ => hsingle⟩

/-- Of two comments that wait for the same end of a line, only the later one is written. -/
theorem exists_comments_ne :
    ∃ formatted, reformat .items "" 4 "a // first\n+ b // second" = .ok formatted ∧
    commentsOf formatted ≠ commentsOf "a // first\n+ b // second" :=
  ⟨"a + b  // second\n", by decide +kernel, by decide +kernel⟩

end DocExpr
