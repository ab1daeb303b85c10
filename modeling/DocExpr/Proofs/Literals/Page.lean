import DocExpr.Proofs.Layout.Noted
import DocExpr.Proofs.Lexing.Quoted

/-!
# Names and literals on a page

A name or a literal is written as it is, but the lines of a literal behind its first are written at
the indentation of the page (`Page.relaid`). What is written so is a literal again, of the same
kind, if no documentation is staged where it breaks its line (`Page.Prints.atom`). It is the same
literal if its lines are at that indentation already (`Page.relaid_eq_iff`).
-/

namespace DocExpr

open Lexeme

namespace Page

open Glyph

/-- The lines of a text at an indentation. -/
def below (n : Nat) (text : List Char) : List Char :=
  Text.joinLines ((Text.splitLines text).map fun line => blanks n ++ Text.trimStart line)

/-- A text with the lines behind its first at an indentation. -/
def relaid (n : Nat) (text : List Char) : List Char :=
  match Text.splitLines text with
  | [] => []
  | first :: others =>
    Text.joinLines (first :: others.map fun line => blanks n ++ Text.trimStart line)

/-- Whether the lines of a text behind its first start with the indentation of a page. -/
def keepsLines (p : Page) (text : String) : Bool :=
  (Text.splitLines text.toList).tail.all fun line => line.takeWhile Text.isBlank = blanks p.indent

variable {p : Page} {gs : List Glyph} {gap w text piece rest : List Char} {n : Nat}

theorem below_of_not_mem (h : '\n' ∉ text) : below n text = blanks n ++ Text.trimStart text := by
  rw [below, Text.splitLines_of_not_mem h]
  rfl

theorem below_newline (h : '\n' ∉ piece) :
    below n (piece ++ '\n' :: rest) = blanks n ++ Text.trimStart piece ++ '\n' :: below n rest := by
  have hn : (Text.splitLines rest).map (fun line => blanks n ++ Text.trimStart line) ≠ [] := by
    simpa using Text.splitLines_ne_nil rest
  rw [below, Text.splitLines_append_newline h, List.map_cons, Text.joinLines_cons hn, below]

theorem relaid_of_not_mem (h : '\n' ∉ text) : relaid n text = text := by
  rw [relaid, Text.splitLines_of_not_mem h]
  rfl

theorem relaid_newline (h : '\n' ∉ piece) :
    relaid n (piece ++ '\n' :: rest) = piece ++ '\n' :: below n rest := by
  have hn : (Text.splitLines rest).map (fun line => blanks n ++ Text.trimStart line) ≠ [] := by
    simpa using Text.splitLines_ne_nil rest
  rw [relaid, Text.splitLines_append_newline h]
  exact Text.joinLines_cons hn

theorem relaid_cons {c : Char} (hc : c ≠ '\n') : relaid n (c :: w) = c :: relaid n w := by
  by_cases hw : '\n' ∈ w
  · obtain ⟨piece, rest, rfl, hpiece⟩ := List.eq_append_cons_of_mem hw
    have hpiece' : '\n' ∉ c :: piece := by simp [hpiece, Ne.symm hc]
    rw [relaid_newline hpiece, ← List.cons_append, relaid_newline hpiece', List.cons_append]
  · have hw' : '\n' ∉ c :: w := by simp [hw, Ne.symm hc]
    rw [relaid_of_not_mem hw, relaid_of_not_mem hw']

/-- A text is left as it is exactly if its lines behind the first are at the indentation already. -/
theorem relaid_eq_iff {text : String} : relaid p.indent text.toList = text.toList ↔
    p.keepsLines text := by
  have hline : ∀ line, blanks p.indent ++ Text.trimStart line = line ↔
      line.takeWhile Text.isBlank = blanks p.indent := by
    intro line
    conv_lhs => rhs; rw [← Text.takeWhile_append_trimStart line]
    rw [List.append_left_inj, eq_comm]
  have hbreak := Text.not_mem_of_mem_splitLines text.toList
  obtain ⟨first, others, hlines⟩ := List.exists_cons_of_ne_nil (Text.splitLines_ne_nil text.toList)
  rw [hlines] at hbreak
  obtain ⟨hfirst, hothers⟩ := List.forall_mem_cons.1 hbreak
  have hadded : ∀ line ∈ first :: others.map fun line => blanks p.indent ++ Text.trimStart line,
      '\n' ∉ line := by
    refine List.forall_mem_cons.2 ⟨hfirst, List.forall_mem_map.2 fun line hl hm => ?_⟩
    rcases List.mem_append.1 hm with hm | hm
    · exact absurd (List.eq_of_mem_replicate hm) (by decide)
    · exact hothers line hl ((List.dropWhile_suffix _).subset hm)
  have hjoin : text.toList = Text.joinLines (first :: others) := by
    rw [← hlines, Text.joinLines_splitLines]
  have hinj : ∀ lines, (∀ line ∈ first :: lines, '\n' ∉ line) →
      (Text.joinLines (first :: lines) = Text.joinLines (first :: others) ↔ lines = others) := by
    refine fun lines h => ⟨fun heq => ?_, fun heq => heq ▸ rfl⟩
    have hsplit := congrArg Text.splitLines heq
    rw [Text.splitLines_joinLines (by simp) h, Text.splitLines_joinLines (by simp) hbreak] at hsplit
    exact (List.cons.inj hsplit).2
  rw [relaid, keepsLines, hlines]
  show Text.joinLines _ = _ ↔ _
  rw [hjoin, hinj _ hadded]
  conv_lhs => rhs; rw [← List.map_id others]
  rw [List.map_inj_left]
  simp only [List.tail_cons, List.all_eq_true, decide_eq_true_eq]
  exact forall₂_congr fun line _ => hline line

/-! ## Bodies of literals -/

/-- The lines of a body at an indentation are a body. -/
theorem body_below {quote : Char} (hquote : quote = '\x22' ∨ quote = '\x27') (n : Nat)
    (h : Body quote w) :
    Body quote (below n w) := by
  have hblank := isBlank_of_isQuote hquote
  have hindent : Within quote (blanks n) := by
    refine within_of_forall fun c hc => ?_
    rw [List.eq_of_mem_replicate hc]
    rcases hquote with rfl | rfl <;> decide
  have htrim : ∀ {piece rest}, Body quote (piece ++ rest) →
      Body quote (blanks n ++ Text.trimStart piece ++ rest) := by
    intro piece rest h
    rw [← Text.takeWhile_append_trimStart piece, List.append_assoc] at h
    rw [List.append_assoc]
    exact hindent.body (h.drop_blanks hblank (List.all_eq_true.1 List.all_takeWhile)).1
  induction hn : w.length using Nat.strongRecOn generalizing w with
  | ind length ih =>
    by_cases hm : '\n' ∈ w
    · obtain ⟨piece, rest, rfl, hpiece⟩ := List.eq_append_cons_of_mem hm
      obtain ⟨hrest, front, rfl, hfront⟩ :=
        h.split (by rcases hquote with rfl | rfl <;> decide) hpiece
      have hbelow := ih rest.length (by simp [← hn]; omega) hrest rfl
      rw [below_newline hpiece]
      refine htrim ?_
      simpa using hfront.body (.escape '\n' hbelow)
    · rw [below_of_not_mem hm, ← List.append_nil (_ ++ _)]
      exact htrim (by simpa using h)

theorem body_relaid {quote : Char} (hquote : quote = '\x22' ∨ quote = '\x27') (n : Nat)
    (h : Body quote w) :
    Body quote (relaid n w) := by
  by_cases hm : '\n' ∈ w
  · obtain ⟨piece, rest, rfl, hpiece⟩ := List.eq_append_cons_of_mem hm
    obtain ⟨hrest, front, rfl, hfront⟩ :=
      h.split (by rcases hquote with rfl | rfl <;> decide) hpiece
    rw [relaid_newline hpiece]
    simpa using hfront.body (.escape '\n' (body_below hquote n hrest))
  · rwa [relaid_of_not_mem hm]

/-! ## Writing a literal -/

/-- The lines of the rest of a literal are written at the indentation of the page. -/
theorem written_appendPieces {quote : Char} (hquote : quote = '\x22' ∨ quote = '\x27')
    (h : Body quote w) (hnone : p.staged = []) (hline : p.line = []) :
    (appendPieces (Text.splitLines w) p).staged = [] ∧
    '\n' ∉ (appendPieces (Text.splitLines w) p).line ∧
      (appendPieces (Text.splitLines w) p).written = p.written ++ below p.indent w := by
  induction hn : w.length using Nat.strongRecOn generalizing w p with
  | ind length ih =>
    by_cases hm : '\n' ∈ w
    · obtain ⟨piece, rest, rfl, hpiece⟩ := List.eq_append_cons_of_mem hm
      obtain ⟨hrest, front, rfl, -⟩ := h.split (by rcases hquote with rfl | rfl <;> decide) hpiece
      obtain ⟨hvisible, htrim⟩ := p.trimEnd_addToLine (front ++ ['\\']) ⟨'\\', by simp, by decide⟩
      rw [Text.splitLines_append_newline hpiece,
        appendPieces_cons _ _ (Text.splitLines_ne_nil rest)]
      obtain ⟨hstaged, hbreak, hwritten⟩ := ih rest.length (by simp [← hn]; omega) hrest
        (p := (p.addToLine (front ++ ['\\'])).finishLine) rfl rfl rfl
      have hindent : (p.addToLine (front ++ ['\\'])).finishLine.indent = p.indent :=
        p.indent_addToLine _
      refine ⟨hstaged, hbreak, ?_⟩
      rw [hwritten, hindent, written_finishLine (by simp [hnone]), htrim, below_newline hpiece,
        Page.written, hline, upper_addToLine, line_addToLine_of_nil hline hvisible]
      simp
    · obtain ⟨hvisible, -⟩ := p.trimEnd_addToLine _ ⟨quote, h.getLast?, isBlank_of_isQuote hquote⟩
      rw [Text.splitLines_of_not_mem hm, appendPieces, Page.written, upper_addToLine,
        line_addToLine_of_nil hline hvisible, below_of_not_mem hm, Page.written, hline,
        List.append_nil]
      refine ⟨by simp [hnone], fun hmem => ?_, rfl⟩
      rcases List.mem_append.1 hmem with hmem | hmem
      · exact absurd (List.eq_of_mem_replicate hmem) (by decide)
      · exact hm ((List.dropWhile_suffix _).subset hmem)

/-- Writing the rest of a literal behind its opening quote. -/
theorem Lays.appendPieces {quote : Char} (hquote : quote = '\x22' ∨ quote = '\x27')
    (hw : Body quote w) {g : Glyph} (h : p.Lays (gs ++ [g]) []) (hnone : p.staged = [])
    (hsolid : Solid (g.text ++ relaid p.indent w)) :
    (appendPieces (Text.splitLines w) p).staged = [] ∧ (appendPieces (Text.splitLines w) p).Lays
      (gs ++ [⟨g.gap, g.kind, g.text ++ relaid p.indent w⟩]) [] := by
  have hline : p.line ≠ [] := h.line_ne_nil (by simp)
  obtain ⟨hstaged, hbreak, hwritten⟩ : (Page.appendPieces (Text.splitLines w) p).staged = [] ∧
      '\n' ∉ (Page.appendPieces (Text.splitLines w) p).line ∧
      (Page.appendPieces (Text.splitLines w) p).written = p.written ++ relaid p.indent w := by
    by_cases hm : '\n' ∈ w
    · obtain ⟨piece, rest, rfl, hpiece⟩ := List.eq_append_cons_of_mem hm
      obtain ⟨hrest, front, rfl, -⟩ := hw.split (by rcases hquote with rfl | rfl <;> decide) hpiece
      obtain ⟨-, htrim⟩ := p.trimEnd_addToLine (front ++ ['\\']) ⟨'\\', by simp, by decide⟩
      rw [Text.splitLines_append_newline hpiece,
        appendPieces_cons _ _ (Text.splitLines_ne_nil rest)]
      obtain ⟨hstaged, hbreak, hwritten⟩ := written_appendPieces hquote hrest
        (p := (p.addToLine (front ++ ['\\'])).finishLine) rfl rfl
      have hindent : (p.addToLine (front ++ ['\\'])).finishLine.indent = p.indent :=
        p.indent_addToLine _
      refine ⟨hstaged, hbreak, ?_⟩
      rw [hwritten, hindent, written_finishLine (by simp [hnone]), htrim, relaid_newline hpiece,
        Page.written, upper_addToLine, line_addToLine hline]
      simp
    · rw [Text.splitLines_of_not_mem hm, Page.appendPieces, Page.written, upper_addToLine,
        line_addToLine hline, relaid_of_not_mem hm]
      exact ⟨by simp [hnone], by simp [h.line, hm], by simp [Page.written]⟩
  refine ⟨hstaged, ⟨?_, by simp, ?_, hbreak⟩⟩
  · rw [hwritten, h.written]
    simp
  · refine List.forall_mem_append.2
      ⟨fun f hf => h.solid f (by simp [hf]), List.forall_mem_singleton.2 hsolid⟩

/-- Writing a name or a literal adds it to what is written, with its lines at the indentation of the
page. -/
theorem Prints.atom (h : p.Prints gs gap) {form : Atom} {text : String}
    (hstable : Stable (.atom form) text.toList) (hwaits : p.staged ≠ [] → '\n' ∉ text.toList)
    (htouch : gap = [] → ∀ g ∈ gs.getLast?, ∀ w, w.head? = text.toList.head? →
      Near g ⟨[], .atom form, w⟩) :
    ∃ gap', (p.append text).Prints
      (gs ++ [⟨gap', .atom form, relaid p.indent text.toList⟩]) [] := by
  by_cases hm : '\n' ∈ text.toList
  · obtain ⟨rfl, w, htext, hbody⟩ := hstable.string_of_mem hm
    have hnone : p.staged = [] := by
      by_contra hn
      exact hwaits hn hm
    have hstable' : Stable (.atom .string) (relaid p.indent text.toList) := by
      rw [htext, relaid_cons (by decide)]
      exact (body_relaid (.inl rfl) _ hbody).stable
    have hopening : "\x22".toList = [] ++ ['\x22'] ++ [] := rfl
    obtain ⟨hstaged, -, between, hbetween, htight, hlays⟩ :=
      h.toLays.append (.atom .string) hopening
        ⟨by simp, by decide, by decide⟩ (by decide) (by simp) (by simp)
    have hquote : p.append "\x22" = p.addToLine ['\x22'] := append_of_not_mem (by decide)
    rw [hquote] at hstaged hlays
    have hrelaid : '\x22' :: relaid (p.addToLine ['\x22']).indent w =
        relaid p.indent text.toList := by
      rw [htext, relaid_cons (by decide), indent_addToLine]
    obtain ⟨hnone', hlays'⟩ := Lays.appendPieces (.inl rfl) hbody hlays (hstaged.trans hnone) (by
      rw [List.singleton_append, hrelaid]
      exact solid_atom hstable')
    rw [← p.append_quote htext (.inl rfl), List.singleton_append, hrelaid] at hlays'
    refine ⟨gap ++ between, hlays', ?_, ?_, ?_, ?_⟩
    · rw [p.append_quote htext (.inl rfl), hnone']
      simp
    · refine List.forall_mem_append.2
        ⟨h.lexeme, List.forall_mem_singleton.2 (isLexeme_of_gap ?_ hstable')⟩
      exact List.forall_mem_append.2 ⟨h.blank, fun c hc => .inl (hbetween c hc)⟩
    · refine h.near_concat htight fun hgap g hg => htouch hgap g hg _ ?_
      rw [htext, relaid_cons (by decide)]
      rfl
    · intro g hg c hc
      obtain rfl : ⟨gap ++ between, .atom .string, relaid p.indent text.toList⟩ = g := by
        simpa using hg
      obtain rfl : ' ' = c := by simpa using hc
      exact Kind.extendedBy_blank (by simp) (by simp)
  · rw [relaid_of_not_mem hm]
    have hwhole : text.toList = [] ++ text.toList ++ [] := by simp
    obtain ⟨-, -, gap', -, hp⟩ :=
      h.append hwhole hstable (solid_atom hstable) hm (by simp) (by simp) (by simp)
      fun hgap g hg => htouch hgap g hg _ rfl
    exact ⟨gap', hp⟩

end Page

end DocExpr
