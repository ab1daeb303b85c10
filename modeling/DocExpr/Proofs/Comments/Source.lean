import DocExpr.Proofs.Comments.Skim
import DocExpr.Proofs.Grammar.Canonical
import DocExpr.Proofs.Lexing.TickedLines
import DocExpr.Proofs.Stream.Layers

/-!
# What is written in a source

Between a source text and the parser, comments become documentation, which may change places with a
comma, and back-ticked lines become strings. No text of a name, a literal, a comment or a line is
lost or changes places with another (`Glyph.Scans.texts_ofSource`, for comments alone
`Glyph.Scans.comments_ofSource`). What is said of the glyphs of a source text and of blocks is said
of all that the parser sees (`Glyph.Scans.forall_ofSource`).
-/

namespace DocExpr

open Lexeme

/-- The lines of a symbol that is documentation. -/
def Symbol.comments : Symbol → List (List Char)
  | .block .leading lines | .block .trailing lines => lines.map String.toList
  | _ => []

@[simp] theorem Symbol.comments_kind (k : Kind) : (kind k).comments = [] := rfl

@[simp] theorem Symbol.comments_atom (form : Atom) (text : String) :
    (atom form text).comments = [] :=
  rfl

/-- Whether a line is a lexeme of a kind, without blanks around it. -/
def Kind.HasLine (k : Kind) (line : String) : Prop := Stable k line.toList ∧ Solid line.toList

/-- The kind of the lines of a block. -/
def Block.line : Block → Kind
  | .multiline => .tickedLine
  | .leading | .trailing => .comment

/-- What is written in a symbol, each text with the kind of token that it is: a name or a literal,
or the lines of a block. -/
def Symbol.texts : Symbol → List (Kind × String)
  | .atom form text => [(.atom form, text)]
  | .block form lines => lines.map (form.line, ·)
  | .kind _ => []

/-- What is written in a token: a comment or a back-ticked line without blanks around it, and in any
other token what the grammar sees of it. -/
def Token.texts (t : Token) : List (Kind × String) :=
  if t.kind = .comment ∨ t.kind = .tickedLine then
    [(t.kind, String.ofList (Text.trim t.text.toList))]
  else t.symbol.texts

theorem Symbol.comments_eq_filter (x : Symbol) : x.comments =
    (x.texts.filter fun text => text.1 = .comment).map fun text => text.2.toList := by
  rcases x with _ | ⟨form, lines⟩ | _
  · rfl
  · cases form <;> simp [comments, texts, Block.line, List.filter_map, Function.comp_def]
  · rfl

/-- Whether a symbol can be written such that it is found again. -/
def Symbol.Legible : Symbol → Prop
  | .atom form text => Stable (.atom form) text.toList
  | .block form lines => lines ≠ [] ∧ ∀ line ∈ lines, form.line.HasLine line
  | .kind k => k ≠ .eof ∧ k ≠ .comment

namespace Glyph

/-- A comment or a back-ticked line is one visible line. -/
theorem visibleLines_of_stable {k : Kind} {text : List Char} (hk : k = .comment ∨ k = .tickedLine)
    (h : Stable k text) :
    Text.visibleLines (String.ofList text) = [String.ofList (Text.trim text)] ∧
      k.HasLine (String.ofList (Text.trim text)) := by
  have hline : Stable k (Text.trim text) ∧ Solid (Text.trim text) := by
    rcases hk with rfl | rfl
    · exact trim_comment h
    · exact trim_tickedLine h
  have hbreak : '\n' ∉ text := by
    rcases hk with rfl | rfl
    · exact not_mem_of_comment h
    · exact not_mem_of_tickedLine h
  refine ⟨?_, by simpa [Kind.HasLine] using hline⟩
  rw [Text.visibleLines_of_not_mem (by simpa using hbreak) (by simpa using hline.2.1),
    String.toList_ofList]

variable {text : String} {gs : List Glyph}

/-- A comment or a back-ticked line of a source text is one visible line. -/
theorem Scans.lines_ofText (h : Scans text.toList gs) (file : String) :
    ∀ t ∈ (Stream.ofText text file).tokens, t.kind = .comment ∨ t.kind = .tickedLine →
      t.lines = [String.ofList (Text.trim t.text.toList)] := by
  rw [h.tokens_ofText file]
  intro t ht hk
  obtain ⟨g, hg, o, rfl⟩ := mem_placed ht
  have hfault : g.kind.isFault = false := by
    rcases hk with hk | hk <;> simp_all [Kind.isFault, Kind.fault?]
  simpa [Token.lines] using (visibleLines_of_stable hk (h.isLexeme hg hfault).2).1

/-- What the parser sees of a source text contributes to a list what the tokens of the text do, if a
block contributes what its lines do. -/
theorem Scans.flatMap_ofSource {β : Type} (h : Scans text.toList gs) (file : String)
    {f : Token → List β} (hdocument : ∀ o, f (.document o) = [])
    (hseparator : ∀ t, Documentation.isSeparator t → f t = [])
    (htrailing : ∀ t : Token, t.kind = .block .leading →
      f { t with kind := .block .trailing } = f t)
    (hrun : ∀ form run text o o', f ⟨.block form, run ++ "\n" ++ text, o⟩ =
      f ⟨.block form, run, o⟩ ++ f ⟨.block form, text, o'⟩)
    (hline : ∀ form text o o', Text.visibleLines text = [String.ofList (Text.trim text.toList)] →
      f ⟨.block form, text, o⟩ = f ⟨form.line, text, o'⟩) :
    (Stream.ofSource text file).tokens.flatMap f = (Stream.ofText text file).tokens.flatMap f := by
  have hlines := h.lines_ofText file
  -- documentation leaves back-ticked lines alone, so these are still single lines
  have hticked : ∀ t ∈ (Stream.ofText text file).attachDocumentation.tokens, t.kind = .tickedLine →
      t.lines = [String.ofList (Text.trim t.text.toList)] :=
    Stream.forall_attachDocumentation_of_text (Q := fun _ => True) (by simp) (by simp_all) (by simp)
      (fun t ht _ hk => hlines t ht (.inr hk)) (by simp)
  have hsource : Stream.ofSource text file =
      (Stream.ofText text file).attachDocumentation.mergeStrings :=
    rfl
  rw [hsource, Stream.flatMap_mergeStrings (hrun .multiline), Stream.flatMap_attachDocumentation
    hdocument (fun held t h _ => by simp [hseparator held h]) htrailing (hrun .leading)]
  · rintro ⟨k, w, o⟩ ht rfl o'
    exact hline .leading w o' o (hlines _ ht (.inl rfl))
  · rintro ⟨k, w, o⟩ ht rfl o'
    exact hline .multiline w o' o (hticked _ ht rfl)

/-- What is said of the symbols that the parser sees of a source text, if it is said of
documentation, of blocks and of all glyphs that are not merged to blocks. -/
theorem Scans.forall_ofSource (h : Scans text.toList gs) (file : String) {P : Symbol → Prop}
    (hdocument : P (.kind .document))
    (hblock : ∀ form lines, (Symbol.block form lines).Legible → P (.block form lines))
    (hglyph : ∀ g ∈ gs, g.kind ≠ .comment → g.kind ≠ .tickedLine → P g.symbol) :
    ∀ t ∈ (Stream.ofSource text file).tokens, P t.symbol := by
  have hlexeme : ∀ g ∈ gs, ∀ k, g.kind = k → k.isFault = false → Stable k g.text := by
    rintro g hg k rfl hk
    exact (h.isLexeme hg hk).2
  -- back-ticked lines are merged behind documentation, so what is said of them is carried along
  have hattached : ∀ t ∈ (Stream.ofText text file).attachDocumentation.tokens,
      ((t.kind ≠ .tickedLine → P t.symbol) ∧
        ∀ lines, t.symbol = .block .leading lines → (Symbol.block .leading lines).Legible) ∧
      (t.kind = .tickedLine → ∃ line, t.lines = [line] ∧ Kind.tickedLine.HasLine line) := by
    refine Stream.forall_attachDocumentation (Q := Kind.comment.HasLine) ?_ ?_ ?_ ?_ ?_
    · exact fun o => ⟨⟨fun _ => hdocument, by simp [Token.document, Token.symbol]⟩, by simp⟩
    · rintro ⟨k, w, o⟩ rfl hn hlines
      refine ⟨⟨fun _ => hblock _ _ ⟨hn, hlines⟩, fun lines heq => ?_⟩, by simp⟩
      rw [← heq]
      exact ⟨hn, hlines⟩
    · rintro ⟨k, w, o⟩ rfl ⟨⟨-, hlegible⟩, -⟩
      exact ⟨⟨fun _ => hblock _ _ (hlegible _ rfl), by simp [Token.symbol]⟩, by simp⟩
    all_goals
      rw [h.tokens_ofText file]
      intro t ht hk
      obtain ⟨g, hg, o, rfl⟩ := mem_placed ht
    · obtain ⟨-, hkind, -⟩ := h.kind_ne hg
      refine ⟨⟨fun hline => ?_, fun lines heq => ?_⟩, fun hline => ?_⟩
      · rw [symbol_eq _ _ _ .synthetic]
        exact hglyph g hg hk hline
      · exact absurd (Token.symbol_eq_block.1 heq).1 (hkind _)
      · exact ⟨_, visibleLines_of_stable (.inr rfl) (hlexeme g hg _ hline rfl)⟩
    · exact ⟨_, visibleLines_of_stable (.inl rfl) (hlexeme g hg _ hk rfl)⟩
  rw [Stream.tokens, List.forall_mem_map] at hattached
  rw [Stream.tokens, List.forall_mem_map]
  refine Runs.forall_merge (P := fun t => P t.symbol) (Q := Kind.tickedLine.HasLine) ?_
    (fun r hr hk => (hattached r hr).1.1 hk) (fun r hr hk => (hattached r hr).2 hk)
  rintro ⟨k, w, o⟩ rfl hn hlines
  exact hblock _ _ ⟨hn, hlines⟩

/-- The parser sees no lines of comments and strings outside blocks, and no end of the input before
the end. -/
theorem Scans.kind_ofSource (h : Scans text.toList gs) (file : String) :
    ∀ t ∈ (Stream.ofSource text file).tokens,
      t.kind ≠ .eof ∧ t.kind ≠ .comment ∧ t.kind ≠ .tickedLine := by
  have symbol_ne : ∀ t : Token, (t.symbol ≠ .kind .eof ∧ t.symbol ≠ .kind .comment ∧
      t.symbol ≠ .kind .tickedLine) ↔ t.kind ≠ .eof ∧ t.kind ≠ .comment ∧ t.kind ≠ .tickedLine := by
    intro t
    simp only [Ne, Token.symbol_eq_kind (k := .eof) (by simp) (by simp),
      Token.symbol_eq_kind (k := .comment) (by simp) (by simp),
      Token.symbol_eq_kind (k := .tickedLine) (by simp) (by simp)]
  intro t ht
  rw [← symbol_ne]
  refine h.forall_ofSource file (P := fun x => x ≠ .kind .eof ∧ x ≠ .kind .comment ∧
    x ≠ .kind .tickedLine) (by simp) (by simp) (fun g hg hcomment hline => ?_) t ht
  exact (symbol_ne _).2 ⟨(h.kind_ne hg).1, hcomment, hline⟩

/-- The parser sees what the tokens of the source text say, each text once and in their order. -/
theorem Scans.texts_ofSource (h : Scans text.toList gs) (file : String) :
    ((Stream.ofSource text file).tokens.map Token.symbol).flatMap Symbol.texts =
      (Stream.ofText text file).tokens.flatMap Token.texts := by
  rw [List.flatMap_map]
  refine (List.flatMap_congr fun t ht => ?_).trans (h.flatMap_ofSource file ?_ ?_ ?_ ?_ ?_)
  · obtain ⟨-, hcomment, hline⟩ := h.kind_ofSource file t ht
    rw [Token.texts, if_neg (by simp [hcomment, hline])]
  · exact fun o => rfl
  · rintro ⟨k, w, o⟩ ht
    rcases Bool.or_eq_true_iff.1 ht with hk | hk <;> obtain rfl := eq_of_beq hk <;> rfl
  · rintro ⟨k, w, o⟩ rfl
    rfl
  · intro form run text o o'
    simp [Token.texts, Token.symbol, Symbol.texts, Token.lines, Text.visibleLines_append]
  · intro form text o o' hone
    have hlines : ∀ o, (⟨.block form, text, o⟩ : Token).lines =
        [String.ofList (Text.trim text.toList)] :=
      fun _ => hone
    cases form <;> simp [Token.texts, Token.symbol, Symbol.texts, Block.line, hlines]

/-- The documentation that the parser sees is the comments of the source text, in their order. -/
theorem Scans.comments_ofSource (h : Scans text.toList gs) (file : String) :
    ((Stream.ofSource text file).tokens.map Token.symbol).flatMap Symbol.comments =
      comments gs := by
  have hblock : ∀ g ∈ gs, ∀ b, g.kind ≠ .block b := fun g hg => (h.kind_ne hg).2.1
  have hfilter : ∀ xs : List Symbol, xs.flatMap Symbol.comments =
      ((xs.flatMap Symbol.texts).filter fun text => text.1 = .comment).map fun text =>
        text.2.toList := by
    intro xs
    rw [List.filter_flatMap, List.map_flatMap]
    exact List.flatMap_congr fun x _ => x.comments_eq_filter
  rw [hfilter, h.texts_ofSource file, h.tokens_ofText file]
  clear h
  generalize Position.start = p
  induction gs generalizing p with
  | nil => rfl
  | cons g gs ih =>
    obtain ⟨hg, hgs⟩ := List.forall_mem_cons.1 hblock
    obtain ⟨gap, k, w⟩ := g
    rw [placed, List.flatMap_cons, List.filter_append, List.map_append, ih hgs, comments_cons]
    cases k with
    | block b => exact absurd rfl (hg b)
    | _ => simp [Token.texts, Token.symbol, Symbol.texts]

end Glyph

end DocExpr
