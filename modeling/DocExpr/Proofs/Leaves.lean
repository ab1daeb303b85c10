import DocExpr.Proofs.Comments.Source
import DocExpr.Proofs.RoundTrip

/-!
# What is written is read

The leaves of a tree that is read from a source text say what the names, literals, comments and
back-ticked lines of the text say, in their order (`Goal.leaves_parse`).
-/

namespace DocExpr

open Lexeme

/-! ## Leaves -/

namespace Expr

/-- What is written in a node itself, each text with the kind of token that it is: a name or a
literal, or the lines of a block. -/
def texts : Expr → List (Kind × String)
  | atom form text _ => [(.atom form, text)]
  | block form lines _ => lines.map (form.line, ·)
  | _ => []

/-- What is written in the leaves of a tree, from left to right. -/
def leaves (e : Expr) : List (Kind × String) := e.preorder.flatMap texts

theorem leaves_eq (e : Expr) : e.leaves = e.texts ++ e.children.flatMap leaves := by
  rw [leaves, preorder_eq, List.flatMap_cons, List.flatMap_assoc]
  rfl

/-- The symbol of a leaf. -/
def leaf : Expr → List Symbol
  | atom form text _ => [.atom form text]
  | block form lines _ => [.block form lines]
  | _ => []

/-- The text of a tree contributes to a list what its leaves do, if marks and operators contribute
nothing. -/
theorem flatMap_spell {β : Type} {f : Symbol → List β}
    (hkind : ∀ k : Kind, k.fault? = none → (∀ form, k ≠ .block form) → f (.kind k) = [])
    (e : Expr) :
    e.spell.flatMap f = (e.preorder.flatMap leaf).flatMap f := by
  have hmark : ∀ m, f (.mark m) = [] := fun m => hkind (.mark m) rfl (by simp)
  have hsuffix : ∀ form : Suffix, form.symbols.flatMap f = [] := by
    intro form
    cases form <;> simp [Suffix.symbols, hmark]
  induction e using inductionOnChildren with
  | node e ih =>
    have hparts : ∀ k : Kind, f (.kind k) = [] → (spellAll (.kind k) e.children).flatMap f =
        ((e.children.flatMap preorder).flatMap leaf).flatMap f := by
      intro k hk
      rw [flatMap_spellAll hk, List.flatMap_assoc, List.flatMap_assoc]
      exact List.flatMap_congr fun c hc => by rw [ih c hc, List.flatMap_assoc]
    rw [preorder_eq, List.flatMap_cons, List.flatMap_append]
    cases e with
    | atom | block => simp [spell, leaf, children]
    | suffixed form item o => simp [spell, leaf, children, hsuffix, ih item (by simp [children])]
    | map item key o =>
      simp [spell, leaf, children, hmark, ih item (by simp [children]), ih key (by simp [children])]
    | call callee arguments o =>
      simp [spell, leaf, children, ih callee (by simp [children]),
        ih arguments (by simp [children])]
    | array elements o =>
      simpa [spell, leaf, children, hmark] using hparts (.mark .comma) (hmark .comma)
    | group items o =>
      simpa [spell, leaf, children, hmark] using hparts (.mark .comma) (hmark .comma)
    | chain op operands o =>
      exact hparts op.kind (hkind _ (by cases op <;> rfl) (by cases op <;> simp [BinaryOp.kind]))
    | unary op operand o =>
      have hop : f (.kind op.kind) = [] :=
        hkind _ (by cases op <;> rfl) (by cases op <;> simp [UnaryOp.kind])
      simp [spell, leaf, children, hop, ih operand (by simp [children])]

/-- The text of a tree has the leaves of the tree written in it. -/
theorem texts_spell (e : Expr) : e.spell.flatMap Symbol.texts = e.leaves := by
  rw [flatMap_spell fun _ _ _ => rfl, List.flatMap_assoc, leaves]
  refine List.flatMap_congr fun n _ => ?_
  cases n <;> simp [leaf, texts, Symbol.texts]

end Expr

/-! ## Sources -/

/-- What the parser sees of a source text can be written again, on one line each if its literals
are. -/
theorem Glyph.Scans.clear_ofSource {text : String} {gs : List Glyph} (h : Scans text.toList gs)
    (file : String) : ∀ t ∈ (Stream.ofSource text file).tokens, t.symbol.Legible ∧
      ((∀ g ∈ gs, g.kind.isQuoted → '\n' ∉ g.text) → t.symbol.OneLine) := by
  refine h.forall_ofSource file (P := fun x => x.Legible ∧
    ((∀ g ∈ gs, g.kind.isQuoted → '\n' ∉ g.text) → x.OneLine)) ?_ ?_ ?_
  · exact ⟨⟨by simp, by simp⟩, fun _ => trivial⟩
  · exact fun form lines hlines => ⟨hlines, fun _ => trivial⟩
  · intro g hg hcomment _
    obtain ⟨heof, hblock, -⟩ := h.kind_ne hg
    have hlexeme : g.kind.isFault = false → Stable g.kind g.text := fun hk => (h.isLexeme hg hk).2
    obtain ⟨gap, k, w⟩ := g
    cases k with
    | atom form =>
      have hstable : Stable (.atom form) w := hlexeme rfl
      refine ⟨by simpa [symbol, Token.symbol, Symbol.Legible] using hstable, fun hlines => ?_⟩
      have hline : '\n' ∉ w := by
        by_cases hquoted : form.isQuoted
        · exact hlines _ hg hquoted
        · exact not_mem_of_not_isQuoted hstable (by simpa using hquoted)
      simpa [symbol, Token.symbol, Symbol.OneLine] using hline
    | block b => exact absurd rfl (hblock b)
    | _ => exact ⟨⟨heof, hcomment⟩, fun _ => trivial⟩

/-- Literals that are on one line as tokens of a text are so as its glyphs. -/
theorem Glyph.Scans.oneLine_of_tokens {text file : String} {gs : List Glyph}
    (hscan : Scans text.toList gs)
    (h : ∀ t ∈ (Stream.ofText text file).tokens, t.kind.isQuoted → '\n' ∉ t.text.toList) :
    ∀ g ∈ gs, g.kind.isQuoted → '\n' ∉ g.text := by
  intro g hg hquoted
  obtain ⟨o, ho⟩ := exists_mem_placed hg file .start
  rw [← hscan.tokens_ofText] at ho
  simpa using h _ ho hquoted

namespace Goal

open DocExpr.Expr

variable {goal : Goal} {text file : String} {e : Expr}

/-- What is read from a source text is an admissible tree, and what the parser sees is a text of
it. -/
theorem parseAs_spelled (h : parseAs goal text file = .ok e) :
    e.Admissible ∧ goal.SpelledBy e ((Stream.ofSource text file).tokens.map Token.symbol) := by
  obtain ⟨gs, hscan⟩ := Glyph.exists_scans text.toList
  rw [parseAs_eq] at h
  exact goal.parse_sound (fun t ht => (hscan.kind_ofSource file t ht).1) h

/-- What is read from a source text can be written again. -/
theorem clear_spell {gs : List Glyph} (hscan : Glyph.Scans text.toList gs)
    (h : parseAs goal text file = .ok e) :
    ∀ x ∈ goal.spell e, x.Legible ∧ ((∀ g ∈ gs, g.kind.isQuoted → '\n' ∉ g.text) → x.OneLine) := by
  intro x hx
  obtain ⟨t, ht, rfl⟩ := List.mem_map.1 ((parseAs_spelled h).2.subset hx)
  exact hscan.clear_ofSource file t ht

theorem texts_spell {goal : Goal} {e : Expr} {s : List Symbol} (h : goal.SpelledBy e s) :
    (goal.spell e).flatMap Symbol.texts = e.leaves := by
  cases goal with
  | expression => exact e.texts_spell
  | items =>
    have hitems : e.items.flatMap leaves = e.leaves := by
      cases e with
      | group items o => rw [leaves_eq]; rfl
      | _ => exact List.flatMap_singleton ..
    rw [spell, flatMap_spellAll rfl, ← hitems]
    exact List.flatMap_congr fun f _ => f.texts_spell

/-- The leaves of a tree that is read are the names, the literals, the comments and the back-ticked
lines of its source text, in their order: names and literals with their exact texts, comments and
lines without the blanks around them. -/
theorem leaves_parse (goal : Goal) (text file : String) (e : Expr)
    (h : parseAs goal text file = .ok e) :
    e.leaves = (Stream.ofText text file).tokens.flatMap Token.texts := by
  obtain ⟨gs, hscan⟩ := Glyph.exists_scans text.toList
  obtain ⟨-, hspelled⟩ := parseAs_spelled h
  rw [← hscan.texts_ofSource file, ← hspelled.flatMap rfl, texts_spell hspelled]

/-- A comment that changes places with a comma, and lines that become one string, are read in the
order in which they are written. -/
theorem leaves_parse_documented :
    let text := "a: 1, // one \n// above\nb: (\n  `x \n  `y\n)"
    ∃ e, parseAs .items text "" = .ok e ∧
      e.leaves = (Stream.ofText text "").tokens.flatMap Token.texts ∧
      e.leaves.map Prod.snd = ["a", "1", "// one", "// above", "b", "`x", "`y"] := by
  intro text
  obtain ⟨e, h⟩ := exists_of_isOk (r := parseAs .items text "") (by decide +kernel)
  have hleaves := leaves_parse .items text "" e h
  exact ⟨e, h, hleaves, hleaves ▸ by decide +kernel⟩

end Goal

end DocExpr
