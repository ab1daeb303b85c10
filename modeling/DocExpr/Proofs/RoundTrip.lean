import DocExpr.Format
import DocExpr.Proofs.Grammar.Agreement
import DocExpr.Proofs.Layout.Writer
import DocExpr.Proofs.Lexing.Glued

/-!
# What is formatted is read as the tree that it was formatted from

A source text is *plain* if it has no comments and no literals with line breaks (`Token.Plain`).
What is written for its tree is a list of glyphs again, with the symbols of the canonical text of
the tree (`Goal.format_glyphs`). Where no question mark is directly before a colon, these are also
the glyphs that are read from it, so the tree comes back (`Goal.parse_format`).
-/

namespace DocExpr

/-- Whether a token of a kind is a literal between quotes that stands for an expression. -/
def Kind.isQuoted : Kind → Bool
  | atom a => a.isQuoted
  | _ => false

/-- Whether a token is no comment and no literal with a line break in it. -/
def Token.Plain (t : Token) : Prop :=
  t.kind ≠ .comment ∧ (t.kind.isQuoted → '\n' ∉ t.text.toList)

instance : DecidablePred Token.Plain := fun _ => inferInstanceAs (Decidable (_ ∧ _))

namespace Glyph

open Lexeme

/-- Whether a glyph is no comment and no literal with a line break in it. -/
def Plain (g : Glyph) : Prop := g.kind ≠ .comment ∧ (g.kind.isQuoted → '\n' ∉ g.text)

theorem forall_placed {file : String} {p : Position} {gs : List Glyph} :
    (∀ t ∈ placed file p gs, t.Plain) ↔ ∀ g ∈ gs, g.Plain := by
  constructor
  · intro h g hg
    obtain ⟨o, ho⟩ := exists_mem_placed hg file p
    simpa [Token.Plain, Plain] using h _ ho
  · intro h t ht
    obtain ⟨g, hg, o, rfl⟩ := mem_placed ht
    simpa [Token.Plain, Plain] using h g hg

/-- The names and literals among the symbols of glyphs are glyphs. -/
theorem exists_of_atom_mem {gs : List Glyph} {run : Option String} {form : Atom} {text : String}
    (h : .atom form text ∈ symbols run gs) :
    ∃ g ∈ gs, g.kind = .atom form ∧ g.text = text.toList := by
  have of_symbol : ∀ g : Glyph, g.symbol = .atom form text → g.kind = .atom form ∧
      g.text = text.toList := by
    rintro ⟨gap, k, w⟩ hg
    cases k <;> simp_all [symbol, Token.symbol]
    simp [← hg.2]
  induction gs generalizing run with
  | nil => cases run <;> simp [symbols, blockSymbol] at h
  | cons g gs ih =>
    have hrest : ∀ {run'}, .atom form text ∈ symbols run' gs →
        ∃ g' ∈ g :: gs, g'.kind = .atom form ∧ g'.text = text.toList := by
      intro run' hm
      obtain ⟨g', hg', hatom⟩ := ih hm
      exact ⟨g', List.mem_cons_of_mem _ hg', hatom⟩
    cases run with
    | none =>
      rw [symbols] at h
      split at h
      · exact hrest h
      · rcases List.mem_cons.1 h with hg | h
        · exact ⟨g, List.mem_cons_self, of_symbol g hg.symm⟩
        · exact hrest h
    | some run =>
      rw [symbols] at h
      split at h
      · split at h
        · exact hrest h
        · exact hrest (by simpa [blockSymbol] using h)
      · simp only [List.mem_cons, blockSymbol, reduceCtorEq, false_or] at h
        rcases h with hg | h
        · exact ⟨g, List.mem_cons_self, of_symbol g hg.symm⟩
        · exact hrest h

/-- A glyph that is no back-ticked line has its symbol among those of the glyphs. -/
theorem symbol_mem_symbols {gs : List Glyph} {g : Glyph} (hg : g ∈ gs)
    (hline : g.kind ≠ .tickedLine) (run : Option String) : g.symbol ∈ symbols run gs := by
  obtain ⟨before, behind, rfl⟩ := List.append_of_mem hg
  rw [symbols_append_cons hline]
  simp

/-- The symbols of plain glyphs of a text can be written again, on one line each. -/
theorem Scans.printable {cs : List Char} {gs : List Glyph} (h : Scans cs gs)
    (hgs : ∀ g ∈ gs, g.Plain) :
    ∀ x ∈ symbols none gs, x.Printable ∧ x.OneLine := by
  have hcode : ∀ g ∈ gs, g.IsCode := fun g hg =>
    ⟨fun hk => (h.isLexeme hg hk).2, (h.kind_ne hg).2.2, (h.kind_ne hg).1, (hgs g hg).1,
      (h.kind_ne hg).2.1⟩
  intro x hx
  refine ⟨printable_symbols hcode (by simp) x hx, ?_⟩
  cases x with
  | atom form text =>
    obtain ⟨g, hg, hkind, htext⟩ := exists_of_atom_mem hx
    rw [Symbol.OneLine, ← htext]
    by_cases hquoted : form.isQuoted
    · exact (hgs g hg).2 (by rw [hkind]; exact hquoted)
    · have hstable := (h.isLexeme hg (by rw [hkind]; rfl)).2
      rw [hkind] at hstable
      exact not_mem_of_not_isQuoted hstable (by simpa using hquoted)
  | block | kind => trivial

end Glyph

open Glyph

theorem exists_of_isOk {ε α : Type} {r : Except ε α} (h : r.isOk) : ∃ a, r = .ok a := by
  cases r with
  | ok a => exact ⟨a, rfl⟩
  | error error => cases h

theorem exists_of_toOption {ε α : Type} {P : α → Prop} {r : Except ε α}
    (h : ∃ a ∈ r.toOption, P a) :
    ∃ a, r = .ok a ∧ P a := by
  obtain ⟨a, ha, hp⟩ := h
  cases r with
  | ok b => exact ⟨a, congrArg _ (Option.some.inj ha), hp⟩
  | error => cases ha

section Reading

variable {goal : Goal} {text file : String} {gs : List Glyph} {e : Expr}

/-- What is read from plain glyphs is an admissible tree, and the glyphs are a text of it. -/
theorem Goal.parseAs_sound (hscan : Scans text.toList gs) (hgs : ∀ g ∈ gs, g.Plain)
    (h : parseAs goal text file = .ok e) : e.Admissible ∧ goal.SpelledBy e (symbols none gs) := by
  rw [parseAs_eq] at h
  have hsymbols := hscan.symbols_ofSource (fun g hg => (hgs g hg).1) file
  rw [← hsymbols]
  refine goal.parse_sound (fun t ht heof => ?_) h
  have hmem : t.symbol ∈ symbols none gs := hsymbols ▸ List.mem_map_of_mem ht
  rw [(Token.symbol_eq_kind (by simp) (by simp)).2 heof] at hmem
  exact (hscan.printable hgs _ hmem).1.2.1 rfl

/-- An admissible tree is read from all glyphs without comments that are a text of it. -/
theorem Goal.parseAs_complete (hscan : Scans text.toList gs) (hgs : ∀ g ∈ gs, g.kind ≠ .comment)
    (file : String) (he : e.Admissible) (h : goal.SpelledBy e (symbols none gs)) :
    ∃ e', parseAs goal text file = .ok e' ∧ e'.alike e := by
  rw [← hscan.symbols_ofSource hgs file] at h
  obtain ⟨e', hparse, herase⟩ := goal.parse_complete he h
  exact ⟨e', (parseAs_eq ..).trans hparse, (Expr.alike_iff_erase_eq e' e).2 herase⟩

end Reading

section Writing

variable {goal : Goal} {e : Expr}

theorem Expr.Admissible.items (he : e.Admissible) : ∀ f ∈ e.items, f.Admissible := by
  cases e with
  | group items o => exact Expr.admissible_group.1 he
  | _ => exact List.forall_mem_singleton.2 he

/-- The glyphs of a formatted tree are a text of it, the canonical one. -/
theorem Goal.format_glyphs (he : e.Admissible) (hw : ∀ x ∈ goal.spell e, x.Printable ∧ x.OneLine)
    (width : Nat) : ∃ gs, (goal.format e width).toList = laid gs ++ ['\n'] ∧
      symbols none gs = goal.spell e ∧ (∀ g ∈ gs, g.Printed) ∧ gs.IsChain Beside := by
  have hempty := Page.holds_empty width
  cases goal with
  | expression =>
    obtain ⟨gs, gap, hp, hs, -⟩ := Expr.holds_write e he hw hempty
    exact ⟨gs, hp.text, hs, hp.printed, hp.beside⟩
  | items =>
    obtain ⟨gs, gap, hp, hs, -⟩ :=
      Page.Holds.spaced e.spacing _ (fun hq => Expr.holds_writeItems e.items
      he.items (Expr.writable_of_mem_joined _ hw) hq) hempty
    exact ⟨gs, hp.text, hs, hp.printed, hp.beside⟩

/-- What is written for symbols that can be written, on one line each, is plain. -/
theorem Glyph.plain_of_symbols {gs : List Glyph}
    (h : ∀ x ∈ symbols none gs, x.Printable ∧ x.OneLine) :
    ∀ g ∈ gs, g.Plain := by
  intro g hg
  by_cases hline : g.kind = .tickedLine
  · simp [Plain, hline, Kind.isQuoted]
  · obtain ⟨gap, k, text⟩ := g
    obtain ⟨hprintable, honeLine⟩ := h _ (symbol_mem_symbols hg hline none)
    cases k <;>
      simp_all [Plain, symbol, Token.symbol, Symbol.Printable, Symbol.OneLine, Kind.isQuoted]

end Writing

/-! ## Question marks before colons -/

theorem Symbol.isChain_apart_cons {x : Symbol} {s : List Symbol} : (x :: s).IsChain Symbol.Apart ↔
    ¬(x = .mark .question ∧ s.head? = some (.mark .colon)) ∧ s.IsChain Symbol.Apart := by
  rw [List.isChain_cons]
  refine and_congr_left fun _ => ⟨fun h hx => h _ hx.2 ⟨hx.1, rfl⟩, ?_⟩
  rintro h y hy ⟨hx, rfl⟩
  exact h ⟨hx, hy⟩

/-- Adding commas before closing parentheses keeps what comes first, if it is neither of these. -/
theorem Expr.Tidied.head?_eq_some {s t : List Symbol} {x : Symbol} (h : Expr.Tidied s t)
    (hcomma : x ≠ .mark .comma) (hclose : x ≠ .mark .rightParenthesis) :
    s.head? = some x ↔ t.head? = some x := by
  cases h with
  | nil => rfl
  | cons => rfl
  | comma h => cases h with | cons => simp [hcomma.symm, hclose.symm]

/-- Adding commas before closing parentheses puts no question mark before a colon and none apart. -/
theorem Expr.Tidied.isChain_apart {s t : List Symbol} (h : Expr.Tidied s t) :
    s.IsChain Symbol.Apart ↔ t.IsChain Symbol.Apart := by
  induction h with
  | nil => rfl
  | cons x h ih =>
    rw [Symbol.isChain_apart_cons, Symbol.isChain_apart_cons, ih,
      h.head?_eq_some (by simp) (by simp)]
  | comma _ ih =>
    rw [List.isChain_cons_cons, ih]
    simp [Symbol.Apart]

theorem Goal.SpelledBy.isChain_apart {goal : Goal} {e : Expr} {s : List Symbol}
    (h : goal.SpelledBy e s) : s.IsChain Symbol.Apart ↔ (goal.spell e).IsChain Symbol.Apart := by
  obtain ⟨u, hu, rfl | rfl⟩ := SpelledBy.tidied h
  · exact hu.isChain_apart
  · rw [← hu.isChain_apart, List.isChain_append]
    simp [Symbol.Apart]

/-- What is written for the tree of a plain source text: plain glyphs again, which are a text of the
tree, with a question mark before a colon where the source text has one. -/
theorem Goal.format_of_parseAs {goal : Goal} {text file : String} {gs : List Glyph} {e : Expr}
    (hscan : Scans text.toList gs) (hgs : ∀ g ∈ gs, g.Plain) (h : parseAs goal text file = .ok e)
    (width : Nat) : ∃ hs, (goal.format e width).toList = laid hs ++ ['\n'] ∧
      symbols none hs = goal.spell e ∧ (∀ g ∈ hs, g.Plain) ∧ (∀ g ∈ hs, g.Printed) ∧
      hs.IsChain Beside ∧
      ((gs.map kind).IsChain Kind.Apart ↔ (hs.map kind).IsChain Kind.Apart) := by
  obtain ⟨he, hspelled⟩ := Goal.parseAs_sound hscan hgs h
  have hw := fun x hx => hscan.printable hgs x (hspelled.subset hx)
  obtain ⟨hs, hlaid, hsymbols, hprinted, hbeside⟩ := Goal.format_glyphs he hw width
  refine ⟨hs, hlaid, hsymbols, plain_of_symbols (hsymbols ▸ hw), hprinted, hbeside, ?_⟩
  rw [← isChain_symbols, ← isChain_symbols, hsymbols, hspelled.isChain_apart]

theorem Goal.parseAs_format {goal : Goal} {text file : String} {gs : List Glyph} {e : Expr}
    (hscan : Scans text.toList gs) (hgs : ∀ g ∈ gs, g.Plain) (h : parseAs goal text file = .ok e)
    (hapart : (gs.map kind).IsChain Kind.Apart) (width : Nat) (file' : String) :
    ∃ e', parseAs goal (goal.format e width) file' = .ok e' ∧ e'.alike e := by
  obtain ⟨he, hspelled⟩ := Goal.parseAs_sound hscan hgs h
  obtain ⟨hs, hlaid, hsymbols, hplain, hprinted, hbeside, hiff⟩ :=
    Goal.format_of_parseAs hscan hgs h width
  have hscan' := scans_glue (hbeside.imp fun _ _ h => h.near) fun g hg => (hprinted g hg).isLexeme
  rw [← hlaid, glue_of_apart (hiff.1 hapart)] at hscan'
  refine Goal.parseAs_complete hscan' (fun g hg => (hplain g hg).1) file' he ?_
  rw [hsymbols]
  exact Goal.spelledBy_spell hspelled

/-- A plain source text with no question mark directly before a colon is formatted, in any width, as
a text that is read as the same tree up to places. -/
theorem Goal.parse_format (goal : Goal) (file file' text : String) (width : Nat) (e : Expr)
    (h : parseAs goal text file = .ok e) (hplain : ∀ t ∈ (Stream.ofText text file).tokens, t.Plain)
    (hapart : ((Stream.ofText text file).tokens.map Token.kind).IsChain Kind.Apart) :
    ∃ e', parseAs goal (goal.format e width) file' = .ok e' ∧ e'.alike e := by
  obtain ⟨gs, hscan⟩ := exists_scans text.toList
  rw [hscan.tokens_ofText] at hplain hapart
  rw [map_kind_placed] at hapart
  rw [forall_placed] at hplain
  exact Goal.parseAs_format hscan hplain h hapart width file'

/-- The comma behind the last argument is left away, and the tree comes back. -/
theorem Goal.parse_format_call :
    let text := "f(-a.b, x?,)"
    ∃ e, parseAs .expression text "" = .ok e ∧ (∀ t ∈ (Stream.ofText text "").tokens, t.Plain) ∧
      ((Stream.ofText text "").tokens.map Token.kind).IsChain Kind.Apart ∧
      ∃ e', parseAs .expression (Goal.expression.format e 4) "" = .ok e' ∧ e'.alike e := by
  intro text
  obtain ⟨e, h⟩ := exists_of_isOk (r := parseAs .expression text "") (by decide +kernel)
  have hplain : ∀ t ∈ (Stream.ofText text "").tokens, t.Plain := by decide +kernel
  have hapart : ((Stream.ofText text "").tokens.map Token.kind).IsChain Kind.Apart := by
    decide +kernel
  exact ⟨e, h, hplain, hapart, parse_format .expression "" "" text 4 e h hplain hapart⟩

end DocExpr
