import DocExpr.Proofs.Literals.Script

/-!
# Which names and literals are kept

The text of a tree has as many names and literals as the source text that the tree was read from,
each of the same kind, and the same ones exactly if no literal has its lines moved while the tree is
written (`Goal.atoms_format`), unless one is cut by documentation that waits for the end of its
line.
-/

namespace DocExpr

open Lexeme Directive Page

/-- The names and literals of a tree, from left to right. -/
def Expr.atoms (e : Expr) : List (Kind × String) := e.leaves.filter fun text => text.1.isAtom

namespace Goal

variable {goal : Goal} {text file : String} {e : Expr}

/-- The script of a tree that is read writes the names and literals of the tree. -/
theorem yields_script (h : parseAs goal text file = .ok e) :
    Yields .ready (goal.script e) e.atoms .settled := by
  have hatoms : (goal.spell e).flatMap Symbol.atoms = e.atoms := by
    rw [Expr.atoms, ← texts_spell (parseAs_spelled h).2, List.filter_flatMap]
    rfl
  exact hatoms ▸ (spells_script h).yields

end Goal

/-- The names and literals of a source text, each with its kind. -/
def atomsOf (text : String) : List (Kind × String) :=
  ((Stream.ofText text "").tokens.filter fun t => t.kind.isAtom).map fun t => (t.kind, t.text)

theorem atomsOf_eq {text : String} {gs : List Glyph} (h : Glyph.Scans text.toList gs) :
    atomsOf text = gs.flatMap Glyph.atoms := by
  rw [atomsOf, h.tokens_ofText]
  generalize Position.start = p
  clear h
  induction gs generalizing p with
  | nil => rfl
  | cons g gs ih =>
    by_cases hg : g.kind.isAtom
    · simpa [Glyph.placed, Glyph.atoms, hg] using ih _
    · simpa [Glyph.placed, Glyph.atoms, hg] using ih _

/-- The names and literals of a tree that is read are those of the source text. -/
theorem Goal.atoms_parse {goal : Goal} {text file : String} {e : Expr}
    (h : parseAs goal text file = .ok e) :
    e.atoms = atomsOf text := by
  obtain ⟨gs, hscan⟩ := Glyph.exists_scans text.toList
  obtain ⟨-, hspelled⟩ := parseAs_spelled h
  have hblock : ∀ g ∈ gs, ∀ b, g.kind ≠ .block b := fun g hg => (hscan.kind_ne hg).2.1
  rw [Expr.atoms, ← texts_spell hspelled, hspelled.flatMap rfl, hscan.texts_ofSource,
    hscan.tokens_ofText, atomsOf_eq hscan]
  generalize Position.start = p
  clear hscan
  induction gs generalizing p with
  | nil => rfl
  | cons g gs ih =>
    obtain ⟨hg, hgs⟩ := List.forall_mem_cons.1 hblock
    rw [Glyph.placed, List.flatMap_cons, List.filter_append, ih hgs, List.flatMap_cons]
    obtain ⟨gap, k, w⟩ := g
    cases k with
    | block b => exact absurd rfl (hg b)
    | _ => simp [Token.texts, Token.symbol, Symbol.texts, Glyph.atoms, Kind.isAtom]

/-- The text of a tree has the names and literals of the source text exactly if no literal has its
lines moved, if none is cut by documentation that waits for the end of its line. -/
theorem Goal.atoms_format (goal : Goal) (file text : String) (width : Nat) (e : Expr)
    (h : parseAs goal text file = .ok e)
    (hcuts : meetsAll Expr.cutsLiteral (goal.script e) (.empty width) = false) :
    atomsOf (goal.format e width) = atomsOf text ↔
      meetsAll Expr.movesLines (goal.script e) (.empty width) = false := by
  obtain ⟨as, hbears, -, hkept⟩ := yields_script h _ _ (bears_empty width) hcuts
  obtain ⟨gs, hscan, hatoms⟩ := hbears.text
  rw [← goal.format_eq] at hscan
  rw [atomsOf_eq hscan, hatoms, ← atoms_parse h, List.nil_append, hkept]

/-- A literal in an item that is not indented loses the blanks before its second line. -/
theorem Goal.atoms_format_string :
    let text := "\"a\\\n  b\""
    ∃ e, parseAs .items text "" = .ok e ∧
      meetsAll Expr.cutsLiteral (Goal.items.script e) (.empty 4) = false ∧
      (atomsOf (Goal.items.format e 4) = atomsOf text ↔
        meetsAll Expr.movesLines (Goal.items.script e) (.empty 4) = false) := by
  intro text
  obtain ⟨e, h, hcuts⟩ := exists_of_toOption (r := parseAs .items text "")
    (P := fun e => meetsAll Expr.cutsLiteral (Goal.items.script e) (.empty 4) = false)
      (by decide +kernel)
  exact ⟨e, h, hcuts, Goal.atoms_format .items "" text 4 e h hcuts⟩

/-- A string with an escaped line feed loses the blanks that begin its second line. -/
theorem exists_atoms_ne : ∃ formatted, reformat .items "" 4 "\"a\\\n  b\"" = .ok formatted ∧
    atomsOf formatted ≠ atomsOf "\"a\\\n  b\"" :=
  ⟨"\"a\\\nb\"\n", by decide +kernel, by decide +kernel⟩

end DocExpr
