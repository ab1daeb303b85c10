import DocExpr.Proofs.Leaves
import DocExpr.Proofs.Stream.Enclosed
import Mathlib.Algebra.Group.Nat.Defs

/-!
# Files of items in parentheses

The items of a file and the items in parentheses are one thing: a file that is read is read as an
expression as well, and as the same tree, if parentheses are put on the lines above and below it
(`parseExpression_enclosed`). A text that is read has no fault in it (`Goal.isFault_of_parseAs`), so
its lexemes are the same between parentheses, and so is what layers make of them.
-/

namespace DocExpr

open DocExpr.Expr

variable {text file : String} {gs : List Glyph} {goal : Goal} {e : Expr} {s : List Symbol}

/-! ## Faults -/

/-- The fault that a symbol stands for, if it does. -/
def Symbol.faults : Symbol → List Fault
  | .kind k => k.fault?.toList
  | _ => []

theorem Expr.faults_spell (e : Expr) : e.spell.flatMap Symbol.faults = [] := by
  have hkind : ∀ k : Kind, k.fault? = none → (∀ form, k ≠ .block form) →
      (Symbol.kind k).faults = [] := by
    intro k hk _
    rw [Symbol.faults, hk]
    rfl
  rw [flatMap_spell hkind, List.flatMap_assoc, List.flatMap_eq_nil_iff]
  intro n _
  cases n <;> rfl

/-- There is no fault in the text of a tree. -/
theorem Goal.SpelledBy.faults (h : goal.SpelledBy e s) : s.flatMap Symbol.faults = [] := by
  have hexpression : ∀ s : List Symbol, Goal.SpelledBy .expression e s →
      s.flatMap Symbol.faults = [] :=
    fun s h => (h.flatMap rfl).symm.trans e.faults_spell
  cases goal with
  | expression => exact hexpression s h
  | items =>
    have henclosed := hexpression _ (ItemsSpelledBy.spelled h)
    rw [List.flatMap_cons, List.flatMap_append] at henclosed
    exact (List.append_eq_nil_iff.1 (List.append_eq_nil_iff.1 henclosed).2).1

/-- Faults are no part of documentation or strings, so the parser sees all of them. -/
theorem Glyph.Scans.faults_ofSource (h : Scans text.toList gs) (file : String) :
    ((Stream.ofSource text file).tokens.flatMap fun t => t.symbol.faults) =
      (Stream.ofText text file).tokens.flatMap fun t => t.symbol.faults := by
  refine h.flatMap_ofSource file (fun _ => rfl) ?_ ?_ (fun _ _ _ _ _ => rfl) ?_
  · rintro ⟨k, w, o⟩ ht
    rcases Bool.or_eq_true_iff.1 ht with hk | hk <;> obtain rfl := eq_of_beq hk <;> rfl
  · rintro ⟨k, w, o⟩ rfl
    rfl
  · intro form _ _ _ _
    cases form <;> rfl

/-- A text that is read has no fault in it. -/
theorem Goal.isFault_of_parseAs (h : parseAs goal text file = .ok e)
    (hgs : Glyph.Scans text.toList gs) :
    ∀ g ∈ gs, g.kind.isFault = false := by
  obtain ⟨-, hspelled⟩ := parseAs_spelled h
  have hfaults := hspelled.faults
  rw [List.flatMap_map, hgs.faults_ofSource, List.flatMap_eq_nil_iff] at hfaults
  intro g hg
  obtain ⟨o, ho⟩ := Glyph.exists_mem_placed hg file .start
  have hg := hfaults _ (hgs.tokens_ofText file ▸ ho)
  cases hk : g.kind <;> simp_all [Token.symbol, Symbol.faults, Kind.isFault, Kind.fault?]

/-! ## Parentheses -/

/-- A file of items that is read is read as an expression in parentheses, and as the same tree. The
lines of the file are counted in 32 bits. -/
theorem parseExpression_enclosed (h : parseItems text file = .ok e)
    (hlength : text.length < 2 ^ 31) :
    ∃ e', parseExpression ("(\n" ++ text ++ "\n)") file = .ok e' ∧ e'.alike e := by
  obtain ⟨gs, hscan⟩ := Glyph.exists_scans text.toList
  replace h : parseAs .items text file = .ok e := h
  obtain ⟨he, hspelled⟩ := Goal.parseAs_spelled h
  have hsize : text.length < UInt32.size - 1 := by
    rw [UInt32.size]
    omega
  have hsymbols := hscan.symbols_enclosed (Goal.isFault_of_parseAs h hscan) hsize file
  have henclosed : Goal.SpelledBy .expression e
      ((Stream.ofSource ("(\n" ++ text ++ "\n)") file).tokens.map Token.symbol) := by
    rw [hsymbols]
    exact ItemsSpelledBy.spelled hspelled
  obtain ⟨e', hparse, herase⟩ := Goal.parse_complete he henclosed
  exact ⟨e', (parseAs_eq .expression ..).trans hparse, (alike_iff_erase_eq e' e).2 herase⟩

/-- Comments at both ends of a file and lines at its end meet parentheses. -/
theorem parseExpression_enclosed_documented :
    let text := "// a\nx, // b\n// c\n(y, z), // d\n`l\n`m"
    text.length < 2 ^ 31 ∧ ∃ e, parseItems text "" = .ok e ∧
      ∃ e', parseExpression ("(\n" ++ text ++ "\n)") "" = .ok e' ∧ e'.alike e := by
  intro text
  have hlength : text.length < 2 ^ 31 := by decide +kernel
  obtain ⟨e, h⟩ := exists_of_isOk (r := parseItems text "") (by decide +kernel)
  exact ⟨hlength, e, h, parseExpression_enclosed h hlength⟩

end DocExpr
