import DocExpr.Proofs.Grammar.Completeness

/-!
# The machine and the grammar agree

A list of tokens is read as a tree exactly if the tree is admissible and the tokens are a text of
it (`Lookahead.wholeExpression_iff`). So no two admissible trees have a text in common
(`Expr.SpelledBy.erase_eq`).
-/

namespace DocExpr

open DocExpr.Expr (Admissible)

variable {ts : List Token} {finish : Origin}

/-- Where no token is an end of input, only the end of the list is one. -/
theorem eq_nil_of_head_eof {text rest : List Token} (h : ∀ t ∈ text ++ rest, t.kind ≠ .eof)
    (hrest : ∀ t ∈ rest.head?, t.kind = .eof) : rest = [] := by
  cases rest with
  | nil => rfl
  | cons t rest => exact absurd (hrest t rfl) (h t (by simp))

namespace Lookahead

/-- Exactly the texts of an admissible tree are read as that tree, up to places. -/
theorem wholeExpression_iff (ts : List Token) (finish : Origin) (hts : ∀ t ∈ ts, t.kind ≠ .eof)
    (e : Expr) :
    (∃ e', (⟨ts, finish⟩ : Lookahead).wholeExpression.result = .ok e' ∧ e'.alike e) ↔
      e.Admissible ∧ e.SpelledBy (ts.map Token.symbol) := by
  constructor
  · rintro ⟨e', h, halike⟩
    obtain ⟨he, text, rest, htext, hs, hrest⟩ := wholeExpression_sound h
    obtain rfl : ts = text ++ rest := htext
    obtain rfl := eq_nil_of_head_eof hts hrest
    have herase := (Expr.alike_iff_erase_eq e' e).1 halike
    rw [← Expr.admissible_erase, ← Expr.spelledBy_erase, ← herase, Expr.admissible_erase,
      Expr.spelledBy_erase, List.append_nil]
    exact ⟨he, hs⟩
  · rintro ⟨he, hs⟩
    obtain ⟨e', h, herase⟩ := wholeExpression_complete [] finish he hs (by simp)
    rw [List.append_nil] at h
    exact ⟨e', h, (Expr.alike_iff_erase_eq e' e).2 herase⟩

/-- In `-a.b` the minus takes the whole field access. -/
theorem wholeExpression_negated_field :
    let token (k : Kind) (text : String) : Token := ⟨k, text, .synthetic⟩
    let ts := [token (.mark .dash) "-", token (.atom .identifier) "a", token (.mark .dot) ".",
      token (.atom .identifier) "b"]
    let e := Expr.unary .negate (.chain .field [.atom .identifier "a" .synthetic,
      .atom .identifier "b" .synthetic] .synthetic) .synthetic
    (∀ t ∈ ts, t.kind ≠ .eof) ∧ e.Admissible ∧
      ∃ e', (⟨ts, .synthetic⟩ : Lookahead).wholeExpression.result = .ok e' ∧ e'.alike e := by
  intro token ts e
  have hts : ∀ t ∈ ts, t.kind ≠ .eof := by decide
  have he : e.Admissible := by
    simp [e, Expr.admissible_chain, Expr.Fits, Expr.leftSpine, Expr.leftSpineAll, Expr.rightSpine,
      Expr.isChainOf, UnaryOp.power, BinaryOp.left]
  have hs : e.SpelledBy (ts.map Token.symbol) := ⟨_, ⟨_, _, rfl, rfl, rfl⟩, rfl⟩
  exact ⟨hts, he, (wholeExpression_iff ts .synthetic hts e).2 ⟨he, hs⟩⟩

end Lookahead

/-- What is read from a stream is admissible, and the tokens of the stream are a text of it. -/
theorem Goal.parse_sound {goal : Goal} {s : Stream} {e : Expr} (hs : ∀ t ∈ s.tokens, t.kind ≠ .eof)
    (h : (goal.parse s).result = .ok e) :
    e.Admissible ∧ goal.SpelledBy e (s.tokens.map Token.symbol) := by
  cases goal with
  | expression =>
    obtain ⟨he, text, rest, htext, hspelled, hrest⟩ := Lookahead.wholeExpression_sound h
    rw [Lookahead.unread_ofStream] at htext
    obtain rfl := eq_nil_of_head_eof (htext ▸ hs) hrest
    exact ⟨he, by rw [htext, List.append_nil]; exact hspelled⟩
  | items =>
    obtain ⟨he, text, rest, htext, hspelled, hrest⟩ := Lookahead.items_sound h
    rw [Lookahead.unread_ofStream] at htext
    obtain rfl := eq_nil_of_head_eof (htext ▸ hs) hrest
    exact ⟨he, by rw [htext, List.append_nil]; exact hspelled⟩

/-- An admissible tree is read from every stream whose tokens are a text of it. -/
theorem Goal.parse_complete {goal : Goal} {s : Stream} {e : Expr} (he : e.Admissible)
    (h : goal.SpelledBy e (s.tokens.map Token.symbol)) :
    ∃ e', (goal.parse s).result = .ok e' ∧ e'.erase = e.erase := by
  have hstream : Lookahead.ofStream s = ⟨s.tokens ++ [], s.finish⟩ := by simp [Lookahead.ofStream]
  cases goal with
  | expression =>
    rw [parse, hstream]
    exact Lookahead.wholeExpression_complete _ _ he h (by simp)
  | items =>
    rw [parse, hstream]
    exact Lookahead.items_complete he h (by simp)

/-- Admissible trees with a text in common are the same up to places. -/
theorem Expr.SpelledBy.erase_eq {e e' : Expr} (he : e.Admissible) (he' : e'.Admissible)
    (hs : e.SpelledBy (ts.map Token.symbol)) (hs' : e'.SpelledBy (ts.map Token.symbol)) :
    e.erase = e'.erase := by
  obtain ⟨f, hf, herase⟩ := Lookahead.wholeExpression_complete [] .synthetic
    he hs (by simp)
  obtain ⟨f', hf', herase'⟩ := Lookahead.wholeExpression_complete [] .synthetic
    he' hs' (by simp)
  obtain rfl := Except.ok.inj (hf.symm.trans hf')
  exact herase.symm.trans herase'

end DocExpr
