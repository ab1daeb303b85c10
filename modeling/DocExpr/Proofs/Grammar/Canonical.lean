import DocExpr.Proofs.Grammar.Soundness

/-!
# Canonical spelling

`Expr.spell` is the text of a tree without a comma behind the last item of a group. Every other text
of the tree comes from it by adding such commas (`Expr.SpelledBy.tidied`), so the symbols of any
text and the places where two of them touch are those of the canonical one.
-/

namespace DocExpr

namespace Expr

mutual

/-- The text of a tree with no commas but between parts. -/
def spell : Expr → List Symbol
  | atom form text _ => [.atom form text]
  | block form lines _ => [.block form lines]
  | suffixed form item _ => spell item ++ form.symbols
  | map item key _ => spell item ++ [.mark .leftBrace] ++ spell key ++ [.mark .rightBrace]
  | call callee arguments _ => spell callee ++ spell arguments
  | array elements _ =>
    [.mark .leftBracket] ++ spellAll (.mark .comma) elements ++ [.mark .rightBracket]
  | group items _ =>
    [.mark .leftParenthesis] ++ spellAll (.mark .comma) items ++ [.mark .rightParenthesis]
  | chain op operands _ => spellAll (.kind op.kind) operands
  | unary op operand _ => [.kind op.kind] ++ spell operand

/-- The texts of trees with a separator between each two. -/
def spellAll (separator : Symbol) : List Expr → List Symbol
  | [] => []
  | [e] => spell e
  | e :: es => spell e ++ [separator] ++ spellAll separator es

end

theorem spellAll_cons (separator : Symbol) (e : Expr) {es : List Expr} (h : es ≠ []) :
    spellAll separator (e :: es) = spell e ++ [separator] ++ spellAll separator es := by
  cases es with
  | nil => exact absurd rfl h
  | cons f es => rw [spellAll]; simp

/-- What is said of all symbols of trees with separators between them is said of those of each. -/
theorem forall_mem_spell {P : Symbol → Prop} {separator : Symbol} {es : List Expr}
    (h : ∀ x ∈ spellAll separator es, P x) : ∀ e ∈ es, ∀ x ∈ e.spell, P x := by
  induction es with
  | nil => simp
  | cons e es ih =>
    by_cases hn : es = []
    · subst hn
      simpa [spellAll] using h
    · rw [spellAll_cons separator e hn] at h
      simp only [List.forall_mem_append] at h
      exact List.forall_mem_cons.2 ⟨h.1.1, ih h.2⟩

/-- What the symbols of trees contribute to a list, if the separators between them contribute
nothing. -/
theorem flatMap_spellAll {β : Type} {f : Symbol → List β} {separator : Symbol}
    (h : f separator = []) (es : List Expr) :
    (spellAll separator es).flatMap f = es.flatMap fun e => e.spell.flatMap f := by
  induction es with
  | nil => rfl
  | cons e es ih =>
    by_cases hn : es = []
    · simp [hn, spellAll]
    · rw [spellAll_cons _ _ hn, List.flatMap_append, List.flatMap_append, ih]
      simp [h]

mutual

theorem spelledBy_spell : (e : Expr) → e.SpelledBy e.spell
  | atom .. | block .. => rfl
  | suffixed _ item _ => ⟨_, spelledBy_spell item, rfl⟩
  | map item key _ => ⟨_, _, spelledBy_spell item, spelledBy_spell key, by simp [spell]⟩
  | call callee arguments _ => ⟨_, _, spelledBy_spell callee, spelledBy_spell arguments, rfl⟩
  | array elements _ => ⟨_, joinedBy_spellAll _ elements, by simp [spell]⟩
  | group items _ => ⟨_, joinedBy_spellAll _ items, .inl (by simp [spell])⟩
  | chain _ operands _ => joinedBy_spellAll _ operands
  | unary _ operand _ => ⟨_, spelledBy_spell operand, rfl⟩

theorem joinedBy_spellAll (separator : Symbol) :
    (es : List Expr) → JoinedBy separator es (spellAll separator es)
  | [] => rfl
  | [e] => spelledBy_spell e
  | e :: f :: es =>
    ⟨_, _, spelledBy_spell e, joinedBy_spellAll separator (f :: es), by simp [spellAll]⟩

end

/-- No text of a tree starts with a question mark. -/
theorem head?_spell {e : Expr} (he : e.Admissible) :
    ∃ x, e.spell.head? = some x ∧ x ≠ .mark .question := by
  induction e using inductionOnChildren with
  | node e ih =>
    have hchild : ∀ c ∈ e.children, ∀ s, ∃ x, (c.spell ++ s).head? = some x ∧
        x ≠ .mark .question := by
      intro c hc s
      obtain ⟨x, hx, hne⟩ := ih c hc (he.child hc)
      exact ⟨x, by rw [List.head?_append, hx]; rfl, hne⟩
    cases e with
    | atom | block | array | group => simp [spell]
    | suffixed form item o => exact hchild item (by simp [children]) _
    | map item key o =>
      rw [spell, List.append_assoc, List.append_assoc]
      exact hchild item (by simp [children]) _
    | call callee arguments o => exact hchild callee (by simp [children]) _
    | chain op operands o =>
      obtain ⟨⟨hlen, -⟩, -⟩ := admissible_chain.1 he
      obtain ⟨e, f, es, rfl⟩ := exists_cons_cons hlen
      rw [spell, spellAll_cons _ e (by simp), List.append_assoc]
      exact hchild e (by simp [children]) _
    | unary op operand o => cases op <;> simp [spell, UnaryOp.kind]

theorem spell_ne_nil {e : Expr} (he : e.Admissible) : e.spell ≠ [] := by
  obtain ⟨x, hx, -⟩ := head?_spell he
  rintro h
  rw [h] at hx
  cases hx

/-! ## Trailing commas -/

/-- Whether a text comes from another one by adding commas before closing parentheses. -/
inductive Tidied : List Symbol → List Symbol → Prop where
  | nil : Tidied [] []
  | cons (x : Symbol) {s t : List Symbol} (h : Tidied s t) : Tidied (x :: s) (x :: t)
  | comma {s t : List Symbol} (h : Tidied (.mark .rightParenthesis :: s) t) :
    Tidied (.mark .comma :: .mark .rightParenthesis :: s) t

theorem Tidied.append {s t u v : List Symbol} (h : Tidied s t) (h' : Tidied u v) :
    Tidied (s ++ u) (t ++ v) := by
  induction h with
  | nil => exact h'
  | cons x _ ih => exact .cons x ih
  | comma _ ih => exact .comma ih

theorem Tidied.refl (s : List Symbol) : Tidied s s := by
  induction s with
  | nil => exact .nil
  | cons x s ih => exact .cons x ih

mutual

theorem SpelledBy.tidied : (e : Expr) → (s : List Symbol) → e.SpelledBy s → Tidied s e.spell
  | atom .., _, h | block .., _, h => h ▸ .refl _
  | suffixed form item _, _, ⟨u, hu, h⟩ =>
    h ▸ (SpelledBy.tidied item u hu).append (.refl _)
  | map item key _, _, ⟨u, v, hu, hv, h⟩ => by
    have := (((SpelledBy.tidied item u hu).append (.refl [.mark .leftBrace])).append
      (SpelledBy.tidied key v hv)).append (.refl [.mark .rightBrace])
    simpa [h, spell] using this
  | call callee arguments _, _, ⟨u, v, hu, hv, h⟩ =>
    h ▸ (SpelledBy.tidied callee u hu).append (SpelledBy.tidied arguments v hv)
  | array elements _, _, ⟨u, hu, h⟩ => by
    have := (JoinedBy.tidied _ elements u hu).append (.refl [.mark .rightBracket])
    simpa [h, spell] using Tidied.cons (.mark .leftBracket) this
  | group items _, _, ⟨u, hu, h⟩ => by
    have hitems := JoinedBy.tidied _ items u hu
    rcases h with h | ⟨-, h⟩
    · simpa [h, spell] using Tidied.cons (.mark .leftParenthesis)
        (hitems.append (.refl [.mark .rightParenthesis]))
    · simpa [h, spell] using Tidied.cons (.mark .leftParenthesis)
        (hitems.append (.comma (.refl [.mark .rightParenthesis])))
  | chain _ operands _, s, h => JoinedBy.tidied _ operands s h
  | unary op operand _, _, ⟨u, hu, h⟩ => h ▸ .cons _ (SpelledBy.tidied operand u hu)

theorem JoinedBy.tidied (separator : Symbol) : (es : List Expr) → (s : List Symbol) →
    JoinedBy separator es s → Tidied s (spellAll separator es)
  | [], _, h => h ▸ .nil
  | [e], s, h => SpelledBy.tidied e s h
  | e :: f :: es, _, ⟨u, v, hu, hv, h⟩ => by
    have := (SpelledBy.tidied e u hu).append
      (.cons separator (JoinedBy.tidied separator (f :: es) v hv))
    simpa [h, spellAll] using this

end

theorem Tidied.subset {s t : List Symbol} (h : Tidied s t) : t ⊆ s := by
  induction h with
  | nil => simp
  | cons x _ ih => exact List.cons_subset_cons x ih
  | comma _ ih => exact fun x hx => List.mem_cons_of_mem _ (ih hx)

theorem Tidied.flatMap {β : Type} {f : Symbol → List β} (hcomma : f (.mark .comma) = [])
    {s t : List Symbol} (h : Tidied s t) : s.flatMap f = t.flatMap f := by
  induction h with
  | nil => rfl
  | cons x _ ih => rw [List.flatMap_cons, List.flatMap_cons, ih]
  | comma _ ih => rw [List.flatMap_cons, ih, hcomma, List.nil_append]

end Expr

namespace Goal

open DocExpr.Expr

/-- The canonical text of a tree that is read as an expression or as a file of items. -/
def spell (goal : Goal) (e : Expr) : List Symbol :=
  match goal with
  | .expression => e.spell
  | .items => spellAll (.mark .comma) e.items

theorem spelledBy_spell {goal : Goal} {e : Expr} {s : List Symbol} (h : goal.SpelledBy e s) :
    goal.SpelledBy e (goal.spell e) := by
  cases goal with
  | expression => exact e.spelledBy_spell
  | items => exact ⟨h.1, .inl (joinedBy_spellAll _ _)⟩

/-- The canonical text comes from any other one by leaving commas away, perhaps a last one. -/
theorem SpelledBy.tidied {goal : Goal} {e : Expr} {s : List Symbol} (h : goal.SpelledBy e s) :
    ∃ u, Tidied u (goal.spell e) ∧ (s = u ∨ s = u ++ [.mark .comma]) := by
  cases goal with
  | expression => exact ⟨s, Expr.SpelledBy.tidied e s h, .inl rfl⟩
  | items =>
    rcases h.2 with h | ⟨hn, rfl⟩ | ⟨-, u, hu, rfl⟩
    · exact ⟨s, JoinedBy.tidied _ _ s h, .inl rfl⟩
    · exact ⟨[], by rw [spell, hn]; exact .nil, .inl rfl⟩
    · exact ⟨u, JoinedBy.tidied _ _ u hu, .inr rfl⟩

theorem SpelledBy.subset {goal : Goal} {e : Expr} {s : List Symbol} (h : goal.SpelledBy e s) :
    goal.spell e ⊆ s := by
  obtain ⟨u, hu, rfl | rfl⟩ := SpelledBy.tidied h
  · exact hu.subset
  · exact fun x hx => List.mem_append_left _ (hu.subset hx)

/-- All texts of a tree contribute the same to a list, if commas contribute nothing. -/
theorem SpelledBy.flatMap {β : Type} {f : Symbol → List β} (hcomma : f (.mark .comma) = [])
    {goal : Goal} {e : Expr} {s : List Symbol} (h : goal.SpelledBy e s) :
    (goal.spell e).flatMap f = s.flatMap f := by
  obtain ⟨u, hu, rfl | rfl⟩ := SpelledBy.tidied h
  · exact (hu.flatMap hcomma).symm
  · rw [List.flatMap_append, hu.flatMap hcomma]
    simp [hcomma]

end Goal

end DocExpr
