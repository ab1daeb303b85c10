import DocExpr.Proofs.Grammar.Canonical
import Mathlib.Data.List.Chain

/-!
# Neighbours in a text

What can be said of a token and the two tokens beside it is said of all tokens of a text by
`Neighbours`, given what comes before and behind the text. A text that is put together of parts has
it if each part has it between its neighbours (`neighbours_append`, `Expr.neighbours_kindsAll`).
-/

namespace DocExpr

variable {α : Type} {P Q : Option α → α → Option α → Prop} {a c : Option α} {s t : List α}

/-- Whether something holds of every element of a list and the two beside it, given what comes
before the list and behind it. -/
def Neighbours (P : Option α → α → Option α → Prop) : Option α → List α → Option α → Prop
  | _, [], _ => True
  | a, x :: s, c => P a x (s.head?.or c) ∧ Neighbours P (some x) s c

instance decidableNeighbours [h : ∀ a x c, Decidable (P a x c)] :
    (a : Option α) → (s : List α) → (c : Option α) → Decidable (Neighbours P a s c)
  | _, [], _ => .isTrue trivial
  | a, x :: s, c =>
    have := decidableNeighbours (some x) s c
    inferInstanceAs (Decidable (P a x (s.head?.or c) ∧ Neighbours P (some x) s c))

theorem neighbours_append : Neighbours P a (s ++ t) c ↔
    Neighbours P a s (t.head?.or c) ∧ Neighbours P (s.getLast?.or a) t c := by
  induction s generalizing a with
  | nil => simp [Neighbours]
  | cons x s ih =>
    have hlast : (x :: s).getLast?.or a = s.getLast?.or (some x) := by
      rw [List.getLast?_cons]
      cases s.getLast? <;> rfl
    have hhead : (s ++ t).head?.or c = s.head?.or (t.head?.or c) := by
      rw [List.head?_append, Option.or_assoc]
    rw [List.cons_append, Neighbours, ih, hlast, hhead, Neighbours, and_assoc]

theorem Neighbours.and (hp : Neighbours P a s c) (hq : Neighbours Q a s c) :
    Neighbours (fun a x c => P a x c ∧ Q a x c) a s c := by
  induction s generalizing a with
  | nil => trivial
  | cons x s ih => exact ⟨⟨hp.1, hq.1⟩, ih hp.2 hq.2⟩

/-! ## Texts of trees -/

/-- The kind of a token that the grammar sees. -/
def Symbol.tokenKind : Symbol → Kind
  | atom form _ => .atom form
  | block form _ => .block form
  | kind k => k

@[simp] theorem Token.tokenKind_symbol (t : Token) : t.symbol.tokenKind = t.kind := by
  obtain ⟨k, text, o⟩ := t
  cases k <;> rfl

namespace Expr

/-- The kinds of the tokens of a text of a tree. -/
def kinds (e : Expr) : List Kind := e.spell.map Symbol.tokenKind

/-- The kinds of the tokens of texts of trees, with tokens of one kind between them. -/
def kindsAll (k : Kind) (es : List Expr) : List Kind := (spellAll (.kind k) es).map Symbol.tokenKind

section

variable {form : Suffix} {item key callee arguments operand : Expr} {es : List Expr} {o : Origin}

@[simp] theorem kinds_atom (form : Atom) (text : String) :
    (atom form text o).kinds = [.atom form] := rfl

@[simp] theorem kinds_block (form : Block) (lines : List String) :
    (block form lines o).kinds = [.block form] := rfl

@[simp] theorem kinds_suffixed : (suffixed form item o).kinds =
    item.kinds ++ form.symbols.map Symbol.tokenKind := List.map_append

@[simp] theorem kinds_map : (map item key o).kinds =
    item.kinds ++ .mark .leftBrace :: (key.kinds ++ [.mark .rightBrace]) := by
  simp [kinds, spell, Symbol.tokenKind]

@[simp] theorem kinds_call : (call callee arguments o).kinds = callee.kinds ++ arguments.kinds :=
  List.map_append

@[simp] theorem kinds_array : (array es o).kinds =
    .mark .leftBracket :: (kindsAll (.mark .comma) es ++ [.mark .rightBracket]) := by
  simp [kinds, kindsAll, spell, Symbol.tokenKind]

@[simp] theorem kinds_group : (group es o).kinds =
    .mark .leftParenthesis :: (kindsAll (.mark .comma) es ++ [.mark .rightParenthesis]) := by
  simp [kinds, kindsAll, spell, Symbol.tokenKind]

@[simp] theorem kinds_chain {op : BinaryOp} : (chain op es o).kinds = kindsAll op.kind es := rfl

@[simp] theorem kinds_unary {op : UnaryOp} :
    (unary op operand o).kinds = op.kind :: operand.kinds := rfl

end

theorem kinds_ne_nil {e : Expr} (he : e.Admissible) : e.kinds ≠ [] := by
  simpa [kinds] using spell_ne_nil he

theorem kindsAll_cons_cons (k : Kind) (e f : Expr) (es : List Expr) :
    kindsAll k (e :: f :: es) = e.kinds ++ k :: kindsAll k (f :: es) := by
  simp [kindsAll, spellAll, kinds, Symbol.tokenKind]

theorem head?_kindsAll (k : Kind) {e : Expr} {es : List Expr} (he : e.kinds ≠ []) :
    (kindsAll k (e :: es)).head? = e.kinds.head? := by
  cases es with
  | nil => rfl
  | cons f es => rw [kindsAll_cons_cons, List.head?_append_of_ne_nil _ he]

theorem getLast?_kindsAll (k : Kind) {es : List Expr} {e : Expr} (he : e.kinds ≠ []) :
    (kindsAll k (es ++ [e])).getLast? = e.kinds.getLast? := by
  induction es with
  | nil => rfl
  | cons f es ih =>
    obtain ⟨g, gs, hg⟩ := List.exists_cons_of_ne_nil (l := es ++ [e]) (by simp)
    have hn : kindsAll k (g :: gs) ≠ [] := by
      rintro hnil
      rw [hg, hnil] at ih
      exact he (List.getLast?_eq_none_iff.1 ih.symm)
    rw [List.cons_append, hg, kindsAll_cons_cons, List.getLast?_append_of_ne_nil _ (by simp),
      List.getLast?_cons_of_ne_nil hn, ← hg, ih]

/-! A tree starts as its first part does, and a unary operation and a chain end as their last parts
do. -/

section

variable {form : Suffix} {item key callee arguments operand e : Expr} {es : List Expr}
  {op : BinaryOp}
  {prefixed : UnaryOp} {o : Origin}

theorem head?_kinds_suffixed (h : item.Admissible) :
    (suffixed form item o).kinds.head? = item.kinds.head? := by
  rw [kinds_suffixed, List.head?_append_of_ne_nil _ (kinds_ne_nil h)]

theorem head?_kinds_map (h : item.Admissible) :
    (map item key o).kinds.head? = item.kinds.head? := by
  rw [kinds_map, List.head?_append_of_ne_nil _ (kinds_ne_nil h)]

theorem head?_kinds_call (h : callee.Admissible) :
    (call callee arguments o).kinds.head? = callee.kinds.head? := by
  rw [kinds_call, List.head?_append_of_ne_nil _ (kinds_ne_nil h)]

theorem head?_kinds_chain (h : e.Admissible) :
    (chain op (e :: es) o).kinds.head? = e.kinds.head? := by
  rw [kinds_chain, head?_kindsAll _ (kinds_ne_nil h)]

theorem getLast?_kinds_chain (h : e.Admissible) :
    (chain op (es ++ [e]) o).kinds.getLast? = e.kinds.getLast? := by
  rw [kinds_chain, getLast?_kindsAll _ (kinds_ne_nil h)]

theorem getLast?_kinds_unary (h : operand.Admissible) :
    (unary prefixed operand o).kinds.getLast? = operand.kinds.getLast? := by
  rw [kinds_unary, List.getLast?_cons_of_ne_nil (kinds_ne_nil h)]

end

theorem forall_split_cons {β : Type} {R : List β → β → List β → Prop} {x : β} {xs : List β} :
    (∀ before y behind, x :: xs = before ++ y :: behind → R before y behind) ↔
      R [] x xs ∧ ∀ before y behind, xs = before ++ y :: behind → R (x :: before) y behind := by
  constructor
  · intro h
    exact ⟨h [] x xs rfl, fun before y behind hxs => h (x :: before) y behind (by rw [hxs]; rfl)⟩
  · rintro ⟨hx, hxs⟩ before y behind heq
    rcases before with _ | ⟨z, before⟩
    · obtain ⟨rfl, rfl⟩ := List.cons.inj heq
      exact hx
    · obtain ⟨rfl, hrest⟩ := List.cons.inj heq
      exact hxs before y behind hrest

/-- Of texts with separators between them, each has its place between separators, the first and the
last apart, and each separator has its place between two texts. -/
theorem neighbours_kindsAll {P : Option Kind → Kind → Option Kind → Prop} {a c : Option Kind}
    {k : Kind} {es : List Expr} (hes : ∀ e ∈ es, e.kinds ≠ []) : Neighbours P a (kindsAll k es) c ↔
      (∀ before e behind, es = before ++ e :: behind →
        Neighbours P (if before = [] then a else some k) e.kinds
          (if behind = [] then c else some k)) ∧
      es.IsChain fun e f => P e.kinds.getLast? k f.kinds.head? := by
  induction es generalizing a with
  | nil => simp [kindsAll, spellAll, Neighbours]
  | cons e es ih =>
    obtain ⟨he, hes⟩ := List.forall_mem_cons.1 hes
    rw [forall_split_cons]
    cases es with
    | nil =>
      have hsingle : kindsAll k [e] = e.kinds := rfl
      simp [hsingle]
    | cons f es =>
      obtain ⟨hf, -⟩ := List.forall_mem_cons.1 hes
      have hhead : (kindsAll k (f :: es)).head?.or c = f.kinds.head? := by
        rw [head?_kindsAll k hf, List.head?_eq_some_head hf]
        rfl
      have hlast : e.kinds.getLast?.or a = e.kinds.getLast? := by
        rw [List.getLast?_eq_some_getLast he]
        rfl
      rw [kindsAll_cons_cons, neighbours_append, Neighbours, ih hes, List.isChain_cons_cons,
        hhead, hlast]
      simp only [List.cons_ne_nil, if_false, ite_self, List.head?_cons, Option.some_or, if_true]
      exact ⟨fun ⟨he, hk, hparts, hchain⟩ => ⟨⟨he, hparts⟩, hk, hchain⟩,
        fun ⟨⟨he, hparts⟩, hk, hchain⟩ => ⟨he, hk, hparts, hchain⟩⟩

end Expr

/-! ## All texts of a tree -/

/-- Whether what is said of neighbours makes no difference between parentheses, commas and the ends
of a text. -/
structure Indifferent (P : Option Kind → Kind → Option Kind → Prop) : Prop where
  comma (a c : Option Kind) : P a (.mark .comma) c
  opening (a c : Option Kind) : P a (.mark .leftParenthesis) c
  closing (a c : Option Kind) : P a (.mark .rightParenthesis) c
  before (k : Kind) (c : Option Kind) : P none k c ↔ P (some (.mark .leftParenthesis)) k c
  behind (a : Option Kind) (k : Kind) : P a k none ↔ P a k (some (.mark .rightParenthesis))
  closed (a : Option Kind) (k : Kind) :
    P a k (some (.mark .comma)) ↔ P a k (some (.mark .rightParenthesis))

namespace Indifferent

variable {P : Option Kind → Kind → Option Kind → Prop} (hP : Indifferent P)

include hP

/-- Commas before closing parentheses make no difference. -/
theorem tidied {s t : List Symbol} (h : Expr.Tidied s t) (a c : Option Kind) :
    Neighbours P a (s.map Symbol.tokenKind) c ↔ Neighbours P a (t.map Symbol.tokenKind) c := by
  have head : ∀ {s t : List Symbol}, Expr.Tidied s t → ∀ a k,
      P a k ((s.map Symbol.tokenKind).head?.or c) ↔
      P a k ((t.map Symbol.tokenKind).head?.or c) := by
    intro s t h a k
    cases h with
    | nil => rfl
    | cons => rfl
    | comma h => cases h with | cons => exact hP.closed a k
  induction h generalizing a with
  | nil => rfl
  | cons x h ih => exact and_congr (head h ..) (ih _)
  | comma h ih =>
    refine Iff.trans ?_ (ih a)
    simp only [List.map_cons, Neighbours, Symbol.tokenKind]
    exact ⟨fun h => ⟨hP.closing .., h.2.2⟩, fun h => ⟨hP.comma .., hP.closing .., h.2⟩⟩

/-- Parentheses around a text make no difference. -/
theorem parenthesized (ks : List Kind) :
    Neighbours P none (.mark .leftParenthesis :: (ks ++ [.mark .rightParenthesis])) none ↔
      Neighbours P none ks none := by
  have hbefore : ∀ c, Neighbours P (some (.mark .leftParenthesis)) ks c ↔
      Neighbours P none ks c := by
    intro c
    cases ks with
    | nil => rfl
    | cons k ks => rw [Neighbours, Neighbours, hP.before]
  have hbehind : ∀ a, Neighbours P a ks (some (.mark .rightParenthesis)) ↔
      Neighbours P a ks none := by
    intro a
    clear hbefore
    induction ks generalizing a with
    | nil => rfl
    | cons k ks ih =>
      rw [Neighbours, Neighbours, ih]
      cases ks with
      | nil => rw [List.head?_nil, Option.none_or, Option.none_or, hP.behind]
      | cons => rfl
  rw [Neighbours, neighbours_append, List.head?_cons, Option.some_or, hbefore, hbehind]
  exact ⟨fun h => h.2.1, fun h => ⟨hP.opening .., h, hP.closing .., trivial⟩⟩

/-- What is said of neighbours is said of one text of a tree if it is said of another one. -/
theorem spelledBy {goal : Goal} {e : Expr} {s : List Symbol} (h : goal.SpelledBy e s) :
    Neighbours P none (s.map Symbol.tokenKind) none ↔ Neighbours P none e.kinds none := by
  cases goal with
  | expression => exact hP.tidied (Expr.SpelledBy.tidied e s h) none none
  | items =>
    have htidied := hP.tidied (Expr.SpelledBy.tidied e _ h.spelled) none none
    rw [List.map_cons, List.map_append] at htidied
    exact (hP.parenthesized _).symm.trans htidied

end Indifferent

end DocExpr
