import DocExpr.Expr.SExpr
import DocExpr.Proofs.Layout.Ended

/-!
# What S-expressions tell apart

The S-expression of a node is the symbol of its head (`Expr.Head`), a blank, and the text of the
node or the S-expressions of its parts. No symbol has a blank in it, and no closing parenthesis
extends a name or a literal, so an S-expression is read from its start without a look at what is
behind it (`Expr.separated`). Negation and subtraction have one symbol, which the number of parts
tells apart.

So trees that are read, without documentation and back-ticked lines, have the same S-expression
exactly if they are the same up to places (`Goal.sexpr_eq_iff`).
-/

namespace DocExpr

/-! ## Texts with something behind them -/

/-- A lexeme ends where a character comes that does not extend it. -/
theorem Lexeme.Stable.append_inj {k : Kind} {text text' rest rest' : List Char} {d : Char}
    (h : Stable k text) (h' : Stable k text') (hd : k.extendedBy d = false)
    (heq : text ++ d :: rest = text' ++ d :: rest') :
    text = text' ∧ rest = rest' := by
  obtain ⟨c, w, rfl, -, hread⟩ := h
  obtain ⟨c', w', rfl, -, hread'⟩ := h'
  obtain ⟨rfl, htail⟩ := List.cons.inj heq
  replace htail : w ++ d :: rest = w' ++ d :: rest' := htail
  have hlength : w.length = w'.length := by
    have hw := hread (d :: rest) (by simpa using hd)
    rw [htail, hread' (d :: rest') (by simpa using hd)] at hw
    exact (congrArg more hw).symm
  obtain ⟨rfl, hrest⟩ := List.append_inj htail hlength
  exact ⟨rfl, (List.cons.inj hrest).2⟩

theorem Atom.extendedBy_close (form : Atom) : (Kind.atom form).extendedBy ')' = false := by
  cases form <;> decide

/-- What stands before the first of some separators is told by the whole. -/
theorem eq_of_append_cons_eq {α : Type} {d : α} {s t u v : List α} (hs : d ∉ s) (ht : d ∉ t)
    (h : s ++ d :: u = t ++ d :: v) : s = t ∧ u = v := by
  rcases List.append_eq_append_iff.1 h with ⟨mid, rfl, hmid⟩ | ⟨mid, rfl, hmid⟩
  all_goals
    cases mid with
    | nil => simpa [eq_comm] using hmid
    | cons x mid =>
      obtain rfl : d = x := (List.cons.inj hmid).1
      simp at hs ht

namespace Expr

/-! ## Heads -/

/-- What a node is, without its text, its lines and its parts. -/
inductive Head where
  | atom (form : Atom)
  | block (form : Block)
  | suffixed (form : Suffix)
  | map | call | array | group
  | chain (op : BinaryOp)
  | unary (op : UnaryOp)
deriving DecidableEq

namespace Head

/-- How a head is written in S-expressions. -/
def symbol : Head → String
  | atom form => form.symbol
  | block form => form.symbol
  | suffixed form => form.symbol
  | map => "maptype" | call => "call" | array => "arrayliteral" | group => "parenthesized"
  | chain op => op.symbol
  | unary op => op.symbol

/-- All heads. -/
def all : List Head :=
  [map, call, array, group] ++ Atom.all.map atom ++ Block.all.map block ++ Suffix.all.map suffixed
    ++ BinaryOp.all.map chain ++ UnaryOp.all.map unary

theorem mem_all (x : Head) : x ∈ all := by
  cases x with
  | atom form => cases form <;> simp [all, Atom.all]
  | block form => cases form <;> simp [all, Block.all]
  | suffixed form => cases form <;> simp [all, Suffix.all]
  | chain op => simp [all, op.mem_all]
  | unary op => simp [all, op.mem_all]
  | _ => simp [all]

theorem not_mem_symbol (x : Head) : ' ' ∉ x.symbol.toList := by
  have h : ∀ x ∈ all, ' ' ∉ x.symbol.toList := by decide +kernel
  exact h x x.mem_all

/-- Only negation and subtraction are written alike. -/
theorem eq_of_symbol_eq {x y : Head} (h : x.symbol = y.symbol) : x = y ∨
    x = .chain .subtract ∧ y = .unary .negate ∨ x = .unary .negate ∧ y = .chain .subtract := by
  have hall : ∀ x ∈ all, ∀ y ∈ all, x.symbol = y.symbol → x = y ∨
      x = .chain .subtract ∧ y = .unary .negate ∨ x = .unary .negate ∧ y = .chain .subtract := by
    decide +kernel
  exact hall x x.mem_all y y.mem_all h

/-- Whether a node with this head has parts, or could have them. -/
def isInner : Head → Bool
  | atom _ | block _ => false
  | _ => true

theorem isInner_eq_of_symbol_eq {x y : Head} (h : x.symbol = y.symbol) : x.isInner = y.isInner := by
  rcases eq_of_symbol_eq h with rfl | ⟨rfl, rfl⟩ | ⟨rfl, rfl⟩ <;> rfl

end Head

/-- The head of a node. -/
def head : Expr → Head
  | atom form .. => .atom form
  | block form .. => .block form
  | suffixed form .. => .suffixed form
  | map .. => .map
  | call .. => .call
  | array .. => .array
  | group .. => .group
  | chain op .. => .chain op
  | unary op .. => .unary op

/-- What is behind the head in the S-expression of a node: its text or its parts. -/
def body : Expr → String
  | atom _ text _ => text
  | e => sexprAll e.children

/-- Whether the S-expression of a node tells what is written in it and which of the two heads with
one symbol it has. -/
def Told : Expr → Prop
  | atom form text _ => Lexeme.Stable (.atom form) text.toList
  | block .. => False
  | chain _ operands _ => 2 ≤ operands.length
  | _ => True

variable {e e' : Expr} {es es' : List Expr} {rest rest' : List Char}

/-- An inner node is told by its head and its parts. -/
theorem erase_eq_of_head_eq (he : e.head.isInner) (hhead : e.head = e'.head)
    (hparts : e.children.map erase = e'.children.map erase) : e.erase = e'.erase := by
  cases e <;> cases e' <;> simp_all [head, Head.isInner, erase, children, eraseAll_eq_map]

/-- The number of parts tells apart what is written alike. -/
theorem head_eq_of_symbol_eq (he : e.Told) (he' : e'.Told) (h : e.head.symbol = e'.head.symbol)
    (hlength : e.children.length = e'.children.length) : e.head = e'.head := by
  rcases Head.eq_of_symbol_eq h with h | ⟨h, h'⟩ | ⟨h, h'⟩
  · exact h
  all_goals
    cases e <;> cases h
    cases e' <;> cases h'
    simp [Told, children] at he he' hlength
    omega

/-! ## S-expressions -/

theorem sexpr_eq (he : e.Told) : e.sexpr = sexprOf e.head.symbol e.body := by
  cases e with
  | block => exact he.elim
  | _ => simp [sexpr, sexprAll, head, Head.symbol, body, children]

theorem body_of_isInner (he : e.head.isInner) : e.body = sexprAll e.children := by
  cases e with
  | atom => cases he
  | _ => rfl

theorem toList_sexprOf (symbol body : String) (rest : List Char) :
    (sexprOf symbol body).toList ++ rest =
    '(' :: (symbol.toList ++ ' ' :: (body.toList ++ ')' :: rest)) := by
  simp [sexprOf]

theorem sexprAll_cons (e : Expr) (h : es ≠ []) :
    sexprAll (e :: es) = sexpr e ++ " " ++ sexprAll es := by
  cases es with
  | nil => exact absurd rfl h
  | cons f es => rw [sexprAll]; simp

theorem head?_sexpr (e : Expr) (rest : List Char) : (e.sexpr.toList ++ rest).head? = some '(' := by
  cases e <;> simp [sexpr, sexprOf]

theorem head?_sexprAll (h : es ≠ []) (rest : List Char) :
    ((sexprAll es).toList ++ rest).head? = some '(' := by
  match es, h with
  | [e], _ => exact e.head?_sexpr rest
  | e :: f :: es, _ =>
    rw [sexprAll_cons e (by simp), String.toList_append, String.toList_append, List.append_assoc,
      List.append_assoc]
    exact e.head?_sexpr _

/-- Whether two trees are the same up to places wherever their S-expressions, with something behind
each, are the same text. -/
def Separated (e e' : Expr) : Prop := ∀ rest rest' : List Char,
  e.sexpr.toList ++ rest = e'.sexpr.toList ++ rest' → e.erase = e'.erase ∧ rest = rest'

/-- A closing parenthesis ends a list of S-expressions. -/
theorem sexprAll_append_inj (hes : ∀ e ∈ es, ∀ e' ∈ es', e.Separated e')
    (h : (sexprAll es).toList ++ ')' :: rest = (sexprAll es').toList ++ ')' :: rest') :
    es.map erase = es'.map erase ∧ rest = rest' := by
  -- behind a part comes a blank if there are more parts, and the closing parenthesis if not
  have behind : ∀ (e : Expr) (es : List Expr) (rest : List Char), ∃ tail,
      (sexprAll (e :: es)).toList ++ ')' :: rest = e.sexpr.toList ++ tail ∧
        (es = [] ∧ tail = ')' :: rest ∨ es ≠ [] ∧
          tail = ' ' :: ((sexprAll es).toList ++ ')' :: rest)) := by
    intro e es rest
    by_cases hn : es = []
    · exact ⟨_, by rw [hn, sexprAll], .inl ⟨hn, rfl⟩⟩
    · exact ⟨_, by simp [sexprAll_cons e hn], .inr ⟨hn, rfl⟩⟩
  induction es generalizing es' with
  | nil =>
    cases es' with
    | nil => exact ⟨rfl, (List.cons.inj h).2⟩
    | cons e' es' =>
      have hhead := congrArg List.head? h
      rw [head?_sexprAll (List.cons_ne_nil e' es')] at hhead
      simp [sexprAll] at hhead
  | cons e es ih =>
    cases es' with
    | nil =>
      have hhead := congrArg List.head? h
      rw [head?_sexprAll (List.cons_ne_nil e es)] at hhead
      simp [sexprAll] at hhead
    | cons e' es' =>
      obtain ⟨tail, htail, hrest⟩ := behind e es rest
      obtain ⟨tail', htail', hrest'⟩ := behind e' es' rest'
      rw [htail, htail'] at h
      obtain ⟨herase, rfl⟩ := hes e (by simp) e' (by simp) _ _ h
      rcases hrest with ⟨rfl, rfl⟩ | ⟨hn, rfl⟩ <;> rcases hrest' with ⟨rfl, heq⟩ | ⟨hn', heq⟩
      · exact ⟨by simp [herase], (List.cons.inj heq).2⟩
      · exact absurd (List.cons.inj heq).1 (by decide)
      · exact absurd (List.cons.inj heq).1 (by decide)
      · obtain ⟨hparts, hr⟩ :=
          ih (fun f hf f' hf' => hes f (by simp [hf]) f' (by simp [hf'])) (List.cons.inj heq).2
        exact ⟨by simp [herase, hparts], hr⟩

/-- An S-expression is read from its start without a look at what is behind it. -/
theorem separated {e e' : Expr} (he : ∀ n ∈ e.preorder, n.Told) (he' : ∀ n ∈ e'.preorder, n.Told) :
    e.Separated e' := by
  induction e using inductionOnChildren generalizing e' with
  | node e ih =>
    intro rest rest' h
    obtain ⟨hnode, hparts⟩ := forall_preorder.1 he
    obtain ⟨hnode', hparts'⟩ := forall_preorder.1 he'
    rw [sexpr_eq hnode, sexpr_eq hnode', toList_sexprOf, toList_sexprOf] at h
    obtain ⟨htoList, hbody⟩ := eq_of_append_cons_eq e.head.not_mem_symbol e'.head.not_mem_symbol
      (List.cons.inj h).2
    have hsymbol := String.toList_inj.1 htoList
    have hinner' := Head.isInner_eq_of_symbol_eq hsymbol
    cases hinner : e.head.isInner with
    | true =>
      rw [body_of_isInner hinner, body_of_isInner (hinner' ▸ hinner)] at hbody
      obtain ⟨hchildren, hrest⟩ := sexprAll_append_inj
        (fun c hc c' hc' => ih c hc (hparts c hc) (hparts' c' hc')) hbody
      have hhead :=
        head_eq_of_symbol_eq hnode hnode' hsymbol (by simpa using congrArg List.length hchildren)
      exact ⟨erase_eq_of_head_eq hinner hhead hchildren, hrest⟩
    | false =>
      -- a name or a literal, and so is the other node, of the same form
      have hhead : e.head = e'.head := by
        rcases Head.eq_of_symbol_eq hsymbol with h | ⟨h, -⟩ | ⟨h, -⟩
        · exact h
        all_goals rw [h] at hinner; cases hinner
      cases e with
      | atom form text o =>
        cases e' with
        | atom form' text' o' =>
          obtain rfl : form = form' := Head.atom.inj hhead
          obtain ⟨htext, hrest⟩ := hnode.append_inj hnode' form.extendedBy_close hbody
          exact ⟨by rw [erase, erase, String.toList_inj.1 htext], hrest⟩
        | _ => cases hhead
      | block => exact hnode.elim
      | _ => cases hinner

mutual

/-- An S-expression says nothing of places. -/
theorem sexpr_erase : (e : Expr) → e.erase.sexpr = e.sexpr
  | atom .. | block .. => rfl
  | suffixed _ item _ => by simp [erase, sexpr, sexpr_erase item]
  | map item key _ => by simp [erase, sexpr, sexpr_erase item, sexpr_erase key]
  | call callee arguments _ => by simp [erase, sexpr, sexpr_erase callee, sexpr_erase arguments]
  | array elements _ => by simp [erase, sexpr, sexprAll_eraseAll elements]
  | group items _ => by simp [erase, sexpr, sexprAll_eraseAll items]
  | chain _ operands _ => by simp [erase, sexpr, sexprAll_eraseAll operands]
  | unary _ operand _ => by simp [erase, sexpr, sexpr_erase operand]

theorem sexprAll_eraseAll : (es : List Expr) → sexprAll (eraseAll es) = sexprAll es
  | [] => rfl
  | [e] => sexpr_erase e
  | e :: f :: es => by
    rw [eraseAll, sexprAll_cons _ (by simp [eraseAll]), sexprAll_cons _ (by simp), sexpr_erase e,
      sexprAll_eraseAll (f :: es)]

end

end Expr

/-! ## Trees that are read -/

/-- The S-expression of a tree that is read without blocks tells its nodes. -/
theorem Goal.told_of_parseAs {goal : Goal} {text file : String} {e : Expr}
    (h : parseAs goal text file = .ok e)
    (hblocks : ∀ n ∈ e.preorder, n.isDocumentation = false ∧ n.isBlock .multiline = false) :
    ∀ n ∈ e.preorder, n.Told := by
  intro n hn
  have hfits := (Goal.parseAs_spelled h).1 n hn
  have hlegible := Goal.legible_of_parseAs h n hn
  cases n with
  | atom form text o => exact hlegible (.atom form text) (by simp [Expr.leaf])
  | block form lines o =>
    have := hblocks _ hn
    cases form <;> simp [Expr.isDocumentation, Expr.isBlock] at this
  | chain op operands o => exact hfits.1
  | _ => trivial

/-- Two trees that are read, without documentation and back-ticked lines, have the same S-expression
exactly if they are the same up to places. -/
theorem Goal.sexpr_eq_iff (goal goal' : Goal) (text text' file file' : String) (e e' : Expr)
    (h : parseAs goal text file = .ok e) (h' : parseAs goal' text' file' = .ok e')
    (hblocks : ∀ n ∈ e.preorder, n.isDocumentation = false ∧ n.isBlock .multiline = false)
    (hblocks' : ∀ n ∈ e'.preorder, n.isDocumentation = false ∧ n.isBlock .multiline = false) :
    e.sexpr = e'.sexpr ↔ e.alike e' := by
  rw [Expr.alike_iff_erase_eq]
  constructor
  · intro hs
    exact (Expr.separated (told_of_parseAs h hblocks) (told_of_parseAs h' hblocks') [] []
      (by rw [hs])).1
  · intro herase
    rw [← e.sexpr_erase, herase, e'.sexpr_erase]

/-- The parentheses of a group are dumped like a file of items, and those in a string are no
parentheses. -/
theorem Goal.sexpr_eq_iff_call :
    ∃ e e', parseAs .items "f( \")\", - y, )" "" = .ok e ∧
      parseAs .expression "(f(\")\", -y))" "" = .ok e' ∧
      (∀ n ∈ e.preorder, n.isDocumentation = false ∧ n.isBlock .multiline = false) ∧
      (∀ n ∈ e'.preorder, n.isDocumentation = false ∧ n.isBlock .multiline = false) ∧
      e.sexpr = e'.sexpr ∧ e.alike e' := by
  obtain ⟨e, he, hblocks, hsexpr⟩ := exists_of_toOption
    (r := parseAs .items "f( \")\", - y, )" "") (P := fun e =>
      (∀ n ∈ e.preorder, n.isDocumentation = false ∧ n.isBlock .multiline = false) ∧ e.sexpr =
        "(parenthesized (call (identifier f) (parenthesized (stringliteral \")\") (- (identifier y)))))")
    (by decide +kernel)
  obtain ⟨e', he', hblocks', hsexpr'⟩ := exists_of_toOption
    (r := parseAs .expression "(f(\")\", -y))" "") (P := fun e =>
      (∀ n ∈ e.preorder, n.isDocumentation = false ∧ n.isBlock .multiline = false) ∧ e.sexpr =
        "(parenthesized (call (identifier f) (parenthesized (stringliteral \")\") (- (identifier y)))))")
    (by decide +kernel)
  have hs : e.sexpr = e'.sexpr := hsexpr.trans hsexpr'.symm
  exact ⟨e, e', he, he', hblocks, hblocks', hs,
    (Goal.sexpr_eq_iff .items .expression _ _ "" "" e e' he he' hblocks hblocks').1 hs⟩

end DocExpr
