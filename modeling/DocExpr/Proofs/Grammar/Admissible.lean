import DocExpr.Parse.Machine

/-!
# The grammar of expressions

Which trees have a text (`Expr.Admissible`), and which tokens are the text of a tree
(`Expr.SpelledBy`). Neither mentions the parser. Admissibility is a condition on each node: the
base of what is written behind an item is no operator application, and no operator stands where a
neighbouring one would take its operand away. The latter is said of two spines of a tree: the
operators that can be reached from its start (`Expr.leftSpine`), and the powers over the operand at
its end (`Expr.rightSpine`).

Spelling is said of symbols (`Symbol`), which are tokens without their places and without what the
grammar does not look at. Places have no part in either (`admissible_erase`, `spelledBy_erase`).
-/

namespace DocExpr

/-- What the grammar sees of a token: the text or the lines of a leaf, the kind of any other. -/
inductive Symbol where
  | atom (form : Atom) (text : String)
  | block (form : Block) (lines : List String)
  | kind (k : Kind)
deriving DecidableEq

/-- What the grammar sees of a token. -/
def Token.symbol (t : Token) : Symbol :=
  match t.kind with
  | .atom form => .atom form t.text
  | .block form => .block form t.lines
  | k => .kind k

/-- The symbol of a mark. -/
abbrev Symbol.mark (m : Mark) : Symbol := .kind (.mark m)

/-! ## The symbols of operators and suffixes -/

/-- The kind of token that stands for an operator between operands. -/
def BinaryOp.kind : BinaryOp → Kind
  | qualify => .mark .colon | assign => .mark .equals | defaultValue => .mark .questionColon
  | looseIntersect => .mark .doubleAmpersand | union => .mark .bar | intersect => .mark .ampersand
  | document => .document | logicOr => .keyword .orWord | logicAnd => .keyword .andWord
  | compare => .mark .compare | compareReversed => .mark .compareReversed
  | equal => .mark .doubleEquals | greater => .mark .greater
  | greaterOrEqual => .mark .greaterOrEqual | less => .mark .less
  | lessOrEqual => .mark .lessOrEqual | member => .keyword .inWord
  | instanceOf => .keyword .isWord | matching => .mark .matching
  | notMatching => .mark .notMatching | range => .mark .doubleDot | add => .mark .plus
  | subtract => .mark .dash | multiply => .mark .asterisk | divide => .mark .slash
  | arrow => .mark .rightArrow | field => .mark .dot

/-- The kind of token that stands for an operator before its operand. -/
def UnaryOp.kind : UnaryOp → Kind
  | logicNot => .keyword .notWord
  | negate => .mark .dash

theorem binary?_kind (op : BinaryOp) : op.kind.binary? = some op := by cases op <;> rfl

theorem unary?_kind (op : UnaryOp) : op.kind.unary? = some op := by cases op <;> rfl

theorem kind_of_binary? {k : Kind} {op : BinaryOp} (h : k.binary? = some op) : k = op.kind := by
  unfold Kind.binary? at h
  split at h <;> first | (cases h; rfl) | cases h

theorem kind_of_unary? {k : Kind} {op : UnaryOp} (h : k.unary? = some op) : k = op.kind := by
  unfold Kind.unary? at h
  split at h <;> first | (cases h; rfl) | cases h

theorem postfixed?_kind (op : BinaryOp) : op.kind.postfixed? = none := by cases op <;> rfl

/-- The symbols of what is written for a suffix. -/
def Suffix.symbols : Suffix → List Symbol
  | array => [.mark .leftBracket, .mark .rightBracket]
  | list => [.mark .leftBracket, .mark .semicolon, .mark .rightBracket]
  | optional => [.mark .question]
  | set => [.mark .leftBrace, .mark .rightBrace]

theorem Token.symbol_eq_kind {t : Token} {k : Kind} (ha : ∀ form, k ≠ .atom form)
    (hb : ∀ form, k ≠ .block form) : t.symbol = .kind k ↔ t.kind = k := by
  obtain ⟨kind, text, o⟩ := t
  cases kind <;> simp [symbol] <;> rintro rfl
  · exact ha _ rfl
  · exact hb _ rfl

theorem Token.symbol_eq_mark {t : Token} {m : Mark} : t.symbol = .mark m ↔ t.kind = .mark m :=
  symbol_eq_kind (by simp) (by simp)

theorem Token.symbol_eq_binary {t : Token} {op : BinaryOp} :
    t.symbol = .kind op.kind ↔ t.kind = op.kind :=
  symbol_eq_kind (by cases op <;> simp [BinaryOp.kind]) (by cases op <;> simp [BinaryOp.kind])

theorem Token.symbol_eq_unary {t : Token} {op : UnaryOp} :
    t.symbol = .kind op.kind ↔ t.kind = op.kind :=
  symbol_eq_kind (by cases op <;> simp [UnaryOp.kind]) (by cases op <;> simp [UnaryOp.kind])

theorem Token.symbol_eq_atom {t : Token} {form : Atom} {text : String} :
    t.symbol = .atom form text ↔ t.kind = .atom form ∧ t.text = text := by
  obtain ⟨kind, text', o⟩ := t
  cases kind <;> simp [symbol]

theorem Token.symbol_eq_block {t : Token} {form : Block} {lines : List String} :
    t.symbol = .block form lines ↔ t.kind = .block form ∧ t.lines = lines := by
  obtain ⟨kind, text', o⟩ := t
  cases kind <;> simp [symbol]

namespace Expr

/-! ## Spelling -/

mutual

/-- Whether symbols are the text of a tree. The items of a group may have a comma behind the
last. -/
def SpelledBy : Expr → List Symbol → Prop
  | atom form text _, s => s = [.atom form text]
  | block form lines _, s => s = [.block form lines]
  | suffixed form item _, s => ∃ u, SpelledBy item u ∧ s = u ++ form.symbols
  | map item key _, s => ∃ u v, SpelledBy item u ∧ SpelledBy key v ∧
      s = u ++ .mark .leftBrace :: (v ++ [.mark .rightBrace])
  | call callee arguments _, s => ∃ u v, SpelledBy callee u ∧ SpelledBy arguments v ∧ s = u ++ v
  | array elements _, s => ∃ u, JoinedBy (.mark .comma) elements u ∧
      s = .mark .leftBracket :: (u ++ [.mark .rightBracket])
  | group items _, s => ∃ u, JoinedBy (.mark .comma) items u ∧
      (s = .mark .leftParenthesis :: (u ++ [.mark .rightParenthesis]) ∨
        items ≠ [] ∧
          s = .mark .leftParenthesis :: (u ++ [.mark .comma, .mark .rightParenthesis]))
  | chain op operands _, s => JoinedBy (.kind op.kind) operands s
  | unary op operand _, s => ∃ u, SpelledBy operand u ∧ s = .kind op.kind :: u

/-- Whether symbols are the texts of trees, with a separator between each two. -/
def JoinedBy (separator : Symbol) : List Expr → List Symbol → Prop
  | [], s => s = []
  | [e], s => SpelledBy e s
  | e :: es, s => ∃ u v, SpelledBy e u ∧ JoinedBy separator es v ∧ s = u ++ separator :: v

end

/-! ## Admissible trees -/

mutual

/-- The operators that can be reached from the start of a tree: of the tree itself, of its first
operand, of the first operand of that, and so on. -/
def leftSpine : Expr → List BinaryOp
  | chain op operands _ => op :: leftSpineAll operands
  | _ => []

/-- The left spine of the first of some trees. -/
def leftSpineAll : List Expr → List BinaryOp
  | [] => []
  | e :: _ => leftSpine e

end

mutual

/-- The powers over the operand at the end of a tree: of the operator of the tree itself, of its
last operand, of the last operand of that, and so on. -/
def rightSpine : Expr → List Nat
  | chain op operands _ => op.right :: rightSpineAll operands
  | unary op operand _ => op.power :: rightSpine operand
  | _ => []

/-- The right spine of the last of some trees. -/
def rightSpineAll : List Expr → List Nat
  | [] => []
  | [e] => rightSpine e
  | _ :: es => rightSpineAll es

end

/-- Whether a tree is no operator application. -/
def isItem : Expr → Bool
  | chain .. | unary .. => false
  | _ => true

/-- Whether a tree is a chain of an operator. -/
def isChainOf (op : BinaryOp) : Expr → Bool
  | chain op' _ _ => op' = op
  | _ => false

/-- Whether a tree is a group. -/
def isGroup : Expr → Bool
  | group .. => true
  | _ => false

/-- What makes a node admissible, apart from its parts being so. -/
def Fits : Expr → Prop
  | suffixed _ item _ => item.isItem
  | map item _ _ => item.isItem
  | call callee arguments _ => callee.isItem ∧ arguments.isGroup
  | chain op operands _ =>
    2 ≤ operands.length ∧ (∀ e ∈ operands.head?, ¬e.isChainOf op) ∧
      (∀ e ∈ operands.tail, ∀ op' ∈ e.leftSpine, op.right ≤ op'.left) ∧
      ∀ e ∈ operands.dropLast, ∀ p ∈ e.rightSpine, op.left < p
  | unary op operand _ => ∀ op' ∈ operand.leftSpine, op.power ≤ op'.left
  | _ => True

/-- Whether a tree has a text from which it can be read. -/
def Admissible (e : Expr) : Prop := ∀ n ∈ e.preorder, n.Fits

theorem admissible_iff (e : Expr) : e.Admissible ↔ e.Fits ∧ ∀ c ∈ e.children, c.Admissible := by
  simp only [Admissible, preorder_eq e, List.mem_cons, List.mem_flatMap, forall_eq_or_imp]
  constructor
  · rintro ⟨h, hc⟩
    exact ⟨h, fun c hm n hn => hc n ⟨c, hm, hn⟩⟩
  · rintro ⟨h, hc⟩
    exact ⟨h, fun n ⟨c, hm, hn⟩ => hc c hm n hn⟩

theorem Admissible.fits {e : Expr} (h : e.Admissible) : e.Fits := ((admissible_iff e).1 h).1

theorem Admissible.child {e c : Expr} (h : e.Admissible) (hc : c ∈ e.children) : c.Admissible :=
  ((admissible_iff e).1 h).2 c hc

section Forms

variable {form : Suffix} {item key callee arguments operand : Expr} {es : List Expr} {o : Origin}

@[simp] theorem admissible_atom (form : Atom) (text : String) :
    (atom form text o).Admissible := by
  simp [admissible_iff (atom ..), Fits, children]

@[simp] theorem admissible_block (form : Block) (lines : List String) :
    (block form lines o).Admissible := by
  simp [admissible_iff (block ..), Fits, children]

@[simp] theorem admissible_suffixed :
    (suffixed form item o).Admissible ↔ item.isItem ∧ item.Admissible := by
  simp [admissible_iff (suffixed ..), Fits, children]

@[simp] theorem admissible_map :
    (map item key o).Admissible ↔ item.isItem ∧ item.Admissible ∧ key.Admissible := by
  simp [admissible_iff (map ..), Fits, children]

@[simp] theorem admissible_call : (call callee arguments o).Admissible ↔
    (callee.isItem ∧ arguments.isGroup) ∧ callee.Admissible ∧ arguments.Admissible := by
  simp [admissible_iff (call ..), Fits, children]

@[simp] theorem admissible_array : (array es o).Admissible ↔ ∀ e ∈ es, e.Admissible := by
  simp [admissible_iff (array ..), Fits, children]

@[simp] theorem admissible_group : (group es o).Admissible ↔ ∀ e ∈ es, e.Admissible := by
  simp [admissible_iff (group ..), Fits, children]

theorem admissible_chain {op : BinaryOp} :
    (chain op es o).Admissible ↔ (chain op es o).Fits ∧ ∀ e ∈ es, e.Admissible :=
  admissible_iff _

@[simp] theorem admissible_unary {op : UnaryOp} : (unary op operand o).Admissible ↔
    (∀ op' ∈ operand.leftSpine, op.power ≤ op'.left) ∧ operand.Admissible := by
  simp [admissible_iff (unary ..), Fits, children]

end Forms

theorem exists_cons_cons {es : List Expr} (h : 2 ≤ es.length) : ∃ e f fs, es = e :: f :: fs := by
  rcases es with _ | ⟨e, _ | ⟨f, fs⟩⟩
  · simp at h
  · simp at h
  · exact ⟨e, f, fs, rfl⟩

theorem sizeOf_lt_of_mem_children {e c : Expr} (h : c ∈ e.children) : sizeOf c < sizeOf e := by
  cases e <;> simp only [children, List.mem_cons, List.not_mem_nil, or_false] at h
  case array | group | chain => have := List.sizeOf_lt_of_mem h; simp; omega
  case map | call => rcases h with rfl | rfl <;> simp <;> omega
  all_goals subst h; simp; omega

/-- What holds of a tree whenever it holds of its parts, holds of every tree. -/
theorem inductionOnChildren {motive : Expr → Prop}
    (node : ∀ e, (∀ c ∈ e.children, motive c) → motive e) (e : Expr) : motive e :=
  node e fun c _ => inductionOnChildren node c
termination_by sizeOf e
decreasing_by exact sizeOf_lt_of_mem_children ‹_›

theorem leftSpine_of_isItem {e : Expr} (h : e.isItem) : e.leftSpine = [] := by
  cases e <;> simp_all [isItem, leftSpine]

theorem rightSpine_of_isItem {e : Expr} (h : e.isItem) : e.rightSpine = [] := by
  cases e <;> simp_all [isItem, rightSpine]

theorem isChainOf_of_isItem {e : Expr} {op : BinaryOp} (h : e.isItem) : e.isChainOf op = false := by
  cases e <;> simp_all [isItem, isChainOf]

theorem leftSpineAll_append {es : List Expr} (h : es ≠ []) (fs : List Expr) :
    leftSpineAll (es ++ fs) = leftSpineAll es := by
  cases es with
  | nil => exact absurd rfl h
  | cons e es => rfl

theorem rightSpineAll_concat (es : List Expr) (e : Expr) :
    rightSpineAll (es ++ [e]) = rightSpine e := by
  induction es with
  | nil => rfl
  | cons f es ih => cases es <;> exact ih

/-! ## Places do not matter -/

mutual

@[simp] theorem erase_erase : (e : Expr) → e.erase.erase = e.erase
  | atom .. | block .. => rfl
  | suffixed _ item _ => by simp [erase, erase_erase item]
  | map item key _ => by simp [erase, erase_erase item, erase_erase key]
  | call callee arguments _ => by simp [erase, erase_erase callee, erase_erase arguments]
  | array elements _ => by simp [erase, eraseAll_eraseAll elements]
  | group items _ => by simp [erase, eraseAll_eraseAll items]
  | chain _ operands _ => by simp [erase, eraseAll_eraseAll operands]
  | unary _ operand _ => by simp [erase, erase_erase operand]

@[simp] theorem eraseAll_eraseAll : (es : List Expr) → eraseAll (eraseAll es) = eraseAll es
  | [] => rfl
  | e :: es => by simp [eraseAll, erase_erase e, eraseAll_eraseAll es]

end

mutual

theorem leftSpine_erase : (e : Expr) → e.erase.leftSpine = e.leftSpine
  | chain op operands _ => by simp [erase, leftSpine, leftSpineAll_eraseAll operands]
  | atom .. | block .. | suffixed .. | map .. | call .. | array .. | group .. | unary .. => by
    simp [erase, leftSpine]

theorem leftSpineAll_eraseAll : (es : List Expr) → leftSpineAll (eraseAll es) = leftSpineAll es
  | [] => rfl
  | e :: _ => leftSpine_erase e

end

mutual

theorem rightSpine_erase : (e : Expr) → e.erase.rightSpine = e.rightSpine
  | chain op operands _ => by simp [erase, rightSpine, rightSpineAll_eraseAll operands]
  | unary op operand _ => by simp [erase, rightSpine, rightSpine_erase operand]
  | atom .. | block .. | suffixed .. | map .. | call .. | array .. | group .. => by
    simp [erase, rightSpine]

theorem rightSpineAll_eraseAll : (es : List Expr) → rightSpineAll (eraseAll es) = rightSpineAll es
  | [] => rfl
  | [e] => rightSpine_erase e
  | _ :: e :: es => rightSpineAll_eraseAll (e :: es)

end

@[simp] theorem isItem_erase (e : Expr) : e.erase.isItem = e.isItem := by cases e <;> rfl

@[simp] theorem isGroup_erase (e : Expr) : e.erase.isGroup = e.isGroup := by cases e <;> rfl

@[simp] theorem isChainOf_erase (op : BinaryOp) (e : Expr) :
    e.erase.isChainOf op = e.isChainOf op := by cases e <;> rfl

@[simp] theorem children_erase (e : Expr) : e.erase.children = e.children.map erase := by
  cases e <;> simp [erase, children, eraseAll_eq_map]

theorem fits_erase (e : Expr) : e.erase.Fits ↔ e.Fits := by
  cases e with
  | chain op operands o =>
    simp only [erase, Fits, eraseAll_eq_map, List.length_map, List.head?_map, ← List.map_tail,
      ← List.map_dropLast, List.forall_mem_map, leftSpine_erase, rightSpine_erase]
    cases operands <;> simp
  | _ => simp [erase, Fits, leftSpine_erase]

/-- Whether a tree is admissible does not depend on places. -/
theorem admissible_erase (e : Expr) : e.erase.Admissible ↔ e.Admissible := by
  induction e using inductionOnChildren with
  | node e ih =>
    rw [admissible_iff, admissible_iff e, fits_erase, children_erase, List.forall_mem_map]
    exact and_congr_right fun _ => forall₂_congr ih

mutual

/-- How a tree is spelled does not depend on places. -/
theorem spelledBy_erase : (e : Expr) → (s : List Symbol) → (e.erase.SpelledBy s ↔ e.SpelledBy s)
  | atom .., _ | block .., _ => by simp [erase, SpelledBy]
  | suffixed form item _, s => by simp [erase, SpelledBy, spelledBy_erase item]
  | map item key _, s => by simp [erase, SpelledBy, spelledBy_erase item, spelledBy_erase key]
  | call callee arguments _, s => by
    simp [erase, SpelledBy, spelledBy_erase callee, spelledBy_erase arguments]
  | array elements _, s => by simp [erase, SpelledBy, joinedBy_eraseAll elements]
  | group items _, s => by
    have h : eraseAll items ≠ [] ↔ items ≠ [] := by simp [eraseAll_eq_map]
    simp only [erase, SpelledBy, joinedBy_eraseAll items, h]
  | chain op operands _, s => by simp [erase, SpelledBy, joinedBy_eraseAll operands]
  | unary op operand _, s => by simp [erase, SpelledBy, spelledBy_erase operand]

theorem joinedBy_eraseAll : (es : List Expr) → (separator : Symbol) → (s : List Symbol) →
    (JoinedBy separator (eraseAll es) s ↔ JoinedBy separator es s)
  | [], _, _ => Iff.rfl
  | [e], _, s => spelledBy_erase e s
  | e :: f :: es, separator, s => by
    have ih := joinedBy_eraseAll (f :: es) separator
    simp only [eraseAll] at ih
    simp only [eraseAll, JoinedBy, spelledBy_erase e, ih]

end

end Expr

end DocExpr
