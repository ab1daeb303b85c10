import DocExpr.Proofs.Comments.Source
import DocExpr.Proofs.Documentation

/-!
# Documented item lists

An item list is a group of items. Each item has a name, perhaps with documentation above it, and a
value, perhaps with documentation behind it, which is a name, a number or an item list again
(`ItemLists.Derives`). What documentation is made of is said of its lines alone
(`ItemLists.IsDocumentation`), and what names and numbers are is said of their characters.

Lines are counted in 32 bits, so documentation behind an item can have so many lines that it reaches
around to documentation above the next one (`ItemLists.Apart`, `ItemLists.Clear`).
-/

namespace DocExpr

open Lexeme

namespace ItemLists

/-- Whether a text is a word that is no keyword. -/
def IsName (text : String) : Prop := text.toList.head?.any startsWord ∧
  wordLength text.toList = text.toList.length ∧ ∀ k ∈ Keyword.all, k.spelling ≠ text

instance : DecidablePred IsName := fun _ => inferInstanceAs (Decidable (_ ∧ _ ∧ _))

/-- Whether a text is digits. -/
def IsNumber (text : String) : Prop := text.toList ≠ [] ∧ ∀ c ∈ text.toList, Literal.isDigit c

instance : DecidablePred IsNumber := fun _ => inferInstanceAs (Decidable (_ ∧ _))

/-- Whether lines are those of documentation: at least one, and each of them two slashes and
whatever comes behind them, without line breaks and without blanks around it. -/
def IsDocumentation (lines : List String) : Prop := lines ≠ [] ∧ ∀ line ∈ lines,
  ['/', '/'] <+: line.toList ∧ Text.trim line.toList = line.toList ∧
  ∀ c ∈ line.toList, c ≠ '\n' ∧ c ≠ '\r'

instance : DecidablePred IsDocumentation := fun _ => inferInstanceAs (Decidable (_ ∧ _))

/-- Whether so many lines of documentation, with a blank line behind them, reach around to the line
on which they start. Lines are counted in 32 bits. -/
def wraps (lines : List String) : Bool := UInt32.ofNat (lines.length + 1) = 0

/-- So many lines of documentation, and two lines from the last of them to what is behind the blank
line. -/
theorem wraps_iff {lines : List String} :
    wraps lines ↔ UInt32.ofNat (lines.length - 1 + 2) = 0 := by
  cases lines with
  | nil => decide
  | cons line lines => exact decide_eq_true_iff

/-- What item lists are made of. -/
inductive Part where
  /-- An item list. -/
  | items
  /-- One of the items. -/
  | item
  /-- The name of an item, with documentation above it. -/
  | name
  /-- The value of an item, with documentation behind it. -/
  | content
  /-- A value without documentation. -/
  | value

/-- Whether a tree is a part of an item list. -/
inductive Derives : Part → Expr → Prop where
  | items {items : List Expr} {o : Origin} (h : ∀ e ∈ items, Derives .item e) :
      Derives .items (.group items o)
  | item {name content : Expr} {o : Origin} (hname : Derives .name name)
    (hcontent : Derives .content content) :
    Derives .item (.chain .qualify [name, content] o)
  | name {text : String} {o : Origin} (h : IsName text) : Derives .name (.atom .identifier text o)
  | documentedName {lines : List String} {text : String} {o o' o'' : Origin}
    (hlines : IsDocumentation lines) (h : IsName text) :
      Derives .name (.chain .document [.block .leading lines o, .atom .identifier text o'] o'')
  | content {value : Expr} (h : Derives .value value) : Derives .content value
  | documentedContent {value : Expr} {lines : List String} {o o' : Origin}
    (h : Derives .value value) (hlines : IsDocumentation lines) :
    Derives .content (.chain .document [value, .block .trailing lines o] o')
  | word {text : String} {o : Origin} (h : IsName text) : Derives .value (.atom .identifier text o)
  | number {text : String} {o : Origin} (h : IsNumber text) : Derives .value (.atom .integer text o)
  | nested {e : Expr} (h : Derives .items e) : Derives .value e

/-! ## Documentation that reaches around -/

/-- The documentation above a part of an item list. -/
def above : Part → Expr → List String
  | .item, .chain _ [name, _] _ => above .name name
  | .name, .chain _ [.block _ lines _, _] _ => lines
  | _, _ => []

/-- The documentation behind a part of an item list. -/
def behind : Part → Expr → List String
  | .item, .chain _ [_, content] _ => behind .content content
  | .content, .chain _ [_, .block _ lines _] _ => lines
  | _, _ => []

theorem above_eq_nil {part : Part} (h : part ≠ .item ∧ part ≠ .name) (e : Expr) :
    above part e = [] := by
  unfold above
  split <;> simp_all

theorem behind_eq_nil {part : Part} (h : part ≠ .item ∧ part ≠ .content) (e : Expr) :
    behind part e = [] := by
  unfold behind
  split <;> simp_all

theorem Derives.behind_value {e : Expr} (h : Derives .value e) : behind .content e = [] := by
  cases h with
  | word | number => rfl
  | nested h =>
    cases h
    rfl

/-- Whether documentation behind an item does not reach around to documentation above the next. -/
def Apart (e f : Expr) : Prop := above .item f ≠ [] → wraps (behind .item e) = false

instance : DecidableRel Apart := fun _ _ => inferInstanceAs (Decidable (_ → _))

/-- Whether in no list of a tree documentation reaches around to documentation above the next
item. -/
def Clear (e : Expr) : Prop := ∀ n ∈ e.preorder, n.items.IsChain Apart

instance : DecidablePred Clear := fun _ => inferInstanceAs (Decidable (∀ n ∈ _, _))

theorem clear_atom (form : Atom) (text : String) (o : Origin) : Clear (.atom form text o) := by
  simp [Clear, Expr.preorder, Expr.items]

theorem clear_block (form : Block) (lines : List String) (o : Origin) :
    Clear (.block form lines o) := by
  simp [Clear, Expr.preorder, Expr.items]

theorem clear_chain {op : BinaryOp} {es : List Expr} {o : Origin} :
    Clear (.chain op es o) ↔ ∀ e ∈ es, Clear e :=
  Expr.forall_preorder.trans (and_iff_right (.singleton _))

theorem clear_group {es : List Expr} {o : Origin} :
    Clear (.group es o) ↔ es.IsChain Apart ∧ ∀ e ∈ es, Clear e := Expr.forall_preorder

/-! ## Texts -/

theorem stable_of_isName {text : String} (h : IsName text) :
    Stable (.atom .identifier) text.toList := by
  obtain ⟨hhead, hlength, hkeyword⟩ := h
  cases htext : text.toList with
  | nil => simp [htext] at hhead
  | cons c w =>
    rw [htext] at hhead hlength
    have hc : startsWord c := hhead
    have hedge : isEdge c := by simp [isEdge, continuesWord, hc]
    have hw : wordLength w = w.length := by simpa [wordLength, continuesWord, hc] using hlength
    have hkind : wordKind (c :: w) = .atom .identifier :=
      wordKind_name fun k hk => hkeyword k k.mem_all (String.toList_inj.1 (htext.trans hk).symm)
    refine stable_of_read [] ?_ rfl (isSpace_of_isEdge hedge)
    rw [List.append_nil, read_word hc, hw, List.take_length, hkind]

theorem stable_of_isNumber {text : String} (h : IsNumber text) :
    Stable (.atom .integer) text.toList := by
  obtain ⟨hn, hdigits⟩ := h
  obtain ⟨c, w, htext⟩ := List.exists_cons_of_ne_nil hn
  rw [htext] at hdigits ⊢
  obtain ⟨hc, hw⟩ := List.forall_mem_cons.1 hdigits
  have hedge : isEdge c := by simp [isEdge, continuesWord, hc]
  refine stable_of_read [] ?_ rfl (isSpace_of_isEdge hedge)
  simp [Lexeme.read, hc, List.takeWhile_eq_self_iff.2 hw]

theorem IsDocumentation.hasLine {lines : List String} (h : IsDocumentation lines) :
    ∀ line ∈ lines, Kind.comment.HasLine line := by
  intro line hline
  obtain ⟨⟨w, hw⟩, htrim, hbreak⟩ := h.2 line hline
  have hstable : Stable .comment line.toList := by
    refine stable_comment_iff.2 ⟨w, hw.symm, fun c hc => ?_⟩
    obtain ⟨hfeed, hreturn⟩ := hbreak c (hw ▸ by simp [hc])
    simp [endsLine, hfeed, hreturn]
  have htrimmed := trim_comment hstable
  rwa [htrim] at htrimmed

/-! ## Admissible trees -/

theorem Derives.isItem {part : Part} {e : Expr} (h : Derives part e)
    (hpart : part = .items ∨ part = .value) :
    e.isItem := by
  induction h with
  | items | word | number => rfl
  | nested h ih => exact ih (.inl rfl)
  | _ => simp at hpart

/-- Nothing in the name of an item takes the colon behind it. -/
theorem Derives.fits_name {name : Expr} (h : Derives .name name) :
    name.isChainOf .qualify = false ∧ ∀ p ∈ name.rightSpine, BinaryOp.qualify.left < p := by
  cases h with
  | name => simp [Expr.isChainOf, Expr.rightSpine]
  | documentedName => simp [Expr.isChainOf, Expr.rightSpine, Expr.rightSpineAll]; decide

/-- Nothing in the value of an item takes the colon before it. -/
theorem Derives.fits_content {content : Expr} (h : Derives .content content) :
    ∀ op ∈ content.leftSpine, BinaryOp.qualify.right ≤ op.left := by
  cases h with
  | content hvalue => simp [Expr.leftSpine_of_isItem (hvalue.isItem (.inr rfl))]
  | documentedContent hvalue =>
    simp [Expr.leftSpine, Expr.leftSpineAll, Expr.leftSpine_of_isItem (hvalue.isItem (.inr rfl))]
    decide

/-- Every part of an item list has a text. -/
theorem Derives.admissible {part : Part} {e : Expr} (h : Derives part e) : e.Admissible := by
  induction h with
  | items h ih => exact Expr.admissible_group.2 ih
  | name | word | number => exact Expr.admissible_atom _ _
  | content h ih | nested h ih => exact ih
  | documentedName hlines h =>
    refine Expr.admissible_chain.2 ⟨?_, by simp⟩
    simp [Expr.Fits, Expr.isChainOf, Expr.leftSpine, Expr.rightSpine]
  | documentedContent h hlines ih =>
    have hitem := h.isItem (.inr rfl)
    refine Expr.admissible_chain.2 ⟨⟨by simp, ?_, by simp [Expr.leftSpine], ?_⟩, by simp [ih]⟩
    · simp [Expr.isChainOf_of_isItem hitem]
    · simp [Expr.rightSpine_of_isItem hitem]
  | item hname hcontent ih ih' =>
    obtain ⟨hchain, hspine⟩ := hname.fits_name
    refine Expr.admissible_chain.2 ⟨⟨by simp, ?_, ?_, ?_⟩, by simp [ih, ih']⟩
    · simp [hchain]
    · simpa using hcontent.fits_content
    · simpa using hspine

end ItemLists

end DocExpr
