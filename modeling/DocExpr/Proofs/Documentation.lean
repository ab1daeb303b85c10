import DocExpr.Proofs.Grammar.Neighbours
import DocExpr.Proofs.Leaves
import DocExpr.Proofs.Stream.Documented

/-!
# What documentation is attached to

A tree is *well documented* if documentation stands in document chains only, above or behind the one
thing that they document (`Expr.WellDocumented`). Documentation is attached by precedence alone, so
an operator that binds tighter than the document operator can take it as an operand instead. It does
so exactly if it stands directly before a leading block or directly behind a trailing one; and a
chain documents nothing exactly if it joins a leading block to a trailing one (`Kind.Unclaimed`). So
it can be told from the tokens of a source text whether its tree is well documented
(`Goal.wellDocumented_iff`).
-/

namespace DocExpr

/-! ## Well documented trees -/

namespace Expr

/-- Whether a node is a block of a form. -/
def isBlock (b : Block) : Expr → Bool
  | block b' .. => b' = b
  | _ => false

/-- Whether a node is documentation. -/
def isDocumentation (e : Expr) : Bool := e.isBlock .leading || e.isBlock .trailing

/-- Whether operands are documentation above something, one thing that is no documentation itself,
and documentation behind it. -/
def Documents (es : List Expr) : Prop := ∃ above e behind, es = above ++ e :: behind ∧
  (∀ d ∈ above, d.isBlock .leading) ∧ e.isDocumentation = false ∧ ∀ d ∈ behind, d.isBlock .trailing

theorem documents_iff {es : List Expr} : Documents es ↔
    ∃ e ∈ (es.dropWhile (isBlock .leading)).head?, e.isDocumentation = false ∧
      ∀ d ∈ (es.dropWhile (isBlock .leading)).tail, d.isBlock .trailing := by
  constructor
  · rintro ⟨above, e, behind, rfl, habove, he, hbehind⟩
    have hleading : e.isBlock .leading = false := by simp_all [isDocumentation]
    rw [List.dropWhile_append_of_pos habove, List.dropWhile_cons_of_neg (by simp [hleading])]
    exact ⟨e, rfl, he, hbehind⟩
  · rintro ⟨e, hhead, he, hbehind⟩
    obtain ⟨behind, hdrop⟩ := List.head?_eq_some_iff.1 hhead
    refine ⟨es.takeWhile (isBlock .leading), e, behind, ?_,
      List.all_eq_true.1 List.all_takeWhile, he, ?_⟩
    · rw [← hdrop, List.takeWhile_append_dropWhile]
    · simpa [hdrop] using hbehind

instance : DecidablePred Documents := fun _ => decidable_of_iff _ documents_iff.symm

/-- Whether the operands of a document chain document one of them, and no other node has
documentation as a part. -/
def Attaches (e : Expr) : Prop :=
  if e.isChainOf .document then
    Documents e.children else ∀ c ∈ e.children, c.isDocumentation = false

instance : DecidablePred Attaches := fun _ => inferInstanceAs (Decidable (ite _ _ _))

/-- Whether all documentation of a tree is attached to what it documents. -/
def WellDocumented (e : Expr) : Prop := e.isDocumentation = false ∧ ∀ n ∈ e.preorder, n.Attaches

instance : DecidablePred WellDocumented := fun _ => inferInstanceAs (Decidable (_ ∧ _))

theorem forall_preorder {P : Expr → Prop} {e : Expr} :
    (∀ n ∈ e.preorder, P n) ↔ P e ∧ ∀ c ∈ e.children, ∀ n ∈ c.preorder, P n := by
  rw [preorder_eq]
  simp only [List.mem_cons, List.mem_flatMap, forall_eq_or_imp]
  exact and_congr_right fun _ =>
    ⟨fun h c hc n hn => h n ⟨c, hc, hn⟩, fun h n ⟨c, hc, hn⟩ => h c hc n hn⟩

theorem attaches_iff {e : Expr} (h : e.isChainOf .document = false) :
    e.Attaches ↔ ∀ c ∈ e.children, c.isDocumentation = false := by
  rw [Attaches, if_neg (by simp [h])]

theorem eq_of_isBlock {e : Expr} {b b' : Block} (h : e.isBlock b) (h' : e.isBlock b') : b = b' := by
  cases e with
  | block form => exact (of_decide_eq_true h).symm.trans (of_decide_eq_true h')
  | _ => cases h

theorem isDocumentation_of_isBlock {e : Expr} (h : e.isBlock .leading ∨ e.isBlock .trailing) :
    e.isDocumentation := by
  simpa [isDocumentation] using h

/-- Operands document one of them if each two that are side by side are documentation and something
else, in either order, and neither end is documentation of what is beyond it. -/
theorem documents_of_isChain {e : Expr} {es : List Expr}
    (hchain : (e :: es).IsChain fun e f => (e.isBlock .leading ∨ f.isBlock .trailing) ∧
      ¬(e.isBlock .leading ∧ f.isBlock .trailing))
    (hfirst : e.isBlock .trailing = false)
    (hlast : ∀ f ∈ (e :: es).getLast?, f.isBlock .leading = false) :
    Documents (e :: es) := by
  induction es generalizing e with
  | nil => exact ⟨[], e, [], rfl, by simp, by simp [isDocumentation, hfirst, hlast e rfl], by simp⟩
  | cons f es ih =>
    obtain ⟨⟨hor, hnand⟩, hrest⟩ := List.isChain_cons_cons.1 hchain
    rw [List.getLast?_cons_cons] at hlast
    by_cases he : e.isBlock .leading
    · obtain ⟨above, d, behind, heq, habove, hd, hbehind⟩ :=
        ih hrest (by simpa [he] using hnand) hlast
      exact ⟨e :: above, d, behind, by rw [heq]; rfl, List.forall_mem_cons.2 ⟨he, habove⟩,
        hd, hbehind⟩
    · have hbehind : ∀ d ∈ f :: es, d.isBlock .trailing := by
        refine hrest.induction _ _ (fun {x y} hxy hx => hxy.1.resolve_left fun hl => ?_) fun _ =>
          hor.resolve_left he
        cases eq_of_isBlock hl hx
      exact ⟨[], e, f :: es, rfl, by simp, by simp [isDocumentation, hfirst, he], hbehind⟩

end Expr

/-! ## Operators that take documentation -/

/-- Whether an operator binds tighter than the document operator. -/
def BinaryOp.isTight (op : BinaryOp) : Bool := document.right ≤ op.left

theorem BinaryOp.isTight_of_lt {op : BinaryOp} (h : document.left < op.right)
    (hop : op ≠ .document) :
    op.isTight := by
  cases op <;> revert h hop <;> decide

theorem BinaryOp.lt_right_of_isTight {op : BinaryOp} (h : op.isTight) :
    document.left < op.right := by
  cases op <;> revert h <;> decide

theorem UnaryOp.right_le_power (op : UnaryOp) : BinaryOp.document.right ≤ op.power := by
  cases op <;> decide

namespace Kind

/-- Whether a token takes what is behind it as an operand before the document operator can. -/
def takesBehind (k : Kind) : Bool := k.unary?.isSome || k.binary?.any BinaryOp.isTight

/-- Whether a token takes what is before it as an operand before the document operator can. -/
def takesBefore (k : Kind) : Bool := k.postfixed?.isSome || k.binary?.any BinaryOp.isTight

/-- Whether nothing beside a token keeps documentation from what it documents: no neighbour takes
documentation as an operand, and no document operator has documentation on both sides. -/
def Unclaimed (before : Option Kind) (k : Kind) (behind : Option Kind) : Prop :=
  match k with
  | .block .leading => before.any takesBehind = false
  | .block .trailing => behind.any takesBefore = false
  | .document => ¬(before = some (.block .leading) ∧ behind = some (.block .trailing))
  | _ => True

instance (before : Option Kind) (k : Kind) (behind : Option Kind) :
    Decidable (Unclaimed before k behind) := by
  unfold Unclaimed
  split <;> infer_instance

/-- Whether the document operator stands beside documentation, and documentation beside it. -/
def Joined (before : Option Kind) (k : Kind) (behind : Option Kind) : Prop :=
  match k with
  | .block .leading => behind = some .document
  | .block .trailing => before = some .document
  | .document => before = some (.block .leading) ∨ behind = some (.block .trailing)
  | _ => True

theorem takesBehind_kind (op : BinaryOp) : op.kind.takesBehind = op.isTight := by cases op <;> rfl

theorem takesBefore_kind (op : BinaryOp) : op.kind.takesBefore = op.isTight := by cases op <;> rfl

theorem takesBehind_unary (op : UnaryOp) : op.kind.takesBehind := by
  simp [takesBehind, unary?_kind]

theorem indifferent_unclaimed : Indifferent Unclaimed where
  comma _ _ := trivial
  opening _ _ := trivial
  closing _ _ := trivial
  before k c := by
    unfold Unclaimed
    split <;> simp [takesBehind, unary?, binary?]
  behind a k := by
    unfold Unclaimed
    split <;> simp [takesBefore, postfixed?, binary?]
  closed a k := by
    unfold Unclaimed
    split <;> simp [takesBefore, postfixed?, binary?]

theorem indifferent_joined : Indifferent Joined where
  comma _ _ := trivial
  opening _ _ := trivial
  closing _ _ := trivial
  before k c := by unfold Joined; split <;> simp
  behind a k := by unfold Joined; split <;> simp
  closed a k := by unfold Joined; split <;> simp

/-- Where documentation stands in a stream, it stands beside its operators. -/
theorem neighbours_joined {ks : List Kind} (h : Documented ks) (a c : Option Kind) :
    Neighbours Joined a ks c := by
  induction h generalizing a with
  | nil => trivial
  | @plain k ks hk h ih =>
    refine ⟨?_, ih _⟩
    unfold Joined
    split <;> first | cases hk | trivial
  | leading h ih => exact ⟨rfl, .inl rfl, ih _⟩
  | trailing h ih => exact ⟨.inr rfl, rfl, ih _⟩
  | both h ih => exact ⟨rfl, .inl rfl, rfl, ih _⟩

end Kind

/-! ## The ends of a text -/

namespace Expr

theorem isDocumentation_eq {e : Expr} {b : Block} (hb : b ≠ .multiline) (h : e.isBlock b) :
    e.isDocumentation := by
  cases b with
  | multiline => exact absurd rfl hb
  | leading => exact isDocumentation_of_isBlock (.inl h)
  | trailing => exact isDocumentation_of_isBlock (.inr h)

theorem Attaches.not_isBlock {e c : Expr} {b : Block} (he : e.Attaches)
    (hop : e.isChainOf .document = false) (hc : c ∈ e.children) (hb : b ≠ .multiline) :
    ¬c.isBlock b := by
  intro h
  have hdoc := isDocumentation_eq hb h
  rw [(attaches_iff hop).1 he c hc] at hdoc
  cases hdoc

/-- Only documentation, or what is documented by it, starts with documentation. -/
theorem head?_eq_block {e : Expr} {b : Block} (he : e.Admissible)
    (hd : ∀ n ∈ e.preorder, n.Attaches) (hb : b ≠ .multiline)
    (h : e.kinds.head? = some (.block b)) :
    e.isBlock b ∨ b = .leading ∧ .document ∈ e.leftSpine := by
  induction e using inductionOnChildren with
  | node e ih =>
    obtain ⟨hattach, hparts⟩ := forall_preorder.1 hd
    -- what an item starts with, what it is wrapped in starts with
    have item : ∀ c ∈ e.children, c.isItem → e.isChainOf .document = false →
        c.kinds.head? = some (.block b) → False := by
      intro c hc hitem hop hhead
      rcases ih c hc (he.child hc) (hparts c hc) hhead with hblock | ⟨-, hspine⟩
      · exact hattach.not_isBlock hop hc hb hblock
      · rw [leftSpine_of_isItem hitem] at hspine
        cases hspine
    cases e with
    | atom | array | group => simp at h
    | block form lines o => exact .inl (by simpa [isBlock] using h)
    | suffixed form f o =>
      obtain ⟨hitem, hf⟩ := admissible_suffixed.1 he
      exact absurd ((head?_kinds_suffixed hf).symm.trans h) (item f (by simp [children]) hitem rfl)
    | map f key o =>
      obtain ⟨hitem, hf, -⟩ := admissible_map.1 he
      exact absurd ((head?_kinds_map hf).symm.trans h) (item f (by simp [children]) hitem rfl)
    | call f arguments o =>
      obtain ⟨⟨hitem, -⟩, hf, -⟩ := admissible_call.1 he
      exact absurd ((head?_kinds_call hf).symm.trans h) (item f (by simp [children]) hitem rfl)
    | unary op f o => cases op <;> simp [UnaryOp.kind] at h
    | chain op es o =>
      obtain ⟨⟨hlen, -⟩, hes⟩ := admissible_chain.1 he
      obtain ⟨f, g, fs, rfl⟩ := exists_cons_cons hlen
      have hf := hes f (by simp)
      have hhead : f.kinds.head? = some (.block b) := (head?_kinds_chain hf).symm.trans h
      rcases ih f (by simp [children]) hf (hparts f (by simp [children])) hhead with
        hblock | ⟨hb, hspine⟩
      · by_cases hop : op = .document
        · subst hop
          obtain ⟨above, d, behind, heq, habove, hd, -⟩ := hattach
          rcases above with _ | ⟨l, above⟩
          · obtain ⟨rfl, -⟩ := List.cons.inj heq
            rw [isDocumentation_eq hb hblock] at hd
            cases hd
          · obtain ⟨rfl, -⟩ := List.cons.inj heq
            exact .inr ⟨eq_of_isBlock hblock (habove f (by simp)), by simp [leftSpine]⟩
        · exact absurd hblock
            (hattach.not_isBlock (by simpa [isChainOf] using hop) (by simp [children]) hb)
      · exact .inr ⟨hb, by simp [leftSpine, leftSpineAll, hspine]⟩

/-- Only documentation, or what is documented by it, ends in documentation. -/
theorem getLast?_eq_block {e : Expr} {b : Block} (he : e.Admissible)
    (hd : ∀ n ∈ e.preorder, n.Attaches) (hb : b ≠ .multiline)
    (h : e.kinds.getLast? = some (.block b)) :
    e.isBlock b ∨ b = .trailing ∧ BinaryOp.document.right ∈ e.rightSpine := by
  induction e using inductionOnChildren with
  | node e ih =>
    obtain ⟨hattach, hparts⟩ := forall_preorder.1 hd
    cases e with
    | atom => simp at h
    | block form lines o => exact .inl (by simpa [isBlock] using h)
    | suffixed form f o => cases form <;> simp [Suffix.symbols, Symbol.tokenKind] at h
    | map | array | group => simp [List.getLast?_cons] at h
    | call f arguments o =>
      obtain ⟨⟨-, hgroup⟩, -⟩ := admissible_call.1 he
      cases arguments with
      | group items o => simp [List.getLast?_append, List.getLast?_cons] at h
      | _ => cases hgroup
    | unary op f o =>
      obtain ⟨-, hf⟩ := admissible_unary.1 he
      rw [getLast?_kinds_unary hf] at h
      rcases ih f (by simp [children]) hf (hparts f (by simp [children])) h with
        hblock | ⟨hb, hspine⟩
      · exact absurd hblock (hattach.not_isBlock rfl (by simp [children]) hb)
      · exact .inr ⟨hb, by simp [rightSpine, hspine]⟩
    | chain op es o =>
      obtain ⟨⟨hlen, -⟩, hes⟩ := admissible_chain.1 he
      obtain rfl | ⟨fs, f, rfl⟩ := List.eq_nil_or_concat' es
      · simp at hlen
      have hf := hes f (by simp)
      rw [getLast?_kinds_chain hf] at h
      rcases ih f (by simp [children]) hf (hparts f (by simp [children])) h with
        hblock | ⟨hb, hspine⟩
      · by_cases hop : op = .document
        · subst hop
          obtain ⟨above, d, behind, heq, -, hd, hbehind⟩ := hattach
          obtain rfl | ⟨behind, t, rfl⟩ := List.eq_nil_or_concat' behind
          · obtain ⟨-, hfd⟩ := List.append_inj' heq rfl
            obtain rfl := List.singleton_inj.1 hfd
            rw [isDocumentation_eq hb hblock] at hd
            cases hd
          · rw [← List.cons_append, ← List.append_assoc] at heq
            obtain ⟨-, hft⟩ := List.append_inj' heq rfl
            obtain rfl := List.singleton_inj.1 hft
            exact .inr ⟨eq_of_isBlock hblock (hbehind f (by simp)), by simp [rightSpine]⟩
        · exact absurd hblock
            (hattach.not_isBlock (by simpa [isChainOf] using hop) (by simp [children]) hb)
      · exact .inr ⟨hb, by simp [rightSpine, rightSpineAll_concat, hspine]⟩

end Expr

/-! ## From tokens to trees -/

/-- Whether nothing beside a token keeps documentation from what it documents, with operators where
they should be. -/
def Kind.Settled (a : Option Kind) (k : Kind) (c : Option Kind) : Prop :=
  Joined a k c ∧ Unclaimed a k c

namespace Expr

/-- Whether a document operator before a tree leaves the operators of the tree their operands. -/
def FreeBefore (a : Option Kind) (e : Expr) : Prop :=
  a = some .document → ∀ op ∈ e.leftSpine, op.isTight

/-- Whether a document operator behind a tree leaves the operators of the tree their operands, and
does not continue the tree. -/
def FreeBehind (c : Option Kind) (e : Expr) : Prop :=
  c = some .document → e.isChainOf .document = false ∧
    ∀ p ∈ e.rightSpine, BinaryOp.document.left < p

variable {e : Expr} {a c : Option Kind}

theorem freeBefore_of_isItem (h : e.isItem) : e.FreeBefore a := by
  simp [FreeBefore, leftSpine_of_isItem h]

theorem freeBehind_of_isItem (h : e.isItem) : e.FreeBehind c := by
  intro _
  rw [rightSpine_of_isItem h]
  exact ⟨isChainOf_of_isItem h, by simp⟩

/-- What starts with a tight operator at the left is no document chain. -/
theorem isChainOf_document_of_isTight (h : ∀ op ∈ e.leftSpine, op.isTight) :
    e.isChainOf .document = false := by
  cases e with
  | chain op es o =>
    have hop := h op (by simp [leftSpine])
    cases op <;> first | rfl | cases hop
  | _ => rfl

theorem isBlock_leading_of_neighbours (h : Neighbours Kind.Settled a e.kinds c)
    (hc : c ≠ some .document) :
    e.isBlock .leading = false := by
  cases e with
  | block form lines o =>
    cases form with
    | leading => exact absurd h.1.1 hc
    | _ => rfl
  | _ => rfl

theorem isBlock_trailing_of_neighbours (h : Neighbours Kind.Settled a e.kinds c)
    (ha : a ≠ some .document) :
    e.isBlock .trailing = false := by
  cases e with
  | block form lines o =>
    cases form with
    | trailing => exact absurd h.1.1 ha
    | _ => rfl
  | _ => rfl

/-- A part is no documentation if a document operator beside it is on the other side of an operator
that takes the part. -/
theorem isDocumentation_of_neighbours (h : Neighbours Kind.Settled a e.kinds c)
    (hbefore : a = some .document → c.any Kind.takesBefore)
    (hbehind : c = some .document → a.any Kind.takesBehind) : e.isDocumentation = false := by
  cases e with
  | block form lines o =>
    cases form with
    | leading =>
      have hjoined : c = some .document := h.1.1
      have hunclaimed : a.any Kind.takesBehind = false := h.1.2
      rw [hbehind hjoined] at hunclaimed
      cases hunclaimed
    | trailing =>
      have hjoined : a = some .document := h.1.1
      have hunclaimed : c.any Kind.takesBefore = false := h.1.2
      rw [hbefore hjoined] at hunclaimed
      cases hunclaimed
    | multiline => rfl
  | _ => rfl

/-- Of parts with separators between them and something around them, none is beside a document
operator if none of these is one. -/
theorem exists_neighbours_part {P : Option Kind → Kind → Option Kind → Prop} {k l r : Kind}
    {es : List Expr} (hes : ∀ e ∈ es, e.Admissible) (hk : k ≠ .document) (hl : l ≠ .document)
    (hr : r ≠ .document) (h : Neighbours P (some l) (kindsAll k es) (some r)) :
    ∀ e ∈ es, ∃ a c, Neighbours P a e.kinds c ∧ a ≠ some .document ∧ c ≠ some .document := by
  intro e he
  obtain ⟨before, behind, rfl⟩ := List.append_of_mem he
  have hparts := ((neighbours_kindsAll fun e he => kinds_ne_nil (hes e he)).1 h).1
  refine ⟨_, _, hparts before e behind rfl, ?_, ?_⟩ <;> split <;> simpa

section

variable {op : BinaryOp} {es before behind : List Expr} {o : Origin} {f : Expr}

theorem mem_tail_of_split (h : es = before ++ f :: behind) (hn : before ≠ []) : f ∈ es.tail := by
  subst h
  rw [List.tail_append_of_ne_nil hn]
  simp

theorem mem_dropLast_of_split (h : es = before ++ f :: behind) (hn : behind ≠ []) :
    f ∈ es.dropLast := by
  subst h
  rw [List.dropLast_append_of_ne_nil (by simp), List.dropLast_cons_of_ne_nil hn]
  simp

/-- Where a document operator is beside an operand of a chain of another operator, that operator is
on the other side and takes the operand. -/
theorem taken_of_split (he : (chain op es o).Admissible) (hbefore : (chain op es o).FreeBefore a)
    (hbehind : (chain op es o).FreeBehind c) (hop : op ≠ .document)
    (h : es = before ++ f :: behind) :
    ((if before = [] then a else some op.kind) = some .document →
      (if behind = [] then c else some op.kind).any Kind.takesBefore) ∧
    ((if behind = [] then c else some op.kind) = some .document →
      (if before = [] then a else some op.kind).any Kind.takesBehind) := by
  obtain ⟨⟨hlen, -⟩, -⟩ := admissible_chain.1 he
  have hkind : op.kind ≠ .document :=
    fun hk => hop (Option.some.inj (by rw [← binary?_kind, hk]; rfl))
  constructor
  · intro ha
    split at ha
    · next hn =>
      have hb : behind ≠ [] := by rintro rfl; simp [h, hn] at hlen
      rw [if_neg hb]
      exact (Kind.takesBefore_kind op).trans (hbefore ha op (by simp [leftSpine]))
    · exact absurd (Option.some.inj ha) hkind
  · intro hc
    split at hc
    · next hn =>
      have hb : before ≠ [] := by rintro rfl; simp [h, hn] at hlen
      rw [if_neg hb]
      have hlt := (hbehind hc).2 op.right (by simp [rightSpine])
      exact (Kind.takesBehind_kind op).trans (BinaryOp.isTight_of_lt hlt hop)
    · exact absurd (Option.some.inj hc) hkind

/-- Document operators beside an operand leave its operators their operands. -/
theorem free_of_split (he : (chain op es o).Admissible) (hbefore : (chain op es o).FreeBefore a)
    (hbehind : (chain op es o).FreeBehind c) (h : es = before ++ f :: behind) :
    f.FreeBefore (if before = [] then a else some op.kind) ∧
      f.FreeBehind (if behind = [] then c else some op.kind) := by
  obtain ⟨⟨hlen, hhead, htail, hlast⟩, -⟩ := admissible_chain.1 he
  have document_of_kind : some op.kind = some .document → op = .document := fun hk =>
    Option.some.inj (by rw [← binary?_kind, Option.some.inj hk]; rfl)
  -- behind the first operand only tighter operators can be reached from the left
  have tight : BinaryOp.document.right ≤ op.right → before ≠ [] →
      ∀ op' ∈ f.leftSpine, op'.isTight :=
    fun hop hn op' hop' => decide_eq_true (hop.trans (htail f (mem_tail_of_split h hn) op' hop'))
  constructor
  · intro ha
    split at ha
    · next hn =>
      refine fun op' hop' => hbefore ha op' ?_
      subst h hn
      simp [leftSpine, leftSpineAll, hop']
    · next hn => exact tight (by rw [document_of_kind ha]) hn
  · intro hc
    split at hc
    · next hn =>
      have hb : before ≠ [] := by rintro rfl; simp [h, hn] at hlen
      obtain ⟨hne, hspine⟩ := hbehind hc
      have hop := BinaryOp.isTight_of_lt (hspine op.right (by simp [rightSpine]))
        (by simpa [isChainOf] using hne)
      refine ⟨isChainOf_document_of_isTight
        (tight ((of_decide_eq_true hop).trans op.left_lt_right.le) hb),
        fun p hp => hspine p ?_⟩
      subst h hn
      simp [rightSpine, rightSpineAll_concat, hp]
    · next hn =>
      obtain rfl := document_of_kind hc
      refine ⟨?_, hlast f (mem_dropLast_of_split h hn)⟩
      by_cases hb : before = []
      · subst hb h
        simpa using hhead f rfl
      · exact isChainOf_document_of_isTight (tight le_rfl hb)

end

theorem getLast?_eq_leading (he : e.Admissible) (hd : ∀ n ∈ e.preorder, n.Attaches) :
    e.kinds.getLast? = some (.block .leading) ↔ e.isBlock .leading := by
  constructor
  · exact fun h => (getLast?_eq_block he hd (by simp) h).resolve_right (by simp)
  · intro h
    cases e <;> first | cases of_decide_eq_true h; rfl | cases h

theorem head?_eq_trailing (he : e.Admissible) (hd : ∀ n ∈ e.preorder, n.Attaches) :
    e.kinds.head? = some (.block .trailing) ↔ e.isBlock .trailing := by
  constructor
  · exact fun h => (head?_eq_block he hd (by simp) h).resolve_right (by simp)
  · intro h
    cases e <;> first | cases of_decide_eq_true h; rfl | cases h

/-- The operands of a document chain with settled documentation document one of them. -/
theorem documents_of_neighbours {es : List Expr} {o : Origin}
    (he : (chain .document es o).Admissible)
    (h : Neighbours Kind.Settled a (chain .document es o).kinds c)
    (hbefore : (chain .document es o).FreeBefore a) (hbehind : (chain .document es o).FreeBehind c)
    (hnodes : ∀ f ∈ es, ∀ n ∈ f.preorder, n.Attaches) : Documents es := by
  obtain ⟨⟨hlen, -⟩, hes⟩ := admissible_chain.1 he
  rw [kinds_chain, neighbours_kindsAll fun f hf => kinds_ne_nil (hes f hf)] at h
  obtain ⟨hparts, hchain⟩ := h
  have ha : a ≠ some .document := fun ha => by cases hbefore ha .document (by simp [leftSpine])
  have hc : c ≠ some .document := fun hc => by cases (hbehind hc).1
  have hsides : es.IsChain fun e f => (e.isBlock .leading ∨ f.isBlock .trailing) ∧
      ¬(e.isBlock .leading ∧ f.isBlock .trailing) := by
    refine hchain.imp_of_mem_imp fun f g hf hg h => ?_
    rwa [← getLast?_eq_leading (hes f hf) (hnodes f hf),
      ← head?_eq_trailing (hes g hg) (hnodes g hg)]
  obtain ⟨f, fs, rfl⟩ := List.exists_cons_of_ne_nil (l := es) (by rintro rfl; simp at hlen)
  refine documents_of_isChain hsides ?_ fun g hg => ?_
  · exact isBlock_trailing_of_neighbours (hparts [] f fs rfl) ha
  · obtain ⟨before, hsplit⟩ := List.getLast?_eq_some_iff.1 hg
    exact isBlock_leading_of_neighbours (hparts before g [] hsplit) hc

/-- Whether documentation that is settled in the text of a tree is attached to what it documents. -/
def Settles (e : Expr) : Prop := ∀ a c, Neighbours Kind.Settled a e.kinds c → e.FreeBefore a →
  e.FreeBehind c → ∀ n ∈ e.preorder, n.Attaches

/-- A part that is between no document operators. -/
theorem Settles.apart (he : e.Settles) (h : Neighbours Kind.Settled a e.kinds c)
    (ha : a ≠ some .document) (hc : c ≠ some .document) : e.WellDocumented :=
  ⟨isDocumentation_of_neighbours h (absurd · ha) (absurd · hc),
    he a c h (absurd · ha) (absurd · hc)⟩

/-- An item before what it is wrapped in. -/
theorem Settles.wrapped {k : Kind} (he : e.Settles) (hitem : e.isItem) (hk : k.takesBefore)
    (hne : k ≠ .document) (h : Neighbours Kind.Settled a e.kinds (some k)) : e.WellDocumented := by
  have hk' : some k ≠ some .document := by simpa using hne
  exact ⟨isDocumentation_of_neighbours h (fun _ => hk) (absurd · hk'),
    he a _ h (freeBefore_of_isItem hitem) (absurd · hk')⟩

/-- Parts between commas. -/
theorem wellDocumented_listed {es : List Expr} {l r : Kind}
    (hes : ∀ e ∈ es, e.Admissible ∧ e.Settles) (hl : l ≠ .document) (hr : r ≠ .document)
    (h : Neighbours Kind.Settled (some l) (kindsAll (.mark .comma) es) (some r)) :
    ∀ e ∈ es, e.WellDocumented := by
  intro e he
  obtain ⟨a, c, h, ha, hc⟩ :=
    exists_neighbours_part (fun e he => (hes e he).1) (by simp) hl hr h e he
  exact (hes e he).2.apart h ha hc

/-- Where no document chain is, nothing but parts has to be looked at. -/
theorem attaches_of_children (hop : e.isChainOf .document = false)
    (h : ∀ c ∈ e.children, c.WellDocumented) : ∀ n ∈ e.preorder, n.Attaches :=
  forall_preorder.2 ⟨(attaches_iff hop).2 fun c hc => (h c hc).1, fun c hc => (h c hc).2⟩

theorem settles_unary {op : UnaryOp} {o : Origin} (he : (unary op e o).Admissible) (h : e.Settles) :
    (unary op e o).Settles := by
  intro a c hneighbours _ hbehind
  rw [kinds_unary, Neighbours] at hneighbours
  have hne : some op.kind ≠ some .document := by cases op <;> simp [UnaryOp.kind]
  have htight : ∀ op' ∈ e.leftSpine, op'.isTight := fun op' hop' =>
    decide_eq_true (op.right_le_power.trans ((admissible_unary.1 he).1 op' hop'))
  have hdoc := isDocumentation_of_neighbours hneighbours.2 (absurd · hne) fun _ =>
    Kind.takesBehind_unary op
  have hnodes := h _ c hneighbours.2 (absurd · hne) fun hc =>
    ⟨isChainOf_document_of_isTight htight, fun p hp => (hbehind hc).2 p (by simp [rightSpine, hp])⟩
  exact attaches_of_children rfl (by simpa [children] using ⟨hdoc, hnodes⟩)

theorem settles_chain {op : BinaryOp} {es : List Expr} {o : Origin}
    (he : (chain op es o).Admissible) (h : ∀ e ∈ es, e.Settles) : (chain op es o).Settles := by
  intro a c hneighbours hbefore hbehind
  obtain ⟨-, hes⟩ := admissible_chain.1 he
  have hparts : ∀ before f behind, es = before ++ f :: behind → Neighbours Kind.Settled
      (if before = [] then a else some op.kind) f.kinds
      (if behind = [] then c else some op.kind) := by
    rw [kinds_chain, neighbours_kindsAll fun f hf => kinds_ne_nil (hes f hf)] at hneighbours
    exact hneighbours.1
  have hnodes : ∀ f ∈ es, ∀ n ∈ f.preorder, n.Attaches := by
    intro f hf
    obtain ⟨before, behind, hsplit⟩ := List.append_of_mem hf
    obtain ⟨hb, hb'⟩ := free_of_split he hbefore hbehind hsplit
    exact h f hf _ _ (hparts before f behind hsplit) hb hb'
  by_cases hop : op = .document
  · subst hop
    exact forall_preorder.2 ⟨documents_of_neighbours he hneighbours hbefore hbehind hnodes, hnodes⟩
  · refine attaches_of_children (by simpa [isChainOf] using hop) fun f hf => ⟨?_, hnodes f hf⟩
    obtain ⟨before, behind, hsplit⟩ := List.append_of_mem hf
    obtain ⟨htaken, htaken'⟩ := taken_of_split he hbefore hbehind hop hsplit
    exact isDocumentation_of_neighbours (hparts before f behind hsplit) htaken htaken'

/-- If documentation is settled in a text, it is attached to what it documents in the tree. -/
theorem settles (he : e.Admissible) : e.Settles := by
  induction e using inductionOnChildren with
  | node e ih =>
    have hparts : ∀ f ∈ e.children, f.Admissible ∧ f.Settles := fun f hf =>
      ⟨he.child hf, ih f hf (he.child hf)⟩
    cases e with
    | chain op es o => exact settles_chain he fun f hf => (hparts f hf).2
    | unary op f o => exact settles_unary he (hparts f (by simp [children])).2
    | atom | block => exact fun _ _ _ _ _ => attaches_of_children rfl (by simp [children])
    | suffixed form f o =>
      intro a c h _ _
      rw [kinds_suffixed, neighbours_append] at h
      have hf := (hparts f (by simp [children])).2.wrapped (admissible_suffixed.1 he).1
        (k := (form.symbols.head (by cases form <;> simp [Suffix.symbols])).tokenKind)
        (by cases form <;> rfl) (by cases form <;> simp [Suffix.symbols, Symbol.tokenKind])
        (by cases form <;> exact h.1)
      exact attaches_of_children rfl (by simpa [children] using hf)
    | map f key o =>
      intro a c h _ _
      rw [kinds_map, neighbours_append, Neighbours, neighbours_append] at h
      have hf := (hparts f (by simp [children])).2.wrapped (admissible_map.1 he).1
        (k := .mark .leftBrace) rfl (by simp) h.1
      have hkey := (hparts key (by simp [children])).2.apart h.2.2.1 (by simp) (by simp)
      exact attaches_of_children rfl (by simpa [children] using ⟨hf, hkey⟩)
    | call f arguments o =>
      intro a c h _ _
      obtain ⟨hitem, hgroup⟩ := (admissible_call.1 he).1
      rw [kinds_call, neighbours_append] at h
      cases arguments with
      | group items o' =>
        have hf := (hparts f (by simp [children])).2.wrapped hitem
          (k := .mark .leftParenthesis) rfl (by simp) (by simpa using h.1)
        have harguments := (hparts (group items o') (by simp [children])).2 _ c h.2
          (freeBefore_of_isItem rfl) (freeBehind_of_isItem rfl)
        exact attaches_of_children rfl (by simpa [children] using ⟨hf, rfl, harguments⟩)
      | _ => cases hgroup
    | array es o | group es o =>
      intro a c h _ _
      simp only [kinds_array, kinds_group, Neighbours, neighbours_append] at h
      exact attaches_of_children rfl (wellDocumented_listed hparts (by simp) (by simp) h.2.1)

end Expr

/-! ## From trees to tokens -/

namespace Expr

variable {e : Expr} {a c : Option Kind}

/-- No two operands that document one of them are documentation before and behind nothing. -/
theorem Documents.isChain {es : List Expr} (h : Documents es) :
    es.IsChain fun e f => ¬(e.isBlock .leading ∧ f.isBlock .trailing) := by
  obtain ⟨above, d, behind, rfl, habove, hd, hbehind⟩ := h
  have hd' : ∀ b, b ≠ .multiline → ¬d.isBlock b := by
    intro b hb hblock
    rw [isDocumentation_eq hb hblock] at hd
    cases hd
  induction above with
  | nil =>
    refine List.isChain_cons.2 ⟨fun f _ h => hd' .leading (by simp) h.1, ?_⟩
    refine (List.pairwise_of_forall_mem_list fun f hf g _ h => ?_).isChain
    cases eq_of_isBlock h.1 (hbehind f hf)
  | cons l above ih =>
    obtain ⟨hl, habove⟩ := List.forall_mem_cons.1 habove
    refine List.isChain_cons.2 ⟨fun f hf h => ?_, ih habove⟩
    rcases above with _ | ⟨l', above⟩
    · obtain rfl := Option.some.inj hf
      exact hd' .trailing (by simp) h.2
    · obtain rfl := Option.some.inj hf
      cases eq_of_isBlock (habove l' (by simp)) h.2

section

variable {op : BinaryOp} {es before behind : List Expr} {o : Origin} {f : Expr}

theorem Attaches.not_isBlock_of_isTight {b : Block} (h : (chain op es o).Attaches)
    (htight : op.isTight) (hf : f ∈ es) (hb : b ≠ .multiline) : ¬f.isBlock b :=
  h.not_isBlock (by cases op <;> first | rfl | cases htight) hf hb

/-- What stands before an operand that starts with documentation does not take the documentation. -/
theorem takesBehind_of_split (he : (chain op es o).Admissible)
    (hd : ∀ n ∈ (chain op es o).preorder, n.Attaches)
    (hbefore : (chain op es o).kinds.head? = some (.block .leading) →
      a.any Kind.takesBehind = false)
    (h : es = before ++ f :: behind) (hhead : f.kinds.head? = some (.block .leading)) :
    (if before = [] then a else some op.kind).any Kind.takesBehind = false := by
  obtain ⟨hattach, hparts⟩ := forall_preorder.1 hd
  obtain ⟨⟨-, -, htail, -⟩, hes⟩ := admissible_chain.1 he
  have hf : f ∈ es := by simp [h]
  split
  · next hn =>
    subst hn h
    exact hbefore ((head?_kinds_chain (hes f hf)).trans hhead)
  · next hn =>
    rw [Option.any_some, Kind.takesBehind_kind]
    refine Bool.eq_false_iff.2 fun htight => ?_
    rcases head?_eq_block (hes f hf) (hparts f hf) (by simp) hhead with hblock | ⟨-, hspine⟩
    · exact hattach.not_isBlock_of_isTight htight hf (by simp) hblock
    · have hle := htail f (mem_tail_of_split h hn) _ hspine
      exact absurd (BinaryOp.lt_right_of_isTight htight) (by omega)

/-- What stands behind an operand that ends in documentation does not take the documentation. -/
theorem takesBefore_of_split (he : (chain op es o).Admissible)
    (hd : ∀ n ∈ (chain op es o).preorder, n.Attaches)
    (hbehind : (chain op es o).kinds.getLast? = some (.block .trailing) →
      c.any Kind.takesBefore = false)
    (h : es = before ++ f :: behind) (hend : f.kinds.getLast? = some (.block .trailing)) :
    (if behind = [] then c else some op.kind).any Kind.takesBefore = false := by
  obtain ⟨hattach, hparts⟩ := forall_preorder.1 hd
  obtain ⟨⟨-, -, -, hlast⟩, hes⟩ := admissible_chain.1 he
  have hf : f ∈ es := by simp [h]
  split
  · next hn =>
    subst hn h
    exact hbehind ((getLast?_kinds_chain (hes f hf)).trans hend)
  · next hn =>
    rw [Option.any_some, Kind.takesBefore_kind]
    refine Bool.eq_false_iff.2 fun htight => ?_
    rcases getLast?_eq_block (hes f hf) (hparts f hf) (by simp) hend with hblock | ⟨-, hspine⟩
    · exact hattach.not_isBlock_of_isTight htight hf (by simp) hblock
    · have hlt := hlast f (mem_dropLast_of_split h hn) _ hspine
      have hle : BinaryOp.document.right ≤ op.left := of_decide_eq_true htight
      omega

/-- No operator of a chain joins documentation to documentation. -/
theorem unclaimed_operators (he : (chain op es o).Admissible)
    (hd : ∀ n ∈ (chain op es o).preorder, n.Attaches) :
    es.IsChain fun f g => Kind.Unclaimed f.kinds.getLast? op.kind g.kinds.head? := by
  obtain ⟨hattach, hparts⟩ := forall_preorder.1 hd
  obtain ⟨-, hes⟩ := admissible_chain.1 he
  by_cases hop : op = .document
  · subst hop
    refine Documents.isChain hattach |>.imp_of_mem_imp fun f g hf hg h => ?_
    rwa [← getLast?_eq_leading (hes f hf) (hparts f hf),
      ← head?_eq_trailing (hes g hg) (hparts g hg)] at h
  · refine (List.pairwise_of_forall_mem_list fun _ _ _ _ => ?_).isChain
    cases op <;> first | exact absurd rfl hop | trivial

end

/-- Whether no operator in the text of a tree takes documentation if none beside the text does. -/
def Undisturbed (e : Expr) : Prop := ∀ a c,
  (e.kinds.head? = some (.block .leading) → a.any Kind.takesBehind = false) →
    (e.kinds.getLast? = some (.block .trailing) → c.any Kind.takesBefore = false) →
      Neighbours Kind.Unclaimed a e.kinds c

section

variable {f : Expr} {es : List Expr} {o : Origin}

/-- An item before what it is wrapped in. -/
theorem Undisturbed.wrapped (h : f.Undisturbed) (he : e.Admissible)
    (hd : ∀ n ∈ e.preorder, n.Attaches) (hop : e.isChainOf .document = false) (hf : f ∈ e.children)
    (hitem : f.isItem)
    (hbefore : f.kinds.head? = some (.block .leading) → a.any Kind.takesBehind = false) :
    Neighbours Kind.Unclaimed a f.kinds c := by
  obtain ⟨hattach, hparts⟩ := forall_preorder.1 hd
  refine h a c hbefore fun hlast => ?_
  rcases getLast?_eq_block (he.child hf) (hparts f hf) (by simp) hlast with hblock | ⟨-, hspine⟩
  · exact absurd hblock (hattach.not_isBlock hop hf (by simp))
  · rw [rightSpine_of_isItem hitem] at hspine
    cases hspine

/-- Parts between commas. -/
theorem unclaimed_listed {l r : Kind} (hes : ∀ e ∈ es, e.Admissible ∧ e.Undisturbed)
    (hl : l.takesBehind = false) (hr : r.takesBefore = false) :
    Neighbours Kind.Unclaimed (some l) (kindsAll (.mark .comma) es) (some r) := by
  refine (neighbours_kindsAll fun e he => kinds_ne_nil (hes e he).1).2
    ⟨fun before e behind hsplit => ?_, ?_⟩
  · refine (hes e (by simp [hsplit])).2 _ _ (fun _ => ?_) fun _ => ?_
    · split
      · exact hl
      · rfl
    · split
      · exact hr
      · rfl
  · exact (List.pairwise_of_forall_mem_list fun _ _ _ _ => trivial).isChain

theorem undisturbed_unary {op : UnaryOp} (he : (unary op f o).Admissible)
    (hd : ∀ n ∈ (unary op f o).preorder, n.Attaches) (h : f.Undisturbed) :
    (unary op f o).Undisturbed := by
  intro a c _ hbehind
  obtain ⟨hspine, hf⟩ := admissible_unary.1 he
  obtain ⟨hattach, hparts⟩ := forall_preorder.1 hd
  rw [getLast?_kinds_unary hf] at hbehind
  rw [kinds_unary, Neighbours]
  refine ⟨by cases op <;> trivial, h _ c (fun hhead => ?_) hbehind⟩
  rcases head?_eq_block hf (hparts f (by simp [children])) (by simp) hhead with hblock | ⟨-, hleft⟩
  · exact absurd hblock (hattach.not_isBlock rfl (by simp [children]) (by simp))
  · exact absurd (op.right_le_power.trans (hspine _ hleft)) (by decide)

theorem undisturbed_chain {op : BinaryOp} (he : (chain op es o).Admissible)
    (hd : ∀ n ∈ (chain op es o).preorder, n.Attaches) (h : ∀ e ∈ es, e.Undisturbed) :
    (chain op es o).Undisturbed := by
  intro a c hbefore hbehind
  refine (neighbours_kindsAll fun f hf => kinds_ne_nil ((admissible_chain.1 he).2 f hf)).2
    ⟨fun before f behind hsplit => ?_, unclaimed_operators he hd⟩
  exact h f (by simp [hsplit]) _ _ (takesBehind_of_split he hd hbefore hsplit)
    (takesBefore_of_split he hd hbehind hsplit)

end

/-- If documentation is attached to what it documents in a tree, no operator takes it in the
text. -/
theorem undisturbed (he : e.Admissible) (hd : ∀ n ∈ e.preorder, n.Attaches) : e.Undisturbed := by
  induction e using inductionOnChildren with
  | node e ih =>
    have hparts : ∀ f ∈ e.children, f.Admissible ∧ f.Undisturbed := fun f hf =>
      ⟨he.child hf, ih f hf (he.child hf) ((forall_preorder.1 hd).2 f hf)⟩
    cases e with
    | chain op es o => exact undisturbed_chain he hd fun f hf => (hparts f hf).2
    | unary op f o => exact undisturbed_unary he hd (hparts f (by simp [children])).2
    | atom => exact fun _ _ _ _ => ⟨trivial, trivial⟩
    | block form lines o =>
      intro a c hbefore hbehind
      refine ⟨?_, trivial⟩
      cases form with
      | leading => exact hbefore rfl
      | trailing => exact hbehind rfl
      | multiline => trivial
    | suffixed form f o =>
      intro a c hbefore _
      obtain ⟨hitem, hf⟩ := admissible_suffixed.1 he
      rw [head?_kinds_suffixed hf] at hbefore
      rw [kinds_suffixed, neighbours_append]
      refine ⟨(hparts f (by simp [children])).2.wrapped he hd rfl (by simp [children]) hitem
        hbefore, ?_⟩
      cases form <;> simp [Suffix.symbols, Symbol.tokenKind, Neighbours, Kind.Unclaimed]
    | map f key o =>
      intro a c hbefore _
      obtain ⟨hitem, hf, -⟩ := admissible_map.1 he
      rw [head?_kinds_map hf] at hbefore
      rw [kinds_map, neighbours_append, Neighbours, neighbours_append]
      exact ⟨(hparts f (by simp [children])).2.wrapped he hd rfl (by simp [children]) hitem hbefore,
        trivial, (hparts key (by simp [children])).2 _ _ (fun _ => rfl) (fun _ => rfl),
        trivial, trivial⟩
    | call f arguments o =>
      intro a c hbefore _
      obtain ⟨⟨hitem, hgroup⟩, hf, -⟩ := admissible_call.1 he
      rw [head?_kinds_call hf] at hbefore
      rw [kinds_call, neighbours_append]
      cases arguments with
      | group items o' =>
        refine ⟨(hparts f (by simp [children])).2.wrapped he hd rfl (by simp [children])
          hitem hbefore,
          (hparts (group items o') (by simp [children])).2 _ _ ?_ ?_⟩
        · simp
        · simp [List.getLast?_cons]
      | _ => cases hgroup
    | array es o | group es o =>
      intro a c _ _
      simp only [kinds_array, kinds_group, Neighbours, neighbours_append]
      exact ⟨trivial, unclaimed_listed hparts rfl rfl, trivial, trivial⟩

end Expr

/-- The tree of a source text is well documented exactly if nothing in the text takes documentation
from what it documents: no operator that binds tighter than the document operator stands directly
before a leading block or directly behind a trailing one, and no leading block is joined to a
trailing one. -/
theorem Goal.wellDocumented_iff (goal : Goal) (text file : String) (e : Expr)
    (h : parseAs goal text file = .ok e) : e.WellDocumented ↔
      Neighbours Kind.Unclaimed none ((Stream.ofSource text file).tokens.map Token.kind) none := by
  obtain ⟨gs, hscan⟩ := Glyph.exists_scans text.toList
  obtain ⟨he, hspelled⟩ := Goal.parseAs_spelled h
  have hkinds : (Stream.ofSource text file).tokens.map Token.kind =
      ((Stream.ofSource text file).tokens.map Token.symbol).map Symbol.tokenKind := by
    simp [Function.comp_def]
  have hjoined := Kind.neighbours_joined (hscan.documented_ofSource file) none none
  rw [hkinds, Kind.indifferent_joined.spelledBy hspelled] at hjoined
  rw [hkinds, Kind.indifferent_unclaimed.spelledBy hspelled]
  constructor
  · exact fun hd => Expr.undisturbed he hd.2 none none (fun _ => rfl) fun _ => rfl
  · intro hunclaimed
    have hsettled : Neighbours Kind.Settled none e.kinds none := hjoined.and hunclaimed
    exact ⟨Expr.isDocumentation_of_neighbours hsettled (absurd · (by simp)) (absurd · (by simp)),
      Expr.settles he none none hsettled (absurd · (by simp)) (absurd · (by simp))⟩

/-- A sum takes a comment that is written behind its first operand as its own first operand. -/
theorem Goal.wellDocumented_iff_sum :
    let text := "a // note\n+ b"
    ∃ e, parseAs .items text "" = .ok e ∧ (e.WellDocumented ↔
      Neighbours Kind.Unclaimed none ((Stream.ofSource text "").tokens.map Token.kind) none) ∧
      ¬e.WellDocumented := by
  intro text
  obtain ⟨e, h⟩ := exists_of_isOk (r := parseAs .items text "") (by decide +kernel)
  have hiff := Goal.wellDocumented_iff .items text "" e h
  exact ⟨e, h, hiff, hiff.not.2 (by decide +kernel)⟩

/-- The trailing documentation of such a sum documents nothing. -/
theorem exists_not_wellDocumented :
    ∃ e, parseAs .items "a // note\n+ b" "" = .ok e ∧ ¬e.WellDocumented :=
  exists_of_toOption (by decide +kernel)

end DocExpr
