import DocExpr.Parse.Source
import DocExpr.Proofs.Grammar.Admissible

/-!
# What is read is admissible

A run of the expression machine keeps an invariant: the tokens taken so far are the text of its
stack and of the expression in its phase (`Progress.Read`), and everything on the stack is
admissible as far as it goes (`Frame.Fits`). `Progress.read_step` says that a step keeps it and
`Progress.run_sound` that a run does, so an accepted tree is admissible and the tokens taken are
its text.
-/

namespace DocExpr

open DocExpr.Expr (SpelledBy JoinedBy Admissible admissible_iff)

/-! ## Separated lists -/

theorem Expr.joinedBy_concat {separator : Symbol} {es : List Expr} {e : Expr} {s u : List Symbol}
    (hs : JoinedBy separator es s) (hn : es ≠ []) (hu : e.SpelledBy u) :
    JoinedBy separator (es ++ [e]) (s ++ separator :: u) := by
  induction es generalizing s with
  | nil => exact absurd rfl hn
  | cons f es ih =>
    cases es with
    | nil => exact ⟨s, u, hs, hu, rfl⟩
    | cons g es =>
      obtain ⟨v, w, hv, hw, rfl⟩ := hs
      exact ⟨v, w ++ separator :: u, hv, ih hw (by simp), by simp⟩

/-- Whether symbols are the texts of trees with a comma behind each. -/
def Expr.ListedBy (es : List Expr) (s : List Symbol) : Prop :=
  es = [] ∧ s = [] ∨ es ≠ [] ∧ ∃ u, JoinedBy (.mark .comma) es u ∧ s = u ++ [.mark .comma]

open DocExpr.Expr (ListedBy)

theorem Expr.ListedBy.joined {es : List Expr} {e : Expr} {s u : List Symbol} (hs : ListedBy es s)
    (hu : e.SpelledBy u) : JoinedBy (.mark .comma) (es ++ [e]) (s ++ u) := by
  rcases hs with ⟨rfl, rfl⟩ | ⟨hn, v, hv, rfl⟩
  · exact hu
  · simpa using Expr.joinedBy_concat hv hn hu

theorem Expr.ListedBy.concat {es : List Expr} {e : Expr} {s u : List Symbol} (hs : ListedBy es s)
    (hu : e.SpelledBy u) : ListedBy (es ++ [e]) (s ++ u ++ [.mark .comma]) :=
  .inr ⟨by simp, s ++ u, hs.joined hu, rfl⟩

/-- Whether symbols are the text of a group without its parentheses, such as the items of a
file. -/
def Expr.ItemsSpelledBy (e : Expr) (s : List Symbol) : Prop :=
  e.isGroup ∧ (JoinedBy (.mark .comma) e.items s ∨ ListedBy e.items s)

theorem Expr.ItemsSpelledBy.spelled {e : Expr} {s : List Symbol} (h : e.ItemsSpelledBy s) :
    e.SpelledBy (.mark .leftParenthesis :: (s ++ [.mark .rightParenthesis])) := by
  cases e <;> obtain ⟨hg, h⟩ := h <;> try cases hg
  rcases h with h | ⟨h, rfl⟩ | ⟨hn, u, hu, rfl⟩
  · exact ⟨s, h, .inl rfl⟩
  · exact ⟨[], by simp_all [items, JoinedBy], .inl rfl⟩
  · exact ⟨u, hu, .inr ⟨hn, by simp⟩⟩

/-- Whether symbols are the text of a tree that is read as an expression or as a file of items. -/
def Goal.SpelledBy (goal : Goal) (e : Expr) (s : List Symbol) : Prop :=
  match goal with
  | .expression => e.SpelledBy s
  | .items => e.ItemsSpelledBy s

/-! ## Frames -/

namespace Frame

/-- Whether symbols are the text of what has been read of a frame. -/
def SpelledBy : Frame → List Symbol → Prop
  | unary op _, s => s = [.kind op.kind]
  | chain lhs op _, s => ∃ u, lhs.SpelledBy u ∧ s = u ++ [.kind op.kind]
  | array done _, s => ∃ u, ListedBy done u ∧ s = .mark .leftBracket :: u
  | group done _, s => ∃ u, ListedBy done u ∧ s = .mark .leftParenthesis :: u
  | arguments callee done _, s =>
    ∃ u v, callee.SpelledBy u ∧ ListedBy done v ∧ s = u ++ .mark .leftParenthesis :: v
  | key item _, s => ∃ u, item.SpelledBy u ∧ s = u ++ [.mark .leftBrace]
  | file done _, s => ListedBy done s

/-- Whether what has been read of a frame can become an admissible tree, above what has a
level. -/
def Fits (level : Nat) : Frame → Prop
  | unary .. => True
  | chain lhs op _ => lhs.Admissible ∧ level ≤ op.left ∧
      (∀ op' ∈ lhs.leftSpine, level ≤ op'.left) ∧ ∀ p ∈ lhs.rightSpine, op.left < p
  | array done _ | group done _ | file done _ => ∀ e ∈ done, e.Admissible
  | arguments callee done _ => callee.Admissible ∧ callee.isItem ∧ ∀ e ∈ done, e.Admissible
  | key item _ => item.Admissible ∧ item.isItem

/-- Whether a frame can end where its next part would start. Elements do not end with a comma. -/
def MayEnd : Frame → Prop
  | array done _ => done = []
  | _ => True

/-- No leaf ends a frame. -/
theorem symbol_of_closer? {t : Token} (frame : Frame) (h : frame.closer? = some t.kind) :
    t.symbol = .kind t.kind := by
  refine (Token.symbol_eq_kind ?_ ?_).2 rfl <;> rintro form hf <;> rw [hf] at h <;> cases frame
    <;> cases h

theorem level_le_postfixPower (frame : Frame) : frame.level ≤ postfixPower := by
  cases frame <;> simp only [level, postfixPower]
  case unary op o => cases op <;> decide
  case chain lhs op o => exact Nat.le_of_lt op.right_lt_postfixPower
  all_goals omega

variable {frame : Frame} {m : Nat} {e : Expr} {s u : List Symbol}

/-- Completing an operator keeps to the grammar, and adds its power to the right spine. -/
theorem close_operator (hc : frame.closer? = none) (hs : frame.SpelledBy s) (hf : frame.Fits m)
    (hu : e.SpelledBy u) (he : e.Admissible) (hl : ∀ op ∈ e.leftSpine, frame.level ≤ op.left) :
    (frame.close e).SpelledBy (s ++ u) ∧ (frame.close e).Admissible ∧
      (∀ op ∈ (frame.close e).leftSpine, m ≤ op.left) ∧
      ∀ p ∈ (frame.close e).rightSpine, p = frame.level ∨ p ∈ e.rightSpine := by
  cases frame <;> cases hc
  case unary op o =>
    obtain rfl := hs
    exact ⟨⟨u, hu, rfl⟩, Expr.admissible_unary.2 ⟨hl, he⟩, by simp [close, Expr.leftSpine],
      by simp [close, Expr.rightSpine, level]⟩
  case chain lhs op o =>
    obtain ⟨v, hv, rfl⟩ := hs
    obtain ⟨ha, hm, hspine, hr⟩ := hf
    replace hl : ∀ op' ∈ e.leftSpine, op.right ≤ op'.left := hl
    by_cases hsame : lhs.isChainOf op
    · -- the operand is appended to a chain of the same operator
      obtain ⟨operands, o', rfl⟩ : ∃ operands o', lhs = .chain op operands o' := by
        cases lhs <;> simp_all [Expr.isChainOf]
      obtain ⟨⟨hlen, hhead, htail, hlast⟩, hparts⟩ := Expr.admissible_chain.1 ha
      have hn : operands ≠ [] := by rintro rfl; simp at hlen
      have hend := List.dropLast_concat_getLast hn
      simp only [close, Expr.join, if_true, Expr.leftSpine, Expr.rightSpine,
        Expr.leftSpineAll_append hn, Expr.rightSpineAll_concat] at hspine hr ⊢
      have hj : JoinedBy (.kind op.kind) (operands ++ [e]) (v ++ [.kind op.kind] ++ u) := by
        simpa using Expr.joinedBy_concat hv hn hu
      refine ⟨hj, Expr.admissible_chain.2 ⟨⟨by simp; omega, ?_, ?_, ?_⟩, ?_⟩,
        hspine, by simp [level]⟩
      · rwa [List.head?_append, Option.or_of_isSome (by simpa using hn)]
      · rw [List.tail_append_of_ne_nil hn]
        exact List.forall_mem_append.2 ⟨htail, by simpa using hl⟩
      · intro f hf p hp
        rw [List.dropLast_concat, ← hend, List.mem_append, List.mem_singleton] at hf
        rcases hf with hf | rfl
        · exact hlast f hf p hp
        · refine hr p (List.mem_cons_of_mem _ ?_)
          rwa [← hend, Expr.rightSpineAll_concat]
      · exact List.forall_mem_append.2 ⟨hparts, by simpa using he⟩
    · have hj : lhs.join op o e = .chain op [lhs, e] o := by
        cases lhs <;> simp_all [Expr.join, Expr.isChainOf]
      simp only [close, hj]
      refine ⟨⟨v, u, hv, hu, by simp⟩, Expr.admissible_chain.2 ⟨⟨by simp, by simpa using hsame,
        by simpa using hl, by simpa using hr⟩, by simp [ha, he]⟩, ?_,
        by simp [Expr.rightSpine, Expr.rightSpineAll, level]⟩
      simpa [Expr.leftSpine, Expr.leftSpineAll] using ⟨hm, hspine⟩

/-- Ending a frame behind its last part keeps to the grammar. -/
theorem close_ended {k : Kind} (hc : frame.closer? = some k) (hk : k ≠ .eof)
    (hs : frame.SpelledBy s) (hf : frame.Fits m) (hu : e.SpelledBy u) (he : e.Admissible) :
    (frame.close e).SpelledBy (s ++ u ++ [.kind k]) ∧ (frame.close e).Admissible ∧
      (frame.close e).isItem := by
  have all : ∀ done : List Expr, (∀ d ∈ done, d.Admissible) → ∀ d ∈ done ++ [e], d.Admissible :=
    fun done hd => List.forall_mem_append.2 ⟨hd, by simpa using he⟩
  cases frame <;> cases hc
  case array done o =>
    obtain ⟨v, hv, rfl⟩ := hs
    exact ⟨⟨v ++ u, hv.joined hu, by simp⟩, Expr.admissible_array.2 (all done hf), rfl⟩
  case group done o =>
    obtain ⟨v, hv, rfl⟩ := hs
    exact ⟨⟨v ++ u, hv.joined hu, .inl (by simp)⟩, Expr.admissible_group.2 (all done hf), rfl⟩
  case arguments callee done o =>
    obtain ⟨v, w, hv, hw, rfl⟩ := hs
    obtain ⟨ha, hi, hd⟩ := hf
    exact ⟨⟨v, _, hv, ⟨w ++ u, hw.joined hu, .inl rfl⟩, by simp⟩,
      Expr.admissible_call.2 ⟨⟨hi, rfl⟩, ha, Expr.admissible_group.2 (all done hd)⟩, rfl⟩
  case key item o =>
    obtain ⟨v, hv, rfl⟩ := hs
    exact ⟨⟨v, u, hv, hu, by simp⟩, Expr.admissible_map.2 ⟨hf.2, hf.1, he⟩, rfl⟩
  case file => exact absurd rfl hk

/-- Ending a frame where its next part would start keeps to the grammar. -/
theorem closeEmpty_ended {k : Kind} (hc : frame.closer? = some k) (hk : k ≠ .eof)
    (hm : frame.MayEnd) (hs : frame.SpelledBy s) (hf : frame.Fits m)
    (he : frame.closeEmpty? = some e) :
    e.SpelledBy (s ++ [.kind k]) ∧ e.Admissible ∧ e.isItem := by
  cases frame <;> cases hc <;> cases he
  case array done o =>
    obtain rfl := hm
    obtain ⟨v, ⟨-, rfl⟩ | ⟨hn, -⟩, rfl⟩ := hs
    · exact ⟨⟨[], rfl, rfl⟩, by simp, rfl⟩
    · exact absurd rfl hn
  case group done o =>
    obtain ⟨v, hv, rfl⟩ := hs
    exact ⟨Expr.ItemsSpelledBy.spelled ⟨rfl, .inr hv⟩, Expr.admissible_group.2 hf, rfl⟩
  case arguments callee done o =>
    obtain ⟨v, w, hv, hw, rfl⟩ := hs
    obtain ⟨ha, hi, hd⟩ := hf
    exact ⟨⟨v, _, hv, Expr.ItemsSpelledBy.spelled ⟨rfl, .inr hw⟩, by simp⟩,
      Expr.admissible_call.2 ⟨⟨hi, rfl⟩, ha, Expr.admissible_group.2 hd⟩, rfl⟩
  case key item o =>
    obtain ⟨v, hv, rfl⟩ := hs
    exact ⟨⟨v, hv, by simp [Suffix.symbols]⟩, Expr.admissible_suffixed.2 ⟨hf.2, hf.1⟩, rfl⟩
  case file => exact absurd rfl hk

end Frame

/-! ## Steps -/

namespace Progress

variable {goal : Goal} {least : Nat}

/-- Whether symbols are the text of a stack of frames, each fit for what is below it. The items of
a file are below everything else, and a single expression has nothing below it. -/
inductive StackRead (least : Nat) : Goal → List Frame → List Symbol → Prop where
  | nil : StackRead least .expression [] []
  | file {done : List Expr} {o : Origin} {s : List Symbol} (spelled : ListedBy done s)
      (fits : ∀ e ∈ done, e.Admissible) : StackRead least .items [.file done o] s
  | cons {goal : Goal} {frame : Frame} {below : List Frame} {s u : List Symbol}
      (stack : StackRead least goal below s) (spelled : frame.SpelledBy u)
      (fits : frame.Fits (level least below)) (inner : frame.closer? ≠ some .eof) :
      StackRead least goal (frame :: below) (s ++ u)

/-- Whether symbols are the text of a stack with an item behind it. -/
def ItemRead (goal : Goal) (least : Nat) (stack : List Frame) (e : Expr) (s : List Symbol) :
    Prop :=
  ∃ u v, StackRead least goal stack u ∧ e.SpelledBy v ∧ e.Admissible ∧ e.isItem ∧ s = u ++ v

/-- Whether symbols are the text of what has been read. -/
def Read (goal : Goal) (least : Nat) (p : Progress) (s : List Symbol) : Prop :=
  match p.phase with
  | .operand => StackRead least goal p.stack s
  | .operandOrEnd => StackRead least goal p.stack s ∧ ∀ frame ∈ p.stack.head?, frame.MayEnd
  | .behind e => ItemRead goal least p.stack e s
  | .bracket item _ => ∃ u, ItemRead goal least p.stack item u ∧ s = u ++ [.mark .leftBracket]
  | .bracketSemicolon item _ =>
    ∃ u, ItemRead goal least p.stack item u ∧ s = u ++ [.mark .leftBracket, .mark .semicolon]

/-- What a step makes of symbols that have been read: with the token they are read still, or they
are the text of the accepted tree. -/
def Keeps (goal : Goal) (least : Nat) (t : Token) (s : List Symbol) : Step → Prop
  | .shift next => next.Read goal least (s ++ [t.symbol])
  | .accept e taken => e.Admissible ∧ goal.SpelledBy e s ∧
    (goal = .expression ∧ taken = false ∨ goal = .items ∧ t.kind = .eof)
  | .reject .. => True

variable {t : Token} {e : Expr} {stack below : List Frame} {frame : Frame} {next : Progress}
  {s u v : List Symbol}

theorem keeps_beginWith (hs : StackRead least goal stack s) :
    Keeps goal least t s (beginWith t stack) := by
  unfold beginWith
  split
  · next op hop =>
    exact .cons hs (Token.symbol_eq_unary.2 (kind_of_unary? hop) ▸ rfl) trivial
      (by simp [Frame.closer?])
  · split <;> rename_i hk
    · refine ⟨s, [_], hs, ?_, by simp, rfl, rfl⟩
      rw [Token.symbol_eq_atom.2 ⟨hk, rfl⟩]; rfl
    · refine ⟨s, [_], hs, ?_, by simp, rfl, rfl⟩
      rw [Token.symbol_eq_block.2 ⟨hk, rfl⟩]; rfl
    · rw [Keeps, Token.symbol_eq_mark.2 hk]
      exact ⟨.cons hs ⟨[], .inl ⟨rfl, rfl⟩, rfl⟩ (by simp [Frame.Fits]) (by simp [Frame.closer?]),
        by simp [Frame.MayEnd]⟩
    · rw [Keeps, Token.symbol_eq_mark.2 hk]
      exact ⟨.cons hs ⟨[], .inl ⟨rfl, rfl⟩, rfl⟩ (by simp [Frame.Fits]) (by simp [Frame.closer?]),
        by simp [Frame.MayEnd]⟩
    · trivial

theorem read_openBehind {form : Postfixed} (hk : t.kind.postfixed? = some form)
    (hs : StackRead least goal stack u) (hv : e.SpelledBy v) (he : e.Admissible)
    (hi : e.isItem) : (openBehind t e stack form).Read goal least (u ++ v ++ [t.symbol]) := by
  unfold Kind.postfixed? at hk
  split at hk <;> cases hk <;> rename_i hk <;> rw [Token.symbol_eq_mark.2 hk]
  · rw [List.append_assoc]
    exact ⟨.cons hs ⟨v, hv, rfl⟩ ⟨he, hi⟩ (by simp [Frame.closer?]),
      by simp [openBehind, Frame.MayEnd]⟩
  · exact ⟨u ++ v, ⟨u, v, hs, hv, he, hi, rfl⟩, rfl⟩
  · rw [List.append_assoc]
    exact ⟨.cons hs ⟨v, [], hv, .inl ⟨rfl, rfl⟩, rfl⟩ ⟨he, hi, by simp⟩ (by simp [Frame.closer?]),
      by simp [openBehind, Frame.MayEnd]⟩
  · exact ⟨u, v ++ [.mark .question], hs, ⟨v, hv, rfl⟩, by simp [hi, he], rfl, by simp⟩

theorem read_continue? (hs : StackRead least goal stack u) (hv : e.SpelledBy v)
    (he : e.Admissible) (hi : t.kind.postfixed? = none ∨ e.isItem)
    (hl : ∀ op ∈ e.leftSpine, level least stack ≤ op.left)
    (hr : ∀ op, t.kind.binary? = some op → ∀ p ∈ e.rightSpine, op.left < p)
    (h : continue? (level least stack) t e stack = some next) :
    next.Read goal least (u ++ v ++ [t.symbol]) := by
  unfold continue? at h
  split at h
  · next form hform =>
    split at h <;> cases h
    exact read_openBehind hform hs hv he (hi.resolve_left (by simp [hform]))
  · split at h
    · next op hop =>
      split at h <;> cases h
      rw [Token.symbol_eq_binary.2 (kind_of_binary? hop), List.append_assoc]
      exact .cons hs ⟨v, hv, rfl⟩ ⟨he, ‹_›, hl, hr op hop⟩ (by simp [Frame.closer?])
    · cases h

/-- What cannot continue an expression is no token that opens something behind an item, and no
operator with a power of at least the level. -/
theorem continue?_eq_none {m : Nat} (hm : m ≤ postfixPower) :
    continue? m t e stack = none ↔
      t.kind.postfixed? = none ∧ ∀ op, t.kind.binary? = some op → op.left < m := by
  unfold continue?
  cases t.kind.postfixed? with
  | some form => simp [hm]
  | none => cases t.kind.binary? <;> simp

theorem keeps_ended (hc : frame.closer? = some t.kind) (hk : t.kind ≠ .eof)
    (hs : StackRead least goal below u) (hv : e.SpelledBy (v ++ [.kind t.kind]))
    (he : e.Admissible) (hi : e.isItem) : Keeps goal least t (u ++ v) (frame.ended e below) := by
  have hn : frame.ended e below = .shift ⟨below, .behind e⟩ := by
    cases frame <;> first | rfl | exact absurd (Option.some.inj hc).symm hk
  rw [hn]
  exact ⟨u, _, hs, hv, he, hi, by simp [frame.symbol_of_closer? hc]⟩

theorem read_afterComma? (hs : StackRead least goal (frame :: below) s) (hv : e.SpelledBy v)
    (he : e.Admissible) (ht : t.kind = .mark .comma)
    (h : frame.afterComma? e below = some next) :
    next.Read goal least (s ++ v ++ [t.symbol]) := by
  have all : ∀ done : List Expr, (∀ d ∈ done, d.Admissible) → ∀ d ∈ done ++ [e], d.Admissible :=
    fun done hd => List.forall_mem_append.2 ⟨hd, by simpa using he⟩
  rw [Token.symbol_eq_mark.2 ht]
  cases hs with
  | file hu hf =>
    cases h
    exact ⟨.file (hu.concat hv) (all _ hf), by simp [Frame.MayEnd]⟩
  | @cons _ _ _ s w hs hu hf hb =>
    cases frame with
    | array done o =>
      cases h
      obtain ⟨x, hx, rfl⟩ := hu
      have hu : (Frame.array (done ++ [e]) o).SpelledBy _ := ⟨_, hx.concat hv, rfl⟩
      have := hs.cons hu (all done hf) hb
      simpa [Read] using this
    | group done o =>
      cases h
      obtain ⟨x, hx, rfl⟩ := hu
      have hu : (Frame.group (done ++ [e]) o).SpelledBy _ := ⟨_, hx.concat hv, rfl⟩
      have := hs.cons hu (all done hf) hb
      simpa [Read, Frame.MayEnd] using this
    | arguments callee done o =>
      cases h
      obtain ⟨x, y, hx, hy, rfl⟩ := hu
      obtain ⟨ha, hi, hd⟩ := hf
      have hu : (Frame.arguments callee (done ++ [e]) o).SpelledBy _ :=
        ⟨x, _, hx, hy.concat hv, rfl⟩
      have := hs.cons hu ⟨ha, hi, all done hd⟩ hb
      simpa [Read, Frame.MayEnd] using this
    | file => exact absurd rfl hb
    | unary | chain | key => cases h

/-- A token behind an expression: the invariant is kept while the operators on top of the stack are
completed. -/
theorem keeps_resume (hs : StackRead least goal stack u) (hv : e.SpelledBy v)
    (he : e.Admissible) (hi : t.kind.postfixed? = none ∨ e.isItem)
    (hl : ∀ op ∈ e.leftSpine, level least stack ≤ op.left)
    (hr : ∀ op, t.kind.binary? = some op → ∀ p ∈ e.rightSpine, op.left < p) :
    Keeps goal least t (u ++ v) (resume least t e stack) := by
  induction hs generalizing e v with
  | nil =>
    unfold resume
    split
    · exact read_continue? .nil hv he hi hl hr ‹_›
    · exact ⟨he, hv, .inl ⟨rfl, rfl⟩⟩
  | @file done o s hs hf =>
    have hstack : StackRead least .items [.file done o] s := .file hs hf
    unfold resume
    split
    · exact read_continue? hstack hv he hi hl hr ‹_›
    · simp only [Frame.closer?]
      split
      · next ht =>
        exact ⟨Expr.admissible_group.2 (List.forall_mem_append.2 ⟨hf, by simpa using he⟩),
          ⟨rfl, .inl (hs.joined hv)⟩, .inr ⟨rfl, ht⟩⟩
      · split
        · exact read_afterComma? hstack hv he ‹_› rfl
        · trivial
  | @cons goal frame below s w hs hw hf hb ih =>
    have hstack : StackRead least goal (frame :: below) (s ++ w) := .cons hs hw hf hb
    unfold resume
    split
    · exact read_continue? hstack hv he hi hl hr ‹_›
    · next hcont =>
      obtain ⟨hpost, hlow⟩ := (continue?_eq_none frame.level_le_postfixPower).1 hcont
      split
      · next hc =>
        obtain ⟨hsp, had, hleft, hright⟩ := Frame.close_operator hc hw hf hv he hl
        rw [List.append_assoc]
        refine ih hsp had (.inl hpost) hleft fun op hop p hp => ?_
        rcases hright p hp with rfl | hp
        · exact hlow op hop
        · exact hr op hop p hp
      · next closer hc =>
        split
        · next ht =>
          subst ht
          have hk : t.kind ≠ .eof := fun h => hb (h ▸ hc)
          obtain ⟨hsp, had, hit⟩ := Frame.close_ended hc hk hw hf hv he
          rw [List.append_assoc]
          exact keeps_ended hc hk hs hsp had hit
        · split
          · split
            · exact read_afterComma? hstack hv he ‹_› ‹_›
            · trivial
          · trivial

theorem keeps_beginOrEnd (hs : StackRead least goal stack s)
    (hm : ∀ frame ∈ stack.head?, frame.MayEnd) : Keeps goal least t s (beginOrEnd t stack) := by
  cases stack with
  | nil => exact keeps_beginWith hs
  | cons frame below =>
    simp only [beginOrEnd]
    split
    · next hc =>
      split
      · next e he =>
        cases hs with
        | file hu hf =>
          cases he
          exact ⟨Expr.admissible_group.2 hf, ⟨rfl, .inr hu⟩, .inr ⟨rfl, (Option.some.inj hc).symm⟩⟩
        | cons hs hw hf hb =>
          have hk : t.kind ≠ .eof := fun h => hb (h ▸ hc)
          obtain ⟨hsp, had, hit⟩ := Frame.closeEmpty_ended hc hk (hm frame rfl) hw hf he
          exact keeps_ended hc hk hs hsp had hit
      · exact keeps_beginWith hs
    · exact keeps_beginWith hs

/-- A step keeps the invariant. -/
theorem keeps_step {p : Progress} (hp : p.Read goal least s) :
    Keeps goal least t s (p.step least t) := by
  obtain ⟨stack, phase⟩ := p
  unfold step
  split
  · trivial
  · cases phase with
    | operand => exact keeps_beginWith hp
    | operandOrEnd => exact keeps_beginOrEnd hp.1 hp.2
    | behind e =>
      obtain ⟨u, v, hs, hv, he, hi, rfl⟩ := hp
      exact keeps_resume hs hv he (.inr hi) (by simp [Expr.leftSpine_of_isItem hi])
        (by simp [Expr.rightSpine_of_isItem hi])
    | bracket item o =>
      obtain ⟨w, ⟨u, v, hs, hv, he, hi, rfl⟩, rfl⟩ := hp
      dsimp only
      split
      · next ht => exact ⟨u ++ v, ⟨u, v, hs, hv, he, hi, rfl⟩, by simp [Token.symbol_eq_mark.2 ht]⟩
      · split
        · next ht =>
          exact ⟨u, v ++ Suffix.array.symbols, hs, ⟨v, hv, rfl⟩, by simp [hi, he], rfl,
            by simp [Token.symbol_eq_mark.2 ht, Suffix.symbols]⟩
        · trivial
    | bracketSemicolon item o =>
      obtain ⟨w, ⟨u, v, hs, hv, he, hi, rfl⟩, rfl⟩ := hp
      dsimp only
      split
      · next ht =>
        exact ⟨u, v ++ Suffix.list.symbols, hs, ⟨v, hv, rfl⟩, by simp [hi, he], rfl,
          by simp [Token.symbol_eq_mark.2 ht, Suffix.symbols]⟩
      · trivial

end Progress

/-! ## Runs -/

namespace ParseRun

@[simp] theorem result_cons (t : Taken) (r : ParseRun) : (r.cons t).result = r.result := rfl

@[simp] theorem unread_cons (t : Taken) (r : ParseRun) : (r.cons t).unread = r.unread := rfl

@[simp] theorem result_ending (result : Except ParseError Expr) (t : Token) (rest : List Token)
    (taken : Bool) : (ending result t rest taken).result = result := by cases taken <;> rfl

@[simp] theorem unread_ending (result : Except ParseError Expr) (t : Token) (rest : List Token)
    (taken : Bool) : (ending result t rest taken).unread = if taken then rest else t :: rest := by
  cases taken <;> rfl

end ParseRun

namespace Progress

variable {goal : Goal} {least : Nat} {finish : Origin} {e : Expr}

/-- A run that accepts a tree has read a text of it. Behind an expression everything is left, and
behind the items of a file there is an end of input. -/
theorem run_sound {p : Progress} {ts : List Token} {s : List Symbol} (hp : p.Read goal least s)
    (h : (p.run least finish ts).result = .ok e) :
    e.Admissible ∧ ∃ text rest, ts = text ++ rest ∧ goal.SpelledBy e (s ++ text.map Token.symbol) ∧
      (goal = .expression ∧ (p.run least finish ts).unread = rest ∨
        goal = .items ∧ ∀ t ∈ rest.head?, t.kind = .eof) := by
  induction ts generalizing p s with
  | nil =>
    have hk := keeps_step (t := .eof finish) hp
    rw [run] at h ⊢
    split at h <;> rename_i hstep <;> rw [hstep] at hk <;> cases h
    obtain ⟨he, hs, hg⟩ := hk
    exact ⟨he, [], [], rfl, by simpa using hs,
      hg.imp (fun hg => ⟨hg.1, rfl⟩) fun hg => ⟨hg.1, by simp⟩⟩
  | cons t ts ih =>
    have hk := keeps_step (t := t) hp
    rw [run] at h ⊢
    split at h <;> rename_i hstep <;> rw [hstep] at hk
    · obtain ⟨he, text, rest, rfl, hs, hg⟩ := ih hk h
      exact ⟨he, t :: text, rest, rfl, by simpa using hs, hg⟩
    · rw [ParseRun.result_ending] at h
      cases h
      obtain ⟨he, hs, hg⟩ := hk
      refine ⟨he, [], t :: ts, rfl, by simpa using hs, ?_⟩
      rcases hg with ⟨rfl, rfl⟩ | ⟨rfl, ht⟩
      · exact .inl ⟨rfl, rfl⟩
      · exact .inr ⟨rfl, by simpa using ht⟩
    · rw [ParseRun.result_ending] at h
      cases h

theorem read_expression : expression.Read .expression least [] := .nil

theorem read_items (o : Origin) : (items o).Read .items least [] :=
  ⟨.file (.inl ⟨rfl, rfl⟩) (by simp), by simp [items, Frame.MayEnd]⟩

end Progress

namespace Lookahead

theorem endError?_eq_none {l : Lookahead} : l.endError? = none ↔ l.peek.kind = .eof := by
  unfold endError? peekIs
  cases h : l.peek.kind <;> simp [Kind.fault?]

/-- A whole expression is one that is read with the end of the input behind it. -/
theorem of_wholeExpression {l : Lookahead} {e : Expr} (h : l.wholeExpression.result = .ok e) :
    (l.expression 0).result = .ok e ∧ ∀ t ∈ (l.expression 0).unread.head?, t.kind = .eof := by
  unfold wholeExpression at h
  cases hr : (l.expression 0).result with
  | error error => simp [hr] at h
  | ok e' =>
    simp only [hr] at h
    split at h
    · cases h
    · next hend =>
      cases h
      refine ⟨rfl, fun t ht => ?_⟩
      have hpeek := endError?_eq_none.1 hend
      obtain ⟨rest, hrest⟩ := List.head?_eq_some_iff.1 ht
      rw [hrest] at hpeek
      exact hpeek

/-- A whole expression that is read is admissible, and the tokens before the first end of input are
its text. -/
theorem wholeExpression_sound {l : Lookahead} {e : Expr} (h : l.wholeExpression.result = .ok e) :
    e.Admissible ∧ ∃ text rest, l.unread = text ++ rest ∧ e.SpelledBy (text.map Token.symbol) ∧
      ∀ t ∈ rest.head?, t.kind = .eof := by
  obtain ⟨hr, hend⟩ := of_wholeExpression h
  obtain ⟨he, text, rest, hts, hs, ⟨-, rfl⟩ | ⟨hg, -⟩⟩ :=
    Progress.run_sound Progress.read_expression hr
  · exact ⟨he, text, _, hts, hs, hend⟩
  · cases hg

/-- The items of a file that are read are admissible, and the tokens before the first end of input
are their text. -/
theorem items_sound {l : Lookahead} {e : Expr} (h : l.items.result = .ok e) :
    e.Admissible ∧ ∃ text rest, l.unread = text ++ rest ∧ e.ItemsSpelledBy (text.map Token.symbol) ∧
      ∀ t ∈ rest.head?, t.kind = .eof := by
  obtain ⟨he, text, rest, hts, hs, ⟨hg, -⟩ | ⟨-, hrest⟩⟩ :=
    Progress.run_sound (Progress.read_items l.peek.origin) h
  · cases hg
  · exact ⟨he, text, rest, hts, hs, hrest⟩

end Lookahead

end DocExpr
