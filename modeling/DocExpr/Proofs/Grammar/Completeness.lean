import DocExpr.Proofs.Grammar.Soundness

/-!
# What is admissible is read

The expression machine reads every text of an admissible tree as that tree. By induction on the
tree: from a stack whose level no operator at the start of the tree falls below, the machine takes
the whole text (`Progress.Shifts`), and is then behind the tree (`Progress.Behind`): the operators
at the end of the tree are still on the stack, and completing them gives the tree, up to places.
The next token completes those that bind tighter than it (`Progress.Behind.step_eq`).

`Lookahead.wholeExpression_complete` and `Lookahead.items_complete` say so of whole inputs.
-/

namespace DocExpr

open DocExpr.Expr (SpelledBy JoinedBy Admissible ListedBy ItemsSpelledBy eraseAll)

/-! ## How texts start -/

/-- The kinds of tokens that end frames. -/
def Kind.closes (k : Kind) : Bool :=
  k = .mark .rightBracket || k = .mark .rightParenthesis || k = .mark .rightBrace || k = .eof

theorem Frame.closes_of_closer? {frame : Frame} {k : Kind} (h : frame.closer? = some k) :
    k.closes := by
  cases frame <;> cases h <;> rfl

/-- The text of an admissible tree starts with a token that ends no frame. -/
theorem Expr.SpelledBy.starts {e : Expr} {ts : List Token} (he : e.Admissible)
    (hs : e.SpelledBy (ts.map Token.symbol)) :
    ∃ t rest, ts = t :: rest ∧ t.kind.closes = false := by
  induction e using Expr.inductionOnChildren generalizing ts with
  | node e ih =>
    cases e with
    | atom form text o =>
      obtain ⟨t, rest, rfl, ht, -⟩ := List.map_eq_cons_iff.1 hs
      exact ⟨t, rest, rfl, by rw [(Token.symbol_eq_atom.1 ht).1]; rfl⟩
    | block form lines o =>
      obtain ⟨t, rest, rfl, ht, -⟩ := List.map_eq_cons_iff.1 hs
      exact ⟨t, rest, rfl, by rw [(Token.symbol_eq_block.1 ht).1]; rfl⟩
    | suffixed form item o =>
      obtain ⟨u, hu, h⟩ := hs
      obtain ⟨ts₁, ts₂, rfl, rfl, -⟩ := List.map_eq_append_iff.1 h
      obtain ⟨t, rest, rfl, ht⟩ := ih item (by simp [children]) (he.child (by simp [children])) hu
      exact ⟨t, _, rfl, ht⟩
    | map item key o =>
      obtain ⟨u, v, hu, -, h⟩ := hs
      obtain ⟨ts₁, ts₂, rfl, rfl, -⟩ := List.map_eq_append_iff.1 h
      obtain ⟨t, rest, rfl, ht⟩ := ih item (by simp [children]) (he.child (by simp [children])) hu
      exact ⟨t, _, rfl, ht⟩
    | call callee arguments o =>
      obtain ⟨u, v, hu, -, h⟩ := hs
      obtain ⟨ts₁, ts₂, rfl, rfl, -⟩ := List.map_eq_append_iff.1 h
      obtain ⟨t, rest, rfl, ht⟩ := ih callee (by simp [children]) (he.child (by simp [children])) hu
      exact ⟨t, _, rfl, ht⟩
    | array elements o =>
      obtain ⟨u, -, h⟩ := hs
      obtain ⟨t, rest, rfl, ht, -⟩ := List.map_eq_cons_iff.1 h
      exact ⟨t, rest, rfl, by rw [Token.symbol_eq_mark.1 ht]; rfl⟩
    | group items o =>
      have h : ∃ v, ts.map Token.symbol = .mark .leftParenthesis :: v := by
        obtain ⟨u, -, h | ⟨-, h⟩⟩ := hs <;> exact ⟨_, h⟩
      obtain ⟨v, h⟩ := h
      obtain ⟨t, rest, rfl, ht, -⟩ := List.map_eq_cons_iff.1 h
      exact ⟨t, rest, rfl, by rw [Token.symbol_eq_mark.1 ht]; rfl⟩
    | chain op operands o =>
      obtain ⟨⟨hlen, -⟩, hparts⟩ := Expr.admissible_chain.1 he
      obtain ⟨e, f, es, rfl⟩ := Expr.exists_cons_cons hlen
      obtain ⟨u, v, hu, -, h⟩ := hs
      obtain ⟨ts₁, ts₂, rfl, rfl, -⟩ := List.map_eq_append_iff.1 h
      obtain ⟨t, rest, rfl, ht⟩ := ih e (by simp [children]) (hparts e (by simp)) hu
      exact ⟨t, _, rfl, ht⟩
    | unary op operand o =>
      obtain ⟨u, -, h⟩ := hs
      obtain ⟨t, rest, rfl, ht, -⟩ := List.map_eq_cons_iff.1 h
      exact ⟨t, rest, rfl, by rw [Token.symbol_eq_unary.1 ht]; cases op <;> rfl⟩

namespace Progress

variable {least : Nat} {stack below : List Frame} {e : Expr} {p q r next : Progress}
  {t : Token} {ts us : List Token}

/-! ## Runs that take every token -/

/-- Whether the machine takes all of some tokens and gets from one point to another. -/
def Shifts (least : Nat) : Progress → List Token → Progress → Prop
  | p, [], q => p = q
  | p, t :: ts, q => ∃ next, p.step least t = .shift next ∧ Shifts least next ts q

theorem Shifts.append (h₁ : Shifts least p ts q) (h₂ : Shifts least q us r) :
    Shifts least p (ts ++ us) r := by
  induction ts generalizing p with
  | nil => exact h₁ ▸ h₂
  | cons t ts ih =>
    obtain ⟨next, hstep, h⟩ := h₁
    exact ⟨next, hstep, ih h⟩

theorem Shifts.concat (h₁ : Shifts least p ts q) (h₂ : q.step least t = .shift r) :
    Shifts least p (ts ++ [t]) r :=
  h₁.append ⟨r, h₂, rfl⟩

/-- A run over taken tokens goes on behind them. -/
theorem Shifts.run_eq (finish : Origin) (h : Shifts least p ts q) (rest : List Token) :
    (p.run least finish (ts ++ rest)).result = (q.run least finish rest).result ∧
      (p.run least finish (ts ++ rest)).unread = (q.run least finish rest).unread := by
  induction ts generalizing p with
  | nil => exact h ▸ ⟨rfl, rfl⟩
  | cons t ts ih =>
    obtain ⟨next, hstep, h⟩ := h
    simpa [run, hstep] using ih h

/-- Where a frame could end, tokens that do not end it start an expression. -/
theorem Shifts.of_operand (h : Shifts least ⟨stack, .operand⟩ (t :: ts) q)
    (ht : t.kind.closes = false) : Shifts least ⟨stack, .operandOrEnd⟩ (t :: ts) q := by
  obtain ⟨next, hstep, h⟩ := h
  refine ⟨next, ?_, h⟩
  rw [← hstep]
  unfold step
  cases t.kind.fault? with
  | some fault => rfl
  | none =>
    cases stack with
    | nil => rfl
    | cons frame below =>
      have hc : frame.closer? ≠ some t.kind := fun hc => by
        simp [Frame.closes_of_closer? hc] at ht
      simp [beginOrEnd, hc]

/-! ## Behind a tree -/

/-- What becomes of an expression when the frames on top of a stack are completed with it. -/
def unwind (core : Expr) (frames : List Frame) : Expr :=
  frames.foldl (fun e frame => frame.close e) core

/-- Whether the machine is behind a tree: completing the operators on top of the stack, whose powers
are on the right spine of the tree, gives the tree up to places. -/
def Behind (e : Expr) (stack : List Frame) (q : Progress) : Prop :=
  ∃ frames core, q = ⟨frames ++ stack, .behind core⟩ ∧ (unwind core frames).erase = e.erase ∧
    ∀ frame ∈ frames, frame.closer? = none ∧ frame.level ∈ e.rightSpine

theorem Behind.of_erase_eq (e' : Expr) (h : e'.erase = e.erase) :
    Behind e stack ⟨stack, .behind e'⟩ :=
  ⟨[], e', rfl, h, by simp⟩

/-- Behind an item nothing is left to be completed. -/
theorem Behind.eq_of_isItem (h : Behind e stack q) (hi : e.isItem) :
    ∃ e', q = ⟨stack, .behind e'⟩ ∧ e'.erase = e.erase := by
  obtain ⟨frames, core, rfl, he, hf⟩ := h
  have : frames = [] := List.eq_nil_iff_forall_not_mem.2 fun frame hm => by
    simpa [Expr.rightSpine_of_isItem hi] using (hf frame hm).2
  subst this
  exact ⟨core, rfl, he⟩

/-- A token completes the operators on top of the stack that bind tighter than it. -/
theorem resume_append (frames : List Frame) (core : Expr) (hp : t.kind.postfixed? = none)
    (hf : ∀ frame ∈ frames, frame.closer? = none ∧
      ∀ op, t.kind.binary? = some op → op.left < frame.level) :
    resume least t core (frames ++ stack) = resume least t (unwind core frames) stack := by
  induction frames generalizing core with
  | nil => rfl
  | cons frame frames ih =>
    obtain ⟨⟨hc, hl⟩, hf⟩ := List.forall_mem_cons.1 hf
    have hcont : continue? frame.level t core (frame :: frames ++ stack) = none :=
      (continue?_eq_none frame.level_le_postfixPower).2 ⟨hp, hl⟩
    rw [List.cons_append] at hcont ⊢
    rw [resume, hcont]
    simp only [hc]
    exact ih _ hf

/-- What a token does behind a tree that it cannot continue inside. -/
theorem Behind.step_eq (least : Nat) (t : Token) (h : Behind e stack q)
    (hfault : t.kind.fault? = none) (hp : t.kind.postfixed? = none)
    (hb : ∀ op, t.kind.binary? = some op → ∀ p ∈ e.rightSpine, op.left < p) :
    ∃ e', e'.erase = e.erase ∧ q.step least t = resume least t e' stack := by
  obtain ⟨frames, core, rfl, he, hf⟩ := h
  refine ⟨_, he, ?_⟩
  simp only [step, hfault]
  exact resume_append frames core hp fun frame hm =>
    ⟨(hf frame hm).1, fun op hop => hb op hop _ (hf frame hm).2⟩

theorem Behind.congr {e' : Expr} (h : Behind e stack q) (he : e.erase = e'.erase) :
    Behind e' stack q := by
  obtain ⟨frames, core, rfl, hcore, hf⟩ := h
  refine ⟨frames, core, rfl, hcore.trans he, ?_⟩
  rwa [← Expr.rightSpine_erase e', ← he, Expr.rightSpine_erase]

theorem resume_of_continue? (h : continue? (level least stack) t e stack = some next) :
    resume least t e stack = .shift next := by
  cases stack <;> rw [level] at h <;> simp [resume, h]

theorem step_behind (ht : t.kind.fault? = none) :
    step least ⟨stack, .behind e⟩ t = resume least t e stack := by
  simp [step, ht]

/-- Whether an expression machine reads every text of a tree, above every stack whose level the
operators at the start of the tree do not fall below. -/
def Reads (least : Nat) (e : Expr) : Prop :=
  ∀ stack ts, e.SpelledBy (ts.map Token.symbol) →
    (∀ op ∈ e.leftSpine, level least stack ≤ op.left) →
    level least stack ≤ postfixPower →
    ∃ q, Shifts least ⟨stack, .operand⟩ ts q ∧ Behind e stack q

/-! ## Lists of parts -/

/-- Whether frames collect parts with commas between them: `frame done` has read some parts,
`closer` ends it and makes `tree done` of them, and `phase` comes behind a comma. -/
structure Collects (frame : List Expr → Frame) (tree : List Expr → Expr) (closer : Kind)
    (phase : Phase) : Prop where
  closer? : ∀ done, (frame done).closer? = some closer
  level : ∀ done, (frame done).level = 0
  close : ∀ done e, (frame done).close e = tree (done ++ [e])
  closeEmpty? : ∀ done, (frame done).closeEmpty? = some (tree done)
  afterComma? : ∀ done e below,
    (frame done).afterComma? e below = some ⟨frame (done ++ [e]) :: below, phase⟩
  ended : ∀ done e below, (frame done).ended e below = (frame []).ended e below
  opens : phase = .operand ∨ phase = .operandOrEnd
  erase : ∀ es es', eraseAll es = eraseAll es' → (tree es).erase = (tree es').erase

theorem collects_array (o : Origin) :
    Collects (.array · o) (.array · o) (.mark .rightBracket) .operand :=
  ⟨fun _ => rfl, fun _ => rfl, fun _ _ => rfl, fun _ => rfl, fun _ _ _ => rfl, fun _ _ _ => rfl,
    .inl rfl, fun _ _ h => by simp [Expr.erase, h]⟩

theorem collects_group (o : Origin) :
    Collects (.group · o) (.group · o) (.mark .rightParenthesis) .operandOrEnd :=
  ⟨fun _ => rfl, fun _ => rfl, fun _ _ => rfl, fun _ => rfl, fun _ _ _ => rfl, fun _ _ _ => rfl,
    .inr rfl, fun _ _ h => by simp [Expr.erase, h]⟩

theorem collects_arguments (callee : Expr) (o : Origin) :
    Collects (.arguments callee · o) (fun es => .call callee (.group es o) o)
      (.mark .rightParenthesis) .operandOrEnd :=
  ⟨fun _ => rfl, fun _ => rfl, fun _ _ => rfl, fun _ => rfl, fun _ _ _ => rfl, fun _ _ _ => rfl,
    .inr rfl, fun _ _ h => by simp [Expr.erase, h]⟩

theorem collects_file (o : Origin) : Collects (.file · o) (.group · o) .eof .operandOrEnd :=
  ⟨fun _ => rfl, fun _ => rfl, fun _ _ => rfl, fun _ => rfl, fun _ _ _ => rfl, fun _ _ _ => rfl,
    .inr rfl, fun _ _ h => by simp [Expr.erase, h]⟩

namespace Collects

variable {frame : List Expr → Frame} {tree : List Expr → Expr} {closer : Kind} {phase : Phase}
  {es : List Expr}

theorem closes (hF : Collects frame tree closer phase) : closer.closes :=
  Frame.closes_of_closer? (hF.closer? [])

/-- What is known of a token that ends a frame or separates parts. -/
theorem plain {k : Kind} (hk : k.closes ∨ k = .mark .comma) :
    k.fault? = none ∧ k.postfixed? = none ∧ k.binary? = none := by
  simp only [Kind.closes, Bool.or_eq_true, decide_eq_true_eq] at hk
  rcases hk with (((rfl | rfl) | rfl) | rfl) | rfl <;> exact ⟨rfl, rfl, rfl⟩

/-- A comma behind a part starts the next one. -/
theorem step_comma (least : Nat) (hF : Collects frame tree closer phase) {done : List Expr}
    (hq : Behind e (frame done :: stack) q) (ht : t.kind = .mark .comma) :
    ∃ e', e'.erase = e.erase ∧
      q.step least t = .shift ⟨frame (done ++ [e']) :: stack, phase⟩ := by
  obtain ⟨hfault, hp, hb⟩ := plain (.inr ht)
  obtain ⟨e', he', hstep⟩ := hq.step_eq least t hfault hp (by simp [hb])
  refine ⟨e', he', hstep.trans ?_⟩
  have hc : Kind.mark .comma ≠ closer := by rintro rfl; simpa [Kind.closes] using hF.closes
  have hcont : continue? (frame done).level t e' (frame done :: stack) = none :=
    (continue?_eq_none (frame done).level_le_postfixPower).2 ⟨hp, by simp [hb]⟩
  rw [resume, hcont]
  simp [hF.closer?, ht, hc, hF.afterComma?]

/-- The token that ends a frame behind a part makes a tree of the parts. -/
theorem step_closer (least : Nat) (hF : Collects frame tree closer phase) {done : List Expr}
    (hq : Behind e (frame done :: stack) q) (ht : t.kind = closer) :
    ∃ e', e'.erase = e.erase ∧
      q.step least t = (frame []).ended (tree (done ++ [e'])) stack := by
  obtain ⟨hfault, hp, hb⟩ := plain (.inl (ht ▸ hF.closes))
  obtain ⟨e', he', hstep⟩ := hq.step_eq least t hfault hp (by simp [hb])
  refine ⟨e', he', hstep.trans ?_⟩
  have hcont : continue? (frame done).level t e' (frame done :: stack) = none :=
    (continue?_eq_none (frame done).level_le_postfixPower).2 ⟨hp, by simp [hb]⟩
  rw [resume, hcont]
  simp [hF.closer?, ht, hF.close, hF.ended done]

/-- The token that ends a frame where a part would start makes a tree of the parts before it. -/
theorem step_closer_empty (hF : Collects frame tree closer phase) {done : List Expr}
    (ht : t.kind = closer) :
    step least ⟨frame done :: stack, .operandOrEnd⟩ t = (frame []).ended (tree done) stack := by
  obtain ⟨hfault, -, -⟩ := plain (.inl hF.closes)
  simp [step, hfault, beginOrEnd, hF.closer?, ht, hF.closeEmpty?, hF.ended done]

/-- Parts with commas between them are read up to the last one. -/
theorem shifts_joined (stack : List Frame) (hF : Collects frame tree closer phase) {φ : Phase}
    (hφ : φ = .operand ∨ φ = .operandOrEnd) (hes : ∀ e ∈ es, e.Admissible ∧ Reads least e)
    (hn : es ≠ []) (hs : JoinedBy (.mark .comma) es (ts.map Token.symbol)) (done : List Expr) :
    ∃ done' e q, Shifts least ⟨frame done :: stack, φ⟩ ts q ∧ Behind e (frame done' :: stack) q ∧
      eraseAll (done' ++ [e]) = eraseAll (done ++ es) := by
  -- the first part is read alike whether the frame could end before it or not
  have first : ∀ (done : List Expr) {e : Expr} {φ : Phase} {us : List Token},
      φ = .operand ∨ φ = .operandOrEnd → e.Admissible → Reads least e →
      e.SpelledBy (us.map Token.symbol) →
      ∃ q, Shifts least ⟨frame done :: stack, φ⟩ us q ∧ Behind e (frame done :: stack) q := by
    intro done e φ us hφ he hr hs
    obtain ⟨q, hq, hb⟩ := hr (frame done :: stack) us hs (by simp [DocExpr.level, hF.level])
      (by simp [DocExpr.level, hF.level])
    refine ⟨q, ?_, hb⟩
    rcases hφ with rfl | rfl
    · exact hq
    · obtain ⟨t, rest, rfl, ht⟩ := hs.starts he
      exact hq.of_operand ht
  induction es generalizing done φ ts with
  | nil => exact absurd rfl hn
  | cons e es ih =>
    obtain ⟨⟨he, hr⟩, hes⟩ := List.forall_mem_cons.1 hes
    cases es with
    | nil =>
      obtain ⟨q, hq, hb⟩ := first done hφ he hr hs
      exact ⟨done, e, q, hq, hb, rfl⟩
    | cons f es =>
      obtain ⟨u, v, hu, hv, h⟩ := hs
      obtain ⟨us, ts', rfl, rfl, h'⟩ := List.map_eq_append_iff.1 h
      obtain ⟨t, vs, rfl, ht, rfl⟩ := List.map_eq_cons_iff.1 h'
      obtain ⟨q₁, hq₁, hb₁⟩ := first done hφ he hr hu
      obtain ⟨e', he', hstep⟩ := hF.step_comma least hb₁ (Token.symbol_eq_mark.1 ht)
      obtain ⟨done', last, q, hq, hb, herase⟩ := ih hF.opens hes (by simp) hv (done ++ [e'])
      refine ⟨done', last, q, hq₁.append ⟨_, hstep, hq⟩, hb, herase.trans ?_⟩
      simp [Expr.eraseAll_eq_map, he']

/-- A list of parts is read up to the token that ends its frame. -/
theorem shifts_list (stack : List Frame) (hF : Collects frame tree closer phase)
    (hes : ∀ e ∈ es, e.Admissible ∧ Reads least e)
    (hs : JoinedBy (.mark .comma) es (ts.map Token.symbol) ∨
      phase = .operandOrEnd ∧ ListedBy es (ts.map Token.symbol)) :
    ∃ q, Shifts least ⟨frame [] :: stack, .operandOrEnd⟩ ts q ∧ ∀ t : Token, t.kind = closer →
      ∃ es', eraseAll es' = eraseAll es ∧ q.step least t = (frame []).ended (tree es') stack := by
  have empty : ∀ done, eraseAll done = eraseAll es → ∀ t : Token, t.kind = closer →
      ∃ es', eraseAll es' = eraseAll es ∧
        step least ⟨frame done :: stack, .operandOrEnd⟩ t = (frame []).ended (tree es') stack :=
    fun done hd t ht => ⟨done, hd, hF.step_closer_empty ht⟩
  by_cases hn : es = []
  · subst hn
    have hts : ts = [] := by
      rcases hs with hs | ⟨-, ⟨-, hs⟩ | ⟨hn, -⟩⟩
      · exact List.map_eq_nil_iff.1 hs
      · exact List.map_eq_nil_iff.1 hs
      · exact absurd rfl hn
    subst hts
    exact ⟨_, rfl, empty [] rfl⟩
  · rcases hs with hs | ⟨rfl, ⟨hn', -⟩ | ⟨-, u, hu, h⟩⟩
    · obtain ⟨done', e, q, hq, hb, herase⟩ := hF.shifts_joined stack (.inr rfl) hes hn hs []
      refine ⟨q, hq, fun t ht => ?_⟩
      obtain ⟨e', he', hstep⟩ := hF.step_closer least hb ht
      refine ⟨done' ++ [e'], ?_, hstep⟩
      rw [List.nil_append] at herase
      rw [← herase, Expr.eraseAll_eq_map, Expr.eraseAll_eq_map]
      simp [he']
    · exact absurd hn' hn
    · obtain ⟨us, ts', rfl, rfl, h'⟩ := List.map_eq_append_iff.1 h
      obtain ⟨c, rest, rfl, hc, hrest⟩ := List.map_eq_cons_iff.1 h'
      obtain rfl := List.map_eq_nil_iff.1 hrest
      obtain ⟨done', e, q, hq, hb, herase⟩ := hF.shifts_joined stack (.inr rfl) hes hn hu []
      obtain ⟨e', he', hstep⟩ := hF.step_comma least hb (Token.symbol_eq_mark.1 hc)
      refine ⟨_, hq.concat hstep, empty _ ?_⟩
      rw [List.nil_append] at herase
      rw [← herase, Expr.eraseAll_eq_map, Expr.eraseAll_eq_map]
      simp [he']

end Collects

end Progress

/-! ## Chains -/

namespace Expr

theorem rightSpine_join (lhs : Expr) (op : BinaryOp) (o : Origin) (e : Expr) :
    (lhs.join op o e).rightSpine = op.right :: e.rightSpine := by
  cases lhs <;> simp only [join, rightSpine]
  case chain op' operands o' =>
    split
    · rw [rightSpine, rightSpineAll_concat]
    · rfl
  all_goals rfl

theorem erase_join {lhs lhs' e e' : Expr} (op : BinaryOp) (o o' : Origin)
    (h : lhs.erase = lhs'.erase) (he : e.erase = e'.erase) :
    (lhs.join op o e).erase = (lhs'.join op o' e').erase := by
  have hj : ∀ (lhs e : Expr) (o : Origin),
      (lhs.join op o e).erase = (lhs.erase.join op .synthetic e.erase).erase := by
    intro lhs e o
    cases lhs <;> simp only [join, erase] <;>
      (try split) <;> simp [erase, eraseAll_eq_map, Function.comp_def, erase_erase]
  rw [hj, hj lhs', h, he]

/-- Operands that are joined to a tree one after the other. -/
def joinAll (e : Expr) (op : BinaryOp) (es : List Expr) : Expr :=
  es.foldl (fun e f => e.join op .synthetic f) e

theorem joinAll_chain (op : BinaryOp) (es done : List Expr) :
    joinAll (chain op done .synthetic) op es = chain op (done ++ es) .synthetic := by
  induction es generalizing done with
  | nil => simp [joinAll]
  | cons f es ih =>
    have hj : (chain op done .synthetic).join op .synthetic f = chain op (done ++ [f]) .synthetic :=
      by simp [join]
    have h := ih (done ++ [f])
    rw [List.append_assoc, List.singleton_append] at h
    rw [← h, ← hj]
    rfl

/-- Operands that are joined to one that is no chain of the operator make one chain with it. -/
theorem joinAll_eq_chain {e : Expr} {op : BinaryOp} (h : ¬e.isChainOf op) {es : List Expr}
    (hn : es ≠ []) : joinAll e op es = chain op (e :: es) .synthetic := by
  cases es with
  | nil => exact absurd rfl hn
  | cons f es =>
    have hj : e.join op .synthetic f = chain op [e, f] .synthetic := by
      cases e <;> simp_all [join, isChainOf]
    exact (congrArg (joinAll · op es) hj).trans (joinAll_chain op es [e, f])

theorem erase_joinAll {e e' : Expr} (op : BinaryOp) (h : e.erase = e'.erase) (es : List Expr) :
    (joinAll e op es).erase = (joinAll e' op es).erase := by
  induction es generalizing e e' with
  | nil => exact h
  | cons f es ih => exact ih (erase_join op _ _ h rfl)

theorem spelledBy_group {items : List Expr} {o : Origin} {s : List Symbol} :
    (group items o).SpelledBy s ↔ ∃ u, (JoinedBy (.mark .comma) items u ∨ ListedBy items u) ∧
      s = .mark .leftParenthesis :: (u ++ [.mark .rightParenthesis]) := by
  constructor
  · rintro ⟨u, hu, rfl | ⟨hn, rfl⟩⟩
    · exact ⟨u, .inl hu, rfl⟩
    · exact ⟨u ++ [.mark .comma], .inr (.inr ⟨hn, u, hu, rfl⟩), by simp⟩
  · rintro ⟨u, hu, rfl⟩
    exact ItemsSpelledBy.spelled ⟨rfl, hu⟩

end Expr

namespace Progress

variable {least : Nat} {stack : List Frame} {ts : List Token}

/-- The operands behind the first operator of a chain are read as joined one after the other. -/
theorem shifts_operands {op : BinaryOp} {es : List Expr} (hn : es ≠ [])
    (hes : ∀ e ∈ es, Reads least e ∧ ∀ op' ∈ e.leftSpine, op.right ≤ op'.left)
    (hlast : ∀ e ∈ es.dropLast, ∀ p ∈ e.rightSpine, op.left < p)
    (hs : JoinedBy (.kind op.kind) es (ts.map Token.symbol)) (hstack : level least stack ≤ op.left)
    (lhs : Expr) (o : Origin) :
    ∃ q, Shifts least ⟨.chain lhs op o :: stack, .operand⟩ ts q ∧
      Behind (Expr.joinAll lhs op es) stack q := by
  -- behind an operand, the frame of the chain is one more to be completed
  have first : ∀ (lhs : Expr) {e : Expr} {o : Origin} {us : List Token}, Reads least e →
      (∀ op' ∈ e.leftSpine, op.right ≤ op'.left) → e.SpelledBy (us.map Token.symbol) →
      ∃ q, Shifts least ⟨.chain lhs op o :: stack, .operand⟩ us q ∧
        Behind (lhs.join op .synthetic e) stack q := by
    intro lhs e o us hr hl hu
    obtain ⟨q, hq, frames, core, rfl, hcore, hf⟩ := hr (.chain lhs op o :: stack) us hu hl
      (Nat.le_of_lt op.right_lt_postfixPower)
    refine ⟨_, hq, frames ++ [.chain lhs op o], core, by simp, ?_, ?_⟩
    · rw [unwind, List.foldl_append]
      exact Expr.erase_join op _ _ rfl hcore
    · rw [Expr.rightSpine_join]
      intro frame hm
      rcases List.mem_append.1 hm with hm | hm
      · exact ⟨(hf frame hm).1, List.mem_cons_of_mem _ (hf frame hm).2⟩
      · rw [List.mem_singleton.1 hm]
        exact ⟨rfl, List.mem_cons_self⟩
  induction es generalizing lhs o ts with
  | nil => exact absurd rfl hn
  | cons e es ih =>
    obtain ⟨⟨hr, hl⟩, hes⟩ := List.forall_mem_cons.1 hes
    cases es with
    | nil => exact first lhs hr hl hs
    | cons f es =>
      obtain ⟨u, v, hu, hv, h⟩ := hs
      obtain ⟨us, ts', rfl, rfl, h'⟩ := List.map_eq_append_iff.1 h
      obtain ⟨t, vs, rfl, ht, rfl⟩ := List.map_eq_cons_iff.1 h'
      rw [List.dropLast_cons_cons, List.forall_mem_cons] at hlast
      obtain ⟨q₁, hq₁, hb₁⟩ := first lhs (o := o) hr hl hu
      rw [Token.symbol_eq_binary] at ht
      have hop : t.kind.binary? = some op := ht ▸ binary?_kind op
      have hpost : t.kind.postfixed? = none := ht ▸ postfixed?_kind op
      obtain ⟨lhs', hlhs', hstep⟩ := hb₁.step_eq least t
        (by rw [ht]; cases op <;> rfl) hpost (by
          rw [Expr.rightSpine_join]
          rintro op' hop' p hp
          obtain rfl := Option.some.inj (hop.symm.trans hop')
          rcases List.mem_cons.1 hp with rfl | hp
          · exact op.left_lt_right
          · exact hlast.1 p hp)
      have hcont : continue? (level least stack) t lhs' stack =
          some ⟨.chain lhs' op t.origin :: stack, .operand⟩ := by
        simp [continue?, hpost, hop, hstack]
      obtain ⟨q, hq, hb⟩ := ih (by simp) hes hlast.2 hv lhs' t.origin
      refine ⟨q, hq₁.append ⟨_, hstep.trans (resume_of_continue? hcont), hq⟩, hb.congr ?_⟩
      exact Expr.erase_joinAll op hlhs' (f :: es)

/-! ## Trees -/

/-- A token behind an item that opens something there. -/
theorem step_postfixed {t : Token} {e : Expr} (form : Postfixed)
    (ht : t.kind.postfixed? = some form) (hl : level least stack ≤ postfixPower) :
    step least ⟨stack, .behind e⟩ t = .shift (openBehind t e stack form) := by
  have hfault : t.kind.fault? = none := by
    unfold Kind.postfixed? at ht
    split at ht <;> first | (rename_i h; rw [h]; rfl) | cases ht
  rw [step_behind hfault]
  exact resume_of_continue? (by simp [continue?, ht, hl])

theorem reads_suffixed {form : Suffix} {item : Expr} {o : Origin} (hi : item.isItem)
    (hr : Reads least item) : Reads least (.suffixed form item o) := by
  rintro stack ts ⟨u, hu, h⟩ - hlevel
  obtain ⟨us, vs, rfl, rfl, hv⟩ := List.map_eq_append_iff.1 h
  obtain ⟨q, hq, hb⟩ := hr stack us hu (by simp [Expr.leftSpine_of_isItem hi]) hlevel
  obtain ⟨e, rfl, he⟩ := hb.eq_of_isItem hi
  have behind : ∀ o', Behind (.suffixed form item o) stack ⟨stack, .behind (.suffixed form e o')⟩ :=
    fun o' => .of_erase_eq _ (by simp [Expr.erase, he])
  cases form with
  | array =>
    obtain ⟨t, vs, rfl, ht, hv⟩ := List.map_eq_cons_iff.1 hv
    obtain ⟨t', vs, rfl, ht', hv⟩ := List.map_eq_cons_iff.1 hv
    obtain rfl := List.map_eq_nil_iff.1 hv
    rw [Token.symbol_eq_mark] at ht ht'
    refine ⟨_, hq.append ⟨_, step_postfixed .bracket (by rw [ht]; rfl) hlevel, _, ?_, rfl⟩,
      behind t.origin⟩
    simp [step, openBehind, ht', Kind.fault?]
  | list =>
    obtain ⟨t, vs, rfl, ht, hv⟩ := List.map_eq_cons_iff.1 hv
    obtain ⟨t', vs, rfl, ht', hv⟩ := List.map_eq_cons_iff.1 hv
    obtain ⟨t'', vs, rfl, ht'', hv⟩ := List.map_eq_cons_iff.1 hv
    obtain rfl := List.map_eq_nil_iff.1 hv
    rw [Token.symbol_eq_mark] at ht ht' ht''
    refine ⟨_, hq.append ⟨_, step_postfixed .bracket (by rw [ht]; rfl) hlevel,
      ⟨stack, .bracketSemicolon e t.origin⟩, ?_, _, ?_, rfl⟩, behind t.origin⟩
    · simp [step, openBehind, ht', Kind.fault?]
    · simp [step, ht'', Kind.fault?]
  | optional =>
    obtain ⟨t, vs, rfl, ht, hv⟩ := List.map_eq_cons_iff.1 hv
    obtain rfl := List.map_eq_nil_iff.1 hv
    rw [Token.symbol_eq_mark] at ht
    exact ⟨_, hq.concat (step_postfixed .optional (by rw [ht]; rfl) hlevel),
      behind t.origin⟩
  | set =>
    obtain ⟨t, vs, rfl, ht, hv⟩ := List.map_eq_cons_iff.1 hv
    obtain ⟨t', vs, rfl, ht', hv⟩ := List.map_eq_cons_iff.1 hv
    obtain rfl := List.map_eq_nil_iff.1 hv
    rw [Token.symbol_eq_mark] at ht ht'
    refine ⟨_, hq.append ⟨_, step_postfixed .brace (by rw [ht]; rfl) hlevel, _, ?_, rfl⟩,
      behind t.origin⟩
    simp [step, openBehind, beginOrEnd, Frame.closer?, Frame.closeEmpty?, Frame.ended, ht',
      Kind.fault?]

theorem reads_map {item key : Expr} {o : Origin} (hi : item.isItem) (hr : Reads least item)
    (hk : key.Admissible) (hrk : Reads least key) : Reads least (.map item key o) := by
  rintro stack ts ⟨u, v, hu, hv, h⟩ - hlevel
  obtain ⟨us, ts', rfl, rfl, h'⟩ := List.map_eq_append_iff.1 h
  obtain ⟨t, ts'', rfl, ht, h''⟩ := List.map_eq_cons_iff.1 h'
  obtain ⟨vs, ts₃, rfl, rfl, h₃⟩ := List.map_eq_append_iff.1 h''
  obtain ⟨t', ts₄, rfl, ht', h₄⟩ := List.map_eq_cons_iff.1 h₃
  obtain rfl := List.map_eq_nil_iff.1 h₄
  rw [Token.symbol_eq_mark] at ht ht'
  obtain ⟨q, hq, hb⟩ := hr stack us hu (by simp [Expr.leftSpine_of_isItem hi]) hlevel
  obtain ⟨e, rfl, he⟩ := hb.eq_of_isItem hi
  obtain ⟨q', hq', hb'⟩ := hrk (.key e t.origin :: stack) vs hv (by simp [level, Frame.level])
    (by simp [level, Frame.level])
  replace hq' : Shifts least ⟨.key e t.origin :: stack, .operandOrEnd⟩ vs q' := by
    obtain ⟨first, rest, rfl, hfirst⟩ := hv.starts hk
    exact hq'.of_operand hfirst
  obtain ⟨k, hk', hstep⟩ := hb'.step_eq least t' (by rw [ht']; rfl)
    (by rw [ht']; rfl) (by simp [ht', Kind.binary?])
  refine ⟨⟨stack, .behind (.map e k t.origin)⟩,
    hq.append ⟨_, step_postfixed .brace (by rw [ht]; rfl) hlevel,
      hq'.concat (hstep.trans ?_)⟩, .of_erase_eq _ (by simp [Expr.erase, he, hk'])⟩
  simp [resume, continue?, ht', Kind.postfixed?, Kind.binary?, Frame.closer?, Frame.ended,
    Frame.close]

theorem reads_array {es : List Expr} {o : Origin} (hes : ∀ e ∈ es, e.Admissible ∧ Reads least e) :
    Reads least (.array es o) := by
  rintro stack ts ⟨u, hu, h⟩ - -
  obtain ⟨t, ts', rfl, ht, h'⟩ := List.map_eq_cons_iff.1 h
  obtain ⟨us, ts'', rfl, rfl, h''⟩ := List.map_eq_append_iff.1 h'
  obtain ⟨t', rest, rfl, ht', hrest⟩ := List.map_eq_cons_iff.1 h''
  obtain rfl := List.map_eq_nil_iff.1 hrest
  rw [Token.symbol_eq_mark] at ht ht'
  obtain ⟨q, hq, hclose⟩ := (collects_array t.origin).shifts_list stack hes (.inl hu)
  obtain ⟨es', herase, hstep⟩ := hclose t' ht'
  refine ⟨_, ⟨_, ?_, hq.concat hstep⟩, .of_erase_eq _ (by simp [Expr.erase, herase])⟩
  simp [step, beginWith, ht, Kind.fault?, Kind.unary?]

theorem reads_group {es : List Expr} {o : Origin} (hes : ∀ e ∈ es, e.Admissible ∧ Reads least e) :
    Reads least (.group es o) := by
  intro stack ts hs _ _
  obtain ⟨u, hu, h⟩ := Expr.spelledBy_group.1 hs
  obtain ⟨t, ts', rfl, ht, h'⟩ := List.map_eq_cons_iff.1 h
  obtain ⟨us, ts'', rfl, rfl, h''⟩ := List.map_eq_append_iff.1 h'
  obtain ⟨t', rest, rfl, ht', hrest⟩ := List.map_eq_cons_iff.1 h''
  obtain rfl := List.map_eq_nil_iff.1 hrest
  rw [Token.symbol_eq_mark] at ht ht'
  obtain ⟨q, hq, hclose⟩ := (collects_group t.origin).shifts_list stack hes
    (hu.imp_right fun h => ⟨rfl, h⟩)
  obtain ⟨es', herase, hstep⟩ := hclose t' ht'
  refine ⟨_, ⟨_, ?_, hq.concat hstep⟩, .of_erase_eq _ (by simp [Expr.erase, herase])⟩
  simp [step, beginWith, ht, Kind.fault?, Kind.unary?]

theorem reads_call {callee : Expr} {es : List Expr} {o o' : Origin} (hi : callee.isItem)
    (hr : Reads least callee) (hes : ∀ e ∈ es, e.Admissible ∧ Reads least e) :
    Reads least (.call callee (.group es o') o) := by
  rintro stack ts ⟨u, v, hu, hv, h⟩ - hlevel
  obtain ⟨us, vs, rfl, rfl, rfl⟩ := List.map_eq_append_iff.1 h
  obtain ⟨w, hw, h⟩ := Expr.spelledBy_group.1 hv
  obtain ⟨t, ts', rfl, ht, h'⟩ := List.map_eq_cons_iff.1 h
  obtain ⟨ws, ts'', rfl, rfl, h''⟩ := List.map_eq_append_iff.1 h'
  obtain ⟨t', rest, rfl, ht', hrest⟩ := List.map_eq_cons_iff.1 h''
  obtain rfl := List.map_eq_nil_iff.1 hrest
  rw [Token.symbol_eq_mark] at ht ht'
  obtain ⟨q, hq, hb⟩ := hr stack us hu (by simp [Expr.leftSpine_of_isItem hi]) hlevel
  obtain ⟨e, rfl, he⟩ := hb.eq_of_isItem hi
  obtain ⟨q', hq', hclose⟩ := (collects_arguments e t.origin).shifts_list stack hes
    (hw.imp_right fun h => ⟨rfl, h⟩)
  obtain ⟨es', herase, hstep⟩ := hclose t' ht'
  exact ⟨_, hq.append ⟨_, step_postfixed .call (by rw [ht]; rfl) hlevel,
    hq'.concat hstep⟩, .of_erase_eq _ (by simp [Expr.erase, he, herase])⟩

theorem reads_chain {op : BinaryOp} {es : List Expr} {o : Origin} (hf : (Expr.chain op es o).Fits)
    (hes : ∀ e ∈ es, Reads least e) : Reads least (.chain op es o) := by
  obtain ⟨hlen, hhead, htail, hlast⟩ := hf
  obtain ⟨e, f, es, rfl⟩ := Expr.exists_cons_cons hlen
  rintro stack ts ⟨u, v, hu, hv, h⟩ hl hlevel
  obtain ⟨us, ts', rfl, rfl, h'⟩ := List.map_eq_append_iff.1 h
  obtain ⟨t, vs, rfl, ht, rfl⟩ := List.map_eq_cons_iff.1 h'
  rw [Token.symbol_eq_binary] at ht
  rw [List.dropLast_cons_cons, List.forall_mem_cons] at hlast
  simp only [Expr.leftSpine, Expr.leftSpineAll, List.forall_mem_cons] at hl
  have hop : t.kind.binary? = some op := ht ▸ binary?_kind op
  have hpost : t.kind.postfixed? = none := ht ▸ postfixed?_kind op
  obtain ⟨q, hq, hb⟩ := hes e (by simp) stack us hu hl.2 hlevel
  obtain ⟨lhs, hlhs, hstep⟩ := hb.step_eq least t (by rw [ht]; cases op <;> rfl)
    hpost (by
      rintro op' hop' p hp
      obtain rfl := Option.some.inj (hop.symm.trans hop')
      exact hlast.1 p hp)
  have hcont : continue? (level least stack) t lhs stack =
      some ⟨.chain lhs op t.origin :: stack, .operand⟩ := by
    simp [continue?, hpost, hop, hl.1]
  obtain ⟨q', hq', hb'⟩ :=
    shifts_operands (by simp) (fun g hg => ⟨hes g (List.mem_of_mem_tail hg), htail g hg⟩)
    hlast.2 hv hl.1 lhs t.origin
  have hhead' : ¬lhs.isChainOf op := by
    rw [← Expr.isChainOf_erase, hlhs, Expr.isChainOf_erase]
    exact hhead e rfl
  rw [Expr.joinAll_eq_chain hhead' (by simp)] at hb'
  exact ⟨q', hq.append ⟨_, hstep.trans (resume_of_continue? hcont), hq'⟩,
    hb'.congr (by simp [Expr.erase, Expr.eraseAll, hlhs])⟩

theorem reads_unary {op : UnaryOp} {operand : Expr} {o : Origin}
    (hl : ∀ op' ∈ operand.leftSpine, op.power ≤ op'.left) (hr : Reads least operand) :
    Reads least (.unary op operand o) := by
  rintro stack ts ⟨u, hu, h⟩ - -
  obtain ⟨t, us, rfl, ht, rfl⟩ := List.map_eq_cons_iff.1 h
  rw [Token.symbol_eq_unary] at ht
  obtain ⟨q, hq, frames, core, rfl, hcore, hf⟩ := hr (.unary op t.origin :: stack) us hu hl
    (Frame.level_le_postfixPower (.unary op t.origin))
  refine ⟨_, ⟨⟨.unary op t.origin :: stack, .operand⟩, ?_, hq⟩, frames ++ [.unary op t.origin],
    core, by simp, ?_, ?_⟩
  · have hfault : op.kind.fault? = none := by cases op <;> rfl
    simp [step, hfault, beginWith, ht, unary?_kind]
  · simpa [unwind, Frame.close, Expr.erase] using hcore
  · intro frame hm
    rcases List.mem_append.1 hm with hm | hm
    · exact ⟨(hf frame hm).1, List.mem_cons_of_mem _ (hf frame hm).2⟩
    · rw [List.mem_singleton.1 hm]
      exact ⟨rfl, List.mem_cons_self⟩

/-- The machine reads every text of an admissible tree. -/
theorem reads {e : Expr} (he : e.Admissible) : Reads least e := by
  -- of the arguments of a call, which are a group of their own, the parts are read and not the
  -- group
  suffices Reads least e ∧ ∀ c ∈ e.children, Reads least c from this.1
  induction e using Expr.inductionOnChildren with
  | node e ih =>
    have parts : ∀ c ∈ e.children, Reads least c := fun c hc => (ih c hc (he.child hc)).1
    refine ⟨?_, parts⟩
    cases e with
    | atom form text o =>
      rintro stack ts hs - -
      obtain ⟨t, rest, rfl, ht, hrest⟩ := List.map_eq_cons_iff.1 hs
      obtain rfl := List.map_eq_nil_iff.1 hrest
      obtain ⟨hk, rfl⟩ := Token.symbol_eq_atom.1 ht
      exact ⟨_, ⟨_, by simp [step, beginWith, hk, Kind.fault?, Kind.unary?], rfl⟩,
        .of_erase_eq (.atom form t.text t.origin) rfl⟩
    | block form lines o =>
      rintro stack ts hs - -
      obtain ⟨t, rest, rfl, ht, hrest⟩ := List.map_eq_cons_iff.1 hs
      obtain rfl := List.map_eq_nil_iff.1 hrest
      obtain ⟨hk, rfl⟩ := Token.symbol_eq_block.1 ht
      exact ⟨_, ⟨_, by simp [step, beginWith, hk, Kind.fault?, Kind.unary?], rfl⟩,
        .of_erase_eq (.block form t.lines t.origin) rfl⟩
    | suffixed form item o => exact reads_suffixed he.fits (parts item (by simp [Expr.children]))
    | map item key o =>
      exact reads_map he.fits (parts item (by simp [Expr.children]))
        (he.child (by simp [Expr.children])) (parts key (by simp [Expr.children]))
    | call callee arguments o =>
      obtain ⟨hi, hg⟩ := he.fits
      obtain ⟨es, o', rfl⟩ : ∃ es o', arguments = .group es o' := by
        cases arguments <;> simp_all [Expr.isGroup]
      have hgroup : (Expr.group es o').Admissible := he.child (by simp [Expr.children])
      exact reads_call hi (parts callee (by simp [Expr.children])) fun e hm =>
        ⟨Expr.admissible_group.1 hgroup e hm, (ih _ (by simp [Expr.children]) hgroup).2 e hm⟩
    | array es o => exact reads_array fun e hm => ⟨Expr.admissible_array.1 he e hm, parts e hm⟩
    | group es o => exact reads_group fun e hm => ⟨Expr.admissible_group.1 he e hm, parts e hm⟩
    | chain op es o => exact reads_chain he.fits parts
    | unary op operand o => exact reads_unary he.fits (parts operand (by simp [Expr.children]))

/-- A run ends at the token that completes the tree. -/
theorem run_of_accept {q : Progress} {rest : List Token} {finish : Origin} {e : Expr} {taken : Bool}
    (h : q.step least (rest.headD (.eof finish)) = .accept e taken) :
    (q.run least finish rest).result = .ok e ∧
      (taken = false → (q.run least finish rest).unread = rest) := by
  cases rest with
  | nil => rw [List.headD_nil] at h; simp [run, h, ParseRun.endingAtEof]
  | cons t rest =>
    rw [List.headD_cons] at h
    simp only [run, h, ParseRun.result_ending, ParseRun.unread_ending, true_and]
    rintro rfl
    rfl

end Progress

/-! ## Whole inputs -/

namespace Lookahead

open Progress

variable {e : Expr} {text rest : List Token} {finish : Origin}

theorem kind_peek_eq_eof (finish : Origin) (h : ∀ t ∈ rest.head?, t.kind = .eof) :
    (rest.headD (.eof finish)).kind = .eof := by
  cases rest with
  | nil => rfl
  | cons t rest => exact h t rfl

/-- An admissible tree is read from a text of it behind which the input ends. -/
theorem wholeExpression_complete (rest : List Token) (finish : Origin) (he : e.Admissible)
    (hs : e.SpelledBy (text.map Token.symbol)) (hrest : ∀ t ∈ rest.head?, t.kind = .eof) :
    ∃ e', (⟨text ++ rest, finish⟩ : Lookahead).wholeExpression.result = .ok e' ∧
      e'.erase = e.erase := by
  have hk := kind_peek_eq_eof finish hrest
  have hend : (⟨rest, finish⟩ : Lookahead).endError? = none := endError?_eq_none.2 hk
  generalize hnext : rest.headD (.eof finish) = next at hk
  have hreads : Reads 0 e := reads he
  obtain ⟨q, hq, hb⟩ := hreads [] text hs (by simp [level]) (by simp [level])
  obtain ⟨e', he', hstep⟩ := hb.step_eq 0 next
    (by rw [hk]; rfl) (by rw [hk]; rfl) (by simp [hk, Kind.binary?])
  have haccept : q.step 0 next = .accept e' false := by
    rw [hstep]
    simp [resume, continue?, hk, Kind.postfixed?, Kind.binary?]
  obtain ⟨hresult, hunread⟩ := hq.run_eq finish rest
  obtain ⟨hok, hleft⟩ := run_of_accept (hnext ▸ haccept)
  refine ⟨e', ?_, he'⟩
  have hr : ((⟨text ++ rest, finish⟩ : Lookahead).expression 0).result = .ok e' :=
    hresult.trans hok
  have hu : ((⟨text ++ rest, finish⟩ : Lookahead).expression 0).unread = rest :=
    hunread.trans (hleft rfl)
  simp [wholeExpression, hr, hu, hend]

/-- The items of a file are read from a text of them behind which the input ends. -/
theorem items_complete (he : e.Admissible) (hs : e.ItemsSpelledBy (text.map Token.symbol))
    (hrest : ∀ t ∈ rest.head?, t.kind = .eof) :
    ∃ e', (⟨text ++ rest, finish⟩ : Lookahead).items.result = .ok e' ∧ e'.erase = e.erase := by
  have hk := kind_peek_eq_eof finish hrest
  obtain ⟨hg, hs⟩ := hs
  obtain ⟨es, o, rfl⟩ : ∃ es o, e = .group es o := by cases e <;> simp_all [Expr.isGroup]
  have hes := Expr.admissible_group.1 he
  have hreads : ∀ e ∈ es, e.Admissible ∧ Reads 0 e := fun e hm => ⟨hes e hm, reads (hes e hm)⟩
  obtain ⟨q, hq, hclose⟩ :=
    (collects_file (⟨text ++ rest, finish⟩ : Lookahead).peek.origin).shifts_list []
    hreads (hs.imp_right fun h => ⟨rfl, h⟩)
  obtain ⟨es', herase, hstep⟩ := hclose _ hk
  exact ⟨_, ((hq.run_eq finish rest).1.trans (run_of_accept hstep).1), by simp [Expr.erase, herase]⟩

end Lookahead

end DocExpr
