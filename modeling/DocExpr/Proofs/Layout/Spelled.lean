import DocExpr.Proofs.Comments.Script
import DocExpr.Proofs.Documentation
import DocExpr.Proofs.Layout.Stance

/-!
# What scripts spell

The script of a tree writes its text, symbol by symbol (`Expr.Spelled`). `Directive.Spells` says so
of scripts without looking at pages: which symbols a script writes, and from which juncture of a
text to which one it leads. A juncture is the stance of a page, or a place beside the document
operator, which writes nothing itself. Whatever single directives make of pages is then known of
scripts by induction on this relation.
-/

namespace DocExpr

open Lexeme

namespace Page

/-- Whether writing a text adds marks and words, one after the other, and leads from one stance to
another. -/
inductive Appends : Stance → String → List Symbol → Stance → Prop where
  | one {st st' : Stance} {fragment : String} {k : Kind} {text behind : List Char}
      (h : Adds st fragment k text behind st') (hk : (∃ m, k = .mark m) ∨ ∃ w, k = .keyword w)
      (hline : '\n' ∉ text) (hpasses : Passes fragment.toList) : Appends st fragment [.kind k] st'
  | concat {st st' st'' : Stance} {first second : String} {s s' : List Symbol}
      (h : Appends st first s st') (h' : Appends st' second s' st'') (hfirst : Solid first.toList)
      (hline : '\n' ∉ first.toList)
      (hline' : '\n' ∉ second.toList) : Appends st (first ++ second) (s ++ s') st''
  | mono {pre st st' post : Stance} {text : String} {s : List Symbol} (h : Appends st text s st')
      (hpre : pre.Le st) (hpost : st'.Le post) : Appends pre text s post

/-- What adds nothing to a list for marks and words adds nothing for what is appended. -/
theorem Appends.flatMap_eq_nil {β : Type} {f : Symbol → List β} {st st' : Stance} {text : String}
    {s : List Symbol} (h : Appends st text s st') (hmark : ∀ m, f (.mark m) = [])
    (hkeyword : ∀ w, f (.kind (.keyword w)) = []) :
    s.flatMap f = [] := by
  induction h with
  | one _ hk =>
    rw [List.flatMap_singleton]
    rcases hk with ⟨m, rfl⟩ | ⟨w, rfl⟩
    · exact hmark m
    · exact hkeyword w
  | concat _ _ _ _ _ ih ih' => rw [List.flatMap_append, ih, ih', List.append_nil]
  | mono _ _ _ ih => exact ih

theorem appends_open {m : Mark}
    (hm : m = .leftParenthesis ∨ m = .leftBracket ∨ m = .leftBrace ∨ m = .semicolon) :
    Appends .settled m.spelling [.mark m] .ready :=
  .one (adds_open hm) (.inl ⟨m, rfl⟩) (by rcases hm with rfl | rfl | rfl | rfl <;> decide)
    (passes_mark (by rcases hm with rfl | rfl | rfl | rfl <;> decide))

theorem appends_close {m : Mark}
    (hm : m = .rightParenthesis ∨ m = .rightBracket ∨ m = .rightBrace) :
    Appends .settled m.spelling [.mark m] .done :=
  .one (adds_close hm) (.inl ⟨m, rfl⟩) (by rcases hm with rfl | rfl | rfl <;> decide)
    (passes_mark (by rcases hm with rfl | rfl | rfl <;> decide))

theorem appends_operator {op : BinaryOp} (hop : op ≠ .document) :
    Appends .done op.text [.kind op.kind] .ready :=
  .one (adds_operator hop) (by cases op <;> simp_all [BinaryOp.kind]) (op.stable hop).2.2
    (passes_operator op hop)

theorem appends_bar : Appends .settled " | " [.mark .bar] .ready :=
  .one adds_bar (.inl ⟨.bar, rfl⟩) (by decide) (passes_operator .union (by decide))

theorem appends_unary (op : UnaryOp) : Appends .ready op.text [.kind op.kind] .ready := by
  obtain ⟨behind, hadds⟩ := adds_unary op
  exact .one hadds (by cases op <;> simp [UnaryOp.kind]) (by cases op <;> decide) (passes_unary op)

theorem appends_suffix (form : Suffix) : Appends .done form.text form.symbols .done := by
  have opened : ∀ {m : Mark}, m = .leftParenthesis ∨ m = .leftBracket ∨ m = .leftBrace ∨
      m = .semicolon →
      Appends .settled m.spelling [.mark m] .settled :=
    fun hm => (appends_open hm).mono (.refl _) Stance.ready_le_settled
  suffices form ≠ .optional → Appends .settled form.text form.symbols .done by
    by_cases hform : form = .optional
    · exact hform ▸ .one adds_question (.inl ⟨.question, rfl⟩) (by decide)
        (passes_mark (m := .question) (by decide))
    · exact (this hform).mono Stance.done_le_settled (.refl _)
  intro hform
  cases form with
  | array =>
    have hclose : Appends .settled Mark.rightBracket.spelling _ .done := appends_close (by simp)
    exact (opened (m := .leftBracket) (by simp)).concat hclose (solid_mark _) (by decide)
      (by decide)
  | list =>
    have hrest : Appends .settled (Mark.semicolon.spelling ++ Mark.rightBracket.spelling) _ .done :=
      (opened (by simp)).concat (appends_close (by simp)) (solid_mark _) (by decide) (by decide)
    exact (opened (m := .leftBracket) (by simp)).concat hrest (solid_mark _) (by decide) (by decide)
  | optional => exact absurd rfl hform
  | set =>
    have hclose : Appends .settled Mark.rightBrace.spelling _ .done := appends_close (by simp)
    exact (opened (m := .leftBrace) (by simp)).concat hclose (solid_mark _) (by decide) (by decide)

end Page

/-! ## Junctures -/

/-- A place in a text that is being written: a stance, or a place beside the document operator. -/
inductive Juncture where
  | stance (st : Stance)
  /-- Leading documentation has been written, and the document operator follows. -/
  | led
  /-- The document operator has been passed, and trailing documentation follows. -/
  | tied
deriving DecidableEq

namespace Juncture

/-- An operand can follow. -/
abbrev ready : Juncture := .stance .ready

/-- An operand is complete. -/
abbrev done : Juncture := .stance .done

/-- What separates or closes can follow. -/
abbrev settled : Juncture := .stance .settled

/-- Whether what can be written at one juncture can be written at another one. -/
inductive Le : Juncture → Juncture → Prop where
  | refl (j : Juncture) : Le j j
  | settled {st : Stance} (h : st.Le .settled) : Le (.stance st) .settled

theorem ready_le_settled : ready.Le settled := .settled Stance.ready_le_settled

theorem done_le_settled : done.Le settled := .settled Stance.done_le_settled

end Juncture

namespace Directive

open Page

/-- Whether a script writes symbols, and leads from one juncture to another. -/
inductive Spells : Juncture → List Directive → List Symbol → Juncture → Prop where
  | nil (j : Juncture) : Spells j [] [] j
  | concat {j j' j'' : Juncture} {ds ds' : List Directive} {s s' : List Symbol}
      (h : Spells j ds s j') (h' : Spells j' ds' s' j'') : Spells j (ds ++ ds') (s ++ s') j''
  | mono {pre j j' post : Juncture} {ds : List Directive} {s : List Symbol} (h : Spells j ds s j')
      (hpre : pre.Le j) (hpost : j'.Le post) : Spells pre ds s post
  | append {st st' : Stance} {text : String} {s : List Symbol} (h : Appends st text s st')
      (hcomma : text ≠ ", ") :
      Spells (.stance st) [.append text] s (.stance st')
  | comma : Spells .done [.append ", "] [.mark .comma] .ready
  /-- Behind leading documentation, the document operator is before what is documented or, again,
  documentation. -/
  | leads {j : Juncture} (hj : j = .ready ∨ j = .tied) :
      Spells .led [.append ""] [.kind .document] j
  | ties : Spells .done [.append ""] [.kind .document] .tied
  | verticalSpacing (j : Juncture) : Spells j [.verticalSpacing] [] j
  | indentedIfSpaced {j j' : Juncture} {body : List Directive} {s : List Symbol}
      (h : Spells j body s j') :
      Spells j [.indentedIfSpaced body] s j'
  | spaced {j j' : Juncture} {body : List Directive} {s : List Symbol} (mode : Spacing)
      (h : Spells j body s j') :
      Spells j [.spaced mode body] s j'
  | atom {form : Atom} {text : String} (o : Origin) (h : (Symbol.atom form text).Legible) :
      Spells .ready [.write (.atom form text o)] [.atom form text] .done
  | leading {lines : List String} (o : Origin) (h : (Symbol.block .leading lines).Legible) :
      Spells .ready [.write (.block .leading lines o)] [.block .leading lines] .led
  | trailing {lines : List String} (o : Origin) (h : (Symbol.block .trailing lines).Legible) :
      Spells .tied [.write (.block .trailing lines o)] [.block .trailing lines] .done
  | multiline {lines : List String} (o : Origin) (h : (Symbol.block .multiline lines).Legible) :
      Spells .ready [.write (.block .multiline lines o)] [.block .multiline lines] .done

end Directive

/-! ## Trees -/

/-- The juncture before a token. -/
def Kind.junctureBefore : Kind → Juncture
  | .block .trailing => .tied
  | .mark .leftParenthesis => .settled
  | _ => .ready

/-- The juncture behind a token with which an operand ends. -/
def Kind.junctureBehind : Kind → Juncture
  | .block .leading => .led
  | _ => .done

namespace Expr

open Directive Page

/-- The juncture before a tree. -/
def junctureBefore (e : Expr) : Juncture := e.kinds.head?.elim .ready Kind.junctureBefore

/-- The juncture behind a tree. -/
def junctureBehind (e : Expr) : Juncture := e.kinds.getLast?.elim .done Kind.junctureBehind

/-- Whether the script of a tree writes its text. -/
def Spelled (e : Expr) : Prop := Spells e.junctureBefore e.script e.spell e.junctureBehind

/-- A tree behind which an operand is complete. -/
theorem Spelled.settles {e : Expr} (h : e.Spelled) (hdone : e.junctureBehind = .done) :
    Spells e.junctureBefore e.script e.spell .settled := by
  rw [Spelled, hdone] at h
  exact h.mono (.refl _) Juncture.done_le_settled

theorem forall_spell_children {P : Symbol → Prop} {e : Expr} (h : ∀ x ∈ e.spell, P x) :
    ∀ c ∈ e.children, ∀ x ∈ c.spell, P x := by
  cases e with
  | atom | block => simp [children]
  | suffixed | map | call | unary => simp_all [children, spell]
  | array es | group es =>
    exact forall_mem_spell fun x (hx : x ∈ spellAll (.mark .comma) es) => h x (by simp [spell, hx])
  | chain op es => exact forall_mem_spell h

variable {e f : Expr} {es : List Expr} {a c : Option Kind} {text : String}

theorem junctureBefore_cases (e : Expr) :
    e.junctureBefore = .tied ∨ Juncture.ready.Le e.junctureBefore := by
  unfold junctureBefore
  cases e.kinds.head? with
  | none => exact .inr (.refl _)
  | some k =>
    show k.junctureBefore = _ ∨ Juncture.Le _ k.junctureBefore
    unfold Kind.junctureBefore
    split
    · exact .inl rfl
    · exact .inr Juncture.ready_le_settled
    · exact .inr (.refl _)

theorem junctureBehind_cases (e : Expr) : e.junctureBehind = .led ∨ e.junctureBehind = .done := by
  unfold junctureBehind
  cases e.kinds.getLast? with
  | none => exact .inr rfl
  | some k =>
    show k.junctureBehind = _ ∨ k.junctureBehind = _
    unfold Kind.junctureBehind
    split
    · exact .inl rfl
    · exact .inr rfl

/-- Where no document operator comes before, an operand can be written. -/
theorem le_junctureBefore (h : Neighbours Kind.Joined a e.kinds c) (ha : a ≠ some .document) :
    Juncture.ready.Le e.junctureBefore := by
  unfold junctureBefore
  cases hkinds : e.kinds with
  | nil => exact .refl _
  | cons k ks =>
    rw [hkinds, Neighbours] at h
    show Juncture.Le _ k.junctureBefore
    unfold Kind.junctureBefore
    split
    · exact absurd h.1 ha
    · exact Juncture.ready_le_settled
    · exact .refl _

/-- Where no document operator comes behind, an operand is complete. -/
theorem junctureBehind_eq (h : Neighbours Kind.Joined a e.kinds c) (hc : c ≠ some .document) :
    e.junctureBehind = .done := by
  unfold junctureBehind
  rcases List.eq_nil_or_concat' e.kinds with hkinds | ⟨ks, k, hkinds⟩
  · rw [hkinds]
    rfl
  · rw [hkinds, neighbours_append, Neighbours] at h
    rw [hkinds, List.getLast?_concat]
    show k.junctureBehind = _
    unfold Kind.junctureBehind
    split
    · exact absurd h.2.1 hc
    · rfl

/-! ## Lists of trees -/

/-- Whether an operator other than the document operator can stand between two trees. -/
def Linked (e f : Expr) : Prop := e.junctureBehind = .done ∧ Juncture.ready.Le f.junctureBefore

/-- Operands with a text between each two. -/
theorem spells_separated {k : Kind} (hes : ∀ f ∈ e :: es, f.Spelled)
    (hlinks : (e :: es).IsChain fun f g => Spells f.junctureBehind [.append text]
      [.kind k] g.junctureBefore) :
    ∀ l ∈ (e :: es).getLast?, Spells e.junctureBefore (scriptSeparated text (e :: es))
      (spellAll (.kind k) (e :: es)) l.junctureBehind := by
  induction es generalizing e with
  | nil =>
    intro l hl
    obtain rfl : e = l := by simpa using hl
    exact hes e (by simp)
  | cons f es ih =>
    intro l hl
    obtain ⟨hlink, hlinks⟩ := List.isChain_cons_cons.1 hlinks
    have hfirst := (hes e (by simp)).concat hlink
    exact hfirst.concat (ih (fun g hg => hes g (by simp [hg])) hlinks l (by simpa using hl))

theorem spells_items
    (hes : ∀ f ∈ es, f.Spelled ∧ Juncture.ready.Le f.junctureBefore ∧ f.junctureBehind = .done) :
    Spells .ready (scriptItems es) (spellAll (.mark .comma) es) .settled := by
  induction es with
  | nil => exact (Spells.verticalSpacing .ready).mono (.refl _) Juncture.ready_le_settled
  | cons e es ih =>
    obtain ⟨⟨he, hready, hdone⟩, hes⟩ := List.forall_mem_cons.1 hes
    rw [Spelled, hdone] at he
    replace he := he.mono hready (.refl _)
    cases es with
    | nil =>
      have := he.concat ((Spells.verticalSpacing .done).mono (.refl _) Juncture.done_le_settled)
      simpa [scriptItems, spellAll] using this
    | cons f es =>
      have hcomma := Spells.comma.concat (.verticalSpacing .ready)
      have := (he.concat hcomma).concat (ih hes)
      simpa [scriptItems, spellAll] using this

/-- The operands of a union behind the first. -/
theorem spells_bars (hes : ∀ f ∈ es, f.Spelled) (hlinks : (e :: es).IsChain Linked) :
    Spells e.junctureBehind (scriptUnion false es) (es.flatMap fun f => .mark .bar :: f.spell)
      (es.getLast?.elim e.junctureBehind junctureBehind) := by
  induction es generalizing e with
  | nil => exact .nil _
  | cons f es ih =>
    obtain ⟨hf, hes⟩ := List.forall_mem_cons.1 hes
    obtain ⟨⟨hdone, hready⟩, hlinks⟩ := List.isChain_cons_cons.1 hlinks
    have hbar : Spells .settled [.append " | "] [.mark .bar] .ready :=
      .append appends_bar (by decide)
    have hoperand := (hbar.concat (hf.mono hready (.refl _))).indentedIfSpaced
    have hspacing : Spells e.junctureBehind [.verticalSpacing] [] .settled :=
      (Spells.verticalSpacing _).mono (.refl _) (hdone ▸ Juncture.done_le_settled)
    have := (hspacing.concat hoperand).concat (ih hes hlinks)
    rw [List.getLast?_cons]
    cases h : es.getLast? <;> simpa [h, scriptUnion] using this

theorem spells_union (he : e.Spelled) (hes : ∀ f ∈ es, f.Spelled)
    (hlinks : (e :: es).IsChain Linked) :
    ∀ l ∈ (e :: es).getLast?, Spells e.junctureBefore (scriptUnion true (e :: es))
      (spellAll (.mark .bar) (e :: es)) l.junctureBehind := by
  intro l hl
  have hfirst := (Spells.verticalSpacing e.junctureBefore).concat (Spells.indentedIfSpaced he)
  have := hfirst.concat (spells_bars hes hlinks)
  rw [List.getLast?_cons] at hl
  obtain rfl := Option.some.inj hl
  cases h : es.getLast? <;> simpa [h, scriptUnion, spellAll_eq_flatMap] using this

/-! ## Trees -/

section

variable {form : Suffix} {key callee arguments : Expr} {op : UnaryOp} {o o' : Origin}

theorem junctureBefore_congr (h : e.kinds.head? = f.kinds.head?) :
    e.junctureBefore = f.junctureBefore := by
  rw [junctureBefore, h, junctureBefore]

theorem junctureBehind_congr (h : e.kinds.getLast? = f.kinds.getLast?) :
    e.junctureBehind = f.junctureBehind := by
  rw [junctureBehind, h, junctureBehind]

/-- Behind a mark an operand is complete. -/
theorem junctureBehind_of_mark {m : Mark} (h : e.kinds.getLast? = some (.mark m)) :
    e.junctureBehind = .done := by
  rw [junctureBehind, h]
  rfl

/-- What is written between two brackets. -/
theorem spells_enclosed {m n : Mark} {inner : List Directive} {s : List Symbol}
    (hm : m = .leftParenthesis ∨ m = .leftBracket ∨ m = .leftBrace ∨ m = .semicolon)
    (hn : n = .rightParenthesis ∨ n = .rightBracket ∨ n = .rightBrace)
    (h : Spells .ready inner s .settled) :
    Spells .settled (.append m.spelling :: inner ++ [.append n.spelling])
      (.mark m :: s ++ [.mark n]) .done := by
  have hopen : Spells .settled [.append m.spelling] [.mark m] .ready :=
    .append (appends_open hm) (by rcases hm with rfl | rfl | rfl | rfl <;> decide)
  have hclose : Spells .settled [.append n.spelling] [.mark n] .done :=
    .append (appends_close hn) (by rcases hn with rfl | rfl | rfl <;> decide)
  have := (hopen.concat h).concat hclose
  simpa using this

theorem spelled_suffixed (he : f.Admissible) (hf : f.Spelled) (hdone : f.junctureBehind = .done) :
    (suffixed form f o).Spelled := by
  have hbehind : (suffixed form f o).junctureBehind = .done := by
    rw [junctureBehind, kinds_suffixed]
    cases form <;> simp [Suffix.symbols, Symbol.tokenKind, Kind.junctureBehind]
  have hsuffix : Spells .done [.append form.text] form.symbols .done :=
    .append (appends_suffix form) (by cases form <;> decide)
  have hwhole := hf.concat (hdone ▸ hsuffix)
  rw [Spelled, junctureBefore_congr (head?_kinds_suffixed he), hbehind]
  simpa [script, spell, hdone] using hwhole

theorem spelled_map (he : f.Admissible) (hf : f.Spelled) (hdone : f.junctureBehind = .done)
    (hkey : key.Spelled) (hready : Juncture.ready.Le key.junctureBefore)
    (hdone' : key.junctureBehind = .done) :
    (map f key o).Spelled := by
  have hbehind : (map f key o).junctureBehind = .done :=
    junctureBehind_of_mark (m := .rightBrace) (by simp [List.getLast?_append, List.getLast?_cons])
  have hinner := spells_enclosed (m := .leftBrace) (n := .rightBrace) (by simp) (by simp)
    ((hkey.settles hdone').mono hready (.refl _))
  have hwhole := (hf.settles hdone).concat hinner
  rw [Spelled, junctureBefore_congr (head?_kinds_map he), hbehind]
  simpa [script, spell, Mark.spelling] using hwhole

theorem spelled_group
    (hes : ∀ f ∈ es, f.Spelled ∧ Juncture.ready.Le f.junctureBefore ∧ f.junctureBehind = .done) :
    (group es o).Spelled := by
  have hbefore : (group es o).junctureBefore = .settled := by
    simp [junctureBefore, Kind.junctureBefore]
  have hbehind : (group es o).junctureBehind = .done :=
    junctureBehind_of_mark (m := .rightParenthesis)
      (by simp [List.getLast?_append, List.getLast?_cons])
  have hinner := ((Spells.verticalSpacing .ready).concat (spells_items hes).indentedIfSpaced).spaced
    (group es o).spacing
  have hwhole :=
    spells_enclosed (m := .leftParenthesis) (n := .rightParenthesis) (by simp) (by simp) hinner
  rw [Spelled, hbefore, hbehind]
  simpa [script, spell, Directive.parenthesized, Mark.spelling] using hwhole

theorem spelled_call (he : f.Admissible) (hf : f.Spelled) (hdone : f.junctureBehind = .done)
    (hgroup : (group es o').Spelled) : (call f (group es o') o).Spelled := by
  have hbefore : (group es o').junctureBefore = .settled := by
    simp [junctureBefore, Kind.junctureBefore]
  have hbehind : (call f (group es o') o).junctureBehind = (group es o').junctureBehind :=
    junctureBehind_congr (by simp [List.getLast?_append, List.getLast?_cons])
  rw [Spelled, hbefore] at hgroup
  have hwhole := (hf.settles hdone).concat hgroup
  rw [Spelled, junctureBefore_congr (head?_kinds_call he), hbehind]
  simpa [script, spell] using hwhole

theorem spelled_unary (he : f.Admissible) (hf : f.Spelled)
    (hready : Juncture.ready.Le f.junctureBefore) :
    (unary op f o).Spelled := by
  have hbefore : (unary op f o).junctureBefore = .ready := by
    cases op <;> simp [junctureBefore, Kind.junctureBefore, UnaryOp.kind]
  have hop : Spells .ready [.append op.text] [.kind op.kind] .ready :=
    .append (appends_unary op) (by cases op <;> decide)
  have hwhole := hop.concat (hf.mono hready (.refl _))
  rw [Spelled, hbefore, junctureBehind_congr (getLast?_kinds_unary he)]
  simpa [script, spell] using hwhole

/-- Operators other than the document operator are written between operands that are linked. -/
theorem isChain_spells {op : BinaryOp} (hop : op ≠ .document) (h : es.IsChain Linked) :
    es.IsChain fun f g => Spells f.junctureBehind [.append op.text]
      [.kind op.kind] g.junctureBefore := by
  have hspells : Spells .done [.append op.text] [.kind op.kind] .ready :=
    .append (appends_operator hop) (by cases op <;> decide)
  exact h.imp fun f g ⟨hdone, hready⟩ => hdone ▸ hspells.mono (.refl _) hready

theorem spelled_array
    (hes : ∀ f ∈ es, f.Spelled ∧ Juncture.ready.Le f.junctureBefore ∧ f.junctureBehind = .done) :
    (array es o).Spelled := by
  have hbefore : (array es o).junctureBefore = .ready := by
    simp [junctureBefore, Kind.junctureBefore]
  have hbehind : (array es o).junctureBehind = .done :=
    junctureBehind_of_mark (m := .rightBracket) (by simp [List.getLast?_append, List.getLast?_cons])
  have hinner : Spells .ready (scriptSeparated ", " es) (spellAll (.mark .comma) es) .settled := by
    cases es with
    | nil => exact (Spells.nil .ready).mono (.refl _) Juncture.ready_le_settled
    | cons f fs =>
      obtain ⟨l, hl⟩ := Option.isSome_iff_exists.1 (List.getLast?_isSome.2 (List.cons_ne_nil f fs))
      have hcomma : (f :: fs).IsChain fun f g =>
          Spells f.junctureBehind [.append ", "] [.mark .comma] g.junctureBefore := by
        refine (List.pairwise_of_forall_mem_list fun g hg h hh => ?_).isChain
        rw [(hes g hg).2.2]
        exact Spells.comma.mono (.refl _) (hes h hh).2.1
      refine (spells_separated (fun g hg => (hes g hg).1) hcomma l hl).mono (hes f (by simp)).2.1 ?_
      exact (hes l (List.mem_of_getLast? hl)).2.2 ▸ Juncture.done_le_settled
  have hwhole :=
    (spells_enclosed (m := .leftBracket) (n := .rightBracket) (by simp) (by simp) hinner).mono
    Juncture.ready_le_settled (.refl _)
  rw [Spelled, hbefore, hbehind]
  simpa [script, spell, Mark.spelling] using hwhole

/-- The document operator writes nothing between documentation and what it documents. -/
theorem isChain_spells_document
    (h : es.IsChain fun f g => Kind.Joined f.kinds.getLast? .document g.kinds.head?) :
    es.IsChain fun f g => Spells f.junctureBehind [.append ""]
      [.kind .document] g.junctureBefore := by
  refine h.imp fun f g h => ?_
  rcases h with h | h
  · have hf : f.junctureBehind = .led := by
      rw [junctureBehind, h]
      rfl
    rw [hf]
    rcases junctureBefore_cases g with hg | hg
    · exact hg ▸ .leads (.inr rfl)
    · exact (Spells.leads (.inl rfl)).mono (.refl _) hg
  · have hg : g.junctureBefore = .tied := by
      rw [junctureBefore, h]
      rfl
    rw [hg]
    rcases junctureBehind_cases f with hf | hf
    · exact hf ▸ .leads (.inr rfl)
    · exact hf ▸ .ties

/-- A chain of operands, each of which is spelled where it stands. -/
theorem spelled_chain {op : BinaryOp} (he : (chain op es o).Admissible) (hes : ∀ f ∈ es, f.Spelled)
    (hlinks : op ≠ .document → es.IsChain Linked)
    (hjoined : op = .document →
      es.IsChain fun f g => Kind.Joined f.kinds.getLast? .document g.kinds.head?) :
    (chain op es o).Spelled := by
  obtain ⟨⟨hlen, -⟩, hparts⟩ := admissible_chain.1 he
  obtain ⟨f, fs, rfl⟩ := List.exists_cons_of_ne_nil (l := es) (by rintro rfl; simp at hlen)
  obtain ⟨l, hl⟩ := Option.isSome_iff_exists.1 (List.getLast?_isSome.2 (List.cons_ne_nil f fs))
  have hbehind : (chain op (f :: fs) o).junctureBehind = l.junctureBehind := by
    obtain ⟨before, hsplit⟩ := List.getLast?_eq_some_iff.1 hl
    have hlast := hparts l (by simp [hsplit])
    rw [hsplit]
    exact junctureBehind_congr (getLast?_kinds_chain hlast)
  rw [Spelled, junctureBefore_congr (head?_kinds_chain (hparts f (by simp))), hbehind]
  have operators : op ≠ .document → Spells f.junctureBefore (scriptSeparated op.text (f :: fs))
      (spellAll (.kind op.kind) (f :: fs)) l.junctureBehind :=
    fun hop => spells_separated hes (isChain_spells hop (hlinks hop)) l hl
  cases op with
  | union =>
    exact (spells_union (hes f (by simp)) (fun g hg => hes g (by simp [hg]))
      (hlinks (by simp)) l hl).spaced _
  | document => exact spells_separated hes (isChain_spells_document (hjoined rfl)) l hl
  | _ => exact operators (by simp)

end

/-- The script of a tree writes its text, whatever stands beside the tree. -/
theorem spelled (he : e.Admissible) (hlegible : ∀ x ∈ e.spell, x.Legible)
    (hjoined : Neighbours Kind.Joined a e.kinds c) : e.Spelled := by
  induction e using inductionOnChildren generalizing a c with
  | node e ih =>
    have part : ∀ f ∈ e.children, ∀ {a c}, Neighbours Kind.Joined a f.kinds c → f.Spelled :=
      fun f hf _ _ h => ih f hf (he.child hf) (forall_spell_children hlegible f hf) h
    -- parts between commas
    have listed : ∀ es l r, es = e.children → l ≠ .document → r ≠ .document →
        Neighbours Kind.Joined (some l) (kindsAll (.mark .comma) es) (some r) →
        ∀ f ∈ es, f.Spelled ∧ Juncture.ready.Le f.junctureBefore ∧ f.junctureBehind = .done := by
      rintro es l r rfl hl hr h f hf
      obtain ⟨a, c, h, ha, hc⟩ :=
        exists_neighbours_part (fun f hf => he.child hf) (by simp) hl hr h f hf
      exact ⟨part f hf h, le_junctureBefore h ha, junctureBehind_eq h hc⟩
    cases e with
    | atom form text o => exact .atom o (hlegible (.atom form text) (by simp [spell]))
    | block form lines o =>
      have h := hlegible (.block form lines) (by simp [spell])
      cases form with
      | leading => exact .leading o h
      | trailing => exact .trailing o h
      | multiline => exact .multiline o h
    | suffixed form f o =>
      rw [kinds_suffixed, neighbours_append] at hjoined
      exact spelled_suffixed (he.child (by simp [children])) (part f (by simp [children]) hjoined.1)
        (junctureBehind_eq hjoined.1 (by cases form <;> simp [Suffix.symbols, Symbol.tokenKind]))
    | map f key o =>
      rw [kinds_map, neighbours_append, Neighbours, neighbours_append] at hjoined
      obtain ⟨hf, -, hkey, -⟩ := hjoined
      exact spelled_map (he.child (by simp [children])) (part f (by simp [children]) hf)
        (junctureBehind_eq hf (by simp)) (part key (by simp [children]) hkey)
        (le_junctureBefore hkey (by simp))
        (junctureBehind_eq hkey (by simp))
    | call f arguments o =>
      obtain ⟨⟨-, hgroup⟩, hf, -⟩ := admissible_call.1 he
      rw [kinds_call, neighbours_append] at hjoined
      cases arguments with
      | group es o' =>
        exact spelled_call hf (part f (by simp [children]) hjoined.1)
          (junctureBehind_eq hjoined.1 (by simp))
          (part (group es o') (by simp [children]) hjoined.2)
      | _ => cases hgroup
    | array es o =>
      rw [kinds_array, Neighbours, neighbours_append] at hjoined
      exact spelled_array (listed es _ _ rfl (by simp) (by simp) hjoined.2.1)
    | group es o =>
      rw [kinds_group, Neighbours, neighbours_append] at hjoined
      exact spelled_group (listed es _ _ rfl (by simp) (by simp) hjoined.2.1)
    | unary op f o =>
      rw [kinds_unary, Neighbours] at hjoined
      have hne : some op.kind ≠ some .document := by cases op <;> simp [UnaryOp.kind]
      exact spelled_unary (he.child (by simp [children])) (part f (by simp [children]) hjoined.2)
        (le_junctureBefore hjoined.2 hne)
    | chain op es o =>
      obtain ⟨-, hes⟩ := admissible_chain.1 he
      rw [kinds_chain, neighbours_kindsAll fun f hf => kinds_ne_nil (hes f hf)] at hjoined
      obtain ⟨hsides, hchain⟩ := hjoined
      refine spelled_chain he (fun f hf => ?_) (fun hop => ?_) ?_
      · obtain ⟨before, behind, hsplit⟩ := List.append_of_mem hf
        exact part f hf (hsides before f behind hsplit)
      · -- between two operands stands the operator
        have hne : some op.kind ≠ some .document := by cases op <;> simp_all [BinaryOp.kind]
        refine List.isChain_iff_forall_rel_of_append_cons_cons.2 fun f g before behind hsplit => ?_
        have hf := hsides before f (g :: behind) hsplit
        have hg := hsides (before ++ [f]) g behind (by simpa using hsplit)
        rw [if_neg (List.cons_ne_nil g behind)] at hf
        rw [if_neg (by simp)] at hg
        exact ⟨junctureBehind_eq hf hne, le_junctureBefore hg hne⟩
      · rintro rfl
        exact hchain

end Expr

/-! ## Sources -/

open DocExpr.Expr Directive in
/-- The script of a tree that is read writes the canonical text of the tree. -/
theorem Goal.spells_script {goal : Goal} {text file : String} {e : Expr}
    (h : parseAs goal text file = .ok e) :
    Spells .ready (goal.script e) (goal.spell e) .settled := by
  obtain ⟨gs, hscan⟩ := Glyph.exists_scans text.toList
  obtain ⟨he, hspelled⟩ := parseAs_spelled h
  have hlegible : ∀ x ∈ goal.spell e, x.Legible := fun x hx => (clear_spell hscan h x hx).1
  have hjoined : Neighbours Kind.Joined none e.kinds none := by
    refine (Kind.indifferent_joined.spelledBy hspelled).1 ?_
    simpa [Function.comp_def] using Kind.neighbours_joined
      (hscan.documented_ofSource file) none none
  have item : ∀ {f : Expr} {a c : Option Kind}, f.Admissible → (∀ x ∈ f.spell, x.Legible) →
      Neighbours Kind.Joined a f.kinds c → a ≠ some .document → c ≠ some .document →
      f.Spelled ∧ Juncture.ready.Le f.junctureBefore ∧ f.junctureBehind = .done :=
    fun hf hparts h ha hc =>
      ⟨Expr.spelled hf hparts h, le_junctureBefore h ha, junctureBehind_eq h hc⟩
  cases goal with
  | expression =>
    obtain ⟨hscript, hready, hdone⟩ := item he hlegible hjoined (by simp) (by simp)
    exact (hscript.settles hdone).mono hready (.refl _)
  | items =>
    have hparts : ∀ f ∈ e.items, ∀ x ∈ f.spell, x.Legible := forall_mem_spell hlegible
    refine (spells_items fun f hf => ?_).spaced e.spacing
    cases e with
    | group es o =>
      rw [kinds_group, Neighbours, neighbours_append] at hjoined
      obtain ⟨a, c, h, ha, hc⟩ :=
        exists_neighbours_part (fun g hg => he.child hg) (by simp) (by simp) (by simp)
        hjoined.2.1 f hf
      exact item (he.items f hf) (hparts f hf) h ha hc
    | _ =>
      obtain rfl := List.mem_singleton.1 hf
      exact item he (hparts _ hf) hjoined (by simp) (by simp)

end DocExpr
