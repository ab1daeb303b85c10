import DocExpr.Proofs.Layout.Spelled
import DocExpr.Proofs.Literals.Page

/-!
# Names and literals in scripts

`Directive.Yields` says that doing a script leads from one stance of a page to another and writes as
many names and literals as it should, the same ones exactly if no literal has its lines moved. It is
put together along the script. A literal that is broken over lines where documentation waits for the
end of the line (`Expr.cutsLiteral`) is not covered.
-/

namespace DocExpr

open Lexeme

/-- Whether a token is a name or a literal. -/
def Kind.isAtom : Kind → Bool
  | .atom _ => true
  | _ => false

/-- The name or the literal that a glyph is. -/
def Glyph.atoms (g : Glyph) : List (Kind × String) :=
  if g.kind.isAtom then [(g.kind, String.ofList g.text)] else []

/-- The name or the literal that a symbol is. -/
def Symbol.atoms (x : Symbol) : List (Kind × String) := x.texts.filter fun text => text.1.isAtom

/-- The lines of a block are no names and literals. -/
theorem Symbol.atoms_block (form : Block) (lines : List String) :
    (block form lines).atoms = [] := by
  cases form <;> simp [atoms, texts, Block.line, Kind.isAtom]

/-! ## Tests along a script -/

/-- Whether a leaf is a literal with a line break, and documentation waits for the end of the
line. -/
def Expr.cutsLiteral : Expr → Page → Bool
  | atom _ text _, p => p.waits && '\n' ∈ text.toList
  | _, _ => false

/-- Whether a leaf is a literal that has a line behind its first that does not start with the
indentation. -/
def Expr.movesLines : Expr → Page → Bool
  | atom _ text _, p => !p.keepsLines text
  | _, _ => false

namespace Directive

mutual

/-- Whether a directive writes something for which a test holds on the page on which it is
written. -/
def meets (test : Expr → Page → Bool) : Directive → Page → Bool
  | write e, p => test e p
  | indented body, p => meetsAll test body p.indentMore
  | indentedIf condition body, p => meetsAll test body (if condition then p.indentMore else p)
  | indentedIfSpaced body, p => meetsAll test body (if p.mode != .inline then p.indentMore else p)
  | aligned body, p => meetsAll test body p.indentToColumn
  | spaced mode body, p => meetsAll test body (p.pushMode mode)
  | _, _ => false

/-- Whether a script does so. -/
def meetsAll (test : Expr → Page → Bool) : List Directive → Page → Bool
  | [], _ => false
  | d :: ds, p => meets test d p || meetsAll test ds (d.run p)

end

theorem meetsAll_append (test : Expr → Page → Bool) (ds ds' : List Directive) (p : Page) :
    meetsAll test (ds ++ ds') p = (meetsAll test ds p || meetsAll test ds' (runAll ds p)) := by
  induction ds generalizing p with
  | nil => rfl
  | cons d ds ih => rw [List.cons_append, meetsAll, ih, meetsAll, Bool.or_assoc, runAll_cons]

end Directive

namespace Page

open Glyph

/-- Whether a page is in a stance and these are the names and literals on it. -/
def Bears (p : Page) (st : Stance) (as : List (Kind × String)) : Prop :=
  ∃ gs gap, p.Stands st gs gap ∧ gs.flatMap atoms = as

variable {p q : Page} {st st' st'' : Stance} {as : List (Kind × String)}

theorem bears_empty (width : Nat) : (empty width).Bears .ready [] :=
  ⟨[], [], stands_empty width, rfl⟩

theorem Bears.mono (h : p.Bears st as) (hle : st.Le st') : p.Bears st' as := by
  obtain ⟨gs, gap, hp, has⟩ := h
  exact ⟨gs, gap, hp.mono hle, has⟩

theorem Bears.congr (h : p.Bears st as) (hstaged : q.staged = p.staged) (habove : q.above = p.above)
    (hline : q.line = p.line) : q.Bears st as := by
  obtain ⟨gs, gap, hp, has⟩ := h
  exact ⟨gs, gap, hp.congr hstaged habove hline, has⟩

theorem flatMap_atoms_append {gs hs : List Glyph} (hhs : ∀ g ∈ hs, g.kind.isAtom = false) :
    (gs ++ hs).flatMap atoms = gs.flatMap atoms := by
  have hnone : hs.flatMap atoms = [] :=
    List.flatMap_eq_nil_iff.2 fun g hg => by simp [atoms, hhs g hg]
  rw [List.flatMap_append, hnone, List.append_nil]

/-- Comments are no names and literals. -/
theorem isAtom_notes {front : List Char} {column : Nat} {texts : List (List Char)} :
    ∀ g ∈ notes front column texts, g.kind.isAtom = false := by
  intro g hg
  rw [kind_notes g hg]
  rfl

theorem Bears.newLine (h : p.Bears st as) : p.newLine.Bears .broken as := by
  obtain ⟨gs, gap, hp, rfl⟩ := h
  obtain ⟨front, column, -, hp', -⟩ := hp.newLine
  exact ⟨_, _, hp', flatMap_atoms_append isAtom_notes⟩

theorem Bears.startOnNewLine (h : p.Bears st as) : p.startOnNewLine.Bears st as := by
  unfold Page.startOnNewLine
  split
  · exact h
  · exact h.newLine.mono (Stance.broken_le st)

theorem Bears.verticalSpacing (h : p.Bears st as) : p.verticalSpacing.Bears st as := by
  unfold Page.verticalSpacing
  split
  · exact h
  · exact h.startOnNewLine
  · exact h.startOnNewLine.newLine.mono (Stance.broken_le st)

theorem Bears.indentLess (h : p.Bears st as) : p.indentLess.Bears st as := by
  obtain ⟨gs, gap, hp, rfl⟩ := h
  obtain ⟨gap', -, hp'⟩ := hp.indentLess
  exact ⟨gs, gap', hp', rfl⟩

/-- Gluing question marks and colons leaves the names and literals. -/
theorem flatMap_atoms_glue (gs : List Glyph) : (glue gs).flatMap atoms = gs.flatMap atoms := by
  fun_induction glue gs with
  | case1 g h gs hglue ih => simp [ih, atoms, Kind.isAtom, hglue.1, hglue.2.1]
  | case2 g h gs hglue ih => simp [ih]
  | case3 => rfl

/-- The names and literals on a page are read from its text. -/
theorem Bears.text (h : p.Bears st as) : ∃ gs, Scans p.text.toList gs ∧ gs.flatMap atoms = as := by
  obtain ⟨gs, gap, hp, rfl⟩ := h
  obtain ⟨front, column, hscan⟩ := hp.text
  exact ⟨_, hscan, (flatMap_atoms_glue _).trans (flatMap_atoms_append isAtom_notes)⟩

/-! ## Marks and words -/

/-- Whether writing a text leads from one stance to another, and writes no name or literal. -/
def Writes (st : Stance) (text : String) (st' : Stance) : Prop :=
  ∀ (p : Page) (as : List (Kind × String)), p.Bears st as → (p.append text).Bears st' as

theorem Adds.writes {fragment : String} {k : Kind} {text behind : List Char}
    (h : Adds st fragment k text behind st') (hk : k.isAtom = false) : Writes st fragment st' := by
  rintro p as ⟨gs, gap, hp, rfl⟩
  obtain ⟨-, -, gap', -, hp'⟩ := h p gs gap hp
  exact ⟨_, _, hp', flatMap_atoms_append (by simp [hk])⟩

theorem Writes.append {first second : String} (h : Writes st first st')
    (h' : Writes st' second st'') (hfirst : Solid first.toList) (hline : '\n' ∉ first.toList)
    (hline' : '\n' ∉ second.toList) :
    Writes st (first ++ second) st'' := by
  intro p as hp
  rw [append_append hfirst hline hline']
  exact h' _ _ (h _ _ hp)

theorem Writes.mono {text : String} (h : Writes st text st') {pre post : Stance} (hpre : pre.Le st)
    (hpost : st'.Le post) : Writes pre text post :=
  fun p as hp => (h p as (hp.mono hpre)).mono hpost

/-- Writing no text at all. -/
theorem writes_empty (h : st.Le st') : Writes st "" st' := by
  intro p as hp
  rw [append_empty]
  exact hp.mono h

/-- Marks and words are no names and literals. -/
theorem Appends.writes {text : String} {s : List Symbol} (h : Appends st text s st') :
    Writes st text st' := by
  induction h with
  | one h hk => exact h.writes (by rcases hk with ⟨m, rfl⟩ | ⟨w, rfl⟩ <;> rfl)
  | concat _ _ hfirst hline hline' ih ih' => exact ih.append ih' hfirst hline hline'
  | mono _ hpre hpost ih => exact ih.mono hpre hpost

end Page

/-! ## Scripts -/

namespace Directive

open Page DocExpr.Expr

/-- Whether doing a script leads from one stance to another and writes as many names and literals as
there should be, the same ones exactly if none has its lines moved, unless a literal is cut. -/
def Yields (st : Stance) (ds : List Directive) (as : List (Kind × String)) (st' : Stance) : Prop :=
  ∀ p bs, p.Bears st bs → meetsAll cutsLiteral ds p = false →
    ∃ as', (runAll ds p).Bears st' (bs ++ as') ∧
    as'.length = as.length ∧ (as' = as ↔ meetsAll movesLines ds p = false)

variable {st st' st'' : Stance} {ds ds' : List Directive} {as as' : List (Kind × String)}

theorem Yields.concat (h : Yields st ds as st') (h' : Yields st' ds' as' st'') :
    Yields st (ds ++ ds') (as ++ as') st'' := by
  intro p bs hp hcuts
  rw [meetsAll_append, Bool.or_eq_false_iff] at hcuts
  obtain ⟨cs, hp', hlength, hkept⟩ := h p bs hp hcuts.1
  obtain ⟨cs', hp'', hlength', hkept'⟩ := h' _ _ hp' hcuts.2
  refine ⟨cs ++ cs', ?_, by simp [hlength, hlength'], ?_⟩
  · rw [runAll_append, ← List.append_assoc]
    exact hp''
  · rw [meetsAll_append, Bool.or_eq_false_iff, ← hkept, ← hkept']
    exact ⟨fun heq => List.append_inj heq hlength, fun heq => by rw [heq.1, heq.2]⟩

theorem Yields.mono (h : Yields st ds as st') {pre post : Stance} (hpre : pre.Le st)
    (hpost : st'.Le post) :
    Yields pre ds as post := by
  intro p bs hp hcuts
  obtain ⟨cs, hp', hcs⟩ := h p bs (hp.mono hpre) hcuts
  exact ⟨cs, hp'.mono hpost, hcs⟩

theorem yields_nil (st : Stance) : Yields st [] [] st :=
  fun p bs hp _ => ⟨[], by simpa using hp, rfl, by simp [meetsAll]⟩

theorem yields_append {text : String} (h : Writes st text st') : Yields st [.append text] [] st' :=
  fun p bs hp _ => ⟨[], by simpa [run] using h p bs hp, rfl, by simp [meetsAll, meets]⟩

theorem yields_verticalSpacing (st : Stance) : Yields st [.verticalSpacing] [] st :=
  fun p bs hp _ => ⟨[], by simpa [run] using hp.verticalSpacing, rfl, by simp [meetsAll, meets]⟩

theorem Yields.indentedIfSpaced (h : Yields st ds as st') :
    Yields st [.indentedIfSpaced ds] as st' := by
  intro p bs hp hcuts
  have hinner : (if p.mode != .inline then p.indentMore else p).Bears st bs := by
    split
    · exact hp.congr rfl rfl rfl
    · exact hp
  simp only [meetsAll, meets, Bool.or_false] at hcuts
  obtain ⟨cs, hp', hlength, hkept⟩ := h _ _ hinner hcuts
  refine ⟨cs, ?_, hlength, by simpa [meetsAll, meets] using hkept⟩
  show (p.indentedIf _ (runAll ds)).Bears st' _
  unfold Page.indentedIf
  split at hp'
  · next hmode => rw [if_pos hmode]; exact hp'.indentLess
  · next hmode => rw [if_neg hmode]; exact hp'

theorem Yields.spaced (mode : Spacing) (h : Yields st ds as st') :
    Yields st [.spaced mode ds] as st' := by
  intro p bs hp hcuts
  simp only [meetsAll, meets, Bool.or_false] at hcuts
  obtain ⟨cs, hp', hlength, hkept⟩ := h (p.pushMode mode) bs (hp.congr rfl rfl rfl) hcuts
  exact ⟨cs, hp'.congr rfl rfl rfl, hlength, by simpa [meetsAll, meets] using hkept⟩

/-! ## Leaves -/

/-- A name or a literal is written as it is exactly if its lines stay where they are. -/
theorem yields_atom {form : Atom} {text : String} (o : Origin)
    (hstable : Stable (.atom form) text.toList) :
    Yields .ready [.write (.atom form text o)] [(.atom form, text)] .done := by
  intro p bs hp hcuts
  obtain ⟨gs, gap, hp, rfl⟩ := hp
  simp only [meetsAll, meets, cutsLiteral, Bool.or_false, Bool.and_eq_false_iff,
    decide_eq_false_iff_not] at hcuts
  obtain ⟨gap', hp'⟩ :=
    hp.toPrints.atom hstable (fun hn => hcuts.resolve_left (by simpa [waits] using hn))
    fun hgap g hg w hw => near_atom hstable hw (hp.stance hgap g hg)
  refine ⟨[(.atom form, String.ofList (relaid p.indent text.toList))],
    ⟨_, [], ⟨hp', ?_⟩, ?_⟩, rfl, ?_⟩
  · intro _ g hg
    obtain rfl : (⟨gap', .atom form, relaid p.indent text.toList⟩ : Glyph) = g := by simpa using hg
    rfl
  · simp [Glyph.atoms, Kind.isAtom]
  · rw [List.singleton_inj, Prod.mk.injEq, and_iff_right rfl]
    simp only [meetsAll, meets, movesLines, Bool.or_false, Bool.not_eq_false', ← relaid_eq_iff]
    exact ⟨fun h => by simpa using congrArg String.toList h,
      fun h => by rw [h, String.ofList_toList]⟩

/-- Lines that end their lines leave the names and literals, wherever an operand can follow. -/
theorem bears_appendLines {k : Kind} (hk : k = .comment ∨ k = .tickedLine) {lines : List String}
    (hn : lines ≠ []) (hlines : ∀ line ∈ lines, k.HasLine line) {p : Page}
    {bs : List (Kind × String)} (hp : p.Bears .ready bs) :
    (appendLines lines p).Bears .broken bs := by
  have step : ∀ line, k.HasLine line → ∀ {p : Page}, p.Bears .ready bs →
      (p.append line).newLine.Bears .broken bs := by
    rintro line hline p ⟨gs, gap, hq, rfl⟩
    obtain ⟨gap', column, -, hq', -⟩ := hq.toPrints.appendNewLine hk hline fun hgap g hg =>
      near_line hk hline (hq.stance hgap g hg)
    refine ⟨_, _, ⟨hq', by simp⟩,
      flatMap_atoms_append (List.forall_mem_cons.2 ⟨?_, fun g hg => ?_⟩)⟩
    · rcases hk with rfl | rfl <;> rfl
    · exact isAtom_notes g (List.mem_of_mem_tail hg)
  induction lines generalizing p with
  | nil => exact absurd rfl hn
  | cons line lines ih =>
    obtain ⟨hline, hlines⟩ := List.forall_mem_cons.1 hlines
    have hfirst := step line hline hp
    by_cases hnil : lines = []
    · subst hnil
      exact hfirst
    · exact ih hnil hlines (hfirst.mono (Stance.broken_le _))

/-- Blocks of lines have no names and literals. Trailing documentation is staged only, and the
others break the line. -/
theorem yields_block {form : Block} {lines : List String} (o : Origin)
    (hlines : (Symbol.block form lines).Legible) :
    (form = .trailing → ∀ st, Yields st [.write (.block form lines o)] [] st) ∧
      (form ≠ .trailing → Yields .ready [.write (.block form lines o)] [] .broken) := by
  have leaf : ∀ {st st'},
      (∀ {p : Page} {bs}, p.Bears st bs → ((Expr.block form lines o).write p).Bears st' bs) →
      Yields st [.write (.block form lines o)] [] st' :=
    fun h p bs hp _ => ⟨[], by simpa [run] using h hp, rfl, by simp [meetsAll, meets, movesLines]⟩
  obtain ⟨hn, hlines⟩ := hlines
  cases form with
  | leading => exact ⟨by simp, fun _ => leaf fun hp => bears_appendLines (.inl rfl) hn hlines hp⟩
  | multiline =>
    refine ⟨by simp, fun _ => leaf fun {p bs} hp => ?_⟩
    have := bears_appendLines (.inr rfl) hn hlines (p := p.indentToColumn) (hp.congr rfl rfl rfl)
    exact this.congr rfl rfl rfl
  | trailing =>
    refine ⟨fun _ st => leaf fun {p bs} hp => ?_, by simp⟩
    obtain ⟨gs, gap, hp, has⟩ := hp
    exact ⟨gs, gap, ⟨hp.toPrints.stage hlines, hp.stance⟩, has⟩

end Directive

/-! ## Junctures -/

/-- The stance of a page at a juncture. -/
def Juncture.pageStance : Juncture → Stance
  | stance st => st
  | led => .broken
  | tied => .done

theorem Juncture.Le.pageStance {j j' : Juncture} (h : j.Le j') : j.pageStance.Le j'.pageStance := by
  cases h with
  | refl => exact .refl _
  | settled h => exact h

namespace Directive

open Page

/-- A script that writes symbols writes the names and literals among them. -/
theorem Spells.yields {j j' : Juncture} {ds : List Directive} {s : List Symbol}
    (h : Spells j ds s j') :
    Yields j.pageStance ds (s.flatMap Symbol.atoms) j'.pageStance := by
  induction h with
  | nil j => exact yields_nil j.pageStance
  | concat _ _ ih ih' =>
    rw [List.flatMap_append]
    exact ih.concat ih'
  | mono _ hpre hpost ih => exact ih.mono hpre.pageStance hpost.pageStance
  | append h _ =>
    rw [h.flatMap_eq_nil (fun _ => rfl) fun _ => rfl]
    exact yields_append h.writes
  | comma => exact (yields_append (adds_comma.writes rfl)).mono Stance.done_le_settled (.refl _)
  | leads _ => exact yields_append (writes_empty (Stance.broken_le _))
  | ties => exact yields_append (writes_empty (.refl _))
  | verticalSpacing j => exact yields_verticalSpacing j.pageStance
  | indentedIfSpaced _ ih => exact ih.indentedIfSpaced
  | spaced mode _ ih => exact ih.spaced mode
  | atom o h => exact yields_atom o h
  | leading o h =>
    rw [List.flatMap_singleton, Symbol.atoms_block]
    exact (yields_block o h).2 (by simp)
  | trailing o h =>
    rw [List.flatMap_singleton, Symbol.atoms_block]
    exact (yields_block o h).1 rfl .done
  | multiline o h =>
    rw [List.flatMap_singleton, Symbol.atoms_block]
    exact ((yields_block o h).2 (by simp)).mono (.refl _) (Stance.broken_le _)

end Directive

end DocExpr
