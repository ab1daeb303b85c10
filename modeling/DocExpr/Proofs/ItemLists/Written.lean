import DocExpr.Proofs.ItemLists.Grammar
import DocExpr.Proofs.Layout.Blocks
import DocExpr.Proofs.Layout.Groupings

/-!
# Written item lists

Writing a part of an item list adds the documentation above it and a chunk of glyphs to a page, and
leaves the documentation behind it staged (`ItemLists.Written`). This goes by induction on the part
(`ItemLists.Derives.writes`). Where documentation is staged, the items are set on lines of their
own, so it ends the line of its item, and where documentation is above an item, a blank line is
above that.

What is written is read as the text of the part if no documentation reaches around, and otherwise
with fewer blocks of leading documentation (`ItemLists.Recovers`): a block to which the one before
it reaches around is taken to be behind the same item (`ItemLists.exists_chunk_join`).
-/

namespace DocExpr

open Lexeme

namespace Page

open Glyph

variable {p : Page} {st : Stance} {gs : List Glyph} {gap : List Char} {lines : List String}

/-- Vertical spacing ends the line of what is staged. Where there are blank lines, one of them
follows. -/
theorem Stands.verticalSpacing (h : p.Stands st gs gap) (hgap : gap.count '\n' = 0)
    (hbegun : p.line ≠ []) (hstaged : p.staged = stagedLines lines)
    (hlines : ∀ line ∈ lines, Kind.comment.HasLine line)
    (hmode : lines ≠ [] → p.mode ≠ .inline) : ∃ cs gap',
      p.verticalSpacing.Stands st (gs ++ cs) gap' ∧ p.verticalSpacing.staged = [] ∧
      IsBlock .comment cs lines ∧
        (∀ c ∈ cs.head?, c.breaks = 0) ∧ (p.mode = .blankLines → gap'.count '\n' = 2) := by
  have hbroken : p.startOnNewLine = p.newLine := if_neg (by simpa using hbegun)
  obtain ⟨front, column, hcount, hp, hstaged'⟩ := h.newLine
  have hblock : IsBlock .comment (notes front column p.staged) lines :=
    hstaged ▸ isBlock_notes hlines
  have hbreaks : ∀ c ∈ (notes front column p.staged).head?, c.breaks = 0 :=
    fun c hc => (breaks_notes c hc).trans (hcount.trans hgap)
  unfold Page.verticalSpacing
  split
  · next hinline =>
    obtain rfl : lines = [] := by_contra fun hn => hmode hn hinline
    exact ⟨[], gap, by simpa using h, hstaged, ⟨rfl, by simp, by simp⟩, by simp, by simp [hinline]⟩
  · next hinline =>
    rw [hbroken]
    exact ⟨_, _, hp.mono (Stance.broken_le st), hstaged', hblock, hbreaks, by simp [hinline]⟩
  · rw [hbroken]
    obtain ⟨front', column', hcount', hp', hstaged''⟩ := hp.newLine
    rw [hstaged', notes, List.append_nil, if_pos rfl] at hp'
    refine ⟨_, _, hp'.mono (Stance.broken_le st), hstaged'', hblock, hbreaks, fun _ => ?_⟩
    have hone : front'.count '\n' = 1 := by
      rw [hcount']
      split <;> simp [hcount, hgap]
    simp [hone]

end Page

namespace ItemLists

open Glyph Page

/-! ## What is read -/

/-- The lines of leading documentation, if a symbol is that. -/
def headings : Symbol → List (List String)
  | .block .leading lines => [lines]
  | _ => []

/-- Whether some symbols can be what is read where others are written: the same ones under a
condition, and otherwise ones with fewer blocks of leading documentation. -/
structure Recovers (c : Prop) (s t : List Symbol) : Prop where
  same : c → s = t
  fewer : ¬c → (s.flatMap headings).length < (t.flatMap headings).length

section Recovers

variable {c c' : Prop} {s s' t t' : List Symbol}

theorem Recovers.refl (h : c) (s : List Symbol) : Recovers c s s := ⟨fun _ => rfl, absurd h⟩

theorem Recovers.congr (h : Recovers c s t) (hc : c ↔ c') : Recovers c' s t :=
  ⟨fun hc' => h.same (hc.2 hc'), fun hc' => h.fewer (mt hc.1 hc')⟩

theorem Recovers.le (h : Recovers c s t) :
    (s.flatMap headings).length ≤ (t.flatMap headings).length := by
  by_cases hc : c
  · rw [h.same hc]
  · exact (h.fewer hc).le

theorem Recovers.append (h : Recovers c s t) (h' : Recovers c' s' t') :
    Recovers (c ∧ c') (s ++ s') (t ++ t') := by
  refine ⟨fun ⟨hc, hc'⟩ => by rw [h.same hc, h'.same hc'], fun hcc => ?_⟩
  rw [List.flatMap_append, List.flatMap_append, List.length_append, List.length_append]
  by_cases hc : c
  · exact Nat.add_lt_add_of_le_of_lt h.le (h'.fewer fun hc' => hcc ⟨hc, hc'⟩)
  · exact Nat.add_lt_add_of_lt_of_le (h.fewer hc) h'.le

theorem Recovers.trans (h : Recovers c s t) (h' : Recovers c' t t') : Recovers (c ∧ c') s t' := by
  refine ⟨fun ⟨hc, hc'⟩ => (h.same hc).trans (h'.same hc'), fun hcc => ?_⟩
  by_cases hc : c
  · exact h.le.trans_lt (h'.fewer fun hc' => hcc ⟨hc, hc'⟩)
  · exact (h.fewer hc).trans_le h'.le

end Recovers

/-- What writing a part of an item list comes to that has documentation above it and leaves lines of
documentation staged behind it: glyphs that are added, and as which symbols they are read. -/
structure Written (e : Expr) (heading lines : List String) (p : Page) (gs : List Glyph)
    (gap : List Char) (cs hs : List Glyph) (s : List Symbol) : Prop where
  stands : (e.write p).Stands .done (gs ++ (cs ++ hs)) []
  begun : (e.write p).line ≠ []
  staged : (e.write p).staged = stagedLines lines
  block : IsBlock .comment cs heading
  breaks : ∀ c ∈ cs.head?, c.breaks = gap.count '\n'
  plain : ∀ g ∈ hs.head?, g.kind ≠ .comment
  chunk : Chunk hs s 0
  ends : ∀ y ∈ s.getLast?, y.tokenKind.ends
  legible : ∀ line ∈ lines, Kind.comment.HasLine line
  recovers : Recovers (Clear e) (leadingSymbols heading ++ s ++ trailingSymbols lines) e.spell
  blankLines : heading ≠ [] → e.spacing = .blankLines
  spaced : lines ≠ [] → e.spacing ≠ .inline

/-- Whether writing a part of an item list comes to that, wherever an operand can follow. -/
def Writes (e : Expr) (heading lines : List String) : Prop :=
  ∀ (p : Page) (gs : List Glyph) (gap : List Char),
  p.Stands .ready gs gap → p.staged = [] →
    ∃ cs hs s, Written e heading lines p gs gap cs hs s

/-- Whether writing an item comes to that. -/
def WritesItem (e : Expr) : Prop := Writes e (above .item e) (behind .item e)

variable {e : Expr} {heading lines : List String} {p : Page} {gs : List Glyph} {gap : List Char}

/-! ## Names and values -/

theorem writes_atom {form : Atom} {text : String} {o : Origin}
    (h : Stable (.atom form) text.toList) (hline : '\n' ∉ text.toList) :
    Writes (.atom form text o) [] [] := by
  intro p gs gap hp hstaged
  obtain ⟨hsame, hbegun, gap', -, hp'⟩ := adds_atom h hline p gs gap hp
  have hchunk : Chunk [⟨gap', .atom form, text.toList⟩] [.atom form text] 0 := by
    simpa [symbol, Token.symbol] using chunk_plain (g := ⟨gap', .atom form, text.toList⟩) (by simp)
      (by simp) hline
  exact ⟨[], _, _, {
    stands := hp'
    begun := hbegun
    staged := hsame.trans hstaged
    block := ⟨rfl, by simp, by simp⟩
    breaks := by simp
    plain := by simp
    chunk := hchunk
    ends := by rintro y ⟨⟩; rfl
    legible := by simp
    recovers := .refl (clear_atom _ _ _) _
    blankLines := by simp
    spaced := by simp }⟩

theorem writes_documentedName {lines : List String} {text : String} {o o' o'' : Origin}
    (hlines : IsDocumentation lines) (h : IsName text) :
    Writes (.chain .document [.block .leading lines o, .atom .identifier text o'] o'')
      lines [] := by
  intro p gs gap hp hstaged
  have hstable := stable_of_isName h
  have hline : '\n' ∉ text.toList := not_mem_of_not_isQuoted hstable rfl
  obtain ⟨cs, between, hp', hstaged', -, hcs, hbreaks⟩ :=
    hp.appendLines (.inl rfl) hstaged hlines.1 hlines.hasLine
  obtain ⟨_, hs, t, hw⟩ := writes_atom (o := o') hstable hline _ _ _
    (hp'.mono (Stance.broken_le _)) hstaged'
  obtain rfl := hw.block.eq_nil
  have hwrite :
      (Expr.chain .document [.block .leading lines o, .atom .identifier text o'] o'').write p =
        (Expr.atom .identifier text o').write (appendLines lines p) := by
    simp [Expr.write, Expr.writeSeparated, BinaryOp.separator]
  obtain rfl : t = [.atom .identifier text] := by
    simpa [leadingSymbols, trailingSymbols, Expr.spell] using hw.recovers.same (clear_atom _ _ _)
  have hclear :
      Clear (.chain .document [.block .leading lines o, .atom .identifier text o'] o'') :=
    clear_chain.2 (by simp [clear_atom, clear_block])
  exact ⟨cs, hs, _, {
    stands := by
      rw [hwrite, ← List.append_assoc]
      simpa using hw.stands
    begun := hwrite ▸ hw.begun
    staged := hwrite ▸ hw.staged
    block := hcs
    breaks := hbreaks
    plain := hw.plain
    chunk := hw.chunk
    ends := hw.ends
    legible := by simp
    recovers := by
      simpa [leadingSymbols, trailingSymbols, hlines.1, Expr.spell, Expr.spellAll, BinaryOp.kind]
        using Recovers.refl hclear [.block .leading lines, .kind .document, .atom .identifier text]
    blankLines := fun _ => by
      simp [Expr.spacing_eq, Expr.ownSpacing, Expr.isLeading, Expr.children,
        Spacing.wider_eq_blankLines]
    spaced := by simp }⟩

theorem Writes.documentedContent {o o' : Origin} (h : Writes e [] [])
    (hlines : IsDocumentation lines) :
    Writes (.chain .document [e, .block .trailing lines o] o') [] lines := by
  intro p gs gap hp hstaged
  obtain ⟨cs, hs, s, hw⟩ := h p gs gap hp hstaged
  have hwrite : (Expr.chain .document [e, .block .trailing lines o] o').write p =
      (e.write p).stage (lines.map fun line => "  " ++ line) := by
    simp [Expr.write, Expr.writeSeparated, BinaryOp.separator]
  have hclear : Clear e ∧ True ↔ Clear (.chain .document [e, .block .trailing lines o] o') := by
    simp [clear_chain, clear_block]
  have hspell : (Expr.chain .document [e, .block .trailing lines o] o').spell =
      e.spell ++ trailingSymbols lines := by
    simp [Expr.spell, Expr.spellAll, trailingSymbols, hlines.1, BinaryOp.kind]
  exact ⟨cs, hs, s, {
    stands := hwrite ▸ ⟨hw.stands.toPrints.stage hlines.hasLine, hw.stands.stance⟩
    begun := hwrite ▸ hw.begun
    staged := hwrite ▸ rfl
    block := hw.block
    breaks := hw.breaks
    plain := hw.plain
    chunk := hw.chunk
    ends := hw.ends
    legible := hlines.hasLine
    recovers := by
      rw [hspell]
      simpa [trailingSymbols] using
        (hw.recovers.append (.refl trivial (trailingSymbols lines))).congr hclear
    blankLines := by simp
    spaced := fun _ => by
      rw [Expr.spacing_eq, Ne, Spacing.wider_eq_inline, not_and_or]
      left
      simp only [Expr.ownSpacing]
      split <;> simp }⟩

theorem Writes.item {name content : Expr} {o : Origin} (hname : Writes name heading [])
    (hcontent : Writes content [] lines) :
    Writes (.chain .qualify [name, content] o) heading lines := by
  intro p gs gap hp hstaged
  obtain ⟨cs, hs, s, hw⟩ := hname p gs gap hp hstaged
  obtain ⟨hsame, -, gap', -, hcolon⟩ :=
    adds_operator (show BinaryOp.qualify ≠ .document by decide) _ _ _ hw.stands
  obtain ⟨_, hs', s', hw'⟩ := hcontent _ _ _ hcolon (hsame.trans hw.staged)
  obtain rfl := hw'.block.eq_nil
  have hwrite : (Expr.chain .qualify [name, content] o).write p =
      content.write ((name.write p).append BinaryOp.qualify.text) := rfl
  have hmark : Chunk [ofMark gap' .colon] [.mark .colon] 0 := chunk_mark gap' (by simp)
  have hclear :
      (Clear name ∧ True) ∧ Clear content ↔ Clear (.chain .qualify [name, content] o) := by
    simp [clear_chain]
  have hcover : ∀ e ∈ [name, content], e.spacing.wider (Expr.spacing _) = Expr.spacing _ :=
    fun e he => Expr.wider_spacing (e := .chain .qualify [name, content] o) he
  exact ⟨cs, hs ++ [ofMark gap' .colon] ++ hs', s ++ [.mark .colon] ++ s', {
    stands := by
      rw [hwrite, List.append_assoc, ← List.append_assoc cs, ← List.append_assoc gs,
        ← List.append_assoc (gs ++ (cs ++ hs))]
      exact hw'.stands
    begun := hwrite ▸ hw'.begun
    staged := hwrite ▸ hw'.staged
    block := hw.block
    breaks := hw.breaks
    plain := by
      rw [List.append_assoc, List.head?_append_of_ne_nil _ hw.chunk.ne_nil]
      exact hw.plain
    chunk := (hw.chunk.append hmark (begins_of_ne (by simp))).append hw'.chunk
      fun g hg hk => absurd hk (hw'.plain g hg)
    ends := by
      rw [List.getLast?_append_of_ne_nil _ hw'.chunk.symbols_ne_nil]
      exact hw'.ends
    legible := hw'.legible
    recovers := by
      simpa [Expr.spell, Expr.spellAll, BinaryOp.kind, trailingSymbols, leadingSymbols] using
        ((hw.recovers.append (.refl trivial [.mark .colon])).append hw'.recovers).congr hclear
    blankLines := fun hn => (Spacing.of_wider_eq (hcover name (by simp))).2 (hw.blankLines hn)
    spaced := fun hn hinline =>
      hw'.spaced hn ((Spacing.of_wider_eq (hcover content (by simp))).1 hinline) }⟩

/-! ## Lists of items -/

section Item

variable {cs hs : List Glyph} {s : List Symbol} (hw : Written e heading lines p gs gap cs hs s)
  (hcovers : e.spacing.wider p.mode = p.mode)

include hw hcovers

/-- An item behind which documentation is staged is on lines of its own. -/
theorem Written.mode_ne_inline {q : Page} (hq : q.modes = p.modes) (hn : lines ≠ []) :
    q.mode ≠ .inline := by
  rw [mode, hq, ← mode]
  exact fun hinline => hw.spaced hn ((Spacing.of_wider_eq hcovers).1 hinline)

/-- The last item of a list. -/
theorem Written.verticalSpacing :
    ∃ ds gap', (e.write p).verticalSpacing.Stands .done (gs ++ (cs ++ (hs ++ ds))) gap' ∧
    (e.write p).verticalSpacing.staged = [] ∧
    Chunk (hs ++ ds) (s ++ trailingSymbols lines) (lines.length - 1) := by
  obtain ⟨ds, gap', hp, hstaged, hds, hline, -⟩ :=
    hw.stands.verticalSpacing rfl hw.begun hw.staged hw.legible
      (hw.mode_ne_inline hcovers (Expr.modes_write e p))
  rw [List.append_assoc, List.append_assoc] at hp
  exact ⟨ds, gap', hp, hstaged, hw.chunk.documented hds hline hw.ends⟩

/-- An item with a comma behind it. -/
theorem Written.comma : ∃ ds gap', ((e.write p).append ", ").verticalSpacing.Stands .ready
      (gs ++ (cs ++ (hs ++ ds))) gap' ∧
    ((e.write p).append ", ").verticalSpacing.staged = [] ∧
    Chunk (hs ++ ds) (s ++ trailingSymbols lines ++ [.mark .comma]) (lines.length - 1) ∧
    (p.mode = .blankLines → gap'.count '\n' = 2) := by
  obtain ⟨hsame, hbegun, before, -, hcomma⟩ :=
    adds_comma _ _ _ (hw.stands.mono Stance.done_le_settled)
  have hmodes : ((e.write p).append ", ").modes = p.modes := by simp [Expr.modes_write]
  obtain ⟨ds, gap', hp, hstaged, hds, hline, hblank⟩ :=
    hcomma.verticalSpacing rfl hbegun (hsame.trans hw.staged)
    hw.legible (hw.mode_ne_inline hcovers hmodes)
  rw [List.append_assoc, List.append_assoc, List.append_assoc] at hp
  refine ⟨_, gap', hp, hstaged, hw.chunk.comma hds hline rfl (by simp), ?_⟩
  rw [mode, hmodes] at hblank
  exact hblank

end Item

section Join

variable {behind : List String} {cs hs : List Glyph} {n : Nat}
  (hbreaks : heading ≠ [] → ∀ c ∈ cs.head?, c.breaks = 2)

include hbreaks

/-- Documentation below a blank line continues documentation that reaches around to it. -/
theorem onLine_of_blankLine (hn : heading ≠ []) (hwraps : wraps behind) :
    OnLine (behind.length - 1) cs := by
  intro c hc
  rw [isBelow_eq, hbreaks hn c hc]
  exact ⟨rfl, wraps_iff.1 hwraps⟩

variable (hcs : IsBlock .comment cs heading)

include hcs

/-- Documentation below a blank line stands apart from documentation that does not reach around
to it. -/
theorem begins_of_blankLine (hapart : heading ≠ [] → wraps behind = false) :
    Begins (behind.length - 1) cs := by
  intro c hc _
  have hn : heading ≠ [] := by
    rintro rfl
    simp [hcs.eq_nil] at hc
  rw [isBelow_eq, hbreaks hn c hc]
  exact ⟨rfl, mt wraps_iff.2 (by simp [hapart hn])⟩

/-- Documentation above an item is read as such, unless the documentation behind the item before it
reaches around to it. -/
theorem exists_chunk_join {hs' : List Glyph} {s s' : List Symbol}
    (h : Chunk hs (s ++ [.mark .comma]) (behind.length - 1)) (h' : Chunk hs' s' n)
    (hplain : ∀ g ∈ hs'.head?, g.kind ≠ .comment) :
    ∃ t, Chunk (hs ++ (cs ++ hs')) t n ∧ Recovers (heading ≠ [] → wraps behind = false) t
      (s ++ [.mark .comma] ++ (leadingSymbols heading ++ s')) := by
  by_cases hapart : heading ≠ [] → wraps behind = false
  · have hbegins := begins_of_blankLine hbreaks hcs hapart
    exact ⟨_, h.append (h'.headed hcs hplain) (hbegins.append hplain), .refl hapart _⟩
  · obtain ⟨hn, hwraps⟩ := Classical.not_imp.1 hapart
    rw [Bool.not_eq_false] at hwraps
    have hswapped := h.swapped hcs (onLine_of_blankLine hbreaks hn hwraps) hn
    rw [← List.append_assoc]
    refine ⟨_, hswapped.append h' fun g hg hk => absurd hk (hplain g hg),
      fun h => absurd h hapart, fun _ => ?_⟩
    simp [leadingSymbols, hn, headings]

end Join

/-- What writing items comes to, the first of which may have documentation above it: glyphs that are
added, and as which symbols they are read. -/
structure WrittenItems (e : Expr) (es : List Expr) (p : Page) (gs : List Glyph) (gap : List Char)
    (cs hs : List Glyph) (s : List Symbol) : Prop where
  stands : ∃ gap', p.Stands .settled (gs ++ (cs ++ hs)) gap'
  staged : p.staged = []
  block : IsBlock .comment cs (above .item e)
  breaks : ∀ c ∈ cs.head?, c.breaks = gap.count '\n'
  plain : ∀ g ∈ hs.head?, g.kind ≠ .comment
  chunk : ∃ n, Chunk hs s n
  recovers : Recovers ((e :: es).IsChain Apart ∧ ∀ f ∈ e :: es, Clear f)
    (leadingSymbols (above .item e) ++ s) (Expr.spellAll (.mark .comma) (e :: es))
  blankLines : above .item e ≠ [] → e.spacing = .blankLines

section Items

variable {cs hs : List Glyph} {s : List Symbol}
  (hw : Written e (above .item e) (behind .item e) p gs gap cs hs s) {q : Page} {ds : List Glyph}
  {gap' : List Char}

include hw

/-- The last item of a list, behind which its documentation has been written. -/
theorem WrittenItems.last (hq : q.Stands .settled (gs ++ (cs ++ (hs ++ ds))) gap')
    (hstaged : q.staged = [])
    (hchunk : Chunk (hs ++ ds) (s ++ trailingSymbols (behind .item e))
      ((behind .item e).length - 1)) :
    WrittenItems e [] q gs gap cs (hs ++ ds) (s ++ trailingSymbols (behind .item e)) where
  stands := ⟨gap', hq⟩
  staged := hstaged
  block := hw.block
  breaks := hw.breaks
  plain := by
    rw [List.head?_append_of_ne_nil _ hw.chunk.ne_nil]
    exact hw.plain
  chunk := ⟨_, hchunk⟩
  recovers := by
    rw [← List.append_assoc]
    exact hw.recovers.congr (by simp)
  blankLines := hw.blankLines

/-- An item before others, with its comma and its documentation behind it, and with a blank line
behind that if documentation follows. -/
theorem WrittenItems.cons {f : Expr} {es : List Expr} {cs' hs' : List Glyph} {s' : List Symbol}
    (hchunk : Chunk (hs ++ ds) (s ++ trailingSymbols (behind .item e) ++ [.mark .comma])
      ((behind .item e).length - 1))
    (hw' : WrittenItems f es q (gs ++ (cs ++ (hs ++ ds))) gap' cs' hs' s')
    (hblank : above .item f ≠ [] → gap'.count '\n' = 2) :
    ∃ t, WrittenItems e (f :: es) q gs gap cs (hs ++ ds ++ (cs' ++ hs')) t := by
  obtain ⟨n, hchunk'⟩ := hw'.chunk
  have hbreaks : above .item f ≠ [] → ∀ c ∈ cs'.head?, c.breaks = 2 :=
    fun hn c hc => (hw'.breaks c hc).trans (hblank hn)
  obtain ⟨t, hjoined, hrecovers⟩ := exists_chunk_join hbreaks hw'.block hchunk hchunk' hw'.plain
  have hheaded := (Recovers.refl trivial (leadingSymbols (above .item e))).append hrecovers
  have hparts := (hw.recovers.append (.refl trivial [.mark .comma])).append hw'.recovers
  exact ⟨t, {
    stands := by
      rw [← List.append_assoc cs, ← List.append_assoc gs]
      exact hw'.stands
    staged := hw'.staged
    block := hw.block
    breaks := hw.breaks
    plain := by
      rw [List.append_assoc, List.head?_append_of_ne_nil _ hw.chunk.ne_nil]
      exact hw.plain
    chunk := ⟨n, hjoined⟩
    recovers := by
      rw [Expr.spellAll_cons _ e (by simp)]
      refine (hheaded.trans (by simpa using hparts)).congr ?_
      simp only [List.isChain_cons_cons, List.forall_mem_cons, Apart]
      tauto
    blankLines := hw.blankLines }⟩

end Items

theorem exists_writtenItems {es : List Expr} (hes : ∀ f ∈ e :: es, WritesItem f)
    (hp : p.Stands .ready gs gap) (hstaged : p.staged = [])
    (hmode : ∀ f ∈ e :: es, f.spacing.wider p.mode = p.mode) :
    ∃ cs hs s, WrittenItems e es (Expr.writeItems (e :: es) p) gs gap cs hs s := by
  induction es generalizing e p gs gap with
  | nil =>
    obtain ⟨cs, hs, s, hw⟩ := hes e (by simp) p gs gap hp hstaged
    obtain ⟨ds, gap', hp', hstaged', hchunk⟩ := hw.verticalSpacing (hmode e (by simp))
    exact ⟨cs, hs ++ ds, _, .last hw (hp'.mono Stance.done_le_settled) hstaged' hchunk⟩
  | cons f es ih =>
    obtain ⟨cs, hs, s, hw⟩ := hes e (by simp) p gs gap hp hstaged
    obtain ⟨ds, between, hp', hstaged', hchunk, hblank⟩ := hw.comma (hmode e (by simp))
    have hsame : ((e.write p).append ", ").verticalSpacing.mode = p.mode := by
      rw [mode, modes_verticalSpacing, modes_append, Expr.modes_write, ← mode]
    obtain ⟨hcovers, hmode'⟩ := List.forall_mem_cons.1 (List.forall_mem_cons.1 hmode).2
    obtain ⟨cs', hs', s', hw'⟩ := ih (List.forall_mem_cons.1 hes).2 hp' hstaged'
      (by rw [hsame]; exact List.forall_mem_cons.2 ⟨hcovers, hmode'⟩)
    obtain ⟨t, ht⟩ := WrittenItems.cons hw hchunk hw'
      fun hn => hblank ((Spacing.of_wider_eq hcovers).2 (hw'.blankLines hn))
    exact ⟨cs, _, t, ht⟩

/-- Items that are written one level deeper if they are on lines of their own. -/
theorem exists_indentedItems {es : List Expr} (hes : ∀ f ∈ e :: es, WritesItem f)
    (hp : p.Stands .ready gs gap) (hstaged : p.staged = [])
    (hmode : ∀ f ∈ e :: es, f.spacing.wider p.mode = p.mode) :
    ∃ cs hs s,
      WrittenItems e es (p.indentedIfSpaced (Expr.writeItems (e :: es))) gs gap cs hs s := by
  unfold indentedIfSpaced indentedIf
  split
  · obtain ⟨cs, hs, s, hw⟩ := exists_writtenItems hes (p := p.indentMore) (hp.congr rfl rfl rfl)
      hstaged hmode
    obtain ⟨_, hp'⟩ := hw.stands
    obtain ⟨gap', -, hp''⟩ := hp'.indentLess
    exact ⟨cs, hs, s, { hw with stands := ⟨gap', hp''⟩ }⟩
  · exact exists_writtenItems hes hp hstaged hmode

/-- The glyphs of a group up to its closing parenthesis. -/
theorem exists_chunk_spaced {es : List Expr} {o : Origin} {before : List Char}
    (hes : ∀ e ∈ es, WritesItem e)
    (hp : p.Stands .ready (gs ++ [ofMark before .leftParenthesis]) []) (hbegun : p.line ≠ [])
    (hstaged : p.staged = []) :
    let q := p.spaced (Expr.group es o).spacing fun p => p.verticalSpacing.indentedIfSpaced
      (Expr.writeItems es)
    ∃ hs gap' n s, q.Stands .settled (gs ++ ofMark before .leftParenthesis :: hs) gap' ∧
      q.staged = [] ∧
      Chunk (ofMark before .leftParenthesis :: hs) (.mark .leftParenthesis :: s) n ∧
      Recovers (Clear (.group es o)) s (Expr.spellAll (.mark .comma) es) := by
  have hopen := chunk_mark (m := .leftParenthesis) before (by simp)
  have hpush : (p.pushMode (Expr.group es o).spacing).Stands .ready _ [] := hp.congr rfl rfl rfl
  cases es with
  | nil =>
    exact ⟨[], [], 0, [], (hp.congr rfl rfl rfl).mono Stance.ready_le_settled, hstaged, hopen,
      .refl (clear_group.2 (by simp)) _⟩
  | cons e es =>
    obtain ⟨cs, between, hp', hstaged', hcs, -, hblank⟩ := hpush.verticalSpacing rfl hbegun
      (show p.staged = stagedLines [] from hstaged) (by simp) (by simp)
    obtain rfl := hcs.eq_nil
    rw [List.append_nil] at hp'
    have hsame : (p.pushMode (Expr.group (e :: es) o).spacing).verticalSpacing.mode =
        (Expr.group (e :: es) o).spacing := by
      rw [mode, modes_verticalSpacing]
      rfl
    have hcovers : ∀ f ∈ e :: es, f.spacing.wider (Expr.group (e :: es) o).spacing =
        (Expr.group (e :: es) o).spacing := fun f hf => Expr.wider_spacing hf
    obtain ⟨cs, hs, s, hw⟩ := exists_indentedItems hes hp' hstaged' (by rwa [hsame])
    obtain ⟨gap', hp''⟩ := hw.stands
    obtain ⟨n, hchunk⟩ := hw.chunk
    have hblankLines : above .item e ≠ [] → (Expr.group (e :: es) o).spacing = .blankLines :=
      fun hn => (Spacing.of_wider_eq (hcovers e (by simp))).2 (hw.blankLines hn)
    have hbreaks : above .item e ≠ [] → ∀ c ∈ cs.head?, c.breaks = 2 :=
      fun hn c hc => (hw.breaks c hc).trans (hblank (hblankLines hn))
    have hbegins : Begins (([] : List String).length - 1) cs :=
      begins_of_blankLine hbreaks hw.block fun _ => rfl
    rw [List.append_assoc] at hp''
    exact ⟨cs ++ hs, gap', n, _, hp''.congr rfl rfl rfl, hw.staged,
      hopen.append (hchunk.headed hw.block hw.plain) (hbegins.append hw.plain),
      hw.recovers.congr clear_group.symm⟩

theorem writes_group {es : List Expr} {o : Origin} (hes : ∀ e ∈ es, WritesItem e) :
    Writes (.group es o) [] [] := by
  intro p gs gap hp hstaged
  obtain ⟨hsame, hbegun, before, -, hopen⟩ := adds_open (m := .leftParenthesis) (by simp) _ _ _
    (hp.mono Stance.ready_le_settled)
  obtain ⟨hs, between, n, s, hinner, hstaged', hchunk, hrecovers⟩ :=
    exists_chunk_spaced (o := o) hes hopen hbegun (hsame.trans hstaged)
  obtain ⟨hsame', hbegun', behind, -, hclose⟩ :=
    adds_close (m := .rightParenthesis) (by simp) _ _ _ hinner
  have hend := chunk_mark (m := .rightParenthesis) behind (by simp)
  have hopened := (Recovers.refl trivial [.mark .leftParenthesis]).append hrecovers
  have hclear : (True ∧ Clear (.group es o)) ∧ True ↔ Clear (.group es o) := by simp
  exact ⟨[], _, _, {
    stands := by
      rw [List.nil_append, ← List.append_assoc]
      exact hclose
    begun := hbegun'
    staged := hsame'.trans hstaged'
    block := ⟨rfl, by simp, by simp⟩
    breaks := by simp
    plain := by simp
    chunk := hchunk.append hend (begins_of_ne (by simp))
    ends := by
      intro y hy
      rw [List.getLast?_concat] at hy
      obtain rfl := Option.some.inj hy
      rfl
    legible := by simp
    recovers := by
      simpa [Expr.spell, leadingSymbols, trailingSymbols] using
        (hopened.append (.refl trivial [.mark .rightParenthesis])).congr hclear
    blankLines := by simp
    spaced := by simp }⟩

/-- Writing any part of an item list adds the documentation above it and a chunk of glyphs, and
leaves the documentation behind it staged. -/
theorem Derives.writes {part : Part} (h : Derives part e) :
    Writes e (above part e) (behind part e) := by
  induction h with
  | items _ ih => exact writes_group ih
  | item _ _ ihname ihcontent =>
    rw [behind_eq_nil (by simp)] at ihname
    rw [above_eq_nil (by simp)] at ihcontent
    exact ihname.item ihcontent
  | name h | word h =>
    exact writes_atom (stable_of_isName h) (not_mem_of_not_isQuoted (stable_of_isName h) rfl)
  | number h =>
    exact writes_atom (stable_of_isNumber h) (not_mem_of_not_isQuoted (stable_of_isNumber h) rfl)
  | documentedName hlines h => exact writes_documentedName hlines h
  | content hvalue ih =>
    rw [above_eq_nil (by simp), behind_eq_nil (by simp)] at ih
    rw [above_eq_nil (by simp), hvalue.behind_value]
    exact ih
  | documentedContent _ hlines ih =>
    rw [above_eq_nil (by simp), behind_eq_nil (by simp)] at ih
    exact ih.documentedContent hlines
  | @nested e _ ih =>
    rw [above_eq_nil (by simp), behind_eq_nil (by simp)] at ih ⊢
    exact ih

end ItemLists

end DocExpr
