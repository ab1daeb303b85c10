import DocExpr.Proofs.Grammar.Neighbours
import DocExpr.Proofs.Layout.Spelling
import DocExpr.Proofs.Stream.Blocks
import DocExpr.Proofs.Stream.Documented

/-!
# Blocks of comments among glyphs

What the parser sees of glyphs depends on the lines on which their comments stand. `Glyph.ReadAs`
says as which symbols glyphs are read behind a symbol that is held back, so many lines below it: a
block of comments on a line of its own becomes leading documentation (`Glyph.ReadAs.leading`), one
on the line of the symbol that is held back becomes trailing documentation, which goes before a
separator (`Glyph.ReadAs.swapped`) and behind anything else (`Glyph.ReadAs.trailing`).

A `Glyph.Chunk` is read as the same symbols wherever it stands, so chunks can be put together
(`Glyph.Chunk.append`), and a whole text of them is read as their symbols
(`Glyph.Chunk.symbols_ofSource`).
-/

namespace DocExpr

open Lexeme Documentation

@[simp] theorem Token.symbol_document (o : Origin) :
    (Token.document o).symbol = .kind .document := rfl

namespace Glyph

/-- Whether glyphs are comments, or back-ticked lines, with these as their lines, each but the first
directly below the one before it. -/
structure IsBlock (k : Kind) (gs : List Glyph) (lines : List String) : Prop where
  texts : gs.map (fun g => (g.kind, g.text)) = lines.map fun line => (k, line.toList)
  lines : ∀ line ∈ lines, k.HasLine line
  below : ∀ g ∈ gs.tail, g.isBelow

/-- Whether glyphs can stand so many lines below something that is held back: a comment that comes
first is not directly below another one, and on another line than what is held back. Lines are
counted in 32 bits. -/
def Begins (n : Nat) (gs : List Glyph) : Prop :=
  ∀ g ∈ gs.head?, g.kind = .comment → g.isBelow = false ∧ UInt32.ofNat (n + g.breaks) ≠ 0

/-- Whether comments that are so many lines below something that is held back have the line number
of that, and do not continue a block of comments before them. -/
def OnLine (n : Nat) (cs : List Glyph) : Prop :=
  ∀ c ∈ cs.head?, c.isBelow = false ∧ UInt32.ofNat (n + c.breaks) = 0

/-- Whether glyphs do not continue a block of comments before them. -/
def Ends (gs : List Glyph) : Prop := ∀ g ∈ gs.head?, g.kind = .comment → g.isBelow = false

/-- Whether glyphs are read as symbols, the first of which is held back so many lines above them. -/
def ReadAs (x : Symbol) (n : Nat) (gs : List Glyph) (s : List Symbol) : Prop :=
  ∀ (file : String) (p : Position) (held : Token) (finish : Reading) (rs : List Reading),
    held.symbol = x → p.line = held.origin.line + .ofNat n →
    rs.map Reading.token = placed file p gs →
      ((attach held (Runs.merge commentRuns finish none rs)).map Reading.token).map Token.symbol = s

variable {x : Symbol} {n : Nat} {g : Glyph} {gs cs : List Glyph} {s : List Symbol}
  {lines : List String}

/-! ## Merging a block -/

theorem isChain_continues (hk : g.kind = .comment) (h : ∀ d ∈ gs, d.kind = .comment ∧ d.isBelow) :
    (g :: gs).IsChain (continues · ·) := by
  induction gs generalizing g with
  | nil => exact .singleton _
  | cons d gs ih =>
    obtain ⟨hd, h⟩ := List.forall_mem_cons.1 h
    exact List.isChain_cons_cons.2 ⟨continues_iff.2 ⟨⟨hk, hd.1⟩, hd.2⟩, ih hd.1 h⟩

/-- Glyphs without line breaks in them that are directly below each other have one line each. -/
theorem ofNat_count_laid (h : ∀ g ∈ gs, g.isBelow ∧ '\n' ∉ g.text) :
    UInt32.ofNat ((laid gs).count '\n') = .ofNat gs.length := by
  induction gs with
  | nil => rfl
  | cons g gs ih =>
    obtain ⟨⟨hbelow, hline⟩, h⟩ := List.forall_mem_cons.1 h
    have hbreaks : UInt32.ofNat (g.gap.count '\n') = 1 := of_decide_eq_true hbelow
    rw [laid_cons, List.count_append, List.count_append, List.count_eq_zero.2 hline, Nat.zero_add,
      UInt32.ofNat_add, hbreaks, ih h, List.length_cons, Nat.add_comm, UInt32.ofNat_add]
    rfl

theorem IsBlock.map_text {k : Kind} (h : IsBlock k cs lines) :
    cs.map (fun g => String.ofList g.text) = lines := by
  have := congrArg (List.map fun text : Kind × List Char => String.ofList text.2) h.texts
  simpa [Function.comp_def] using this

/-- A block of comments is read as its lines. -/
theorem merge_block {file : String} {p : Position} (finish : Reading) {rs : List Reading}
    (hcs : IsBlock .comment cs lines) (hn : lines ≠ []) (hgs : Ends gs)
    (hrs : rs.map Reading.token = placed file p (cs ++ gs)) :
    ∃ block rs' q, Runs.merge commentRuns finish none rs =
      block :: Runs.merge commentRuns finish none rs' ∧
      rs'.map Reading.token = placed file q gs ∧ block.token.kind = .block .leading ∧
      block.token.lines = lines ∧
      (∀ g ∈ cs.head?, block.token.origin.line = p.line + .ofNat g.breaks) ∧
      q.line = block.token.origin.line + .ofNat (lines.length - 1) := by
  have hcomment : ∀ g ∈ cs, g.kind = .comment ∧ '\n' ∉ g.text := by
    intro g hg
    obtain ⟨line, hline, heq⟩ := List.mem_map.1 (hcs.texts ▸ List.mem_map_of_mem hg)
    obtain ⟨hkind, htext⟩ := Prod.mk.inj heq
    exact ⟨hkind.symm, htext ▸ not_mem_of_comment (hcs.lines line hline).1⟩
  obtain ⟨c, cs, rfl⟩ : ∃ c cs', cs = c :: cs' := List.exists_cons_of_ne_nil (by
    rintro rfl
    exact hn hcs.map_text.symm)
  obtain ⟨hc, hothers⟩ := List.forall_mem_cons.1 hcomment
  have happart : ∀ g ∈ (c :: cs).getLast?, ∀ h ∈ gs.head?, continues g h = false := fun _ _ h hh =>
    Bool.eq_false_iff.2 fun hcontinues => by
      obtain ⟨⟨-, hk⟩, hbelow⟩ := continues_iff.1 hcontinues
      rw [hgs h hh hk] at hbelow
      cases hbelow
  obtain ⟨block, rs', hmerge, hrs', hblock, hfirst, hlast⟩ :=
    merge_group finish (isChain_continues hc.1 fun g hg => ⟨(hothers g hg).1, hcs.below g hg⟩)
      (by simp [isComments, hc.1]) (fun g hg _ => (hcomment g hg).2) happart hrs
  refine ⟨block, rs', _, hmerge, hrs', by rw [hblock], ?_, hfirst, ?_⟩
  · rw [Token.lines, hblock, blockText, hcs.map_text, Text.visibleLines_intercalate hn]
    have hone : ∀ line ∈ lines, Text.visibleLines line = [line] := by
      intro line hline
      have := (visibleLines_of_stable (.inl rfl) (hcs.lines line hline).1).1
      rwa [(hcs.lines line hline).2.trim_eq, String.ofList_toList] at this
    rw [List.flatMap_congr hone, List.flatMap_singleton']
  · have hlength : lines.length - 1 = cs.length := by simp [← hcs.map_text]
    have hbelow : ∀ g ∈ cs, g.isBelow ∧ '\n' ∉ g.text :=
      fun g hg => ⟨hcs.below g hg, (hothers g hg).2⟩
    rw [hlast, spread, List.count_append, List.count_eq_zero.2 hc.2, Nat.zero_add,
      ofNat_count_laid hbelow, hlength]

/-! ## Reading glyphs -/

theorem readAs_nil (x : Symbol) (n : Nat) : ReadAs x n [] [x] := by
  intro file p held finish rs hx _ hrs
  obtain rfl : rs = [] := by simpa [placed] using hrs
  simp [Runs.merge, attach, hx]

/-- What is no comment is held back in the place of what was held back before. -/
theorem ReadAs.plain (hk : g.kind ≠ .comment ∧ ∀ b, g.kind ≠ .block b) (hline : '\n' ∉ g.text)
    (h : ReadAs g.symbol 0 gs s) : ReadAs x n (g :: gs) (x :: s) := by
  intro file p held finish rs hx _ hrs
  obtain ⟨r, rs, rfl, hr, hrest⟩ := List.map_eq_cons_iff.1 hrs
  have hmerge : Runs.merge commentRuns finish none (r :: rs) =
      r :: Runs.merge commentRuns finish none rs :=
    if_neg (by rw [hr]; exact hk.1)
  have hblock : ∀ b, r.token.kind ≠ .block b := by
    rw [hr]
    exact hk.2
  have hread := h file _ r.token finish rs (by rw [hr]; exact symbol_eq _ _ _ _)
    (by rw [line_behind_text _ hline, hr]; simp) hrest
  rw [hmerge, map_token_attach_cons held r _ (hblock .trailing), if_neg (hblock .leading),
    List.map_cons, hx, hread]

theorem IsBlock.head (hcs : IsBlock .comment cs lines) (hn : lines ≠ []) :
    ∃ c, cs.head? = some c ∧ c.kind = .comment := by
  obtain ⟨first, others, rfl⟩ := List.exists_cons_of_ne_nil hn
  obtain ⟨c, cs, rfl, hc, -⟩ := List.map_eq_cons_iff.1 hcs.texts
  exact ⟨c, rfl, (Prod.mk.inj hc).1⟩

theorem IsBlock.plain (hcs : IsBlock .comment cs lines) :
    ∀ g ∈ cs, g.kind ≠ .tickedLine ∧ g.kind ≠ .mark .question := by
  intro g hg
  obtain ⟨line, -, heq⟩ := List.mem_map.1 (hcs.texts ▸ List.mem_map_of_mem hg)
  rw [← (Prod.mk.inj heq).1]
  simp

/-- A block of comments on a line below what is held back is leading documentation. -/
theorem ReadAs.leading (hcs : IsBlock .comment cs lines) (hn : lines ≠ []) (hbegins : Begins n cs)
    (hgs : Ends gs) (h : ReadAs (.kind .document) (lines.length - 1) gs s) :
    ReadAs x n (cs ++ gs) (x :: .block .leading lines :: s) := by
  intro file p held finish rs hx hheld hrs
  obtain ⟨block, rs', q, hmerge, hrs', hkind, hlines, hline, hq⟩ :=
    merge_block finish hcs hn hgs hrs
  have hbelow : isBehind held block.token = false := by
    obtain ⟨c, hc, hcomment⟩ := hcs.head hn
    have hne : held.origin.line ≠ block.token.origin.line := by
      rw [hline c hc, hheld, UInt32.add_assoc, ← UInt32.ofNat_add]
      exact fun heq => (hbegins c hc hcomment).2 (UInt32.left_eq_add.1 heq)
    simp [isBehind, hne]
  have hread := h file q (.document block.token.origin) finish rs' rfl hq hrs'
  rw [hmerge, map_token_attach_cons held block _ (by simp [hkind]), if_pos hkind, hbelow]
  simp [hx, hread, Token.symbol_eq_block.2 ⟨hkind, hlines⟩]

theorem onLine_of_breaks (h : ∀ c ∈ cs.head?, c.breaks = 0) : OnLine 0 cs := by
  intro c hc
  rw [isBelow_eq, h c hc]
  exact ⟨rfl, rfl⟩

/-- What ends an operand separates nothing and attaches nothing. -/
theorem not_separator_of_ends {held : Token} (h : held.kind.ends) :
    isSeparator held = false ∧ held.kind ≠ .document := by
  refine ⟨Bool.eq_false_iff.2 fun hs => ?_, fun hk => by simp [hk, Kind.ends] at h⟩
  rcases Bool.or_eq_true_iff.1 hs with hs | hs <;> simp [eq_of_beq hs, Kind.ends] at h

section Behind

variable (hcs : IsBlock .comment cs lines) (hn : lines ≠ []) (hline : OnLine n cs) (hgs : Ends gs)

include hcs hn hline hgs

/-- What placing a block of comments comes to that stands on the line of what is held back. Lines
are counted in 32 bits. -/
theorem attach_behind {file : String} {p : Position} {held : Token} (finish : Reading)
    {rs : List Reading} (hheld : p.line = held.origin.line + .ofNat n)
    (hbar : held.kind ≠ .mark .bar) (hrs : rs.map Reading.token = placed file p (cs ++ gs)) :
    ∃ (block : Token) (rs' : List Reading) (q : Position),
      rs'.map Reading.token = placed file q gs ∧ block.symbol = .block .trailing lines ∧
      q.line = block.origin.line + .ofNat (lines.length - 1) ∧
      block.origin.line = held.origin.line ∧
      (attach held (Runs.merge commentRuns finish none rs)).map Reading.token =
        if isSeparator held then
          .document block.origin :: block ::
            (attach held (Runs.merge commentRuns finish none rs')).map Reading.token
        else (if held.kind = .document then [held] else [held, .document block.origin]) ++
          (attach block (Runs.merge commentRuns finish none rs')).map Reading.token := by
  obtain ⟨r, rs', q, hmerge, hrs', hkind, hlines, hplace, hq⟩ := merge_block finish hcs hn hgs hrs
  obtain ⟨c, hc, -⟩ := hcs.head hn
  have hsame : r.token.origin.line = held.origin.line := by
    rw [hplace c hc, hheld, UInt32.add_assoc, ← UInt32.ofNat_add, (hline c hc).2, UInt32.add_zero]
  have hbehind : isBehind held r.token := by simp [isBehind, hsame, hbar]
  refine ⟨{ r.token with kind := .block .trailing }, rs', q, hrs',
    Token.symbol_eq_block.2 ⟨rfl, hlines⟩, hq, hsame, ?_⟩
  rw [hmerge, map_token_attach_cons held r _ (by simp [hkind]), if_pos hkind, if_pos hbehind]

/-- A block of comments on the line of a comma is trailing documentation before the comma. -/
theorem ReadAs.swapped (h : ReadAs (.mark .comma) (lines.length - 1) gs s) :
    ReadAs (.mark .comma) n (cs ++ gs) (.kind .document :: .block .trailing lines :: s) := by
  intro file p held finish rs hx hheld hrs
  have hkind := Token.symbol_eq_mark.1 hx
  obtain ⟨block, rs', q, hrs', hblock, hq, hsame, hattach⟩ :=
    attach_behind hcs hn hline hgs finish hheld (by simp [hkind]) hrs
  rw [hattach, if_pos (by simp [isSeparator, hkind])]
  simp [hblock, h file q held finish rs' hx (by rw [hq, hsame]) hrs']

/-- A block of comments on the line of what ends an operand is trailing documentation behind it. -/
theorem ReadAs.trailing (hends : x.tokenKind.ends)
    (h : ReadAs (.block .trailing lines) (lines.length - 1) gs s) :
    ReadAs x n (cs ++ gs) (x :: .kind .document :: s) := by
  intro file p held finish rs hx hheld hrs
  have hkind : held.kind.ends := by rwa [← Token.tokenKind_symbol, hx]
  obtain ⟨block, rs', q, hrs', hblock, hq, -, hattach⟩ :=
    attach_behind hcs hn hline hgs finish hheld (by rintro hk; simp [hk, Kind.ends] at hkind) hrs
  obtain ⟨hseparator, hdocument⟩ := not_separator_of_ends hkind
  rw [hattach, hseparator, if_neg hdocument]
  simp [hx, h file q block finish rs' hblock hq hrs']

end Behind

/-! ## Chunks -/

/-- Whether glyphs are read as symbols wherever they can stand. The last symbol is then held back,
so many lines above what comes next. -/
structure Chunk (gs : List Glyph) (s : List Symbol) (n : Nat) : Prop where
  ne_nil : gs ≠ []
  plain : ∀ g ∈ gs, g.kind ≠ .tickedLine ∧ g.kind ≠ .mark .question
  reads : ∃ t y, s = t ++ [y] ∧ ∀ x m rest u, Begins m gs → Ends rest → ReadAs y n rest u →
    ReadAs x m (gs ++ rest) (x :: (t ++ u))

variable {gs' : List Glyph} {s' : List Symbol} {m : Nat}

theorem Begins.ends (h : Begins n gs) : Ends gs := fun g hg hk => (h g hg hk).1

theorem begins_append (hn : gs ≠ []) : Begins n (gs ++ gs') ↔ Begins n gs := by
  rw [Begins, List.head?_append_of_ne_nil _ hn, Begins]

/-- What starts with no comment can stand behind a block of comments that can stand there. -/
theorem Begins.append (h : Begins n cs) (hgs : ∀ g ∈ gs.head?, g.kind ≠ .comment) :
    Begins n (cs ++ gs) := by
  cases cs with
  | nil => exact fun g hg hk => absurd hk (hgs g hg)
  | cons c cs => exact (begins_append (by simp)).2 h

theorem ends_append (hn : gs ≠ []) : Ends (gs ++ gs') ↔ Ends gs := by
  rw [Ends, List.head?_append_of_ne_nil _ hn, Ends]

theorem begins_of_ne (h : g.kind ≠ .comment) : Begins n (g :: gs) := fun g' hg' hk => by
  obtain rfl := Option.some.inj hg'
  exact absurd hk h

theorem Chunk.append (h : Chunk gs s n) (h' : Chunk gs' s' m) (hbegins : Begins n gs') :
    Chunk (gs ++ gs') (s ++ s') m := by
  obtain ⟨t, y, rfl, hreads⟩ := h.reads
  obtain ⟨t', y', rfl, hreads'⟩ := h'.reads
  refine ⟨by simp [h.ne_nil], List.forall_mem_append.2 ⟨h.plain, h'.plain⟩, t ++ y :: t',
    y', by simp, ?_⟩
  intro x k rest u hk hrest hu
  have := hreads x k (gs' ++ rest) (y :: (t' ++ u)) ((begins_append h.ne_nil).1 hk)
    ((ends_append h'.ne_nil).2 hbegins.ends) (hreads' y n rest u hbegins hrest hu)
  simpa using this

theorem Chunk.symbols_ne_nil (h : Chunk gs s n) : s ≠ [] := by
  obtain ⟨t, y, rfl, -⟩ := h.reads
  simp

/-- What is no comment is a chunk of its own. -/
theorem chunk_plain (hk : g.kind ≠ .comment ∧ ∀ b, g.kind ≠ .block b)
    (hplain : g.kind ≠ .tickedLine ∧ g.kind ≠ .mark .question) (hline : '\n' ∉ g.text) :
    Chunk [g] [g.symbol] 0 :=
  ⟨by simp, by simpa using hplain, [], g.symbol, rfl, fun _ _ _ _ _ _ h => h.plain hk hline⟩

/-- A mark behind a gap. -/
abbrev ofMark (gap : List Char) (m : Mark) : Glyph := ⟨gap, .mark m, m.spelling.toList⟩

theorem chunk_mark {m : Mark} (gap : List Char) (hm : m ≠ .question) :
    Chunk [ofMark gap m] [.mark m] 0 := by
  have hline : '\n' ∉ m.spelling.toList := by cases m <;> decide
  simpa [symbol, Token.symbol] using chunk_plain (g := ofMark gap m) (by simp)
    (by simpa using hm) hline

/-- The symbols of documentation above something, if there is any. -/
def leadingSymbols (lines : List String) : List Symbol :=
  if lines = [] then [] else [.block .leading lines, .kind .document]

/-- The symbols of documentation behind something, if there is any. -/
def trailingSymbols (lines : List String) : List Symbol :=
  if lines = [] then [] else [.kind .document, .block .trailing lines]

theorem IsBlock.eq_nil (hcs : IsBlock .comment cs []) : cs = [] := by simpa using hcs.texts

/-- A chunk that starts with no comment, with a block of comments above it if there are any
lines. -/
theorem Chunk.headed (h : Chunk gs s n) (hcs : IsBlock .comment cs lines)
    (hgs : ∀ g ∈ gs.head?, g.kind ≠ .comment) :
    Chunk (cs ++ gs) (leadingSymbols lines ++ s) n := by
  by_cases hn : lines = []
  · subst hn
    rw [hcs.eq_nil]
    simpa [leadingSymbols] using h
  · obtain ⟨c, hc, -⟩ := hcs.head hn
    have hne : cs ≠ [] := by
      rintro rfl
      cases hc
    obtain ⟨t, y, rfl, hreads⟩ := h.reads
    refine ⟨by simp [hne], List.forall_mem_append.2 ⟨hcs.plain, h.plain⟩,
      [.block .leading lines, .kind .document] ++ t, y, by simp [leadingSymbols, hn],
      fun x m rest u hm hrest hu => ?_⟩
    have hbegins : Begins (lines.length - 1) gs := fun g hg hk => absurd hk (hgs g hg)
    have hends : Ends (gs ++ rest) := (ends_append h.ne_nil).2 hbegins.ends
    have hread := ReadAs.leading (x := x) hcs hn ((begins_append hne).1 hm) hends
      (hreads _ _ rest u hbegins hrest hu)
    simpa using hread

section Behind

variable (hcs : IsBlock .comment cs lines) (hline : OnLine n cs)

include hline in
theorem OnLine.ends (hgs : Ends gs) : Ends (cs ++ gs) := by
  intro g hg hk
  cases cs with
  | nil => exact hgs g hg hk
  | cons c cs =>
    obtain rfl := Option.some.inj hg
    exact (hline c rfl).1

include hcs hline

/-- A block of comments on the line of what ends an operand. -/
theorem Chunk.trailing (h : Chunk gs s n) (hn : lines ≠ [])
    (hends : ∀ y ∈ s.getLast?, y.tokenKind.ends) :
    Chunk (gs ++ cs) (s ++ [.kind .document, .block .trailing lines]) (lines.length - 1) := by
  obtain ⟨t, y, rfl, hreads⟩ := h.reads
  refine ⟨by simp [h.ne_nil], List.forall_mem_append.2 ⟨h.plain, hcs.plain⟩,
    t ++ [y, .kind .document],
    .block .trailing lines, by simp, fun x m rest u hm hrest hu => ?_⟩
  have htrailing := ReadAs.trailing hcs hn hline hrest (hends y (by simp)) hu
  simpa using hreads x m _ _ ((begins_append h.ne_nil).1 hm) (hline.ends hrest) htrailing

/-- A block of comments on the line of a comma is documentation of what comes before the comma. -/
theorem Chunk.swapped (h : Chunk gs (s ++ [.mark .comma]) n) (hn : lines ≠ []) :
    Chunk (gs ++ cs) (s ++ [.kind .document, .block .trailing lines, .mark .comma])
      (lines.length - 1) := by
  obtain ⟨t, y, hs, hreads⟩ := h.reads
  obtain ⟨rfl, hy⟩ := List.append_inj' hs rfl
  obtain rfl : Symbol.mark .comma = y := List.singleton_inj.1 hy
  refine ⟨by simp [h.ne_nil], List.forall_mem_append.2 ⟨h.plain, hcs.plain⟩,
    s ++ [.kind .document, .block .trailing lines], .mark .comma, by simp,
    fun x m rest u hm hrest hu => ?_⟩
  have hswapped := ReadAs.swapped hcs hn hline hrest hu
  simpa using hreads x m _ _ ((begins_append h.ne_nil).1 hm) (hline.ends hrest) hswapped

end Behind

section Documented

variable (h : Chunk gs s 0) (hcs : IsBlock .comment cs lines) (hline : ∀ c ∈ cs.head?, c.breaks = 0)

include h hcs hline

/-- What ends an operand, with a block of comments on its line if there are any lines. -/
theorem Chunk.documented (hends : ∀ y ∈ s.getLast?, y.tokenKind.ends) :
    Chunk (gs ++ cs) (s ++ trailingSymbols lines) (lines.length - 1) := by
  by_cases hn : lines = []
  · subst hn
    rw [hcs.eq_nil, List.append_nil]
    simpa [trailingSymbols] using h
  · simpa [trailingSymbols, hn] using h.trailing hcs (onLine_of_breaks hline) hn hends

/-- The same with a comma, which comes behind the block of comments that is on its line. -/
theorem Chunk.comma (hg : g.kind = .mark .comma) (htext : '\n' ∉ g.text) :
    Chunk (gs ++ g :: cs) (s ++ trailingSymbols lines ++ [.mark .comma]) (lines.length - 1) := by
  have hcomma : Chunk [g] [.mark .comma] 0 := by
    rw [← show g.symbol = .mark .comma from Token.symbol_eq_mark.2 hg]
    exact chunk_plain (by simp [hg]) (by simp [hg]) htext
  have hboth := h.append hcomma (begins_of_ne (by simp [hg]))
  by_cases hn : lines = []
  · subst hn
    rw [hcs.eq_nil]
    simpa [trailingSymbols] using hboth
  · simpa [trailingSymbols, hn] using hboth.swapped hcs (onLine_of_breaks hline) hn

end Documented

/-! ## Sources -/

/-- What attaching documentation to a stream comes to behind a token, if that is on another line
than a comment that comes first. -/
theorem tokens_attachDocumentation_tail {s : Stream} {held : Token} {r : Reading}
    {rs : List Reading} (hs : s.readings = r :: rs) (hblock : ∀ b, r.token.kind ≠ .block b)
    (hline : r.token.kind = .comment → held.origin.line ≠ r.token.origin.line) :
    (attach held (Runs.merge commentRuns s.lastReading none s.readings)).map Reading.token =
      held :: s.attachDocumentation.tokens := by
  rw [Stream.tokens]
  unfold Stream.attachDocumentation
  rw [hs]
  by_cases hk : r.token.kind = .comment
  · have hfirst : Runs.merge commentRuns s.lastReading none (r :: rs) =
        Runs.merge commentRuns s.lastReading (some (.start r)) rs := if_pos hk
    obtain ⟨block, rs', hmerge, hkind, horigin⟩ :=
      Runs.exists_merge_some commentRuns s.lastReading (.start r) rs
    replace hkind : block.token.kind = .block .leading := hkind
    have hbelow : isBehind held block.token = false := by
      have hne := hline hk
      rw [show r.token.origin = block.token.origin from horigin.symm] at hne
      simp [isBehind, hne]
    rw [hfirst, hmerge, map_token_attach_cons held block _ (by simp [hkind]), if_pos hkind, hbelow]
    simp [hk]
  · have hfirst : Runs.merge commentRuns s.lastReading none (r :: rs) =
        r :: Runs.merge commentRuns s.lastReading none rs := if_neg hk
    rw [hfirst, map_token_attach_cons held r _ (hblock .trailing), if_neg (hblock .leading)]
    simp [hk]

/-- A text that is a chunk is read as the symbols of the chunk. -/
theorem Chunk.symbols_ofSource {text : String} (hscan : Scans text.toList gs) (h : Chunk gs s n)
    (hbegins : Begins 1 gs) (file : String) :
    (Stream.ofSource text file).tokens.map Token.symbol = s := by
  have htokens := hscan.tokens_ofText file
  obtain ⟨g, gs, rfl⟩ := List.exists_cons_of_ne_nil h.ne_nil
  obtain ⟨r, rs, hreadings, hr, hrest⟩ := List.map_eq_cons_iff.1 htokens
  obtain ⟨t, y, rfl, hreads⟩ := h.reads
  have hattached : (Stream.ofText text file).attachDocumentation.tokens.map Token.symbol =
      t ++ [y] := by
    -- the text is read as if it stood below a token on the line before its first
    have hread := hreads (.kind .eof) 1 [] [y] hbegins (by simp [Ends]) (readAs_nil y n) file .start
      ⟨.eof, "", ⟨file, 0, 0, 0⟩⟩ (Stream.ofText text file).lastReading
      (Stream.ofText text file).readings rfl rfl
      (by rw [List.append_nil]; exact htokens)
    rw [tokens_attachDocumentation_tail hreadings
      (by rw [hr]; exact (hscan.kind_ne (by simp)).2.1)] at hread
    · exact (List.cons.inj hread).2
    · intro hk
      rw [hr] at hk ⊢
      rw [line_behind_gap]
      intro heq
      refine (hbegins g rfl hk).2 ?_
      rw [UInt32.ofNat_add]
      exact heq.symm
  have hline : ∀ t ∈ (Stream.ofText text file).attachDocumentation.tokens,
      t.kind ≠ .tickedLine := by
    refine Stream.forall_attachDocumentation (Q := fun _ => True) (by simp [Token.document])
      (by simp_all) (by simp) (fun t ht _ => ?_) fun t ht hk =>
        ⟨_, hscan.lines_ofText file t ht (.inl hk), trivial⟩
    rw [htokens] at ht
    obtain ⟨g', hg', o, rfl⟩ := mem_placed ht
    exact (h.plain g' hg').1
  have hmerge : (Stream.ofSource text file).tokens =
      (Stream.ofText text file).attachDocumentation.tokens := by
    rw [Stream.tokens, List.forall_mem_map] at hline
    exact congrArg (List.map Reading.token) (Runs.merge_of_not_line hline)
  rw [hmerge, hattached]

end Glyph

end DocExpr
