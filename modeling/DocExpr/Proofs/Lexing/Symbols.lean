import DocExpr.Proofs.Grammar.Admissible
import DocExpr.Proofs.Lexing.Glyph
import DocExpr.Proofs.Stream.Layers

/-!
# The symbols of a source without comments

What the parser sees of a source text without comments: the symbols of its glyphs, where
back-ticked lines directly below each other are one symbol (`Glyph.symbols`). Documentation has
nothing to attach then (`Stream.tokens_attachDocumentation`), and whether a line is directly below
another can be told from the gap before it (`Glyph.isBelow`). The result is
`Glyph.Scans.symbols_ofSource`.
-/

namespace DocExpr

namespace Glyph

/-- What the grammar sees of a glyph. -/
def symbol (g : Glyph) : Symbol := (⟨g.kind, String.ofList g.text, .synthetic⟩ : Token).symbol

/-- Whether a glyph is on the line directly below the one before it, if that has no line break in
it. Lines are counted in 32 bits. -/
def isBelow (g : Glyph) : Bool := UInt32.ofNat (g.gap.count '\n') = 1

/-- The symbol of back-ticked lines with line breaks between them. -/
def blockSymbol (run : String) : Symbol := .block .multiline (Text.visibleLines run)

/-- The symbols of glyphs, behind back-ticked lines that may go on in them, if there are any. -/
def symbols : Option String → List Glyph → List Symbol
  | none, [] => []
  | some run, [] => [blockSymbol run]
  | none, g :: gs =>
    if g.kind = .tickedLine then symbols (some (String.ofList g.text)) gs
    else g.symbol :: symbols none gs
  | some run, g :: gs =>
    if g.kind = .tickedLine then
      if g.isBelow then symbols (some (run ++ "\n" ++ String.ofList g.text)) gs
      else blockSymbol run :: symbols (some (String.ofList g.text)) gs
    else blockSymbol run :: g.symbol :: symbols none gs

end Glyph

namespace Documentation

theorem tokens_attach {held : Token} {rs : List Reading}
    (h : ∀ r ∈ rs, ∀ b, r.token.kind ≠ .block b) :
    (attach held rs).map Reading.token = held :: rs.map Reading.token := by
  induction rs generalizing held with
  | nil => rfl
  | cons r rs ih =>
    obtain ⟨hr, hrs⟩ := List.forall_mem_cons.1 h
    simp [attach, place, hr, ih hrs]

end Documentation

namespace Stream

open Documentation

/-- Where there are no comments, nothing is attached. -/
theorem tokens_attachDocumentation {s : Stream}
    (hcomment : ∀ t ∈ s.tokens, t.kind ≠ .comment)
    (hblock : ∀ t ∈ s.tokens, ∀ b, t.kind ≠ .block b) :
    s.attachDocumentation.tokens = s.tokens := by
  simp only [tokens, List.forall_mem_map] at hcomment hblock
  have hmerge : Runs.merge commentRuns s.lastReading none s.readings = s.readings :=
    Runs.merge_of_not_line hcomment
  unfold attachDocumentation
  rw [hmerge]
  cases hr : s.readings with
  | nil => simp [tokens, hr]
  | cons first rest =>
    rw [hr] at hcomment hblock
    obtain ⟨hfirst, -⟩ := List.forall_mem_cons.1 hcomment
    simp only [tokens, List.head?_cons, Option.any_some, decide_eq_false hfirst, hr,
      Bool.false_eq_true, if_false]
    rw [tokens_attach (List.forall_mem_cons.1 hblock).2]
    rfl

end Stream

namespace Glyph

theorem line_behind (p : Position) (cs : List Char) :
    (p.behind cs).line = p.line + UInt32.ofNat (cs.count '\n') := by
  induction cs generalizing p with
  | nil => simp [Position.behind]
  | cons c cs ih =>
    have h : p.behind (c :: cs) = (p.next c).behind cs := rfl
    rw [h, ih, Position.next]
    split
    · next hc => simp [hc, UInt32.ofNat_add, UInt32.add_assoc, UInt32.add_comm 1]
    · next hc => simp [List.count_cons_of_ne hc]

theorem symbol_eq (k : Kind) (text : String) (o o' : Origin) :
    (⟨k, text, o⟩ : Token).symbol = (⟨k, text, o'⟩ : Token).symbol := by
  cases k <;> rfl

/-- Merging the back-ticked lines among the tokens of glyphs leaves their symbols. -/
theorem symbols_merge (finish : Reading) {file : String} {gs : List Glyph} {rs : List Reading}
    {p : Position} (hgs : ∀ g ∈ gs, g.kind = .tickedLine → '\n' ∉ g.text)
    (hrs : rs.map Reading.token = placed file p gs) :
    (Runs.merge Stream.stringRuns finish none rs).map (·.token.symbol) = symbols none gs ∧
      ∀ run : Run, run.last = p.line →
        (Runs.merge Stream.stringRuns finish (some run) rs).map (·.token.symbol) =
          symbols (some run.text) gs := by
  induction gs generalizing rs p with
  | nil =>
    obtain rfl := List.map_eq_nil_iff.1 hrs
    exact ⟨rfl, fun run _ => rfl⟩
  | cons g gs ih =>
    obtain ⟨r, rs, rfl, hr, hrs⟩ := List.map_eq_cons_iff.1 hrs
    obtain ⟨hg, hgs⟩ := List.forall_mem_cons.1 hgs
    obtain ⟨hnone, hsome⟩ := ih hgs hrs
    have hkind : r.token.kind = g.kind := by rw [hr]
    have hform : Stream.stringRuns.line = .tickedLine := rfl
    have htext : r.token.text = String.ofList g.text := by rw [hr]
    have hsymbol : r.token.symbol = g.symbol := by rw [hr]; exact symbol_eq ..
    by_cases hline : g.kind = .tickedLine
    · have hstart : r.token.origin.line = ((p.behind g.gap).behind g.text).line := by
        rw [line_behind _ g.text, List.count_eq_zero_of_not_mem (hg hline), hr]
        simp
      have hbelow : ∀ run : Run, run.last = p.line → run.continues r.token = g.isBelow := by
        intro run hrun
        have : r.token.origin.line = p.line + UInt32.ofNat (g.gap.count '\n') := by
          rw [hr, ← line_behind]
        simp only [Run.continues, isBelow, hrun, this, beq_eq_decide, UInt32.add_right_inj]
      refine ⟨?_, fun run hrun => ?_⟩
      · rw [Runs.merge, hform, if_pos (hkind.trans hline), hsome _ hstart, symbols,
          if_pos hline, ← htext]
        rfl
      · rw [Runs.merge, hform, if_pos (hkind.trans hline), hbelow run hrun, symbols, if_pos hline]
        split
        · rw [hsome _ hstart, ← htext]
          rfl
        · rw [List.map_cons, hsome _ hstart, ← htext]
          rfl
    · have hline' : r.token.kind ≠ .tickedLine := hkind ▸ hline
      refine ⟨?_, fun run hrun => ?_⟩
      · rw [Runs.merge, hform, if_neg hline', symbols, if_neg hline, List.map_cons, hnone, hsymbol]
      · rw [Runs.merge, hform, if_neg hline', symbols, if_neg hline, List.map_cons,
          List.map_cons, hnone]
        simp only [Runs.quiet, hsymbol]
        rfl

/-- What the parser sees of a source text without comments. -/
theorem Scans.symbols_ofSource {text : String} {gs : List Glyph} (h : Scans text.toList gs)
    (hgs : ∀ g ∈ gs, g.kind ≠ .comment) (file : String) :
    (Stream.ofSource text file).tokens.map Token.symbol = symbols none gs := by
  have hkinds : ∀ t ∈ (Stream.ofText text file).tokens, t.kind ∈ gs.map kind := by
    rw [h.tokens_ofText file, ← map_kind_placed file .start gs]
    exact fun t ht => List.mem_map_of_mem ht
  have hattach := Stream.tokens_attachDocumentation (s := Stream.ofText text file)
    (fun t ht hk => by
      obtain ⟨g, hg, hgk⟩ := List.mem_map.1 (hkinds t ht)
      exact hgs g hg (hgk.trans hk))
    (fun t ht b hk => by
      obtain ⟨g, hg, hgk⟩ := List.mem_map.1 (hkinds t ht)
      exact (h.kind_ne hg).2.1 b (hgk.trans hk))
  have hlines : ∀ g ∈ gs, g.kind = .tickedLine → '\n' ∉ g.text := fun g hg hk =>
    Lexeme.not_mem_of_tickedLine (hk ▸ (h.isLexeme hg (by rw [hk]; rfl)).2)
  have := (symbols_merge (Stream.ofText text file).attachDocumentation.lastReading
    hlines (hattach.trans (h.tokens_ofText file))).1
  rw [← this]
  simp [Stream.ofSource, Stream.throughAll, Stream.standardLayers, Stream.through,
    Stream.mergeStrings, Stream.tokens]

end Glyph

end DocExpr
