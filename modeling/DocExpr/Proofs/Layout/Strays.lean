import DocExpr.Proofs.Layout.Blocks
import DocExpr.Proofs.Layout.Spelled
import DocExpr.Proofs.Stream.Reads

/-!
# Documentation that strays

Documentation is read as standing above something if it is below a blank line, first of all, or
behind a bar, and behind something if it is on its line. It strays if it is written elsewhere, or if
more than a comma is written on a line before the documentation that waits for the end of that line
(`Directive.straysAll`). If none strays while a script is done, what is then on the page is read as
what the script spells (`Directive.Spells.reads`).
-/

namespace DocExpr

open Lexeme

/-! ## Tests along a script -/

namespace Page

/-- Whether lines that are written next come first, or are below a blank line or behind a bar. -/
def clears (p : Page) : Bool :=
  Text.allBlank p.line && p.above.head?.all Text.allBlank ||
    (Text.trimEnd p.line).getLast? == some '|'

/-- Whether the line ends in something visible. -/
def ended (p : Page) : Bool := p.line.getLast?.any fun c => !Text.isBlank c

end Page

/-- Whether a leaf is documentation that would not be read as such where it is written, or meets
documentation that waits. -/
def Expr.strays : Expr → Page → Bool
  | block .leading _ _, p => p.waits || !p.clears
  | block .trailing _ _, p => p.waits || !p.ended
  | _, p => p.waits

namespace Directive

mutual

/-- Whether documentation strays while a directive is done. -/
def strays : Directive → Page → Bool
  | append text, p => p.waits && text != "" && text != ", "
  | write e, p => e.strays p
  | indented body, p => straysAll body p.indentMore
  | indentedIf condition body, p => straysAll body (if condition then p.indentMore else p)
  | indentedIfSpaced body, p => straysAll body (if p.mode != .inline then p.indentMore else p)
  | aligned body, p => straysAll body p.indentToColumn
  | spaced mode body, p => straysAll body (p.pushMode mode)
  | _, _ => false

/-- Whether documentation strays while a script is done. -/
def straysAll : List Directive → Page → Bool
  | [], _ => false
  | d :: ds, p => strays d p || straysAll ds (d.run p)

end

theorem straysAll_append (ds ds' : List Directive) (p : Page) :
    straysAll (ds ++ ds') p = (straysAll ds p || straysAll ds' (runAll ds p)) := by
  induction ds generalizing p with
  | nil => rfl
  | cons d ds ih => rw [List.cons_append, straysAll, ih, straysAll, Bool.or_assoc, runAll_cons]

@[simp] theorem straysAll_singleton (d : Directive) (p : Page) : straysAll [d] p = strays d p := by
  simp [straysAll]

end Directive

/-! ## Glyphs -/

/-- Nothing but a bar ends as one does. -/
theorem Lexeme.Stable.eq_bar {k : Kind} {text : List Char} (h : Stable k text) (hk : k.isCode)
    (hlast : text.getLast? = some '|') : k = .mark .bar := by
  have not_edge : isEdge '|' = false := by decide
  cases k with
  | atom a => exact absurd (h.edges.2.2 _ hlast) (by simp [not_edge])
  | mark m =>
    rw [h.eq_spelling] at hlast
    cases m <;> first | rfl | exact absurd hlast (by decide)
  | keyword w =>
    obtain ⟨c, rest, rfl, -, hread⟩ := h
    have hword : startsWord c ∧ wordLength rest = rest.length :=
      read_keyword (by simpa using hread [] (by simp))
    cases rest with
    | nil =>
      obtain rfl : c = '|' := by simpa using hlast
      exact absurd hword.1 (by decide)
    | cons d rest =>
      have hcontinues := getLast?_word hword.2 '|' (by simpa using hlast)
      exact absurd hcontinues (by decide)
  | _ => cases hk

namespace Glyph

variable {gs : List Glyph} {s : List Symbol} {n : Nat}

/-- A question mark comes last among the symbols if it does among the glyphs. -/
theorem Reads.getLast?_question (h : Reads gs s n) {g : Glyph} (hg : g ∈ gs.getLast?)
    (hk : g.kind = .mark .question) : s.getLast? = some (.mark .question) := by
  cases h with
  | start => cases hg
  | code =>
    obtain rfl : _ = g := by simpa using hg
    rw [List.getLast?_concat, symbol_eq_mark.2 hk]
  | string _ _ hts hn | above _ hts hn | behind _ _ hts hn =>
    rw [List.getLast?_append_of_ne_nil _ (hts.ne_nil hn)] at hg
    exact absurd ((hts.forall g (List.mem_of_getLast? hg)).1.symm.trans hk) (by simp)

/-- Lines put no question mark before a colon. -/
theorem IsBlock.isChain_apart {ts : List Glyph} {k : Kind} {lines : List String}
    (h : IsBlock k ts lines) (hk : ∀ m, k ≠ .mark m) (hgs : (gs.map kind).IsChain Kind.Apart) :
    ((gs ++ ts).map kind).IsChain Kind.Apart := by
  have hkind : ∀ k' ∈ ts.map kind, k' = k := List.forall_mem_map.2 fun g hg => (h.forall g hg).1
  have hlines : (ts.map kind).IsChain Kind.Apart := by
    refine (List.pairwise_of_forall_mem_list fun k' hk' _ _ => ?_).isChain
    exact fun h => hk _ ((hkind k' hk').symm.trans h.1)
  rw [List.map_append]
  exact hgs.append hlines fun _ _ k' hk' h =>
    hk _ ((hkind k' (List.mem_of_head? hk')).symm.trans h.2)

/-- Where no question mark is before a colon among the symbols, none is among the glyphs. -/
theorem Reads.isChain_apart (h : Reads gs s n) (hs : s.IsChain Symbol.Apart) :
    (gs.map kind).IsChain Kind.Apart := by
  induction h with
  | start => simp
  | code h _ _ ih =>
    obtain ⟨hinit, -, hlast⟩ := List.isChain_append.1 hs
    rw [List.map_append, List.isChain_append]
    refine ⟨ih hinit, by simp, ?_⟩
    rintro k hk k' hk' ⟨rfl, rfl⟩
    obtain ⟨g', hg', hquestion⟩ := Option.map_eq_some_iff.1 (List.getLast?_map ▸ hk)
    refine hlast _ (h.getLast?_question hg' hquestion) _ rfl ⟨rfl, symbol_eq_mark.2 ?_⟩
    simpa using hk'
  | string _ _ hts _ ih => exact hts.isChain_apart (by simp) (ih (List.isChain_append.1 hs).1)
  | above _ hcs _ _ _ ih => exact hcs.isChain_apart (by simp) (ih (List.isChain_append.1 hs).1)
  | @behind gs cs s tail lines _ hlast hcs _ _ ih =>
    refine hcs.isChain_apart (by simp) (ih ?_)
    obtain ⟨hinit, -, -⟩ := List.isChain_append.1 hs
    obtain ⟨g, -, hadmits⟩ := hlast
    generalize g.kind = k at hadmits
    cases hadmits with
    | operand => simpa using hinit
    | comma => exact List.isChain_append.2 ⟨hinit, by simp, by simp [Symbol.Apart]⟩

end Glyph

/-! ## Pages -/

namespace Page

open Glyph

variable {p q : Page} {st st' : Stance} {gs : List Glyph} {gap : List Char}
  {s t : List Symbol} {n : Nat}
  {lines : List String}

/-- Whether a page is in a stance and is read as symbols. What waits for the end of the line is
behind what is then the end of an operand, or a comma behind that. -/
inductive Tells (p : Page) (st : Stance) : List Symbol → Prop where
  | clear {gs : List Glyph} {gap : List Char} {s : List Symbol} {n : Nat} (h : p.Stands st gs gap)
      (hstaged : p.staged = []) (hs : Reads gs s n) : Tells p st s
  | waiting {gs : List Glyph} {gap : List Char} {s tail : List Symbol} {lines : List String}
      (h : p.Stands st gs gap) (hline : Text.allBlank p.line = false) (hgap : gap.count '\n' = 0)
      (hstaged : p.staged = stagedLines lines) (hn : lines ≠ [])
      (hlines : ∀ line ∈ lines, Kind.comment.HasLine line)
      (hs : Reads gs (s ++ tail) 0) (hlast : ∃ g ∈ gs.getLast?, Admits g.kind tail)
      (htail : st = .done → tail = []) :
      Tells p st (s ++ .kind .document :: .block .trailing lines :: tail)

theorem Tells.congr (h : p.Tells st s) (hstaged : q.staged = p.staged) (habove : q.above = p.above)
    (hline : q.line = p.line) : q.Tells st s := by
  cases h with
  | clear h hnone hs => exact .clear (h.congr hstaged habove hline) (hstaged.trans hnone) hs
  | waiting h hvisible hgap hlines hn hdocs hs hlast htail =>
    exact .waiting (h.congr hstaged habove hline) (hline ▸ hvisible) hgap (hstaged.trans hlines) hn
      hdocs hs hlast htail

theorem Tells.settled (h : p.Tells st s) (hle : st.Le .settled) : p.Tells .settled s := by
  cases h with
  | clear h hnone hs => exact .clear (h.mono hle) hnone hs
  | waiting h hvisible hgap hlines hn hdocs hs hlast _ =>
    exact .waiting (h.mono hle) hvisible hgap hlines hn hdocs hs hlast (by simp)

/-- Where nothing waits for the end of the line, what is on the page is read as its symbols. -/
theorem Tells.exists_reads (h : p.Tells st s) (hwaits : p.waits = false) :
    ∃ gs gap n, p.Stands st gs gap ∧ p.staged = [] ∧ Reads gs s n := by
  cases h with
  | clear h hnone hs => exact ⟨_, _, _, h, hnone, hs⟩
  | @waiting _ _ _ _ lines _ _ _ hlines hn =>
    obtain ⟨line, lines, rfl⟩ := List.exists_cons_of_ne_nil hn
    simp [waits, hlines, stagedLines] at hwaits

/-! ### Breaking lines -/

/-- What waits for the end of the line is read behind what is on it. -/
theorem Tells.newLine (h : p.Tells st s) :
    ∃ gs gap n, p.newLine.Stands .broken gs gap ∧ p.newLine.staged = [] ∧ Reads gs s n := by
  cases h with
  | clear h hnone hs =>
    obtain ⟨front, column, -, hp, hstaged⟩ := h.newLine
    rw [hnone, notes, List.append_nil] at hp
    exact ⟨_, _, _, hp, hstaged, hs⟩
  | waiting h _ hgap hlines hn hdocs hs hlast _ =>
    obtain ⟨front, column, hcount, hp, hstaged⟩ := h.newLine
    rw [hlines] at hp
    refine ⟨_, _, _, hp, hstaged, hs.behind hlast (isBlock_notes hdocs) hn fun c hc => ?_⟩
    rw [breaks_notes c hc, hcount, hgap]

theorem Tells.broken (h : p.Tells st s) (st' : Stance) : p.newLine.Tells st' s := by
  obtain ⟨gs, gap, n, hp, hstaged, hs⟩ := h.newLine
  exact .clear (hp.mono (Stance.broken_le st')) hstaged hs

theorem Tells.startOnNewLine (h : p.Tells st s) : p.startOnNewLine.Tells st s := by
  unfold Page.startOnNewLine
  split
  · exact h
  · exact h.broken st

theorem Tells.verticalSpacing (h : p.Tells st s) : p.verticalSpacing.Tells st s := by
  unfold Page.verticalSpacing
  split
  · exact h
  · exact h.startOnNewLine
  · exact h.startOnNewLine.broken st

theorem Tells.indentLess (h : p.Tells st s) : p.indentLess.Tells st s := by
  cases h with
  | clear h hnone hs =>
    obtain ⟨gap', -, hp⟩ := h.indentLess
    exact .clear hp hnone hs
  | waiting h hvisible hgap hlines hn hdocs hs hlast htail =>
    have hp : p.Tells st _ := .waiting h hvisible hgap hlines hn hdocs hs hlast htail
    exact hp.congr rfl rfl (by simp [Page.indentLess, hvisible])

/-- What is read from the text of a page. -/
theorem Tells.text (h : p.Tells st s) :
    ∃ gs n, p.text.toList = laid gs ++ ['\n'] ∧ gs.IsChain Near ∧
    (∀ g ∈ gs, g.IsLexeme) ∧ Reads gs s n := by
  have whole : ∀ {st gs gap n}, p.finished.Stands st gs gap → p.finished.line = [] → Reads gs s n →
      ∃ gs n, p.text.toList = laid gs ++ ['\n'] ∧ gs.IsChain Near ∧ (∀ g ∈ gs, g.IsLexeme) ∧
        Reads gs s n :=
    fun hp hline hs => ⟨_, _, hp.toLays.text hline, hp.near, hp.lexeme, hs⟩
  by_cases hdone : p.line.isEmpty && p.staged.isEmpty
  · have hfinished : p.finished = p := if_pos hdone
    rw [Bool.and_eq_true, List.isEmpty_iff, List.isEmpty_iff] at hdone
    obtain ⟨gs, gap, n, hp, -, hs⟩ := h.exists_reads (by simp [waits, hdone.2])
    exact whole (hfinished.symm ▸ hp) (hfinished.symm ▸ hdone.1) hs
  · have hfinished : p.finished = p.newLine := by
      rw [newLine_eq_finishLine]
      exact if_neg hdone
    obtain ⟨gs, gap, n, hp, -, hs⟩ := h.newLine
    refine whole (hfinished.symm ▸ hp) ?_ hs
    rw [hfinished, newLine_eq_finishLine]
    rfl

/-! ### Marks and words -/

theorem Appends.ne_empty {text : String} (h : Appends st text t st') : text ≠ "" := by
  induction h with
  | one h =>
    rintro rfl
    obtain ⟨-, hbegun, -⟩ := h (empty 0) [] [] ⟨prints_empty 0, by simp⟩
    exact hbegun (by rw [append_empty]; rfl)
  | concat _ _ _ _ _ ih => exact fun heq => ih (String.append_eq_empty_iff.1 heq).1
  | mono _ _ _ ih => exact ih

theorem Appends.getLast? {text : String} (h : Appends st text t st') :
    ∃ k, t.getLast? = some (.kind k) := by
  induction h with
  | one => exact ⟨_, rfl⟩
  | concat _ _ _ _ _ _ ih =>
    obtain ⟨k, hk⟩ := ih
    exact ⟨k, by rw [List.getLast?_append, hk]; rfl⟩
  | mono _ _ _ ih => exact ih

/-- Marks and words are read as what they are. -/
theorem Appends.tells {text : String} (h : Appends st text t st') (hp : p.Stands st gs gap)
    (hstaged : p.staged = []) (hs : Reads gs s n) :
    ∃ gs' gap' n', (p.append text).Stands st' gs' gap' ∧ (p.append text).staged = [] ∧
      Reads gs' (s ++ t) n' := by
  induction h generalizing p gs gap s n with
  | @one st st' fragment k text behind h hk hline =>
    obtain ⟨hsame, -, gap', -, hp'⟩ := h p gs gap hp
    refine ⟨_, _, 0, hp', hsame.trans hstaged, ?_⟩
    have hsymbol : (⟨gap', k, text⟩ : Glyph).symbol = .kind k := by
      rcases hk with ⟨m, rfl⟩ | ⟨w, rfl⟩ <;> rfl
    exact hsymbol ▸ hs.code (by rcases hk with ⟨m, rfl⟩ | ⟨w, rfl⟩ <;> rfl) hline
  | concat _ _ hfirst hline hline' ih ih' =>
    obtain ⟨gs', gap', n', hp', hstaged', hs'⟩ := ih hp hstaged hs
    obtain ⟨gs'', gap'', n'', hp'', hstaged'', hs''⟩ := ih' hp' hstaged' hs'
    rw [append_append hfirst hline hline', ← List.append_assoc]
    exact ⟨gs'', gap'', n'', hp'', hstaged'', hs''⟩
  | mono _ hpre hpost ih =>
    obtain ⟨gs', gap', n', hp', hstaged', hs'⟩ := ih (hp.mono hpre) hstaged hs
    exact ⟨gs', gap', n', hp'.mono hpost, hstaged', hs'⟩

/-- Documentation that waits behind an operand waits behind the comma, too. -/
theorem Tells.comma (h : p.Tells .done s) : (p.append ", ").Tells .ready (s ++ [.mark .comma]) := by
  have write : ∀ {gs gap s n}, p.Stands .done gs gap → Reads gs s n →
      (p.append ", ").staged = p.staged ∧
      ∃ gap', (p.append ", ").Stands .ready (gs ++ [ofMark gap' .comma]) [' '] ∧
        Reads (gs ++ [ofMark gap' .comma]) (s ++ [.mark .comma]) 0 := by
    intro gs gap s n hp hs
    obtain ⟨hsame, -, gap', -, hp'⟩ := adds_comma p gs gap (hp.mono Stance.done_le_settled)
    exact ⟨hsame, gap', hp', hs.code rfl (show '\n' ∉ Mark.comma.spelling.toList by decide)⟩
  cases h with
  | clear h hnone hs =>
    obtain ⟨hsame, gap', hp, hs'⟩ := write h hs
    exact .clear hp (hsame.trans hnone) hs'
  | waiting h hvisible hgap hlines hn hdocs hs hlast htail =>
    obtain rfl := htail rfl
    rw [List.append_nil] at hs
    obtain ⟨hsame, gap', hp, hs'⟩ := write h hs
    have hline : Text.allBlank (p.append ", ").line = false := by
      rw [append_of_not_mem (by decide), line_addToLine (Text.ne_nil_of_visible hvisible),
        Text.allBlank_append, hvisible]
      rfl
    have := Tells.waiting hp hline (by decide) (hsame.trans hlines) hn hdocs hs'
      ⟨_, List.getLast?_concat, .comma⟩
      (by simp)
    simpa using this

/-! ### Leaves -/

/-- What ends in something visible ends in a glyph. -/
theorem Lays.of_ended (h : p.Lays gs gap) (hended : p.ended) : gap = [] ∧ gs ≠ [] := by
  obtain ⟨c, hc, hvisible⟩ := (Option.any_eq_true _ _).1 hended
  have hlast : (laid gs ++ gap).getLast? = some c := by
    rw [← h.written, Page.written, List.getLast?_append, hc]
    rfl
  have hgap : gap = [] := by
    by_contra hn
    rw [List.getLast?_append_of_ne_nil _ hn] at hlast
    rw [isBlank_of_gap (h.blank c (List.mem_of_getLast? hlast))] at hvisible
    cases hvisible
  refine ⟨hgap, ?_⟩
  rintro rfl
  simp [hgap] at hlast

/-- Where the line and the one above it are blank, that is so of the end of the gap. -/
theorem Lays.of_blank (h : p.Lays gs gap) (hline : Text.allBlank p.line)
    (habove : p.above.head?.all Text.allBlank) :
    gs = [] ∨ 2 ≤ gap.count '\n' := by
  have blank : ∀ {cs : List Char}, Text.allBlank cs → ∀ c ∈ cs, Text.isBlank c :=
    fun h => List.all_eq_true.1 h
  -- a page with nothing visible on it
  have first : ∀ tail, p.written = [] ++ tail → (∀ c ∈ tail, Text.isBlank c) → gs = [] := by
    intro tail hw htail
    obtain ⟨gap', hlaid, -⟩ := h.cut [] hw htail
    exact laid_eq_nil h.solid (List.append_eq_nil_iff.1 hlaid.symm).1
  cases hlines : p.above with
  | nil => exact .inl (first p.line (by simp [Page.written, upper, hlines]) (blank hline))
  | cons line above =>
    have hblanks : ∀ c ∈ line ++ '\n' :: p.line, Text.isBlank c := by
      rw [hlines] at habove
      exact List.forall_mem_append.2 ⟨blank habove, List.forall_mem_cons.2 ⟨by decide, blank hline⟩⟩
    cases above with
    | nil => exact .inl (first _ (by simp [Page.written, upper, hlines]) hblanks)
    | cons line' above =>
      have hw : p.written =
          (above.reverse.flatMap (· ++ ['\n']) ++ line') ++ '\n' :: (line ++ '\n' :: p.line) := by
        simp [Page.written, upper, hlines]
      obtain ⟨gap', -, hgap⟩ := h.cut _ hw (List.forall_mem_cons.2 ⟨by decide, hblanks⟩)
      right
      simp [hgap, List.count_append]
      omega

/-- Where a bar ends the line, it is the last glyph. -/
theorem Prints.of_bar (h : p.Prints gs gap) (hs : Reads gs s n)
    (hbar : (Text.trimEnd p.line).getLast? = some '|') :
    ∃ g ∈ gs.getLast?, g.kind = .mark .bar := by
  obtain ⟨tail, hline, htail, -⟩ := Text.trimEnd_spec p.line
  have hw : p.written = (p.upper ++ Text.trimEnd p.line) ++ tail := by
    rw [List.append_assoc, ← hline, Page.written]
  obtain ⟨gap', hlaid, hgap⟩ := h.toLays.cut _ hw htail
  have hlast : (laid gs ++ gap').getLast? = some '|' := by
    rw [← hlaid, List.getLast?_append, hbar]
    rfl
  obtain rfl : gap' = [] := by
    by_contra hn
    rw [List.getLast?_append_of_ne_nil _ hn] at hlast
    have hblank :=
      isBlank_of_gap (h.blank '|' (hgap ▸ List.mem_append_left _ (List.mem_of_getLast? hlast)))
    exact absurd hblank (by decide)
  obtain ⟨init, g, rfl⟩ := (List.eq_nil_or_concat' gs).resolve_left (by rintro rfl; simp at hlast)
  have hsolid := h.solid g (by simp)
  rw [List.append_nil, laid_append, laid_cons, laid_nil, List.append_nil,
    List.getLast?_append_of_ne_nil _ (by simp [hsolid.1]),
    List.getLast?_append_of_ne_nil _ hsolid.1] at hlast
  -- neither a comment nor a back-ticked line has anything behind it on its line
  have hblank : (gap ++ [' ']).head? = some ' ' := by
    rw [hgap, List.nil_append]
    cases tail with
    | nil => rfl
    | cons d tail =>
      refine congrArg some ((h.blank d (by simp [hgap])).resolve_right ?_)
      rintro rfl
      exact h.line (by rw [hline]; simp)
  have hclear := h.clear g (by simp) ' ' hblank
  refine ⟨g, by simp, ?_⟩
  rcases hs.isCode g (by simp) with hk | hk | hk
  · exact absurd hclear (by rw [hk]; decide)
  · exact absurd hclear (by rw [hk]; decide)
  · exact (h.lexeme g (by simp)).2.eq_bar hk hlast

/-- Comments that are written above something are read as standing above it. -/
theorem Tells.leading (h : p.Tells .ready s) (hstrays : (p.waits || !p.clears) = false)
    (hn : lines ≠ []) (hlines : ∀ line ∈ lines, Kind.comment.HasLine line) :
    (appendLines lines p).Tells .ready (s ++ [.block .leading lines, .kind .document]) ∧
      (appendLines lines p).line = [] := by
  rw [Bool.or_eq_false_iff, Bool.not_eq_false'] at hstrays
  obtain ⟨gs, gap, n, hp, hnone, hs⟩ := h.exists_reads hstrays.1
  obtain ⟨cs, gap', hp', hstaged, hline, hcs, hbreaks⟩ := hp.appendLines (.inl rfl) hnone hn hlines
  have hplace : gs = [] ∨ 2 ≤ gap.count '\n' ∨ ∃ g ∈ gs.getLast?, g.kind = .mark .bar := by
    rcases Bool.or_eq_true_iff.1 hstrays.2 with hblank | hbar
    · rw [Bool.and_eq_true] at hblank
      exact (hp.toLays.of_blank hblank.1 hblank.2).imp_right .inl
    · exact .inr (.inr (hp.of_bar hs (by simpa using hbar)))
  refine ⟨.clear (hp'.mono (Stance.broken_le _)) hstaged
    (hs.above hcs hn (fun c hc => ?_) fun g hg hk c hc => ?_), hline⟩
  · rw [hbreaks c hc]
    rcases hplace with rfl | hcount | hbar
    · exact .inl (by rw [hs.eq_one]; omega)
    · exact .inl (by omega)
    · exact .inr hbar
  · rw [hbreaks c hc]
    rcases hplace with rfl | hcount | ⟨g', hg', hbar⟩
    · cases hg
    · exact hcount
    · obtain rfl := Option.some.inj (hg.symm.trans hg')
      exact absurd (hk.symm.trans hbar) (by simp)

/-- Comments that are staged behind an operand wait there. -/
theorem Tells.trailing (h : p.Tells .done s) (hstrays : (p.waits || !p.ended) = false)
    (hn : lines ≠ []) (hlines : ∀ line ∈ lines, Kind.comment.HasLine line) :
    (p.stage (lines.map fun line => "  " ++ line)).Tells .done
      (s ++ [.kind .document, .block .trailing lines]) := by
  rw [Bool.or_eq_false_iff, Bool.not_eq_false'] at hstrays
  obtain ⟨gs, gap, n, hp, hnone, hs⟩ := h.exists_reads hstrays.1
  obtain ⟨rfl, hgs⟩ := hp.toLays.of_ended hstrays.2
  obtain ⟨g, hg⟩ := Option.isSome_iff_exists.1 (List.getLast?_isSome.2 hgs)
  have hends : g.kind.ends := hp.stance rfl g hg
  obtain rfl := hs.eq_zero hg (by rintro hk; rw [hk] at hends; cases hends)
  have hline : Text.allBlank p.line = false := by
    obtain ⟨c, hc, hvisible⟩ := (Option.any_eq_true _ _).1 hstrays.2
    rw [Text.allBlank, Bool.eq_false_iff, Ne, List.all_eq_true]
    intro hblank
    rw [hblank c (List.mem_of_getLast? hc)] at hvisible
    cases hvisible
  exact .waiting ⟨hp.toPrints.stage hlines, hp.stance⟩ hline rfl rfl hn hlines
    (by rwa [List.append_nil])
    ⟨g, hg, .operand hends⟩ fun _ => rfl

/-- Back-ticked lines are read as one literal. -/
theorem Tells.multiline (h : p.Tells .ready s) (hwaits : p.waits = false)
    (hlast : ∀ lines, s.getLast? ≠ some (.block .multiline lines)) (hn : lines ≠ [])
    (hlines : ∀ line ∈ lines, Kind.tickedLine.HasLine line) :
    (p.aligned (appendLines lines)).Tells .done (s ++ [.block .multiline lines]) := by
  obtain ⟨gs, gap, n, hp, hnone, hs⟩ := h.exists_reads hwaits
  have hstart : p.indentToColumn.Stands .ready gs gap := hp.congr rfl rfl rfl
  obtain ⟨ts, gap', hp', hstaged, -, hts, -⟩ := hstart.appendLines (.inr rfl) hnone hn hlines
  have hend : (p.aligned (appendLines lines)).Stands .done (gs ++ ts) gap' :=
    (hp'.mono (Stance.broken_le _)).congr rfl rfl rfl
  refine .clear hend hstaged (hs.string (fun g hg hk => ?_) hts hn)
  obtain ⟨lines', hlines'⟩ := hs.exists_multiline hg hk
  exact hlast lines' hlines'

/-- A name or a literal on one line is read as what it is. -/
theorem Tells.atom {form : Atom} {text : String} (h : p.Tells .ready s) (hwaits : p.waits = false)
    (hstable : Stable (.atom form) text.toList) (hline : '\n' ∉ text.toList) :
    (p.append text).Tells .done (s ++ [.atom form text]) := by
  obtain ⟨gs, gap, n, hp, hnone, hs⟩ := h.exists_reads hwaits
  obtain ⟨hsame, -, gap', -, hp'⟩ := adds_atom hstable hline p gs gap hp
  have := hs.code (g := ⟨gap', .atom form, text.toList⟩) rfl hline
  exact .clear hp' (hsame.trans hnone) (by simpa [symbol, Token.symbol] using this)

/-! ## Junctures -/

/-- Whether a page is at a juncture and is read as symbols, the document operator behind leading
documentation apart. Before trailing documentation the line is empty or its operand is complete. -/
def At (p : Page) : Juncture → List Symbol → Prop
  | .stance st, s =>
    p.Tells st s ∧ (st = .ready → ∀ lines, s.getLast? ≠ some (.block .multiline lines))
  | .led, s => p.Tells .ready (s ++ [.kind .document]) ∧ p.line = []
  | .tied, s => p.line = [] ∨ ∃ s', s = s' ++ [.kind .document] ∧ p.Tells .done s'

variable {j j' : Juncture}

/-- What leaves what is read of a page, and an empty line empty, leaves its juncture. -/
theorem At.keep (h : p.At j s) (htells : ∀ st s, p.Tells st s → q.Tells st s)
    (hline : p.line = [] → q.line = []) :
    q.At j s := by
  cases j with
  | stance st => exact ⟨htells _ _ h.1, h.2⟩
  | led => exact ⟨htells _ _ h.1, hline h.2⟩
  | tied => exact h.imp hline fun ⟨s', hs', hp⟩ => ⟨s', hs', htells _ _ hp⟩

theorem At.congr (h : p.At j s) (hstaged : q.staged = p.staged) (habove : q.above = p.above)
    (hline : q.line = p.line) : q.At j s :=
  h.keep (fun _ _ hp => hp.congr hstaged habove hline) hline.trans

theorem At.mono (h : p.At j s) (hle : j.Le j') : p.At j' s := by
  cases hle with
  | refl => exact h
  | settled hle => exact ⟨h.1.settled hle, by simp⟩

theorem At.verticalSpacing (h : p.At j s) : p.verticalSpacing.At j s := by
  refine h.keep (fun _ _ hp => hp.verticalSpacing) fun hline => ?_
  have hstart : p.startOnNewLine = p := if_pos (by simp [hline])
  unfold Page.verticalSpacing
  split
  · exact hline
  · rw [hstart, hline]
  · rw [newLine_eq_finishLine]
    rfl

theorem At.indentLess (h : p.At j s) : p.indentLess.At j s :=
  h.keep (fun _ _ hp => hp.indentLess) fun hline => by simp [Page.indentLess, hline]

end Page

/-! ## Scripts -/

namespace Directive

open Page

/-- Doing a script from which no documentation strays is read as what the script spells. -/
theorem Spells.run {j j' : Juncture} {ds : List Directive} {s t : List Symbol} {p : Page}
    (h : Spells j ds t j') (hline : ∀ x ∈ t, x.OneLine) (hp : p.At j s)
    (hstrays : straysAll ds p = false) :
    (runAll ds p).At j' (s ++ t) := by
  induction h generalizing s p with
  | nil => simpa using hp
  | concat _ _ ih ih' =>
    rw [List.forall_mem_append] at hline
    rw [straysAll_append, Bool.or_eq_false_iff] at hstrays
    rw [runAll_append, ← List.append_assoc]
    exact ih' hline.2 (ih hline.1 hp hstrays.1) hstrays.2
  | mono _ hpre hpost ih => exact (ih hline (hp.mono hpre) hstrays).mono hpost
  | append h hcomma =>
    have hwaits : p.waits = false := by simpa [strays, h.ne_empty, hcomma] using hstrays
    obtain ⟨gs, gap, n, hstands, hnone, hs⟩ := hp.1.exists_reads hwaits
    obtain ⟨gs', gap', n', hp', hnone', hs'⟩ := h.tells hstands hnone hs
    obtain ⟨k, hk⟩ := h.getLast?
    exact ⟨.clear hp' hnone' hs', fun _ lines => by simp [List.getLast?_append, hk]⟩
  | comma => exact ⟨hp.1.comma, fun _ lines => by simp⟩
  | leads hj =>
    have hsame : runAll [.append ""] p = p := append_empty p
    rw [hsame]
    rcases hj with rfl | rfl
    · exact ⟨hp.1, fun _ lines => by simp⟩
    · exact .inl hp.2
  | ties =>
    have hsame : runAll [.append ""] p = p := append_empty p
    rw [hsame]
    exact .inr ⟨s, rfl, hp.1⟩
  | verticalSpacing =>
    rw [List.append_nil]
    exact hp.verticalSpacing
  | @indentedIfSpaced j j' body t _ ih =>
    have hinner : (if p.mode != .inline then p.indentMore else p).At j s := by
      split
      · exact hp.congr rfl rfl rfl
      · exact hp
    have hdone := ih hline hinner (by simpa [strays] using hstrays)
    show (p.indentedIf _ (runAll body)).At j' _
    unfold Page.indentedIf
    split at hdone
    · next hmode => rw [if_pos hmode]; exact hdone.indentLess
    · next hmode => rw [if_neg hmode]; exact hdone
  | @spaced j j' body t mode _ ih =>
    have hinner : (p.pushMode mode).At j s := hp.congr rfl rfl rfl
    exact (ih hline hinner (by simpa [strays] using hstrays)).congr rfl rfl rfl
  | @atom form text o h =>
    have hwaits : p.waits = false := by simpa [strays, Expr.strays] using hstrays
    exact ⟨hp.1.atom hwaits h (hline (.atom form text) (by simp)), by simp⟩
  | leading o h =>
    obtain ⟨htells, hempty⟩ := hp.1.leading (by simpa [strays, Expr.strays] using hstrays) h.1 h.2
    rw [List.append_cons] at htells
    exact ⟨htells, hempty⟩
  | trailing o h =>
    have hstrays : (p.waits || !p.ended) = false := by simpa [strays, Expr.strays] using hstrays
    rcases hp with hempty | ⟨s', rfl, hp⟩
    · simp [ended, hempty] at hstrays
    · rw [List.append_assoc]
      exact ⟨hp.trailing hstrays h.1 h.2, by simp⟩
  | multiline o h =>
    have hwaits : p.waits = false := by simpa [strays, Expr.strays] using hstrays
    exact ⟨hp.1.multiline hwaits (hp.2 rfl) h.1 h.2, by simp⟩

/-- What a script writes from which no documentation strays is read as what the script spells. -/
theorem Spells.reads {ds : List Directive} {s : List Symbol} (h : Spells .ready ds s .settled)
    (hline : ∀ x ∈ s, x.OneLine) (width : Nat) (hstrays : straysAll ds (empty width) = false) :
    ∃ gs n, (runAll ds (empty width)).text.toList = Glyph.laid gs ++ ['\n'] ∧
      gs.IsChain Glyph.Near ∧
      (∀ g ∈ gs, g.IsLexeme) ∧ Glyph.Reads gs s n := by
  have hempty : (empty width).At .ready [] := ⟨.clear (stands_empty width) rfl .start, by simp⟩
  have := h.run hline hempty hstrays
  exact this.1.text

end Directive

end DocExpr
