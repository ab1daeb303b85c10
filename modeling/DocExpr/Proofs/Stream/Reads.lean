import DocExpr.Proofs.Stream.Attached
import DocExpr.Proofs.Stream.Enclosed

/-!
# What glyphs are read as

`Glyph.Reads` says as which symbols glyphs are read, from left to right, and how many lines below
the symbol that is held back they end. Comments that are directly below each other are one block:
above something, if the block is on a line below what is held back or behind a bar, and behind
something, if it is on the line of the end of an operand or of a comma. Back-ticked lines that are
directly below each other are one symbol. So a text of such glyphs is read as their symbols, if its
lines can be counted in 32 bits (`Glyph.Reads.symbols_ofSource`).
-/

namespace DocExpr

open Lexeme Documentation

/-- Whether a token of a kind is a mark, a word, a name or a literal. -/
def Kind.isCode : Kind → Bool
  | .mark _ | .keyword _ | .atom _ => true
  | _ => false

theorem Kind.ne_of_isCode {k : Kind} (h : k.isCode) :
    k ≠ .comment ∧ k ≠ .tickedLine ∧ ∀ b, k ≠ .block b := by
  refine ⟨?_, ?_, fun b => ?_⟩ <;> rintro rfl <;> cases h

namespace Glyph

/-- Whether documentation behind a lexeme on its line comes before some last symbols: before none
behind the end of an operand, and before a comma. -/
inductive Admits : Kind → List Symbol → Prop where
  | operand {k : Kind} (hk : k.ends) : Admits k []
  | comma : Admits (.mark .comma) [.mark .comma]

theorem Admits.ne {k : Kind} {tail : List Symbol} (h : Admits k tail) :
    k ≠ .comment ∧ k ≠ .tickedLine ∧ k ≠ .mark .bar := by
  cases h with
  | operand hk => refine ⟨?_, ?_, ?_⟩ <;> rintro rfl <;> cases hk
  | comma => simp

/-- Whether glyphs are read as symbols, and end so many lines below what is then held back. -/
inductive Reads : List Glyph → List Symbol → Nat → Prop where
  | start : Reads [] [] 1
  | code {gs : List Glyph} {s : List Symbol} {n : Nat} {g : Glyph} (h : Reads gs s n)
      (hk : g.kind.isCode) (hline : '\n' ∉ g.text) :
      Reads (gs ++ [g]) (s ++ [g.symbol]) 0
  | string {gs ts : List Glyph} {s : List Symbol} {n : Nat} {lines : List String} (h : Reads gs s n)
      (hlast : ∀ g ∈ gs.getLast?, g.kind ≠ .tickedLine) (hts : IsBlock .tickedLine ts lines)
      (hn : lines ≠ []) :
      Reads (gs ++ ts) (s ++ [.block .multiline lines]) 0
  | above {gs cs : List Glyph} {s : List Symbol} {n : Nat} {lines : List String} (h : Reads gs s n)
      (hcs : IsBlock .comment cs lines) (hn : lines ≠ [])
      (hbelow : ∀ c ∈ cs.head?, 0 < n + c.breaks ∨ ∃ g ∈ gs.getLast?, g.kind = .mark .bar)
      (happart : ∀ g ∈ gs.getLast?, g.kind = .comment → ∀ c ∈ cs.head?, 2 ≤ c.breaks) :
      Reads (gs ++ cs) (s ++ [.block .leading lines, .kind .document]) (lines.length - 1)
  | behind {gs cs : List Glyph} {s tail : List Symbol} {lines : List String}
      (h : Reads gs (s ++ tail) 0) (hlast : ∃ g ∈ gs.getLast?, Admits g.kind tail)
      (hcs : IsBlock .comment cs lines) (hn : lines ≠ [])
      (hline : ∀ c ∈ cs.head?, c.breaks = 0) :
      Reads (gs ++ cs) (s ++ .kind .document :: .block .trailing lines :: tail) (lines.length - 1)

variable {gs cs : List Glyph} {s tail : List Symbol} {n : Nat} {g : Glyph} {lines : List String}
  {k : Kind}

/-! ## Blocks of lines -/

theorem IsBlock.forall (h : IsBlock k cs lines) :
    ∀ g ∈ cs, g.kind = k ∧ Stable k g.text ∧ Solid g.text := by
  intro g hg
  obtain ⟨line, hline, heq⟩ := List.mem_map.1 (h.texts ▸ List.mem_map_of_mem hg)
  obtain ⟨hkind, htext⟩ := Prod.mk.inj heq
  exact ⟨hkind.symm, htext ▸ h.lines line hline⟩

theorem IsBlock.ne_nil (h : IsBlock k cs lines) (hn : lines ≠ []) : cs ≠ [] := by
  rintro rfl
  exact hn h.map_text.symm

/-- What does not go on with a block behind something does not go on with the block. -/
theorem IsBlock.ends {rest : List Glyph} (h : IsBlock .comment cs lines) (hn : lines ≠ [])
    (happart : ∀ g ∈ (gs ++ cs).getLast?, ∀ h ∈ rest.head?, continues g h = false) : Ends rest := by
  intro d hd hk
  obtain ⟨init, c, rfl⟩ := (List.eq_nil_or_concat' cs).resolve_left (h.ne_nil hn)
  have hcontinues := happart c (by simp) d hd
  rw [Bool.eq_false_iff, Ne, continues_iff] at hcontinues
  exact Bool.eq_false_iff.2 fun hbelow => hcontinues ⟨⟨(h.forall c (by simp)).1, hk⟩, hbelow⟩

/-- A block is no further down than all of its lines. -/
theorem IsBlock.length_le (h : IsBlock k cs lines) : lines.length - 1 ≤ (laid cs).count '\n' := by
  rw [← h.map_text, List.length_map]
  cases cs with
  | nil => simp
  | cons c cs =>
    have hbelow : ∀ gs : List Glyph, (∀ g ∈ gs, g.isBelow) → gs.length ≤ (laid gs).count '\n' := by
      intro gs hgs
      induction gs with
      | nil => simp
      | cons g gs ih =>
        obtain ⟨hg, hgs⟩ := List.forall_mem_cons.1 hgs
        have hbreaks : 0 < g.breaks := Nat.pos_of_ne_zero fun h0 => by
          rw [isBelow_eq, h0] at hg
          cases hg
        have := ih hgs
        rw [laid_cons, List.count_append, List.count_append, List.length_cons]
        unfold breaks at hbreaks
        omega
    have := hbelow cs h.below
    rw [laid_cons, List.count_append, List.count_append, List.length_cons]
    omega

/-- What is held back is at most as many lines above the end as there are. -/
theorem Reads.le (h : Reads gs s n) : n ≤ (laid gs).count '\n' + 1 := by
  cases h with
  | start => simp
  | code | string => exact Nat.zero_le _
  | above _ hcs | behind _ _ hcs =>
    have := hcs.length_le
    rw [laid_append, List.count_append]
    omega

theorem Reads.isCode (h : Reads gs s n) :
    ∀ g ∈ gs, g.kind = .comment ∨ g.kind = .tickedLine ∨ g.kind.isCode := by
  induction h with
  | start => simp
  | code _ hk _ ih =>
    exact List.forall_mem_append.2 ⟨ih, List.forall_mem_singleton.2 (.inr (.inr hk))⟩
  | string _ _ hts _ ih =>
    exact List.forall_mem_append.2 ⟨ih, fun g hg => .inr (.inl (hts.forall g hg).1)⟩
  | above _ hcs _ _ _ ih | behind _ _ hcs _ _ ih =>
    exact List.forall_mem_append.2 ⟨ih, fun g hg => .inl (hcs.forall g hg).1⟩

/-- What comes last is held back on its line, if it is no comment. -/
theorem Reads.eq_zero (h : Reads gs s n) {g : Glyph} (hg : g ∈ gs.getLast?)
    (hk : g.kind ≠ .comment) : n = 0 := by
  cases h with
  | start => cases hg
  | code | string => rfl
  | above _ hcs hn | behind _ _ hcs hn =>
    rw [List.getLast?_append_of_ne_nil _ (hcs.ne_nil hn)] at hg
    exact absurd (hcs.forall g (List.mem_of_getLast? hg)).1 hk

theorem Reads.eq_one (h : Reads [] s n) : n = 1 := by
  generalize hgs : [] = gs at h
  cases h with
  | start => rfl
  | code => simp at hgs
  | string _ _ hts hn => exact absurd (List.append_eq_nil_iff.1 hgs.symm).2 (hts.ne_nil hn)
  | above _ hcs hn | behind _ _ hcs hn =>
    exact absurd (List.append_eq_nil_iff.1 hgs.symm).2 (hcs.ne_nil hn)

/-- Behind back-ticked lines the symbol that they are comes last. -/
theorem Reads.exists_multiline (h : Reads gs s n) {g : Glyph} (hg : g ∈ gs.getLast?)
    (hk : g.kind = .tickedLine) :
    ∃ lines, s.getLast? = some (.block .multiline lines) := by
  cases h with
  | start => cases hg
  | code _ hcode =>
    obtain rfl : _ = g := by simpa using hg
    exact absurd hk (Kind.ne_of_isCode hcode).2.1
  | string => exact ⟨_, List.getLast?_concat⟩
  | above _ hcs hn | behind _ _ hcs hn =>
    rw [List.getLast?_append_of_ne_nil _ (hcs.ne_nil hn)] at hg
    exact absurd ((hcs.forall g (List.mem_of_getLast? hg)).1.symm.trans hk) (by simp)

/-! ## Reading on -/

theorem ofNat_ne_zero {k : Nat} (hpos : 0 < k) (hsize : k < UInt32.size) : UInt32.ofNat k ≠ 0 := by
  intro hzero
  rw [← UInt32.toNat_ofNat_of_lt' hsize, hzero] at hpos
  exact absurd hpos (by decide)

/-- The symbols of tokens in which each run of back-ticked lines is one symbol. -/
def symbolsOf (ts : List Token) : List Symbol := (Stream.stringRuns.grouped ts).map Token.symbol

theorem symbolsOf_append {ts us : List Token}
    (h : ∀ t ∈ ts.getLast?, ∀ u ∈ us.head?, t.kind ≠ .tickedLine ∨ u.kind ≠ .tickedLine) :
    symbolsOf (ts ++ us) = symbolsOf ts ++ symbolsOf us := by
  rw [symbolsOf, RunForm.grouped, List.splitBy_append, List.flatMap_append, List.map_append]
  · rfl
  · intro t ht u hu
    rw [Bool.eq_false_iff, Ne, RunForm.joins_iff]
    exact fun hjoins => (h t ht u hu).elim (absurd hjoins.1.1) (absurd hjoins.1.2)

theorem symbolsOf_cons {t : Token} (ht : t.kind ≠ .tickedLine) (ts : List Token) :
    symbolsOf (t :: ts) = t.symbol :: symbolsOf ts := by
  rw [symbolsOf, RunForm.grouped_cons ht]
  rfl

theorem symbolsOf_concat {t : Token} (ht : t.kind ≠ .tickedLine) (ts : List Token) :
    symbolsOf (ts ++ [t]) = symbolsOf ts ++ [t.symbol] := by
  rw [symbolsOf, RunForm.grouped_concat ht, List.map_append]
  rfl

/-- The symbols of the tokens of glyphs are those of the glyphs. -/
theorem symbolsOf_placed (file : String) (p : Position)
    (hgs : ∀ g ∈ gs, g.kind = .tickedLine → '\n' ∉ g.text) :
    symbolsOf (placed file p gs) = symbols none gs := by
  have hrs : ((placed file p gs).map fun t => (⟨t, [], false⟩ : Reading)).map Reading.token =
      placed file p gs := by
    simp [Function.comp_def]
  have hmerge := (symbols_merge ⟨⟨.eof, "", .synthetic⟩, [], true⟩ hgs hrs).1
  have htoken : ∀ rs : List Reading,
      (rs.map (·.token.symbol)) = (rs.map Reading.token).map Token.symbol := by simp
  rwa [htoken, Runs.map_token_merge, hrs] at hmerge

/-- A token that is held back above the first line. -/
def top (file : String) : Token := ⟨.eof, "", ⟨file, 0, 0, 0⟩⟩

/-- Whether, when glyphs have been read as symbols, some tokens have been given out, another one is
held back so many lines above a position, and there are readings left for the glyphs that come
next. -/
structure Stops (file : String) (finish : Reading) (rs : List Reading) (gs rest : List Glyph)
    (s : List Symbol) (n : Nat) (given : List Token) (held : Token) (rs' : List Reading)
    (q : Position) : Prop where
  left : rs'.map Reading.token = placed file q rest
  attached : (attach (top file) (Runs.merge commentRuns finish none rs)).map Reading.token =
    given ++ (attach held (Runs.merge commentRuns finish none rs')).map Reading.token
  told : symbolsOf (given ++ [held]) = .kind .eof :: s
  line : q.line = held.origin.line + .ofNat n
  kind : ∀ g ∈ gs.getLast?, g.kind ≠ .comment → held.kind = g.kind
  ticked : held.kind = .tickedLine → ∃ g ∈ gs.getLast?, g.kind = .tickedLine

section Stops

variable {file : String} {finish : Reading} {rs rs' : List Reading} {rest : List Glyph}
  {given : List Token}
  {held : Token} {q : Position}

/-- What documentation does not touch is given out as it is read, and the last of it is held
back. -/
theorem attach_placed (finish : Reading)
    (hgs : ∀ h ∈ gs ++ [g], h.kind ≠ .comment ∧ ∀ b, h.kind ≠ .block b)
    (hrs : rs.map Reading.token = placed file q (gs ++ g :: rest)) (held : Token) :
    ∃ (last : Token) (rs' : List Reading), placed file q (gs ++ [g]) = placed file q gs ++ [last] ∧
      rs'.map Reading.token = placed file (q.behind (laid (gs ++ [g]))) rest ∧
      (attach held (Runs.merge commentRuns finish none rs)).map Reading.token =
        held :: placed file q gs ++
        (attach last (Runs.merge commentRuns finish none rs')).map Reading.token := by
  -- one token takes the place of what is held back
  have step : ∀ {q : Position} {h : Glyph} {hs : List Glyph} {rs : List Reading} (held : Token),
      h.kind ≠ .comment → (∀ b, h.kind ≠ .block b) →
      rs.map Reading.token = placed file q (h :: hs) →
      ∃ r rs', placed file q [h] = [r] ∧
        rs'.map Reading.token = placed file (q.behind (laid [h])) hs ∧
        (attach held (Runs.merge commentRuns finish none rs)).map Reading.token =
          held :: (attach r (Runs.merge commentRuns finish none rs')).map Reading.token := by
    intro q h hs rs held hcomment hblock hrs
    obtain ⟨r, rs, rfl, hr, hrest⟩ := List.map_eq_cons_iff.1 hrs
    have hmerge : Runs.merge commentRuns finish none (r :: rs) =
        r :: Runs.merge commentRuns finish none rs :=
      if_neg (by rw [hr]; exact hcomment)
    have hkind : ∀ b, r.token.kind ≠ .block b := by
      rw [hr]
      exact hblock
    refine ⟨r.token, rs, by rw [hr]; rfl, by simpa [behind_append] using hrest, ?_⟩
    rw [hmerge, map_token_attach_cons held r _ (hkind .trailing), if_neg (hkind .leading)]
  induction gs generalizing held q rs with
  | nil =>
    obtain ⟨hcomment, hblock⟩ := hgs g (by simp)
    exact step held hcomment hblock hrs
  | cons h gs ih =>
    obtain ⟨⟨hcomment, hblock⟩, hgs⟩ := List.forall_mem_cons.1 hgs
    obtain ⟨r, rs', hr, hrs', hattach⟩ := step held hcomment hblock hrs
    obtain ⟨last, rs'', hlast, hrs'', hattach'⟩ := ih hgs hrs' r
    have hcons : ∀ hs, placed file q (h :: hs) = r :: placed file (q.behind (laid [h])) hs :=
      fun hs => by
        rw [← List.singleton_append, placed_append, hr]
        rfl
    refine ⟨last, rs'', by rw [List.cons_append, hcons, hcons, hlast]; rfl,
      ?_, by rw [hattach, hattach', hcons]; rfl⟩
    rwa [List.cons_append, ← List.singleton_append, laid_append, behind_append]

variable {hs : List Glyph}

/-- Reading what documentation does not touch, where no back-ticked lines are behind others. -/
theorem Stops.plain (h : Stops file finish rs gs (hs ++ g :: rest) s n given held rs' q)
    (hhs : ∀ h ∈ hs ++ [g], (h.kind ≠ .comment ∧ ∀ b, h.kind ≠ .block b) ∧ '\n' ∉ h.text)
    (happart : ∀ g' ∈ gs.getLast?, ∀ h ∈ (hs ++ [g]).head?, g'.kind ≠ .tickedLine ∨
      h.kind ≠ .tickedLine) :
    ∃ given held rs' q, Stops file finish rs (gs ++ (hs ++ [g])) rest
      (s ++ symbols none (hs ++ [g])) 0 given held
      rs' q := by
  obtain ⟨last, rs'', hplaced, hleft, hattach⟩ :=
    attach_placed finish (fun g hg => (hhs g hg).1) h.left held
  have hlast : last.kind = g.kind ∧ last.origin.line = (q.behind (laid (hs ++ [g]))).line := by
    rw [placed_append, List.append_right_inj] at hplaced
    obtain rfl : _ = last := List.singleton_inj.1 hplaced
    refine ⟨rfl, ?_⟩
    rw [laid_append, behind_append, laid_cons, laid_nil, List.append_nil, behind_append,
      line_behind_text _ (hhs g (by simp)).2]
  have hnext : ∀ t ∈ (given ++ [held]).getLast?, ∀ u ∈ (placed file q (hs ++ [g])).head?,
      t.kind ≠ .tickedLine ∨ u.kind ≠ .tickedLine := by
    intro t ht u hu
    obtain rfl : held = t := by simpa using ht
    by_cases hheld : held.kind = .tickedLine
    · obtain ⟨g', hg', hline⟩ := h.ticked hheld
      obtain ⟨h', hs', hsplit⟩ := List.exists_cons_of_ne_nil (l := hs ++ [g]) (by simp)
      rw [hsplit] at hu happart
      obtain rfl := Option.some.inj hu
      exact .inr ((happart g' hg' h' rfl).resolve_left (absurd hline))
    · exact .inl hheld
  refine ⟨given ++ held :: placed file q hs, last, rs'', q.behind (laid (hs ++ [g])), hleft, ?_, ?_,
    ?_, ?_, ?_⟩
  · rw [h.attached, hattach, List.append_assoc]
  · have hsplit : given ++ held :: placed file q hs ++ [last] =
        given ++ [held] ++ (placed file q hs ++ [last]) := by
      simp
    rw [hsplit, ← hplaced, symbolsOf_append hnext, h.told,
      symbolsOf_placed file q fun g hg _ => (hhs g hg).2]
    rfl
  · simp [hlast.2]
  · simp [hlast.1]
  · rw [hlast.1]
    simp

/-- Reading a block of comments on a line below what is held back, or behind a bar. -/
theorem Stops.above (h : Stops file finish rs gs (cs ++ rest) s n given held rs' q)
    (hcs : IsBlock .comment cs lines) (hn : lines ≠ []) (hrest : Ends rest)
    (hbelow : ∀ c ∈ cs.head?, UInt32.ofNat (n + c.breaks) ≠ 0 ∨
      ∃ g ∈ gs.getLast?, g.kind = .mark .bar) :
    ∃ given held rs' q, Stops file finish rs (gs ++ cs) rest
      (s ++ [.block .leading lines, .kind .document]) (lines.length - 1) given held rs' q := by
  obtain ⟨block, rs'', q', hmerge, hleft, hkind, hlines, hplace, hend⟩ :=
    merge_block finish hcs hn hrest h.left
  obtain ⟨c, hc, -⟩ := hcs.head hn
  have hbehind : isBehind held block.token = false := by
    rcases hbelow c hc with hne | ⟨g, hg, hbar⟩
    · have hline : held.origin.line ≠ block.token.origin.line := by
        rw [hplace c hc, h.line, UInt32.add_assoc, ← UInt32.ofNat_add]
        exact fun heq => hne (UInt32.left_eq_add.1 heq)
      simp [isBehind, hline]
    · simp [isBehind, h.kind g hg (by simp [hbar]), hbar]
  refine ⟨given ++ [held] ++ [block.token], .document block.token.origin, rs'', q', hleft, ?_, ?_,
    hend, ?_, by simp⟩
  · rw [h.attached, hmerge, map_token_attach_cons held block _ (by simp [hkind]),
      if_pos hkind, hbehind]
    simp
  · rw [symbolsOf_concat (by simp), symbolsOf_concat (by simp [hkind]), h.told,
      Token.symbol_eq_block.2 ⟨hkind, hlines⟩]
    simp
  · intro g hg hcomment
    rw [List.getLast?_append_of_ne_nil _ (hcs.ne_nil hn)] at hg
    exact absurd ((hcs.forall g (List.mem_of_getLast? hg)).1) hcomment

/-- Reading a block of comments on the line of what is held back. -/
theorem Stops.behind (h : Stops file finish rs gs (cs ++ rest) (s ++ tail) 0 given held rs' q)
    (hcs : IsBlock .comment cs lines) (hn : lines ≠ []) (hrest : Ends rest)
    (hline : ∀ c ∈ cs.head?, c.breaks = 0) (hlast : ∃ g ∈ gs.getLast?, Admits g.kind tail) :
    ∃ given held rs' q, Stops file finish rs (gs ++ cs) rest
      (s ++ .kind .document :: .block .trailing lines :: tail)
      (lines.length - 1) given held rs' q := by
  obtain ⟨g, hg, hadmits⟩ := hlast
  obtain ⟨hcomment, hticked, hbar⟩ := hadmits.ne
  rw [← h.kind g hg hcomment] at hadmits hticked hbar
  obtain ⟨block, rs'', q', hleft, hblock, hend, hsame, hattach⟩ :=
    attach_behind hcs hn (onLine_of_breaks hline) hrest finish h.line hbar h.left
  have hblock' : block.kind ≠ .tickedLine := by simp [(Token.symbol_eq_block.1 hblock).1]
  have htold := h.told
  have hcomments : ∀ g ∈ (gs ++ cs).getLast?, g.kind = .comment := by
    intro g hg
    rw [List.getLast?_append_of_ne_nil _ (hcs.ne_nil hn)] at hg
    exact (hcs.forall g (List.mem_of_getLast? hg)).1
  generalize hk : held.kind = k at hadmits
  cases hadmits with
  | operand hends =>
    obtain ⟨hseparator, hdocument⟩ := not_separator_of_ends (hk ▸ hends : held.kind.ends)
    rw [hseparator, if_neg hdocument] at hattach
    refine ⟨given ++ [held] ++ [.document block.origin], block, rs'', q', hleft, ?_, ?_, hend,
      ?_, by simp [hblock']⟩
    · rw [h.attached, hattach]
      simp
    · rw [symbolsOf_concat hblock', symbolsOf_concat (by simp), htold, hblock]
      simp
    · exact fun g hg hk => absurd (hcomments g hg) hk
  | comma =>
    have hsymbol : held.symbol = .mark .comma := Token.symbol_eq_mark.2 hk
    rw [if_pos (by simp [isSeparator, hk])] at hattach
    rw [symbolsOf_concat hticked, hsymbol, ← List.cons_append, List.append_left_inj] at htold
    refine ⟨given ++ [.document block.origin] ++ [block], held, rs'', q', hleft, ?_, ?_,
      hsame ▸ hend, ?_, by simp [hk]⟩
    · rw [h.attached, hattach]
      simp
    · rw [symbolsOf_concat hticked, symbolsOf_concat hblock', symbolsOf_concat (by simp), htold,
        hblock, hsymbol]
      simp
    · exact fun g hg hk => absurd (hcomments g hg) hk

end Stops

/-- Glyphs that are read as symbols are read so whatever comes behind them, if it does not go on
with a block of comments at their end. -/
theorem Reads.stops (h : Reads gs s n) (hsize : (laid gs).count '\n' + 1 < UInt32.size)
    (file : String) (finish : Reading) (rs : List Reading) (rest : List Glyph)
    (hrs : rs.map Reading.token = placed file .start (gs ++ rest))
    (happart : ∀ g ∈ gs.getLast?, ∀ h ∈ rest.head?, continues g h = false) :
    ∃ given held rs' q, Stops file finish rs gs rest s n given held rs' q := by
  induction h generalizing rest with
  | start =>
    exact ⟨[], top file, rs, .start, hrs, rfl, symbolsOf_cons (by simp [top]) [],
      rfl, by simp, by simp [top]⟩
  | @code gs s n g h hcode hline ih =>
    have hk := Kind.ne_of_isCode hcode
    rw [laid_append, List.count_append] at hsize
    obtain ⟨given, held, rs', q, hstops⟩ :=
      ih (by omega) (g :: rest) (by simpa using hrs) fun g' _ h hh => by
        obtain rfl := Option.some.inj hh
        simp [continues, hk.1]
    have hplain : ∀ h ∈ [] ++ [g], (h.kind ≠ .comment ∧ ∀ b, h.kind ≠ .block b) ∧
        '\n' ∉ h.text := by
      simpa using ⟨⟨hk.1, hk.2.2⟩, hline⟩
    have hnext : Stops file finish rs gs ([] ++ g :: rest) s n given held rs' q := hstops
    have := hnext.plain hplain (by simp [hk.2.1])
    simpa [symbols, hk.2.1] using this
  | @string gs ts s n lines h hlast hts hn ih =>
    rw [laid_append, List.count_append] at hsize
    obtain ⟨init, g, rfl⟩ := (List.eq_nil_or_concat' ts).resolve_left (hts.ne_nil hn)
    have hlines := hts.forall
    obtain ⟨given, held, rs', q, hstops⟩ :=
      ih (by omega) (init ++ g :: rest) (by simpa using hrs) fun g' _ h hh => by
        have hk : h.kind = .tickedLine :=
          (hts.forall h (List.mem_of_head? (by simpa [List.head?_append] using hh))).1
        simp [continues, hk]
    have := hstops.plain
      (fun g hg => ⟨by simp [(hlines g hg).1], not_mem_of_tickedLine (hlines g hg).2.1⟩)
      fun g hg _ _ => .inl (hlast g hg)
    rwa [symbols_ticked (by simp) hlines hts.below, hts.map_text] at this
  | @above gs cs s n lines h hcs hn hbelow happart' ih =>
    have hle := h.le
    rw [laid_append, List.count_append] at hsize
    obtain ⟨c, cs, rfl⟩ := List.exists_cons_of_ne_nil (hcs.ne_nil hn)
    have hbreaks : (laid gs).count '\n' + c.breaks + 1 < UInt32.size := by
      rw [laid_cons, List.count_append] at hsize
      unfold breaks
      omega
    obtain ⟨given, held, rs', q, hstops⟩ :=
      ih (by omega) (c :: cs ++ rest) (by simpa using hrs) fun g hg d hd => by
        obtain rfl := Option.some.inj hd
        rw [Bool.eq_false_iff, Ne, continues_iff, not_and, isBelow_eq, decide_eq_true_eq]
        rintro ⟨hk, -⟩ hone
        have := happart' g hg hk c rfl
        have hbreak : c.breaks = 1 := by
          rw [← UInt32.toNat_ofNat_of_lt' (show c.breaks < UInt32.size by omega), hone]
          rfl
        omega
    refine hstops.above hcs hn (hcs.ends hn happart) fun d hd => ?_
    obtain rfl := Option.some.inj hd
    exact (hbelow c rfl).imp_left fun hpos => ofNat_ne_zero hpos (by omega)
  | @behind gs cs s tail lines h hlast hcs hn hline ih =>
    rw [laid_append, List.count_append] at hsize
    obtain ⟨given, held, rs', q, hstops⟩ :=
      ih (by omega) (cs ++ rest) (by simpa using hrs) fun g hg h hh => by
        obtain ⟨g', hg', hadmits⟩ := hlast
        obtain rfl := Option.some.inj (hg'.symm.trans hg)
        simp [continues, hadmits.ne.1]
    exact hstops.behind hcs hn (hcs.ends hn happart) hline hlast

/-- A text of glyphs that are read as symbols is read as these, if its lines can be counted. -/
theorem Reads.symbols_ofSource {text : String} (h : Reads gs s n) (hscan : Scans text.toList gs)
    (hsize : (laid gs).count '\n' + 1 < UInt32.size) (file : String) :
    (Stream.ofSource text file).tokens.map Token.symbol = s := by
  have htokens := hscan.tokens_ofText file
  have hfirst : ∀ t ∈ (Stream.ofText text file).tokens.head?,
      t.origin.line ≠ (top file).origin.line := by
    rw [htokens]
    cases gs with
    | nil => simp [placed]
    | cons g gs =>
      rintro t ⟨⟩
      have hbreaks : 1 + g.breaks < UInt32.size := by
        rw [laid_cons, List.count_append] at hsize
        unfold breaks
        omega
      have := ofNat_ne_zero (by omega) hbreaks
      rw [UInt32.ofNat_add] at this
      rw [line_behind_gap]
      exact this
  obtain ⟨given, held, rs', q, hstops⟩ := h.stops hsize file (Stream.ofText text file).lastReading
    (Stream.ofText text file).readings [] (by rw [List.append_nil]; exact htokens) (by simp)
  obtain rfl := List.map_eq_nil_iff.1 hstops.left
  have hattached := hstops.attached
  rw [Stream.map_token_attach_merge (hscan.isDocumentary_ofText file) hfirst] at hattached
  have htold := hstops.told
  rw [show given ++ [held] = top file :: (Stream.ofText text file).attachDocumentation.tokens
    from hattached.symm, symbolsOf_cons (by simp [top])] at htold
  have hgrouped := (Stream.mergeStrings_eq_grouped (Stream.ofText text file).attachDocumentation).1
  exact (congrArg (List.map Token.symbol) hgrouped).trans (List.cons.inj htold).2

end Glyph

end DocExpr
