import DocExpr.Proofs.Layout.Places
import DocExpr.Proofs.RoundTrip

/-!
# When formatting twice is formatting once

What is written for a plain source text in which no question mark is directly before a colon is
written again as it is. Where the two are next to each other, behind anything but a back-ticked
line, they are written without blanks and read as one mark, which is then written with blanks around
it: so what has been written is not what is written for it (`reformat_format_iff`).
-/

namespace DocExpr

/-! ## Where a question mark is before a colon -/

/-- The end of a text comes from the end of the tidied one. -/
theorem Expr.Tidied.exists_tail {a b t : List Symbol} (h : Expr.Tidied (a ++ b) t) :
    ∃ a' b', t = a' ++ b' ∧ Expr.Tidied b b' := by
  generalize hs : a ++ b = s at h
  induction h generalizing a with
  | nil =>
    obtain ⟨rfl, rfl⟩ := List.append_eq_nil_iff.1 hs
    exact ⟨[], [], rfl, .nil⟩
  | cons x h ih =>
    cases a with
    | nil =>
      obtain rfl : b = _ := hs
      exact ⟨[], _, rfl, .cons x h⟩
    | cons y a =>
      obtain ⟨-, hs⟩ := List.cons.inj hs
      obtain ⟨a', b', rfl, hb⟩ := ih hs
      exact ⟨x :: a', b', rfl, hb⟩
  | comma h ih =>
    cases a with
    | nil =>
      obtain rfl : b = _ := hs
      exact ⟨[], _, rfl, .comma h⟩
    | cons y a =>
      obtain ⟨-, hs⟩ := List.cons.inj hs
      exact ih hs

/-- A symbol that nothing is left away behind is in the tidied text, too. -/
theorem Expr.Tidied.eq_cons {x y : Symbol} {s t : List Symbol} (hy : y ≠ .mark .rightParenthesis)
    (h : Expr.Tidied (x :: y :: s) t) : ∃ t', t = x :: t' ∧ Expr.Tidied (y :: s) t' := by
  cases h with
  | cons _ h => exact ⟨_, rfl, h⟩
  | comma h => exact absurd rfl hy

namespace Glyph

/-- Behind back-ticked lines, what does not go on in them is read as it is elsewhere. -/
theorem symbols_some_cons (g : Glyph) (gs : List Glyph) (run : String) :
    (g.kind = .tickedLine ∧ g.isBelow ∧
      symbols (some run) (g :: gs) = symbols (some (run ++ "\n" ++ String.ofList g.text)) gs) ∨
    ∀ hs, symbols (some run) (g :: hs) = blockSymbol run :: symbols none (g :: hs) := by
  by_cases hline : g.kind = .tickedLine
  · by_cases hbelow : g.isBelow
    · exact .inl ⟨hline, hbelow, by simp [symbols, hline, hbelow]⟩
    · exact .inr fun hs => by simp [symbols, hline, hbelow]
  · exact .inr fun hs => by simp [symbols, hline]

/-- A symbol that is not that of back-ticked lines is the symbol of a glyph. -/
theorem exists_of_symbols_eq {gs : List Glyph} {run : Option String} {a b : List Symbol}
    {x : Symbol} (hx : ∀ form lines, x ≠ .block form lines) (h : symbols run gs = a ++ x :: b) :
    ∃ before g behind, gs = before ++ g :: behind ∧ g.kind ≠ .tickedLine ∧ g.symbol = x ∧
      symbols run before = a ∧ symbols none behind = b := by
  induction gs generalizing run a with
  | nil =>
    cases run with
    | none => simp [symbols] at h
    | some run =>
      have hmem : x ∈ symbols (some run) [] := by simp [h]
      exact absurd (by simpa [symbols, blockSymbol] using hmem) (hx _ _)
  | cons g gs ih =>
    have hnone : ∀ {a}, symbols none (g :: gs) = a ++ x :: b → ∃ before h behind,
        g :: gs = before ++ h :: behind ∧ h.kind ≠ .tickedLine ∧ h.symbol = x ∧
          symbols none before = a ∧ symbols none behind = b := by
      intro a h
      by_cases hline : g.kind = .tickedLine
      · rw [symbols, if_pos hline] at h
        obtain ⟨before, f, behind, rfl, hf, hfx, hbefore, hbehind⟩ := ih h
        exact ⟨g :: before, f, behind, rfl, hf,
          hfx, by rw [symbols, if_pos hline, hbefore], hbehind⟩
      · rw [symbols, if_neg hline] at h
        cases a with
        | nil =>
          obtain ⟨hgx, hrest⟩ := List.cons.inj h
          exact ⟨[], g, gs, rfl, hline, hgx, rfl, hrest⟩
        | cons y a =>
          obtain ⟨rfl, hrest⟩ := List.cons.inj h
          obtain ⟨before, f, behind, rfl, hf, hfx, hbefore, hbehind⟩ := ih hrest
          exact ⟨g :: before, f, behind, rfl, hf,
            hfx, by rw [symbols, if_neg hline, hbefore], hbehind⟩
    cases run with
    | none => exact hnone h
    | some run =>
      rcases symbols_some_cons g gs run with ⟨hline, hbelow, hmore⟩ | hend
      · rw [hmore] at h
        obtain ⟨before, f, behind, rfl, hf, hfx, hbefore, hbehind⟩ := ih h
        refine ⟨g :: before, f, behind, rfl, hf, hfx, ?_, hbehind⟩
        rw [symbols, if_pos hline, if_pos hbelow, hbefore]
      · rw [hend] at h
        cases a with
        | nil => exact absurd (List.cons.inj h).1.symm (hx _ _)
        | cons y a =>
          obtain ⟨rfl, hrest⟩ := List.cons.inj h
          obtain ⟨before, f, behind, hsplit, hf, hfx, hbefore, hbehind⟩ := hnone hrest
          refine ⟨before, f, behind, hsplit, hf, hfx, ?_, hbehind⟩
          cases before with
          | nil => rw [← hbefore]; rfl
          | cons g' before =>
            obtain ⟨rfl, -⟩ := List.cons.inj hsplit
            rw [hend, hbefore]

/-- A mark that comes first among the symbols is the first glyph. -/
theorem eq_cons_of_symbols_eq {gs : List Glyph} {m : Mark} {s : List Symbol}
    (h : symbols none gs = .mark m :: s) :
    ∃ g rest, gs = g :: rest ∧ g.kind = .mark m ∧ symbols none rest = s := by
  have hhead : (gs.map kind).head? = some (.mark m) := head?_symbols.1 (by rw [h]; rfl)
  cases gs with
  | nil => cases hhead
  | cons g rest =>
    have hg : g.kind = .mark m := by simpa using hhead
    rw [symbols, if_neg (by simp [hg])] at h
    exact ⟨g, rest, rfl, hg, (List.cons.inj h).2⟩

/-- A question mark and the colon that touches it are glued. -/
theorem mem_glue {g h : Glyph} (hgh : Touch g h) (before behind : List Glyph) :
    ⟨g.gap, .mark .questionColon, g.text ++ h.text⟩ ∈ glue (before ++ g :: h :: behind) := by
  fun_induction glue before with
  | case1 f f' before hglue ih =>
    rw [List.cons_append, List.cons_append, glue, if_pos hglue]
    exact List.mem_cons_of_mem _ ih
  | case2 f f' before hglue ih =>
    rw [List.cons_append, List.cons_append, glue, if_neg hglue]
    exact List.mem_cons_of_mem _ ih
  | case3 before hshort =>
    have hstart : ⟨g.gap, .mark .questionColon, g.text ++ h.text⟩ ∈ glue (g :: h :: behind) := by
      rw [glue, if_pos hgh]
      exact List.mem_cons_self
    rcases before with _ | ⟨f, _ | ⟨f', before⟩⟩
    · exact hstart
    · rw [List.singleton_append, glue, if_neg (by simp [Touch, hgh.1])]
      exact List.mem_cons_of_mem _ hstart
    · exact absurd rfl (hshort f f' before)

end Glyph

open Glyph

/-- Where a question mark is before a colon in a text of a tree, it is so in the canonical one. -/
theorem Goal.SpelledBy.spell_eq {goal : Goal} {e : Expr} {a b : List Symbol} {x : Symbol}
    (h : goal.SpelledBy e (a ++ x :: .mark .question :: .mark .colon :: b)) :
    ∃ a' b', goal.spell e = a' ++ x :: .mark .question :: .mark .colon :: b' := by
  obtain ⟨u, hu, hs⟩ := h.tidied
  obtain ⟨d, rfl⟩ : ∃ d, u = a ++ x :: .mark .question :: .mark .colon :: d := by
    rcases hs with rfl | hs
    · exact ⟨b, rfl⟩
    · -- the last comma is behind the colon
      rcases List.eq_nil_or_concat' b with rfl | ⟨d, y, rfl⟩
      · have hlast := congrArg List.getLast? hs
        simp at hlast
      · have hends : u ++ [.mark .comma] =
            (a ++ x :: .mark .question :: .mark .colon :: d) ++ [y] := by simpa using hs.symm
        exact ⟨d, (List.append_inj' hends rfl).1⟩
  obtain ⟨a', t, ht, htail⟩ := hu.exists_tail
  obtain ⟨t', rfl, htail'⟩ := htail.eq_cons (by simp)
  obtain ⟨t'', rfl, htail''⟩ := htail'.eq_cons (by simp)
  obtain ⟨b', rfl⟩ := List.head?_eq_some_iff.1 ((htail''.head?_eq_some (by simp) (by simp)).1 rfl)
  exact ⟨a', b', ht⟩

/-- Of glyphs that are a text of a tree and glyphs that are the canonical one, these have a question
mark directly before a colon where those have them, if it is behind anything but a back-ticked
line. -/
theorem Goal.exists_tight {goal : Goal} {e : Expr} {hs before behind : List Glyph} {g q c : Glyph}
    (hspelled : goal.SpelledBy e (symbols none (before ++ g :: q :: c :: behind)))
    (hsymbols : symbols none hs = goal.spell e) (hg : g.kind ≠ .tickedLine)
    (hblock : ∀ b, g.kind ≠ .block b) (hq : q.kind = .mark .question) (hc : c.kind = .mark .colon) :
    ∃ before' g' q' c' behind', hs = before' ++ g' :: q' :: c' :: behind' ∧ g'.kind ≠ .tickedLine ∧
      q'.kind = .mark .question ∧ c'.kind = .mark .colon := by
  rw [symbols_append_cons hg, symbols, if_neg (by simp [hq]), symbols, if_neg (by simp [hc]),
    symbol_eq_mark.2 hq, symbol_eq_mark.2 hc] at hspelled
  obtain ⟨a, b, hspell⟩ := hspelled.spell_eq
  have hx : ∀ form lines, g.symbol ≠ .block form lines := by
    obtain ⟨gap, k, text⟩ := g
    cases k with
    | block form => exact absurd rfl (hblock form)
    | _ => simp [symbol, Token.symbol]
  obtain ⟨before', g', rest, rfl, hg', -, -, hrest⟩ :=
    exists_of_symbols_eq hx (hsymbols.trans hspell)
  obtain ⟨q', rest, rfl, hq', hrest⟩ := eq_cons_of_symbols_eq hrest
  obtain ⟨c', rest, rfl, hc', -⟩ := eq_cons_of_symbols_eq hrest
  exact ⟨before', g', q', c', rest, rfl, hg', hq', hc'⟩

theorem Glyph.plain_glue {gs : List Glyph} (hgs : ∀ g ∈ gs, g.Plain) : ∀ g ∈ glue gs, g.Plain := by
  fun_induction glue gs with
  | case1 g h gs hglue ih =>
    exact List.forall_mem_cons.2
      ⟨⟨by simp, by simp [Kind.isQuoted]⟩, ih fun f hf => hgs f (by simp [hf])⟩
  | case2 g h gs hglue ih =>
    obtain ⟨hg, hgs⟩ := List.forall_mem_cons.1 hgs
    exact List.forall_mem_cons.2 ⟨hg, ih hgs⟩
  | case3 => exact hgs

/-- What is written without blanks and read as one mark is written with blanks the next time. -/
theorem Goal.reformat_ne {goal : Goal} {text file : String} {before behind : List Glyph}
    {g q c : Glyph} {e : Expr} (hscan : Scans text.toList (before ++ g :: q :: c :: behind))
    (hgs : ∀ f ∈ before ++ g :: q :: c :: behind, f.Plain) (h : parseAs goal text file = .ok e)
    (hg : g.kind ≠ .tickedLine) (hq : q.kind = .mark .question) (hc : c.kind = .mark .colon)
    (width : Nat) (file' : String) :
    reformat goal file' width (goal.format e width) ≠ .ok (goal.format e width) := by
  intro hagain
  obtain ⟨-, hspelled⟩ := Goal.parseAs_sound hscan hgs h
  obtain ⟨hs, hlaid, hsymbols, hplain, hprinted, hbeside, -⟩ :=
    Goal.format_of_parseAs hscan hgs h width
  obtain ⟨before', g', q', c', behind', rfl, hg', hq', hc'⟩ :=
    Goal.exists_tight hspelled hsymbols hg (hscan.kind_ne (by simp)).2.1 hq hc
  have hpair := (List.isChain_append.1 hbeside).2.1
  have hgap : q'.gap = [] := ((List.isChain_cons_cons.1 hpair).1.question hq').2 hg'
  have htouch : Touch q' c' := ⟨hq', hc', (List.isChain_cons_cons.1 hpair.tail).1.touches hq' hc'⟩
  -- the text is that of the tree that is read from it
  obtain ⟨e', hparse, hformat⟩ : ∃ e', parseAs goal (goal.format e width) file' = .ok e' ∧
      goal.format e' width = goal.format e width := by
    unfold reformat at hagain
    cases hparse : parseAs goal (goal.format e width) file' with
    | error error => rw [hparse] at hagain; cases hagain
    | ok e' => rw [hparse] at hagain; exact ⟨e', rfl, Except.ok.inj hagain⟩
  have hscan' := scans_glue (hbeside.imp fun _ _ h => h.near) fun g hg => (hprinted g hg).isLexeme
  rw [← hlaid] at hscan'
  obtain ⟨hs', hlaid', -, -, hprinted', hbeside', hiff⟩ :=
    Goal.format_of_parseAs hscan' (plain_glue hplain) hparse width
  have hscan'' :=
    scans_glue (hbeside'.imp fun _ _ h => h.near) fun g hg => (hprinted' g hg).isLexeme
  rw [← hlaid', hformat, glue_of_apart (hiff.1 (apart_glue hbeside))] at hscan''
  obtain rfl := hscan'.unique hscan''
  have hglued := mem_glue htouch (before' ++ [g']) behind'
  rw [List.append_assoc, List.singleton_append] at hglued
  exact (hprinted' _ hglued).loose rfl hgap

theorem Goal.SpelledBy.head?_ne {goal : Goal} {e : Expr} {s : List Symbol} (he : e.Admissible)
    (h : goal.SpelledBy e s) : s.head? ≠ some (.mark .question) := by
  intro hs
  obtain ⟨u, hu, hsu⟩ := h.tidied
  have hhead : u.head? = some (.mark .question) := by
    rcases hsu with rfl | rfl
    · exact hs
    · cases u with
      | nil => simp at hs
      | cons x u => exact hs
  rw [hu.head?_eq_some (by simp) (by simp)] at hhead
  cases goal with
  | expression =>
    obtain ⟨x, hx, hne⟩ := Expr.head?_spell he
    exact hne (Option.some.inj (hx.symm.trans hhead))
  | items =>
    rw [spell] at hhead
    cases hitems : e.items with
    | nil => simp [hitems, Expr.spellAll] at hhead
    | cons f fs =>
      obtain ⟨x, hx, hne⟩ := Expr.head?_spell (he.items f (by simp [hitems]))
      rw [hitems, Expr.spellAll_eq_flatMap, List.head?_append, hx] at hhead
      exact hne (Option.some.inj hhead)

/-- Where a question mark is before a colon, they come first or are behind something. -/
theorem exists_infix_of_not_apart {k : Kind} {ks : List Kind} (h : ¬(k :: ks).IsChain Kind.Apart) :
    k = .mark .question ∨ ∃ k', [k', .mark .question, .mark .colon] <:+: k :: ks := by
  suffices k = .mark .question ∧ ks.head? = some (.mark .colon) ∨
      ∃ k', [k', .mark .question, .mark .colon] <:+: k :: ks from this.imp_left (·.1)
  induction ks generalizing k with
  | nil => simp at h
  | cons k₂ ks ih =>
    rw [List.isChain_cons_cons, not_and_or, Kind.Apart, Classical.not_not] at h
    rcases h with ⟨hk, rfl⟩ | h
    · exact .inl ⟨hk, rfl⟩
    · rcases ih h with ⟨rfl, hcolon⟩ | ⟨k', hk'⟩
      · obtain ⟨ks, rfl⟩ := List.head?_eq_some_iff.1 hcolon
        exact .inr ⟨k, [], ks, rfl⟩
      · exact .inr ⟨k', hk'.trans (List.suffix_cons k _).isInfix⟩

/-- A plain source text is formatted once and for all exactly if it has no question mark directly
before a colon, back-ticked lines before these apart: if it has, they are written without blanks and
read as one mark. -/
theorem reformat_format_iff (goal : Goal) (file file' text : String) (width : Nat) (e : Expr)
    (h : parseAs goal text file = .ok e) (hplain : ∀ t ∈ (Stream.ofText text file).tokens, t.Plain)
    (hline : ¬[.tickedLine, .mark .question, .mark .colon] <:+:
      (Stream.ofText text file).tokens.map Token.kind) :
    reformat goal file' width (goal.format e width) = .ok (goal.format e width) ↔
      ((Stream.ofText text file).tokens.map Token.kind).IsChain Kind.Apart := by
  obtain ⟨gs, hscan⟩ := exists_scans text.toList
  rw [hscan.tokens_ofText] at hplain hline ⊢
  rw [map_kind_placed] at hline ⊢
  rw [forall_placed] at hplain
  constructor
  · refine fun hagain => Classical.not_not.1 fun hapart => ?_
    obtain ⟨he, hspelled⟩ := Goal.parseAs_sound hscan hplain h
    have hhead : (gs.map kind).head? ≠ some (.mark .question) := fun hhead =>
      hspelled.head?_ne he (head?_symbols.2 hhead)
    obtain ⟨k, htight⟩ : ∃ k, [k, .mark .question, .mark .colon] <:+: gs.map kind := by
      cases hgs : gs.map kind with
      | nil => simp [hgs] at hapart
      | cons k ks =>
        rw [hgs] at hapart hhead
        exact (exists_infix_of_not_apart hapart).resolve_left fun hk => hhead (by rw [hk]; rfl)
    have hk : k ≠ .tickedLine := fun hk => hline (hk ▸ htight)
    obtain ⟨part, ⟨before, behind, rfl⟩, hpart⟩ := List.infix_map_iff.1 htight
    obtain ⟨g, rest, rfl, rfl, hrest⟩ := List.map_eq_cons_iff.1 hpart.symm
    obtain ⟨q, rest, rfl, hq, hrest⟩ := List.map_eq_cons_iff.1 hrest
    obtain ⟨c, rest, rfl, hc, hrest⟩ := List.map_eq_cons_iff.1 hrest
    obtain rfl := List.map_eq_nil_iff.1 hrest
    rw [List.append_assoc] at hscan hplain
    exact Goal.reformat_ne hscan hplain h hk hq hc width file' hagain
  · intro hapart
    obtain ⟨e', hparse, halike⟩ := Goal.parseAs_format hscan hplain h hapart width file'
    rw [reformat, hparse, Except.map, Goal.format_congr halike]

end DocExpr
