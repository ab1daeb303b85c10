import DocExpr.Proofs.Idempotence
import DocExpr.Proofs.Layout.Strays

/-!
# Formatting again

What is formatted is read as the tree that it was formatted from, documentation included, if none of
it strays while the tree is written (`Goal.parseAs_format_documented`). So formatting it again
changes nothing, unless a question mark is directly before a colon (`reformat_format`).
-/

namespace DocExpr

open Documentation

/-! ## Attaching documentation -/

/-- Merging lines puts no question mark before a colon, whatever lines come before. -/
theorem Runs.isChain_apart_merge (form : RunForm) (finish : Reading) {rs : List Reading}
    (h : (kinds rs).IsChain Kind.Apart) (run? : Option Run) :
    (kinds (merge form finish run? rs)).IsChain Kind.Apart ∧
      ((kinds (merge form finish run? rs)).head? = some (.mark .colon) →
        run? = none ∧ (kinds rs).head? = some (.mark .colon)) := by
  have close : ∀ {ks : List Kind}, ks.IsChain Kind.Apart →
      (Kind.block form.block :: ks).IsChain Kind.Apart :=
    fun hks => List.isChain_cons.2 ⟨by simp [Kind.Apart], hks⟩
  induction rs generalizing run? with
  | nil => cases run? <;> simp [merge, Run.close]
  | cons r rs ih =>
    obtain ⟨hfirst, hrest⟩ := List.isChain_cons.1 h
    by_cases hr : r.token.kind = form.line
    · cases run? with
      | none =>
        rw [merge, if_pos hr]
        obtain ⟨hchain, hhead⟩ := ih hrest (some (.start r))
        exact ⟨hchain, fun hcolon => absurd (hhead hcolon).1 (by simp)⟩
      | some run =>
        rw [merge, if_pos hr]
        split
        · obtain ⟨hchain, hhead⟩ := ih hrest (some (run.push r))
          exact ⟨hchain, fun hcolon => absurd (hhead hcolon).1 (by simp)⟩
        · exact ⟨close (ih hrest _).1, by simp [Run.close]⟩
    · have hnone : (kinds (r :: merge form finish none rs)).IsChain Kind.Apart := by
        obtain ⟨hchain, hhead⟩ := ih hrest none
        refine List.isChain_cons.2 ⟨fun k hk hapart => hfirst k ?_ hapart, hchain⟩
        rw [hapart.2] at hk ⊢
        exact (hhead hk).2
      cases run? with
      | none =>
        rw [merge, if_neg hr]
        exact ⟨hnone, fun hcolon => ⟨rfl, hcolon⟩⟩
      | some run =>
        rw [merge, if_neg hr]
        exact ⟨close hnone, by simp [Run.close]⟩

/-- Placing documentation puts no question mark before a colon. -/
theorem Documentation.isChain_apart_attach {rs : List Reading}
    (hrs : ∀ r ∈ rs, r.token.kind ≠ .block .trailing)
    (held : Token) (h : (held.kind :: kinds rs).IsChain Kind.Apart) :
    (kinds (attach held rs)).IsChain Kind.Apart ∧
      ((kinds (attach held rs)).head? = some (.mark .colon) → held.kind = .mark .colon) := by
  have operator : ∀ {k : Kind} {ks : List Kind}, (∀ m, k ≠ .mark m) → ks.IsChain Kind.Apart →
      (k :: ks).IsChain Kind.Apart := fun hk hks => List.isChain_cons.2 ⟨fun _ _ h => hk _ h.1, hks⟩
  induction rs generalizing held with
  | nil => simp [attach]
  | cons r rs ih =>
    obtain ⟨hr, hrs⟩ := List.forall_mem_cons.1 hrs
    obtain ⟨hheld, hrest⟩ := List.isChain_cons_cons.1 h
    have hnext := (List.isChain_cons.1 hrest).2
    rw [kinds_attach_cons held r rs hr]
    split
    · split
      · split
        · next hseparator =>
          have hquestion : held.kind ≠ .mark .question := by
            rintro hk
            simp [isSeparator, hk] at hseparator
          have hchain := (ih hrs held (List.isChain_cons.2 ⟨fun _ _ h => hquestion h.1, hnext⟩)).1
          exact ⟨operator (by simp) (operator (by simp) hchain), by simp⟩
        · have hchain :=
            (ih hrs { r.token with kind := .block .trailing } (operator (by simp) hnext)).1
          have hoperator := operator (k := .document) (by simp) hchain
          split
          · exact ⟨hoperator, by simp⟩
          · exact ⟨List.isChain_cons_cons.2 ⟨by simp [Kind.Apart], hoperator⟩, by simp⟩
      · have hchain := (ih hrs (.document r.token.origin) (operator (by simp) hnext)).1
        exact ⟨List.isChain_cons_cons.2 ⟨by simp [Kind.Apart], operator (by simp) hchain⟩, by simp⟩
    · obtain ⟨hchain, hhead⟩ := ih hrs r.token hrest
      refine ⟨List.isChain_cons.2 ⟨fun k hk hapart => hheld ⟨hapart.1, hhead ?_⟩, hchain⟩, by simp⟩
      rw [← hapart.2]
      exact hk

/-- Where no question mark is directly before a colon in a source text, none is in what the parser
sees. -/
theorem Stream.isChain_apart_ofSource {text file : String} {gs : List Glyph}
    (hscan : Glyph.Scans text.toList gs)
    (h : ((ofText text file).tokens.map Token.kind).IsChain Kind.Apart) :
    ((ofSource text file).tokens.map Token.symbol).IsChain Symbol.Apart := by
  have hplain := hscan.isDocumentary_ofText file
  -- what is held back first stands on another line than the first token
  obtain ⟨opening, hkind, hfirst⟩ : ∃ opening : Token, opening.kind = .eof ∧
      ∀ t ∈ (ofText text file).tokens.head?, t.origin.line ≠ opening.origin.line := by
    cases (ofText text file).tokens.head? with
    | none => exact ⟨⟨.eof, "", .synthetic⟩, rfl, by simp⟩
    | some t =>
      refine ⟨⟨.eof, "", ⟨file, t.origin.line + 1, 0, 0⟩⟩, rfl, ?_⟩
      rintro u ⟨⟩ hline
      exact absurd (UInt32.left_eq_add.1 hline) (by decide)
  have hread : (kinds (ofText text file).readings).IsChain Kind.Apart := h
  have hblock : ∀ r ∈ Runs.merge commentRuns (ofText text file).lastReading none
      (ofText text file).readings,
      r.token.kind ≠ .block .trailing := by
    rw [tokens, List.forall_mem_map] at hplain
    refine Runs.forall_merge_of_text (P := fun t => t.kind ≠ .block .trailing) (Q := fun _ => True)
      (fun t ht _ hk => ?_) (fun r hr _ hk => ?_) (by simp) (by simp)
    · cases ht.symm.trans hk
    · have := hplain r hr
      rw [hk] at this
      cases this
  have hattached :=
    (isChain_apart_attach hblock opening (List.isChain_cons.2 ⟨by simp [Kind.Apart, hkind],
    (Runs.isChain_apart_merge commentRuns (ofText text file).lastReading hread none).1⟩)).1
  rw [kinds, map_token_attach_merge (hscan.isDocumentary_ofText file) hfirst,
    List.map_cons] at hattached
  have hsource : ((ofSource text file).tokens.map Token.kind).IsChain Kind.Apart :=
    (Runs.isChain_apart_merge stringRuns (ofText text file).attachDocumentation.lastReading
      hattached.tail none).1
  rw [List.isChain_map] at hsource ⊢
  exact hsource.imp fun t u hapart hsymbols =>
    hapart ⟨Token.symbol_eq_mark.1 hsymbols.1, Token.symbol_eq_mark.1 hsymbols.2⟩

/-! ## Reading what is written -/

namespace Goal

variable {goal : Goal} {text file : String} {e : Expr} {width : Nat}

/-- What is written for a tree from which no documentation strays is read as the text of the tree,
if its lines can be counted. -/
theorem symbols_format (h : parseAs goal text file = .ok e)
    (hlines : ∀ t ∈ (Stream.ofText text file).tokens, t.kind.isQuoted → '\n' ∉ t.text.toList)
    (hapart : ((Stream.ofText text file).tokens.map Token.kind).IsChain Kind.Apart)
    (hstrays : Directive.straysAll (goal.script e) (.empty width) = false)
    (hsize : (goal.format e width).toList.count '\n' < UInt32.size) (file' : String) :
    (Stream.ofSource (goal.format e width) file').tokens.map Token.symbol = goal.spell e := by
  obtain ⟨gs, hscan⟩ := Glyph.exists_scans text.toList
  have honeLine : ∀ x ∈ goal.spell e, x.OneLine :=
    fun x hx => (clear_spell hscan h x hx).2 (hscan.oneLine_of_tokens hlines)
  obtain ⟨hs, n, htext, hnear, hlexeme, hreads⟩ := (spells_script h).reads honeLine width hstrays
  rw [← goal.format_eq] at htext
  have hspelled := (parseAs_spelled h).2
  have hglue := Glyph.glue_of_apart (hreads.isChain_apart
    (hspelled.isChain_apart.1 (Stream.isChain_apart_ofSource hscan hapart)))
  have hscan' := Glyph.scans_glue hnear hlexeme
  rw [hglue, ← htext] at hscan'
  refine hreads.symbols_ofSource hscan' ?_ file'
  simpa [htext] using hsize

/-- What is written for a tree from which no documentation strays is read as the tree, up to
places. -/
theorem parseAs_format_documented (h : parseAs goal text file = .ok e)
    (hlines : ∀ t ∈ (Stream.ofText text file).tokens, t.kind.isQuoted → '\n' ∉ t.text.toList)
    (hapart : ((Stream.ofText text file).tokens.map Token.kind).IsChain Kind.Apart)
    (hstrays : Directive.straysAll (goal.script e) (.empty width) = false)
    (hsize : (goal.format e width).toList.count '\n' < UInt32.size) (file' : String) :
    ∃ e', parseAs goal (goal.format e width) file' = .ok e' ∧ e'.alike e := by
  obtain ⟨he, hspelled⟩ := parseAs_spelled h
  have hsymbols := symbols_format h hlines hapart hstrays hsize file'
  obtain ⟨e', hparse, herase⟩ := parse_complete he (hsymbols ▸ spelledBy_spell hspelled)
  exact ⟨e', (parseAs_eq ..).trans hparse, (Expr.alike_iff_erase_eq e' e).2 herase⟩

end Goal

/-- What has been formatted is formatted as it is if no question mark is directly before a colon in
the source text, no literal has a line break in it and, where there are comments, none of them
strays and the lines can be counted. Without comments, only then, back-ticked lines before the two
apart. -/
theorem reformat_format (goal : Goal) (file file' text : String) (width : Nat) (e : Expr)
    (h : parseAs goal text file = .ok e)
    (hlines : ∀ t ∈ (Stream.ofText text file).tokens, t.kind.isQuoted → '\n' ∉ t.text.toList)
    (hkept : (∃ t ∈ (Stream.ofText text file).tokens, t.kind = .comment) →
      Directive.straysAll (goal.script e) (.empty width) = false ∧
        (goal.format e width).toList.count '\n' < UInt32.size) :
    (((Stream.ofText text file).tokens.map Token.kind).IsChain Kind.Apart →
      reformat goal file' width (goal.format e width) = .ok (goal.format e width)) ∧
    ((∀ t ∈ (Stream.ofText text file).tokens, t.kind ≠ .comment) →
      ¬[.tickedLine, .mark .question, .mark .colon] <:+:
      (Stream.ofText text file).tokens.map Token.kind →
      reformat goal file' width (goal.format e width) = .ok (goal.format e width) →
      ((Stream.ofText text file).tokens.map Token.kind).IsChain Kind.Apart) := by
  constructor
  · intro hapart
    obtain ⟨e', hparse, halike⟩ : ∃ e', parseAs goal (goal.format e width) file' = .ok e' ∧
        e'.alike e := by
      by_cases hcomment : ∃ t ∈ (Stream.ofText text file).tokens, t.kind = .comment
      · obtain ⟨hstrays, hsize⟩ := hkept hcomment
        exact Goal.parseAs_format_documented h hlines hapart hstrays hsize file'
      · obtain ⟨gs, hscan⟩ := Glyph.exists_scans text.toList
        have hplain : ∀ t ∈ (Stream.ofText text file).tokens, t.Plain :=
          fun t ht => ⟨fun hk => hcomment ⟨t, ht, hk⟩, hlines t ht⟩
        rw [hscan.tokens_ofText] at hplain hapart
        rw [Glyph.map_kind_placed] at hapart
        exact Goal.parseAs_format hscan (Glyph.forall_placed.1 hplain) h hapart width file'
    rw [reformat, hparse, Except.map, Goal.format_congr halike]
  · exact fun hplain hticked => (reformat_format_iff goal file file' text width e h
      (fun t ht => ⟨hplain t ht, hlines t ht⟩) hticked).1

/-- A comment behind a comma and comments above a union and behind the last of its operands. -/
theorem reformat_format_documented :
    let text := "a: 1, // one\n// above\n// that\nb: x | y? // last"
    ∃ e, parseAs .items text "" = .ok e ∧
      (∀ t ∈ (Stream.ofText text "").tokens, t.kind.isQuoted → '\n' ∉ t.text.toList) ∧
      (Directive.straysAll (Goal.items.script e) (.empty 4) = false ∧
        (Goal.items.format e 4).toList.count '\n' < UInt32.size) ∧
      reformat .items "" 4 (Goal.items.format e 4) = .ok (Goal.items.format e 4) := by
  intro text
  have hlines : ∀ t ∈ (Stream.ofText text "").tokens, t.kind.isQuoted → '\n' ∉ t.text.toList := by
    decide +kernel
  obtain ⟨e, h, hkept⟩ := exists_of_toOption (r := parseAs .items text "")
    (P := fun e => Directive.straysAll (Goal.items.script e) (.empty 4) = false ∧
      (Goal.items.format e 4).toList.count '\n' < UInt32.size) (by decide +kernel)
  exact ⟨e, h, hlines, hkept,
    (reformat_format .items "" "" text 4 e h hlines fun _ => hkept).1 (by decide +kernel)⟩

/-- What is written for an optional type before a colon is written differently the next time: the
colon is read as part of another mark. -/
theorem exists_reformat_ne : ∃ formatted, reformat .items "" 4 "x ? : y" = .ok formatted ∧
    reformat .items "" 4 formatted ≠ .ok formatted :=
  ⟨"x?: y\n", by decide +kernel, by decide +kernel⟩

end DocExpr
