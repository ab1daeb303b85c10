import DocExpr.Proofs.Lexing.Enclosed
import DocExpr.Proofs.Stream.Blocks
import DocExpr.Proofs.Stream.Documented

/-!
# Layers in parentheses

Layers compare the lines of tokens with each other, and it does not matter which lines these are:
what they make of tokens one line further down is one line further down (`RunForm.grouped_below`). A
parenthesis closes whatever is open before it, and the stream of a text begins as if a parenthesis
were held back that stands above all of it (`Stream.map_token_attach_merge`). So layers take
parentheses around tokens as they are (`Glyph.Scans.symbols_enclosed`).
-/

namespace DocExpr

open Documentation

/-- Tokens one line further down, between two others. -/
def Token.enclosed (opening closing : Token) (ts : List Token) : List Token :=
  (opening :: ts).map below ++ [closing]

/-! ## Runs of lines -/

namespace RunForm

variable {form : RunForm} {t opening closing : Token}

theorem joins_below (t u : Token) : form.joins t.below u.below = form.joins t u := by
  simp [joins, Token.below, Origin.below, Bool.beq_eq_decide_eq]

theorem whole_below (ts : List Token) :
    form.whole (ts.map Token.below) = (form.whole ts).map Token.below := by
  cases ts with
  | nil => rfl
  | cons t ts =>
    rw [List.map_cons, whole, whole, Token.kind_below]
    split
    · simp [Token.below, Function.comp_def]
    · rfl

/-- Runs are where they are, one line further down. -/
theorem grouped_below (ts : List Token) :
    form.grouped (ts.map Token.below) = (form.grouped ts).map Token.below := by
  have hsplit : (ts.map Token.below).splitBy form.joins =
      (ts.splitBy form.joins).map (List.map Token.below) := by
    rw [List.splitBy_eq_iff]
    refine ⟨?_, by simp, ?_, ?_⟩
    · rw [← List.map_flatten, List.flatten_splitBy]
    · simp only [List.forall_mem_map, List.isChain_map, joins_below]
      exact fun _ => List.isChain_of_mem_splitBy
    · rw [List.isChain_map]
      refine (List.isChain_getLast_head_splitBy form.joins ts).imp fun g h ⟨hg, hh, hjoins⟩ => ?_
      exact ⟨by simpa using hg, by simpa using hh, by simpa [joins_below] using hjoins⟩
  rw [grouped, grouped, hsplit, List.flatMap_map, List.map_flatMap]
  exact List.flatMap_congr fun g _ => whole_below g

theorem grouped_singleton (ht : t.kind ≠ form.line) : form.grouped [t] = [t] := by
  simp [grouped, List.splitBy, List.splitBy.loop, whole, ht]

/-- What is no line is no part of a run behind it. -/
theorem grouped_cons (ht : t.kind ≠ form.line) (ts : List Token) :
    form.grouped (t :: ts) = t :: form.grouped ts := by
  have hsplit : ([t] ++ ts).splitBy form.joins = [t].splitBy form.joins ++ ts.splitBy form.joins :=
    List.splitBy_append fun x hx u _ => by
      obtain rfl : t = x := by simpa using hx
      simp [joins, ht]
  have hsingleton := grouped_singleton ht
  rw [grouped] at hsingleton ⊢
  rw [← List.singleton_append, hsplit, List.flatMap_append, hsingleton]
  rfl

/-- What is no line is no part of a run before it. -/
theorem grouped_concat (ht : t.kind ≠ form.line) (ts : List Token) :
    form.grouped (ts ++ [t]) = form.grouped ts ++ [t] := by
  rw [grouped, List.splitBy_append_cons [] fun x _ => by simp [joins, ht], List.flatMap_append]
  exact congrArg _ (grouped_singleton ht)

theorem grouped_enclosed (hopening : opening.kind ≠ form.line) (hclosing : closing.kind ≠ form.line)
    (ts : List Token) :
    form.grouped (Token.enclosed opening closing ts) =
      Token.enclosed opening closing (form.grouped ts) := by
  rw [Token.enclosed, grouped_concat hclosing, grouped_below, grouped_cons hopening, Token.enclosed]

end RunForm

/-! ## Documentation -/

namespace Documentation

theorem isBehind_below (held block : Token) :
    isBehind held.below block.below = isBehind held block := by
  simp [isBehind, Token.below, Origin.below, Bool.beq_eq_decide_eq]

/-- Documentation is attached alike one line further down, and what comes behind all of it is no
part of it. -/
theorem map_token_attach_below {closing : Token} (hclosing : ∀ b, closing.kind ≠ .block b)
    {rs rs' : List Reading} (hrs : ∀ r ∈ rs, r.token.kind ≠ .block .trailing)
    (h : rs'.map Reading.token = (rs.map Reading.token).map Token.below ++ [closing])
    (held : Token) :
    (attach held.below rs').map Reading.token =
      ((attach held rs).map Reading.token).map Token.below ++ [closing] := by
  induction rs generalizing rs' held with
  | nil =>
    obtain ⟨r, rfl, rfl⟩ := List.map_eq_singleton_iff.1 h
    rw [map_token_attach_cons held.below r [] (hclosing _), if_neg (hclosing _)]
    rfl
  | cons r rs ih =>
    obtain ⟨hr, hrs⟩ := List.forall_mem_cons.1 hrs
    obtain ⟨r', rs', rfl, hr', hrest⟩ := List.map_eq_cons_iff.1 h
    have hdocument :
        Token.document r.token.origin.below = (Token.document r.token.origin).below := rfl
    have htrailing : ({ r.token.below with kind := .block .trailing } : Token) =
        ({ r.token with kind := .block .trailing } : Token).below := rfl
    have hseparator : isSeparator held.below = isSeparator held := rfl
    have horigin : r.token.below.origin = r.token.origin.below := rfl
    have ih := fun held => ih hrs hrest held
    rw [map_token_attach_cons held r rs hr,
      map_token_attach_cons held.below r' rs' (by rw [hr']; exact hr), hr', isBehind_below,
      hseparator, horigin, hdocument, htrailing, Token.kind_below, Token.kind_below,
      ih, ih, ih, ih]
    split_ifs <;> simp

end Documentation

namespace Stream

variable {s s' : Stream} {opening closing : Token}

/-- The first token that is read from a stream is placed as if a token above were held back. -/
theorem map_token_attach_merge (hs : ∀ t ∈ s.tokens, t.kind.isDocumentary = false)
    (hfirst : ∀ t ∈ s.tokens.head?, t.origin.line ≠ opening.origin.line) :
    (attach opening (Runs.merge commentRuns s.lastReading none s.readings)).map Reading.token =
      opening :: s.attachDocumentation.tokens := by
  rw [tokens, List.forall_mem_map] at hs
  rw [tokens] at hfirst
  rw [tokens, attachDocumentation]
  cases hreadings : s.readings with
  | nil => rfl
  | cons r rs =>
    rw [hreadings] at hs hfirst
    obtain ⟨hr, -⟩ := List.forall_mem_cons.1 hs
    replace hfirst : r.token.origin.line ≠ opening.origin.line := hfirst _ rfl
    by_cases hcomment : r.token.kind = .comment
    · have hmerge : Runs.merge commentRuns s.lastReading none (r :: rs) =
          Runs.merge commentRuns s.lastReading (some (.start r)) rs := if_pos hcomment
      obtain ⟨first, rest, hrest, hkind, horigin⟩ := Runs.exists_merge_some commentRuns
        s.lastReading (.start r) rs
      replace hkind : first.token.kind = .block .leading := hkind
      have hbehind : isBehind opening first.token = false := by
        have hline : first.token.origin.line = r.token.origin.line := congrArg Origin.line horigin
        simp [isBehind, hline, Ne.symm hfirst]
      rw [hmerge, hrest, map_token_attach_cons _ _ _ (by simp [hkind]), if_pos hkind, hbehind]
      simp [hcomment]
    · have hmerge : Runs.merge commentRuns s.lastReading none (r :: rs) =
          r :: Runs.merge commentRuns s.lastReading none rs := if_neg hcomment
      have hleading : r.token.kind ≠ .block .leading := fun hk => by rw [hk] at hr; cases hr
      have htrailing : r.token.kind ≠ .block .trailing := fun hk => by rw [hk] at hr; cases hr
      rw [hmerge, map_token_attach_cons _ _ _ htrailing, if_neg hleading]
      simp [hcomment]

variable (hopening : opening.kind = .mark .leftParenthesis)
  (hclosing : closing.kind = .mark .rightParenthesis)

include hopening hclosing

/-- Documentation is attached alike in parentheses, if the opening one is above the first token. -/
theorem attachDocumentation_enclosed (hs : ∀ t ∈ s.tokens, t.kind.isDocumentary = false)
    (hfirst : ∀ t ∈ s.tokens.head?, t.origin.line ≠ opening.origin.line)
    (h : s'.tokens = Token.enclosed opening closing s.tokens) :
    s'.attachDocumentation.tokens =
      Token.enclosed opening closing s.attachDocumentation.tokens := by
  have hmerge : (Runs.merge commentRuns s'.lastReading none s'.readings).map Reading.token =
      Token.enclosed opening closing
        ((Runs.merge commentRuns s.lastReading none s.readings).map Reading.token) := by
    rw [Runs.map_token_merge, Runs.map_token_merge,
      ← RunForm.grouped_enclosed (by simp [hopening, commentRuns])
        (by simp [hclosing, commentRuns])]
    exact congrArg _ h
  have htrailing : ∀ r ∈ Runs.merge commentRuns s.lastReading none s.readings,
      r.token.kind ≠ .block .trailing := by
    rw [tokens, List.forall_mem_map] at hs
    refine Runs.forall_merge_of_text (Q := fun _ => True) (P := fun t => t.kind ≠ .block .trailing)
      (fun t ht _ => by simp [ht, commentRuns]) (fun r hr _ hk => ?_) (by simp) (by simp)
    have hnone := hs r hr
    rw [hk] at hnone
    cases hnone
  have hcomment : (s'.readings.head?.any fun r => r.token.kind = .comment) = false := by
    obtain ⟨r, rs, hreadings, hr, -⟩ :=
      List.map_eq_cons_iff.1 (h : s'.readings.map Reading.token = _ :: _)
    simp [hreadings, hr, hopening]
  obtain ⟨first, rest, heq, hfirst', hrest⟩ := List.map_eq_cons_iff.1 hmerge
  rw [tokens, attachDocumentation, heq]
  simp only [hcomment, Bool.false_eq_true, if_false]
  rw [hfirst', map_token_attach_below (by simp [hclosing]) htrailing hrest,
    map_token_attach_merge hs hfirst]
  rfl

/-- Back-ticked lines are merged alike in parentheses. -/
theorem mergeStrings_enclosed (h : s'.tokens = Token.enclosed opening closing s.tokens) :
    s'.mergeStrings.tokens = Token.enclosed opening closing s.mergeStrings.tokens := by
  have hmerge : ∀ s : Stream, s.mergeStrings.tokens = stringRuns.grouped s.tokens := fun s =>
    Runs.map_token_merge stringRuns s.lastReading s.readings
  rw [hmerge, hmerge, h,
    RunForm.grouped_enclosed (by simp [hopening, stringRuns]) (by simp [hclosing, stringRuns])]

end Stream

/-! ## Texts -/

namespace Token

theorem symbol_below (t : Token) : t.below.symbol = t.symbol := rfl

/-- The grammar sees tokens in parentheses. -/
theorem map_symbol_enclosed {opening closing : Token}
    (hopening : opening.kind = .mark .leftParenthesis)
    (hclosing : closing.kind = .mark .rightParenthesis) (ts : List Token) :
    (enclosed opening closing ts).map symbol =
      .mark .leftParenthesis :: (ts.map symbol ++ [.mark .rightParenthesis]) := by
  simp [enclosed, symbol_below, Function.comp_def, symbol_eq_mark.2 hopening,
    symbol_eq_mark.2 hclosing]

end Token

/-- No token of a text stands above its first line. -/
theorem Glyph.Scans.line_head {text : String} {gs : List Glyph} (h : Scans text.toList gs)
    (hlength : text.length < UInt32.size - 1) (file : String) :
    ∀ t ∈ (Stream.ofText text file).tokens.head?, t.origin.line ≠ 0 := by
  rw [h.tokens_ofText file]
  cases gs with
  | nil => simp [placed]
  | cons g gs =>
    have hgap : g.gap.length < UInt32.size - 1 := by
      have hle := h.laid_prefix.length_le
      rw [laid_cons, List.length_append, String.length_toList] at hle
      omega
    obtain ⟨hline, -⟩ := Position.behind_start hgap
    rintro t ht hzero
    obtain rfl := Option.some.inj ht
    replace hzero : (Position.start.behind g.gap).line = 0 := hzero
    rw [hzero, UInt32.toNat_zero] at hline
    omega

/-- What the grammar sees of a text in parentheses is what it sees of the text, in parentheses. -/
theorem Glyph.Scans.symbols_enclosed {text : String} {gs : List Glyph} (h : Scans text.toList gs)
    (hgs : ∀ g ∈ gs, g.kind.isFault = false) (hlength : text.length < UInt32.size - 1)
    (file : String) :
    (Stream.ofSource ("(\n" ++ text ++ "\n)") file).tokens.map Token.symbol =
      .mark .leftParenthesis ::
        ((Stream.ofSource text file).tokens.map Token.symbol ++ [.mark .rightParenthesis]) := by
  obtain ⟨o, o', ho, htokens⟩ := h.tokens_enclosed hgs file
  have hfirst := h.line_head hlength file
  rw [← ho] at hfirst
  have hattach :=
    Stream.attachDocumentation_enclosed rfl rfl (h.isDocumentary_ofText file) hfirst htokens
  have hmerge := congrArg (List.map Token.symbol) (Stream.mergeStrings_enclosed rfl rfl hattach)
  rwa [Token.map_symbol_enclosed rfl rfl] at hmerge

end DocExpr
