import DocExpr.Proofs.Lexing.Glyph

/-!
# Carriage returns at the ends of lines

`Text.unifyLineEnds` writes every line end of a text as a line feed alone. Such a text has the same
tokens as the text itself, at the same places (`Stream.ofText_unifyLineEnds`): no lexeme but a
quoted one looks at a carriage return otherwise than at a line feed (`Lexeme.read_dropReturns`).

A backslash in quotes takes the one character behind it. So it can take the carriage return from a
line end, and the literal is then torn off at the line feed (`Token.TornIn`). Up to the first such
literal the tokens are the same.
-/

namespace DocExpr

namespace Text

/-- A text without the carriage returns that have a line feed directly behind them. -/
def dropReturns : List Char → List Char
  | [] => []
  | c :: cs => if c = '\r' ∧ cs.head? = some '\n' then dropReturns cs else c :: dropReturns cs

/-- A text with a line feed in place of each carriage return and line feed. -/
def unifyLineEnds (text : String) : String := String.ofList (dropReturns text.toList)

variable {p : Char → Bool} {c : Char} {w cs : List Char}

@[simp] theorem dropReturns_nil : dropReturns [] = [] := rfl

theorem dropReturns_cons (h : c ≠ '\r') (cs : List Char) :
    dropReturns (c :: cs) = c :: dropReturns cs := by
  rw [dropReturns, if_neg (by simp [h])]

/-- A line end becomes a line feed. -/
theorem dropReturns_lineEnd (cs : List Char) :
    dropReturns ('\r' :: '\n' :: cs) = '\n' :: dropReturns cs := by
  rw [dropReturns, if_pos ⟨rfl, rfl⟩, dropReturns_cons (by decide)]

/-- How a text with a first character is read: its line end is a line feed, and any other character
stays. -/
theorem dropReturns_cases (c : Char) (cs : List Char) :
    dropReturns (c :: cs) = c :: dropReturns cs ∨
      ∃ cs', c = '\r' ∧ cs = '\n' :: cs' ∧ dropReturns (c :: cs) = '\n' :: dropReturns cs' := by
  by_cases h : c = '\r' ∧ cs.head? = some '\n'
  · obtain ⟨rfl, hhead⟩ := h
    obtain ⟨cs', rfl⟩ := List.head?_eq_some_iff.1 hhead
    exact .inr ⟨cs', rfl, rfl, dropReturns_lineEnd cs'⟩
  · exact .inl (by rw [dropReturns, if_neg h])

theorem dropReturns_append (h : '\r' ∉ w) (cs : List Char) :
    dropReturns (w ++ cs) = w ++ dropReturns cs := by
  induction w with
  | nil => rfl
  | cons c w ih =>
    rw [List.mem_cons, not_or] at h
    rw [List.cons_append, dropReturns_cons (Ne.symm h.1), ih h.2, List.cons_append]

/-- A test that carriage returns and line feeds pass holds of the same texts. -/
theorem all_dropReturns (hreturn : p '\r') (cs : List Char) :
    (dropReturns cs).all p = cs.all p := by
  induction cs with
  | nil => rfl
  | cons c cs ih =>
    rw [dropReturns]
    split
    · next h => rw [ih, List.all_cons, h.1, hreturn, Bool.true_and]
    · rw [List.all_cons, List.all_cons, ih]

/-- What stops at both parts of a line end reads the same. -/
theorem takeWhile_dropReturns (hreturn : p '\r' = false) (hfeed : p '\n' = false) (cs : List Char) :
    (dropReturns cs).takeWhile p = cs.takeWhile p := by
  induction cs with
  | nil => rfl
  | cons c cs ih =>
    rcases dropReturns_cases c cs with h | ⟨cs', rfl, rfl, h⟩
    · rw [h, List.takeWhile_cons, List.takeWhile_cons, ih]
    · rw [h, List.takeWhile_cons_of_neg (by simp [hfeed]),
        List.takeWhile_cons_of_neg (by simp [hreturn])]

theorem head?_any_dropReturns (hreturn : p '\r' = false) (hfeed : p '\n' = false) (cs : List Char) :
    (dropReturns cs).head?.any p = cs.head?.any p := by
  cases cs with
  | nil => rfl
  | cons c cs =>
    rcases dropReturns_cases c cs with h | ⟨cs', rfl, rfl, h⟩
    · rw [h, List.head?_cons, List.head?_cons]
    · simp [h, hreturn, hfeed]

/-- A spelling without line ends is found at the start of the same texts. -/
theorem isPrefixOf_dropReturns (hw : '\r' ∉ w ∧ '\n' ∉ w) (cs : List Char) :
    w.isPrefixOf (dropReturns cs) = w.isPrefixOf cs := by
  induction w generalizing cs with
  | nil => rfl
  | cons d w ih =>
    simp only [List.mem_cons, not_or] at hw
    cases cs with
    | nil => rfl
    | cons c cs =>
      rcases dropReturns_cases c cs with h | ⟨cs', rfl, rfl, h⟩
      · rw [h, List.isPrefixOf_cons_cons, List.isPrefixOf_cons_cons, ih ⟨hw.1.2, hw.2.2⟩]
      · have hd : (d == '\r') = false ∧ (d == '\n') = false := by
          simpa using ⟨Ne.symm hw.1.1, Ne.symm hw.2.1⟩
        rw [h, List.isPrefixOf_cons_cons, List.isPrefixOf_cons_cons, hd.1, hd.2, Bool.false_and,
          Bool.false_and]

end Text

open Text

/-- The place behind a text does not depend on how its line ends are written. -/
theorem Position.behind_dropReturns (p : Position) (cs : List Char) :
    p.behind (dropReturns cs) = p.behind cs := by
  induction hn : cs.length using Nat.strongRecOn generalizing p cs with
  | ind n ih =>
    cases cs with
    | nil => rfl
    | cons c cs =>
      rcases dropReturns_cases c cs with h | ⟨cs', rfl, rfl, h⟩
      · rw [h]
        exact ih cs.length (hn ▸ Nat.lt_succ_self _) (p.next c) cs rfl
      · rw [h]
        exact ih cs'.length (by rw [← hn, List.length_cons, List.length_cons]; omega)
          (p.next '\n') cs' rfl

/-! ## Lexemes -/

/-- Whether a kind is of what is written between quotes, or of names, numbers and faults. No layer
looks at tokens of such a kind. -/
def Kind.isValue : Kind → Bool
  | .atom _ | .address _ | .fault _ => true
  | _ => false

namespace Lexeme

theorem wordLength_dropReturns (cs : List Char) : wordLength (dropReturns cs) = wordLength cs := by
  induction cs with
  | nil => rfl
  | cons c cs ih =>
    rcases dropReturns_cases c cs with h | ⟨cs', rfl, rfl, h⟩
    · rw [h, wordLength, wordLength, ih, head?_any_dropReturns (by decide) (by decide)]
    · rw [h, wordLength, wordLength]
      rfl

theorem mark?_dropReturns (cs : List Char) : mark? (dropReturns cs) = mark? cs := by
  have hspelling : ∀ m : Mark, '\r' ∉ m.spelling.toList ∧ '\n' ∉ m.spelling.toList := by
    intro m
    cases m <;> decide
  rw [mark?, mark?]
  exact congrArg (List.find? · _) (funext fun m => isPrefixOf_dropReturns (hspelling m) cs)

/-- Whether the first characters of a text stay, however line ends are written in it. -/
def Stays (n : Nat) (cs : List Char) : Prop := dropReturns cs = cs.take n ++ dropReturns (cs.drop n)

/-- Whether the first characters of a text end with a carriage return behind a backslash, and a line
feed comes next. -/
structure TornAt (n : Nat) (cs : List Char) : Prop where
  escape : ∃ body, cs.take n = body ++ ['\\', '\r']
  next : ∃ rest, cs.drop n = '\n' :: rest

theorem stays_of_not_mem {n : Nat} {cs : List Char} (h : '\r' ∉ cs.take n) : Stays n cs := by
  rw [Stays, ← dropReturns_append h, List.take_append_drop]

theorem stays_takeWhile {p : Char → Bool} (h : p '\r' = false) (cs : List Char) :
    Stays (cs.takeWhile p).length cs := by
  refine stays_of_not_mem fun hmem => ?_
  rw [← List.prefix_iff_eq_take.1 (List.takeWhile_prefix p)] at hmem
  exact absurd (List.all_eq_true.1 List.all_takeWhile _ hmem) (by simp [h])

variable {c : Char} {n : Nat} {cs : List Char}

theorem Stays.cons (h : Stays n cs) (hc : c ≠ '\r') : Stays (n + 1) (c :: cs) := by
  rw [Stays, dropReturns_cons hc, h]
  rfl

theorem TornAt.cons (h : TornAt n cs) (c : Char) : TornAt (n + 1) (c :: cs) := by
  obtain ⟨body, hbody⟩ := h.escape
  exact ⟨⟨c :: body, by rw [List.take_succ_cons, hbody, List.cons_append]⟩, h.next⟩

/-- A quoted text is read alike, or it is torn off. -/
theorem readQuoted_dropReturns {quote : Char} (hquote : endsLine quote = false ∧ quote ≠ '\\') :
    (cs : List Char) →
      readQuoted quote (dropReturns cs) = readQuoted quote cs ∧ Stays (readQuoted quote cs).1 cs ∨
        (readQuoted quote cs).2 = false ∧ TornAt (readQuoted quote cs).1 cs
  | [] => .inl ⟨rfl, rfl⟩
  | c :: cs => by
    by_cases hend : endsLine c
    · rw [readQuoted_end hend]
      refine .inl ⟨?_, rfl⟩
      rcases dropReturns_cases c cs with h | ⟨cs', rfl, rfl, h⟩
      · rw [h, readQuoted_end hend]
      · rw [h, readQuoted_end (by decide)]
    have hreturn : ∀ {c}, ¬endsLine c → c ≠ '\r' := by
      rintro c hc rfl
      exact hc rfl
    by_cases hclose : c = quote
    · subst hclose
      rw [dropReturns_cons (hreturn hend), readQuoted_close hquote.1, readQuoted_close hquote.1]
      exact .inl ⟨rfl, stays_of_not_mem (by simpa using Ne.symm (hreturn hend))⟩
    by_cases hescape : c = '\\'
    · subst hescape
      rw [dropReturns_cons (by decide)]
      match cs with
      | [] =>
        rw [dropReturns_nil, readQuoted_lone hquote.2]
        exact .inl ⟨rfl, rfl⟩
      | d :: cs =>
        rw [readQuoted_escape hquote.2]
        -- the backslash takes the carriage return of a line end, and nothing else torn
        rcases dropReturns_cases d cs with h | ⟨cs', rfl, rfl, h⟩
        · rw [h, readQuoted_escape hquote.2]
          refine (readQuoted_dropReturns hquote cs).imp (fun ⟨hread, hstays⟩ => ?_)
            fun ⟨hopen, htorn⟩ => ?_
          · refine ⟨by rw [hread], ?_⟩
            rw [Stays, dropReturns_cons (by decide), h, hstays]
            rfl
          · exact ⟨hopen, (htorn.cons d).cons '\\'⟩
        · rw [readQuoted_end (c := '\n') (by decide)]
          exact .inr ⟨rfl, ⟨[], rfl⟩, cs', rfl⟩
    · have hplain : endsLine c = false ∧ c ≠ quote ∧ c ≠ '\\' :=
        ⟨by simpa using hend, hclose, hescape⟩
      rw [dropReturns_cons (hreturn hend), readQuoted_plain hplain, readQuoted_plain hplain]
      refine (readQuoted_dropReturns hquote cs).imp (fun ⟨hread, hstays⟩ => ?_)
        fun ⟨hopen, htorn⟩ => ?_
      · exact ⟨by rw [hread], hstays.cons (hreturn hend)⟩
      · exact ⟨hopen, htorn.cons c⟩

theorem not_mem_of_mark? {m : Mark} (h : mark? (c :: cs) = some m) :
    '\r' ∉ cs.take (m.spelling.length - 1) := by
  obtain ⟨rest, hrest⟩ := prefix_of_mark? h
  have hspelling : '\r' ∉ m.spelling.toList := by
    clear h hrest
    cases m <;> decide
  obtain ⟨d, w, hw⟩ := List.exists_cons_of_ne_nil (spelling_ne_nil m)
  rw [hw, List.cons_append, List.cons.injEq] at hrest
  rw [hw, List.mem_cons, not_or] at hspelling
  rw [hrest.2, List.take_left' (by rw [← String.length_toList, hw]; rfl)]
  exact hspelling.2

theorem not_mem_of_wordLength (cs : List Char) : '\r' ∉ cs.take (wordLength cs) := by
  induction cs with
  | nil => simp
  | cons c cs ih =>
    have hcons : c ≠ '\r' → '\r' ∉ (c :: cs).take (wordLength cs + 1) := fun hc => by
      simp [Ne.symm hc, ih]
    rw [wordLength]
    split
    · next hword =>
      refine hcons ?_
      rintro rfl
      cases hword
    · split
      · next hdash =>
        refine hcons ?_
        rintro rfl
        cases hdash
      · simp

/-- What starts with a quote is a literal, whole or with a fault. -/
theorem isValue_of_quote (hc : c = '\x22' ∨ c = '\x27') (cs : List Char) :
    (read c cs).kind.isValue := by
  rcases hc with rfl | rfl
  · rw [read_doubleQuote]
    cases (readQuoted '\x22' cs).2 <;> rfl
  · rw [read_singleQuote]
    cases (readQuoted '\x27' cs).2 with
    | false => rfl
    | true =>
      rcases classify_eq ('\x27' :: cs.take (readQuoted '\x27' cs).1) with
        ⟨a, h, -⟩ | ⟨v, h⟩ | ⟨f, h⟩
      all_goals
        rw [if_pos rfl, h]
        rfl

/-- A lexeme is read alike, or it is a quoted literal that is torn off. -/
theorem read_dropReturns (hc : isSpace c = false) (cs : List Char) :
    read c (dropReturns cs) = read c cs ∧ Stays (read c cs).more cs ∨
      (∃ f : Fault, (read c cs).kind = .fault f ∧ (f = .unclosedString ∨ f = .unclosedLiteral)) ∧
        TornAt (read c cs).more cs ∧ (read c (dropReturns cs)).kind.isValue := by
  have hreturn : c ≠ '\r' := by
    rintro rfl
    cases hc
  have hline : lineLength (dropReturns cs) = lineLength cs := by
    rw [lineLength, lineLength, takeWhile_dropReturns rfl rfl]
  by_cases hdigit : Literal.isDigit c
  · rw [read_digit hdigit, read_digit hdigit, takeWhile_dropReturns rfl rfl]
    exact .inl ⟨rfl, stays_takeWhile rfl cs⟩
  by_cases htick : c = '\x60'
  · rw [htick, read_tick, read_tick, hline]
    exact .inl ⟨rfl, stays_takeWhile rfl cs⟩
  by_cases hdouble : c = '\x22'
  · subst hdouble
    have hvalue := isValue_of_quote (.inl rfl) (dropReturns cs)
    have hquote : endsLine '\x22' = false ∧ '\x22' ≠ '\\' := by decide
    rcases readQuoted_dropReturns hquote cs with ⟨hread, hstays⟩ | ⟨hopen, htorn⟩
    · rw [read_doubleQuote, read_doubleQuote, hread]
      exact .inl ⟨rfl, hstays⟩
    · refine .inr ⟨⟨.unclosedString, ?_, .inl rfl⟩, ?_, hvalue⟩
      · rw [read_doubleQuote, hopen]
        rfl
      · rwa [read_doubleQuote]
  by_cases hsingle : c = '\x27'
  · subst hsingle
    have hvalue := isValue_of_quote (.inr rfl) (dropReturns cs)
    have hquote : endsLine '\x27' = false ∧ '\x27' ≠ '\\' := by decide
    rcases readQuoted_dropReturns hquote cs with ⟨hread, hstays⟩ | ⟨hopen, htorn⟩
    · have htake : (dropReturns cs).take (readQuoted '\x27' cs).1 =
          cs.take (readQuoted '\x27' cs).1 := by
        rw [hstays, List.take_left' (List.length_take_of_le (Glyph.readQuoted_le '\x27' cs))]
      rw [read_singleQuote, read_singleQuote, hread, htake]
      exact .inl ⟨rfl, hstays⟩
    · refine .inr ⟨⟨.unclosedLiteral, ?_, .inr rfl⟩, ?_, hvalue⟩
      · rw [read_singleQuote, hopen]
        rfl
      · rwa [read_singleQuote]
  · have hother := read_other (by simpa using hdigit) ⟨htick, hdouble, hsingle⟩
    have hmark := mark?_dropReturns (c :: cs)
    have hslash := head?_any_dropReturns (p := (· == '/')) rfl rfl cs
    have hhead : ∀ cs : List Char, (cs.head? == some '/') = cs.head?.any (· == '/') := by
      intro cs
      cases cs <;> rfl
    rw [dropReturns_cons hreturn] at hmark
    rw [hother, hother, hhead, hhead, hslash, hmark, hline, wordLength_dropReturns]
    left
    split
    · exact ⟨rfl, stays_takeWhile rfl cs⟩
    · split
      · next m hm => exact ⟨rfl, stays_of_not_mem (not_mem_of_mark? hm)⟩
      · split
        · have hstays : Stays (wordLength cs) cs := stays_of_not_mem (not_mem_of_wordLength cs)
          refine ⟨?_, hstays⟩
          rw [hstays, List.take_left' (List.length_take_of_le (Glyph.wordLength_le cs))]
        · exact ⟨rfl, rfl⟩

end Lexeme

/-! ## Streams -/

open Lexeme

/-- Whether a token is a quoted literal that ends with a carriage return behind a backslash, at a
line feed of a text. -/
structure Token.TornIn (t : Token) (cs : List Char) : Prop where
  kind : t.kind = .fault .unclosedString ∨ t.kind = .fault .unclosedLiteral
  escape : ∃ body, t.text.toList = body ++ ['\\', '\r']
  place : ∃ before behind, cs = before ++ t.text.toList ++ '\n' :: behind

theorem Token.TornIn.append {t : Token} {cs : List Char} (h : t.TornIn cs) (w : List Char) :
    t.TornIn (w ++ cs) := by
  obtain ⟨before, behind, hplace⟩ := h.place
  exact ⟨h.kind, h.escape, w ++ before, behind, by rw [hplace]; simp⟩

/-- Whether tokens are the same up to a given one, and another name, literal or fault is in its
place. What comes behind it may be anything. -/
inductive Parts (x : Token) : List Token → List Token → Prop where
  | here {y : Token} (value : y.kind.isValue) (ts ts' : List Token) : Parts x (x :: ts) (y :: ts')
  | behind (t : Token) {ts ts' : List Token} (h : Parts x ts ts') : Parts x (t :: ts) (t :: ts')

theorem Parts.mem {x : Token} {ts ts' : List Token} (h : Parts x ts ts') : x ∈ ts := by
  induction h with
  | here => exact List.mem_cons_self
  | behind t _ ih => exact List.mem_cons_of_mem t ih

namespace Stream

/-- A text is read alike with all its line ends unified, up to a literal that is torn off. -/
theorem scan_dropReturns (file : String) (p : Position) (cs : List Char) :
    scan file p 0 (dropReturns cs) = scan file p 0 cs ∨
      ∃ x : Token, x.TornIn cs ∧
        Parts x ((scan file p 0 cs).map Reading.token)
          ((scan file p 0 (dropReturns cs)).map Reading.token) := by
  induction hn : cs.length using Nat.strongRecOn generalizing p cs with
  | ind n ih =>
    cases cs with
    | nil => exact .inl rfl
    | cons c cs =>
      rw [List.length_cons] at hn
      by_cases hspace : isSpace c
      · rcases dropReturns_cases c cs with h | ⟨cs', rfl, rfl, h⟩
        · have hscan : ∀ cs, scan file p 0 (c :: cs) = scan file (p.next c) 0 cs := fun cs => by
            rw [scan, if_pos hspace]
          rw [h, hscan, hscan]
          refine (ih cs.length (by omega) (p.next c) cs rfl).imp id ?_
          rintro ⟨x, htorn, hparts⟩
          exact ⟨x, htorn.append [c], hparts⟩
        · rw [h]
          refine (ih cs'.length (by rw [List.length_cons] at hn; omega) (p.next '\n') cs' rfl).imp
            id ?_
          rintro ⟨x, htorn, hparts⟩
          exact ⟨x, htorn.append ['\r', '\n'], hparts⟩
      have hc : isSpace c = false := by simpa using hspace
      have hreturn : c ≠ '\r' := by
        rintro rfl
        cases hc
      have hscan : ∀ cs, scan file p 0 (c :: cs) =
          readingOf (tokenAt file p c cs) (cs.drop (Lexeme.read c cs).more) ::
            scan file ((p.next c).behind (cs.take (Lexeme.read c cs).more)) 0
              (cs.drop (Lexeme.read c cs).more) := by
        intro cs
        rw [scan, if_neg hspace, ← scan_skip]
      have hlength := Glyph.more_le c cs
      rw [dropReturns_cons hreturn, hscan, hscan]
      rcases read_dropReturns hc cs with ⟨hread, hstays⟩ | ⟨⟨f, hf, hcode⟩, htorn, hvalue⟩
      · have htake : (dropReturns cs).take (Lexeme.read c cs).more =
            cs.take (Lexeme.read c cs).more := by
          rw [hstays, List.take_left' (List.length_take_of_le hlength)]
        have hdrop : (dropReturns cs).drop (Lexeme.read c cs).more =
            dropReturns (cs.drop (Lexeme.read c cs).more) := by
          rw [hstays, List.drop_left' (List.length_take_of_le hlength)]
        have htoken : tokenAt file p c (dropReturns cs) = tokenAt file p c cs := by
          simp only [tokenAt, hread, htake]
        have hreading : readingOf (tokenAt file p c cs)
            (dropReturns (cs.drop (Lexeme.read c cs).more)) =
            readingOf (tokenAt file p c cs) (cs.drop (Lexeme.read c cs).more) := by
          rw [readingOf, readingOf, all_dropReturns rfl]
        rw [hread, htake, hdrop, htoken, hreading]
        refine (ih _ (by rw [List.length_drop]; omega) _ (cs.drop (Lexeme.read c cs).more) rfl).imp
          (congrArg _) ?_
        rintro ⟨x, htorn, hparts⟩
        refine ⟨x, ?_, .behind _ hparts⟩
        have hcs : c :: cs =
            (c :: cs.take (Lexeme.read c cs).more) ++ cs.drop (Lexeme.read c cs).more := by
          rw [List.cons_append, List.take_append_drop]
        rw [hcs]
        exact htorn.append _
      · obtain ⟨body, hbody⟩ := htorn.escape
        obtain ⟨rest, hrest⟩ := htorn.next
        have htext : (tokenAt file p c cs).text.toList = c :: cs.take (Lexeme.read c cs).more := by
          simp only [tokenAt, hf, tokenText, String.toList_ofList]
        refine .inr ⟨tokenAt file p c cs, ⟨?_, ⟨c :: body, ?_⟩, [], rest, ?_⟩, .here hvalue _ _⟩
        · rcases hcode with rfl | rfl
          · exact .inl hf
          · exact .inr hf
        · rw [htext, hbody, List.cons_append]
        · rw [htext, List.nil_append, ← hrest, List.cons_append, List.take_append_drop]

/-- A text with its line ends unified is the same stream, or the same up to a literal that is torn
off. -/
theorem ofText_unifyLineEnds (text file : String) :
    ofText (unifyLineEnds text) file = ofText text file ∨
      ∃ x : Token, x.TornIn text.toList ∧
        Parts x (ofText text file).tokens (ofText (unifyLineEnds text) file).tokens := by
  have hlist : (unifyLineEnds text).toList = dropReturns text.toList := String.toList_ofList
  refine (scan_dropReturns file .start text.toList).imp (fun h => ?_) fun h => ?_
  · simp only [ofText, hlist, h, all_dropReturns (p := isSpace) rfl, Position.behind_dropReturns]
  · simpa only [tokens, ofText, hlist] using h

end Stream

end DocExpr
