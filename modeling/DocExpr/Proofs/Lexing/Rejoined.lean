import DocExpr.Proofs.Lexing.Grammar

/-!
# Lexemes on lines of their own

The texts of the tokens of a text, with a line feed between each two, are read as the same tokens
(`Stream.tokens_ofText_intercalate`). What is read without a fault is read alike before any line
feed. A fault is not read alike before anything, because what is behind a quote that nothing closes
goes on as far as its line does; but before a line feed it is (`Lexeme.read_append_newline`), unless
it ends in a backslash at the end of the text, and then there is no token behind it.
-/

namespace DocExpr

namespace Lexeme

variable {quote c : Char} {w rest rest' cs : List Char} {k : Kind}

/-- What is read behind a quote is read alike before a line feed. Only at the end of a text can it
end in a backslash that takes nothing. -/
theorem readQuoted_append_newline (hquote : quote ≠ '\\') (hrest' : ∀ d ∈ rest'.head?, d = '\n')
    (hend : rest = [] → rest' = []) :
    (w : List Char) → (readQuoted quote (w ++ rest)).1 = w.length →
      readQuoted quote (w ++ rest') = readQuoted quote (w ++ rest)
  | [], h => by
    have hopen : (readQuoted quote rest).2 = false := by
      refine Bool.eq_false_iff.2 fun hclosed => ?_
      exact absurd (readQuoted_pos quote rest hclosed) (by rw [List.nil_append] at h; simp [h])
    have hread : readQuoted quote rest' = (0, false) := by
      cases rest' with
      | nil => rfl
      | cons d rest' => exact readQuoted_end (by rw [hrest' d rfl]; rfl) rest'
    rw [List.nil_append, List.nil_append, hread]
    exact Prod.ext h.symm hopen.symm
  | c :: w, h => by
    rw [List.cons_append] at h
    rw [List.cons_append, List.cons_append]
    by_cases hline : endsLine c
    · rw [readQuoted_end hline, readQuoted_end hline]
    by_cases hclose : c = quote
    · subst hclose
      rw [readQuoted_close (by simpa using hline), readQuoted_close (by simpa using hline)]
    by_cases hescape : c = '\\'
    · subst hescape
      cases w with
      | nil =>
        cases rest with
        | nil => rw [hend rfl]
        | cons d rest =>
          rw [List.nil_append, readQuoted_escape hquote] at h
          simp at h
      | cons d w =>
        rw [List.cons_append, readQuoted_escape hquote, List.length_cons, List.length_cons,
          Nat.add_right_cancel_iff] at h
        rw [List.cons_append, List.cons_append, readQuoted_escape hquote, readQuoted_escape hquote,
          readQuoted_append_newline hquote hrest' hend w h]
    · have hplain : endsLine c = false ∧ c ≠ quote ∧ c ≠ '\\' :=
        ⟨by simpa using hline, hclose, hescape⟩
      rw [readQuoted_plain hplain, List.length_cons, Nat.add_right_cancel_iff] at h
      rw [readQuoted_plain hplain, readQuoted_plain hplain,
        readQuoted_append_newline hquote hrest' hend w h]

/-- No mark has a line feed in it. -/
theorem mark?_newline (h : mark? (c :: rest) = none) (hrest' : ∀ d ∈ rest'.head?, d = '\n') :
    mark? (c :: rest') = none := by
  have hspelling : ∀ m ∈ Mark.longestFirst, '\n' ∉ m.spelling.toList := by decide
  refine List.find?_eq_none.2 fun m hm hstart => List.find?_eq_none.1 h m hm ?_
  rw [List.isPrefixOf_iff_prefix] at hstart ⊢
  obtain ⟨d, ds, hd⟩ := List.exists_cons_of_ne_nil (spelling_ne_nil m)
  rw [hd, List.cons_prefix_cons] at hstart
  obtain ⟨rfl, tail, htail⟩ := hstart
  cases ds with
  | nil => simp [hd]
  | cons e ds =>
    obtain rfl : e = '\n' := hrest' e (by rw [← htail]; rfl)
    exact absurd (by simp [hd]) (hspelling m hm)

/-- What starts no lexeme, so that one character is read as a fault. -/
def StartsNone (c : Char) (cs : List Char) : Prop :=
  Literal.isDigit c = false ∧ c ≠ '\x60' ∧ mark? (c :: cs) = none ∧ startsWord c = false

theorem read_startsNone (hquotes : c ≠ '\x22' ∧ c ≠ '\x27') (h : StartsNone c cs) :
    read c cs = ⟨.fault .unrecognizedChar, 0⟩ := by
  obtain ⟨hdigit, htick, hmark, hword⟩ := h
  have hslash : c ≠ '/' := by
    rintro rfl
    exact List.find?_eq_none.1 hmark .slash (Mark.mem_longestFirst _)
      (List.isPrefixOf_iff_prefix.2 (List.prefix_append ['/'] cs))
  rw [read_other hdigit ⟨htick, hquotes⟩, if_neg (by simp [hslash]), hmark]
  exact if_neg (by simp [hword])

/-- Faults are read at quotes, or where no lexeme starts. -/
theorem startsNone_of_isFault (hquotes : c ≠ '\x22' ∧ c ≠ '\x27') (h : (read c cs).kind.isFault) :
    StartsNone c cs := by
  by_cases hdigit : Literal.isDigit c
  · rw [read_digit hdigit] at h
    cases h
  by_cases htick : c = '\x60'
  · rw [htick, read_tick] at h
    cases h
  by_cases hword : startsWord c
  · rw [read_word hword] at h
    rcases wordKind_eq (c :: cs.take (wordLength cs)) with ⟨k, hk⟩ | hk <;> rw [hk] at h <;> cases h
  refine ⟨by simpa using hdigit, htick, ?_, by simpa using hword⟩
  rw [read_other (by simpa using hdigit) ⟨htick, hquotes⟩] at h
  split at h
  · cases h
  cases hmark : mark? (c :: cs) with
  | none => rfl
  | some m =>
    rw [hmark] at h
    cases h

/-- Whatever is read is read alike before a line feed, and at the end of a text if it was read there
or ends there. -/
theorem read_append_newline (h : read c (w ++ rest) = ⟨k, w.length⟩)
    (hrest' : ∀ d ∈ rest'.head?, d = '\n') (hend : rest = [] → rest' = []) :
    read c (w ++ rest') = ⟨k, w.length⟩ := by
  have quoted : ∀ {n}, (readQuoted c (w ++ rest)).1 = n → n = w.length → c ≠ '\\' →
      readQuoted c (w ++ rest') = readQuoted c (w ++ rest) := fun hn hlength hquote =>
    readQuoted_append_newline hquote hrest' hend w (hn.trans hlength)
  by_cases hdouble : c = '\x22'
  · subst hdouble
    have hlength : (readQuoted '\x22' (w ++ rest)).1 = w.length := congrArg more h
    rw [← h, read_doubleQuote, read_doubleQuote, quoted hlength rfl (by decide)]
  by_cases hsingle : c = '\x27'
  · subst hsingle
    have hlength : (readQuoted '\x27' (w ++ rest)).1 = w.length := congrArg more h
    rw [← h, read_singleQuote, read_singleQuote, quoted hlength rfl (by decide), hlength,
      List.take_left, List.take_left]
  cases hk : k.isFault with
  | false => exact read_append h hk fun d hd => hrest' d hd ▸ k.extendedBy_newline
  | true =>
    have hnone : StartsNone c (w ++ rest) :=
      startsNone_of_isFault ⟨hdouble, hsingle⟩ (by rw [h]; exact hk)
    have hread := read_startsNone ⟨hdouble, hsingle⟩ hnone
    rw [h, Lexeme.mk.injEq] at hread
    obtain ⟨rfl, hlength⟩ := hread
    obtain rfl := List.eq_nil_of_length_eq_zero hlength
    exact read_startsNone ⟨hdouble, hsingle⟩
      ⟨hnone.1, hnone.2.1, mark?_newline hnone.2.2.1 hrest', hnone.2.2.2⟩

end Lexeme

/-! ## Texts -/

open Lexeme

namespace Glyph

variable {cs rest : List Char} {gs : List Glyph}

/-- Glyphs, each at the start of a line below the one before it. -/
def eachBelow (gs : List Glyph) : List Glyph := gs.map fun g => { g with gap := ['\n'] }

/-- Glyphs, each at the start of a line, the first one at the start of a text. -/
def onLines : List Glyph → List Glyph
  | [] => []
  | g :: gs => { g with gap := [] } :: eachBelow gs

theorem laid_onLines (gs : List Glyph) : laid (onLines gs) = ['\n'].intercalate (gs.map text) := by
  have heach : ∀ (g : Glyph) (gs : List Glyph),
      g.text ++ laid (eachBelow gs) = ['\n'].intercalate ((g :: gs).map text) := by
    intro g gs
    induction gs generalizing g with
    | nil => simp [eachBelow]
    | cons h gs ih => simpa [eachBelow] using ih h
  cases gs with
  | nil => rfl
  | cons g gs => simpa [onLines] using heach g gs

theorem head?_laid_eachBelow (gs : List Glyph) : ∀ d ∈ (laid (eachBelow gs)).head?, d = '\n' := by
  cases gs <;> simp [eachBelow]

theorem Scans.eq_nil (h : Scans [] gs) : gs = [] := by
  generalize hcs : ([] : List Char) = cs at h
  cases h with
  | done => rfl
  | next => simp at hcs

/-- A lexeme is read before glyphs on lines of their own as it is read before these glyphs. -/
theorem Scans.next_eachBelow {k : Kind} {c : Char} {w : List Char} (gap : List Char)
    (hgap : ∀ d ∈ gap, isSpace d) (hc : isSpace c = false)
    (hread : Lexeme.read c (w ++ rest) = ⟨k, w.length⟩) (hrest : Scans rest gs)
    (h : Scans (laid (eachBelow gs)) (eachBelow gs)) :
    Scans (gap ++ (c :: w ++ laid (eachBelow gs))) (⟨gap, k, c :: w⟩ :: eachBelow gs) := by
  refine .next hgap hc (read_append_newline hread (head?_laid_eachBelow gs) fun hnil => ?_) h
  subst hnil
  rw [hrest.eq_nil]
  rfl

/-- The lexemes of a text are read again if each of them is on a line of its own. -/
theorem Scans.onLines (h : Scans cs gs) : Scans (laid (onLines gs)) (onLines gs) := by
  have heach : ∀ {rest gs}, Scans rest gs → Scans (laid (eachBelow gs)) (eachBelow gs) := by
    intro rest gs h
    induction h with
    | done => exact .done (by simp [eachBelow])
    | next hgap hc hread hrest ih =>
      simpa [eachBelow] using Scans.next_eachBelow ['\n'] (by decide) hc hread hrest ih
  cases h with
  | done => exact .done (by simp [Glyph.onLines])
  | next hgap hc hread hrest =>
    simpa [Glyph.onLines] using Scans.next_eachBelow [] (by simp) hc hread hrest (heach hrest)

theorem map_onLines (gs : List Glyph) : (onLines gs).map (fun g => (g.kind, g.text)) =
    gs.map fun g => (g.kind, g.text) := by
  cases gs <;> simp [onLines, eachBelow]

end Glyph

namespace Stream

/-- The texts of the tokens of a text, with a line feed between each two, are read as tokens of the
same kinds with the same texts. -/
theorem tokens_ofText_intercalate (text file file' : String) :
    (ofText ("\n".intercalate ((ofText text file).tokens.map Token.text)) file').tokens.map
        (fun t => (t.kind, t.text.toList)) =
      (ofText text file).tokens.map fun t => (t.kind, t.text.toList) := by
  obtain ⟨gs, hgs⟩ := Glyph.exists_scans text.toList
  have htexts : ((ofText text file).tokens.map Token.text).map String.toList =
      gs.map Glyph.text := by
    rw [hgs.tokens_ofText file, Glyph.map_text_placed, List.map_map]
    simp [Function.comp_def]
  have hlines : ("\n".intercalate ((ofText text file).tokens.map Token.text)).toList =
      Glyph.laid (Glyph.onLines gs) := by
    rw [String.toList_intercalate, htexts, Glyph.laid_onLines]
    rfl
  have hscans := hgs.onLines
  rw [← hlines] at hscans
  rw [hscans.tokens_ofText file', hgs.tokens_ofText file, Glyph.map_placed, Glyph.map_placed,
    Glyph.map_onLines]

end Stream

end DocExpr
