import DocExpr.Proofs.Lexing.Glyph

/-!
# Texts are tiled by their tokens

Nothing of a text is lost between its tokens, and every token knows where it stands. `Tiles` says
so: the lexemes of a text, each with the space before it, and the space behind the last are the
text; each lexeme is what is read at its place, and is the text of its token; and the origin of a
token counts what comes before it (`Origin.Marks`). The positions that are kept during the walk over
a text are such counts as long as they fit into 32 bits (`Position.behind_start`), so every text
that is short enough is tiled (`Stream.tiles_readEofs`).
-/

namespace DocExpr

open Lexeme

/-- Whether an origin is that of a lexeme with a text before it: its line is one more than the
number of line feeds before, its column one more than the number of characters behind the last of
these. -/
structure Origin.Marks (o : Origin) (file : String) (before lexeme : List Char) : Prop where
  file : o.file = file
  line : o.line.toNat = 1 + before.count '\n'
  column : o.column.toNat = 1 + (before.reverse.takeWhile (· ≠ '\n')).length
  length : o.length.toNat = lexeme.length

/-- A lexeme, with the space before it and the token that it becomes. -/
structure Piece where
  gap : List Char
  lexeme : List Char
  token : Token

/-- The text of pieces one after the other. -/
def Piece.covered (pieces : List Piece) : List Char :=
  pieces.flatMap fun piece => piece.gap ++ piece.lexeme

open Piece (covered)

/-- Whether a text that comes behind another one consists of pieces, with only space behind them. -/
structure Tiles (before text : List Char) (file : String) (pieces : List Piece) (tail : List Char) :
    Prop where
  text_eq : text = covered pieces ++ tail
  space : ∀ c ∈ tail, isSpace c
  gap : ∀ piece ∈ pieces, ∀ c ∈ piece.gap, isSpace c
  token_text : ∀ piece ∈ pieces, piece.token.text = String.ofList piece.lexeme
  lexeme : ∀ (i : Nat) (piece : Piece), pieces[i]? = some piece →
    ∃ c w, piece.lexeme = c :: w ∧ isSpace c = false ∧
      read c (w ++ (covered (pieces.drop (i + 1)) ++ tail)) = ⟨piece.token.kind, w.length⟩
  place : ∀ (i : Nat) (piece : Piece), pieces[i]? = some piece →
    piece.token.origin.Marks file (before ++ covered (pieces.take i) ++ piece.gap) piece.lexeme

/-! ## Positions -/

namespace Position

theorem behind_append_singleton (p : Position) (cs : List Char) (c : Char) :
    p.behind (cs ++ [c]) = (p.behind cs).next c := by
  simp [behind]

theorem toNat_add_one {n : UInt32} {k : Nat} (h : n.toNat = 1 + k) (hk : k < UInt32.size - 2) :
    (n + 1).toNat = 1 + (k + 1) := by
  have hone : (1 : UInt32).toNat = 1 := rfl
  rw [UInt32.size] at hk
  rw [UInt32.toNat_add, hone, h]
  omega

/-- The position behind a text counts its line feeds, and what comes behind the last of them. -/
theorem behind_start {cs : List Char} (h : cs.length < UInt32.size - 1) :
    (start.behind cs).line.toNat = 1 + cs.count '\n' ∧
      (start.behind cs).column.toNat = 1 + (cs.reverse.takeWhile (· ≠ '\n')).length := by
  induction cs using List.reverseRecOn with
  | nil => exact ⟨rfl, rfl⟩
  | append_singleton cs c ih =>
    rw [List.length_append, List.length_singleton] at h
    obtain ⟨hline, hcolumn⟩ := ih (by omega)
    rw [behind_append_singleton, next, List.reverse_append, List.reverse_singleton,
      List.singleton_append, List.count_append]
    by_cases hc : c = '\n'
    · subst hc
      have hcount := cs.count_le_length (a := '\n')
      simpa using toNat_add_one hline (by omega)
    · have hlength := (cs.reverse.takeWhile_prefix (· ≠ '\n')).length_le
      rw [List.length_reverse] at hlength
      rw [if_neg hc, List.takeWhile_cons_of_pos (by simpa using hc), List.length_cons]
      exact ⟨by simpa [List.count_singleton, hc] using hline, toNat_add_one hcolumn (by omega)⟩

/-- The origin of a token at the position behind a text marks what the token is read from. -/
theorem marks_behind_start (file : String) (before lexeme : List Char)
    (h : (before ++ lexeme).length < UInt32.size - 1) :
    (⟨file, (start.behind before).line, (start.behind before).column,
      Stream.boundedLength lexeme.length⟩ : Origin).Marks file before lexeme := by
  rw [List.length_append] at h
  have hbefore : before.length < UInt32.size - 1 := by omega
  obtain ⟨hline, hcolumn⟩ := behind_start hbefore
  refine ⟨rfl, hline, hcolumn, ?_⟩
  rw [UInt32.size] at h
  rw [Stream.boundedLength, UInt32.toNat_ofNat']
  omega

end Position

/-! ## Tilings -/

theorem Piece.covered_cons (piece : Piece) (pieces : List Piece) :
    covered (piece :: pieces) = piece.gap ++ piece.lexeme ++ covered pieces := by
  simp [covered]

theorem Tiles.done {before tail : List Char} (file : String) (h : ∀ c ∈ tail, isSpace c) :
    Tiles before tail file [] tail where
  text_eq := rfl
  space := h
  gap := by simp
  token_text := by simp
  lexeme := by simp
  place := by simp

/-- A piece before a tiled text. -/
theorem Tiles.next {before gap w rest tail : List Char} {c : Char} {k : Kind} {file : String}
    {o : Origin} {pieces : List Piece} (hgap : ∀ d ∈ gap, isSpace d) (hc : isSpace c = false)
    (hread : read c (w ++ rest) = ⟨k, w.length⟩) (ho : o.Marks file (before ++ gap) (c :: w))
    (h : Tiles (before ++ gap ++ (c :: w)) rest file pieces tail) :
    Tiles before (gap ++ (c :: w ++ rest)) file
      (⟨gap, c :: w, k, String.ofList (c :: w), o⟩ :: pieces) tail where
  text_eq := by rw [Piece.covered_cons, h.text_eq]; simp
  space := h.space
  gap := List.forall_mem_cons.2 ⟨hgap, h.gap⟩
  token_text := List.forall_mem_cons.2 ⟨rfl, h.token_text⟩
  lexeme := by
    intro i piece hi
    cases i with
    | zero =>
      obtain rfl := Option.some.inj hi
      exact ⟨c, w, rfl, hc, by simpa [← h.text_eq] using hread⟩
    | succ i => exact h.lexeme i piece hi
  place := by
    intro i piece hi
    cases i with
    | zero =>
      obtain rfl := Option.some.inj hi
      simpa [covered] using ho
    | succ i => simpa [Piece.covered_cons] using h.place i piece hi

/-- The tokens of glyphs tile the text of which these are the glyphs. -/
theorem Glyph.Scans.exists_tiles {cs : List Char} {gs : List Glyph} (h : Scans cs gs)
    (file : String) (before : List Char) (hlength : (before ++ cs).length < UInt32.size - 1) :
    ∃ pieces tail, Tiles before cs file pieces tail ∧
      pieces.map Piece.token = placed file (Position.start.behind before) gs := by
  induction h generalizing before with
  | done htail => exact ⟨[], _, .done file htail, rfl⟩
  | @next gap k c w rest gs hgap hc hread hrest ih =>
    obtain ⟨pieces, tail, htiles, htokens⟩ := ih (before ++ gap ++ (c :: w))
      (by simpa [Nat.add_assoc] using hlength)
    have hmarks := Position.marks_behind_start file (before ++ gap) (c :: w)
      (by simp at hlength ⊢; omega)
    refine ⟨_, tail, .next hgap hc hread hmarks htiles, ?_⟩
    simp only [List.map_cons, htokens, placed, behind_append]

/-! ## Streams -/

namespace Stream

theorem takeEofs_of_forall_ne {rs : List Reading} (h : ∀ r ∈ rs, r.token.kind ≠ .eof) (n : Nat) :
    takeEofs (n + 1) rs = (rs, n + 1) := by
  induction rs with
  | nil => rfl
  | cons r rs ih =>
    obtain ⟨hr, hrs⟩ := List.forall_mem_cons.1 h
    simp [takeEofs, hr, ih hrs]

/-- Where no token is an end of the input, the ends that are read are those behind the tokens. -/
theorem map_token_readEofs {s : Stream} (h : ∀ t ∈ s.tokens, t.kind ≠ .eof) (n : Nat) :
    (s.readEofs (n + 1)).map Reading.token = s.tokens ++ List.replicate (n + 1)
    (.eof s.finish) := by
  rw [tokens, List.forall_mem_map] at h
  rw [readEofs, takeEofs_of_forall_ne h, List.map_append, List.map_replicate]
  rfl

/-- A text is tiled by the tokens that are read up to the first end of the input. This end stands
behind the whole text and is read ever after. -/
theorem tiles_readEofs (text file : String) (h : text.length < UInt32.size - 1) :
    ∃ pieces tail last, Tiles [] text.toList file pieces tail ∧
      (∀ piece ∈ pieces, piece.token.kind ≠ .eof) ∧
      last.kind = .eof ∧ last.text = "" ∧ last.origin.Marks file text.toList [] ∧
      ∀ n, ((ofText text file).readEofs (n + 1)).map Reading.token =
        pieces.map Piece.token ++ List.replicate (n + 1) last := by
  rw [← String.length_toList] at h
  obtain ⟨gs, hscan⟩ := Glyph.exists_scans text.toList
  have htokens := hscan.tokens_ofText file
  have hkind : ∀ t ∈ (ofText text file).tokens, t.kind ≠ .eof := by
    rw [htokens]
    intro t ht
    obtain ⟨g, hg, o, rfl⟩ := Glyph.mem_placed ht
    exact (hscan.kind_ne hg).1
  obtain ⟨pieces, tail, htiles, hpieces⟩ := hscan.exists_tiles file [] h
  replace hpieces : pieces.map Piece.token = (ofText text file).tokens := hpieces.trans htokens.symm
  refine ⟨pieces, tail, .eof (ofText text file).finish, htiles, ?_, rfl, rfl, ?_, fun n => ?_⟩
  · rwa [← hpieces, List.forall_mem_map] at hkind
  · exact Position.marks_behind_start file text.toList [] (by rwa [List.append_nil])
  · rw [map_token_readEofs hkind, hpieces]

/-- A string with an escaped line feed is one token, and the tokens behind it stand on the second
line. -/
theorem tiles_readEofs_escaped_line_feed :
    let text := "\"é\\\n\" ->x"
    let token (k : Kind) (text : String) (line column length : UInt32) : Token :=
      ⟨k, text, "", line, column, length⟩
    text.length < UInt32.size - 1 ∧ ∃ pieces tail, Tiles [] text.toList "" pieces tail ∧
      pieces.map Piece.token = [token (.atom .string) "\"é\\\n\"" 1 1 5,
        token (.mark .rightArrow) "->" 2 3 2, token (.atom .identifier) "x" 2 5 1] := by
  intro text token
  have h : text.length < UInt32.size - 1 := by decide
  obtain ⟨pieces, tail, last, htiles, -, -, -, -, hread⟩ := tiles_readEofs text "" h
  have htokens : ((ofText text "").readEofs 1).map Reading.token =
      [token (.atom .string) "\"é\\\n\"" 1 1 5, token (.mark .rightArrow) "->" 2 3 2,
        token (.atom .identifier) "x" 2 5 1] ++ [.eof ⟨"", 2, 6, 0⟩] := by decide +kernel
  exact ⟨h, pieces, tail, htiles, (List.append_inj' ((hread 0).symm.trans htokens) rfl).1⟩

end Stream

end DocExpr
