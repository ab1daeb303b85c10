import DocExpr.Proofs.Lexing.Stable
import DocExpr.Stream.Text
import Mathlib.Data.List.Chain

/-!
# Texts as lexemes with space between them

A `Glyph` is a lexeme with the space before it. `Glyph.Scans` says of which glyphs a text consists:
of some, always (`Glyph.exists_scans`), and of no others (`Glyph.Scans.unique`). The tokens of a
text are its glyphs, each at its place (`Glyph.Scans.tokens_ofText`).

Stable lexemes with space before each are scanned as what they are if none is extended by what
follows it (`Glyph.scans_laid`).
-/

namespace DocExpr

open Lexeme

/-- A lexeme, with the space before it. -/
structure Glyph where
  gap : List Char
  kind : Kind
  text : List Char
deriving DecidableEq

namespace Glyph

/-- The text of glyphs one after the other. -/
def laid (gs : List Glyph) : List Char := gs.flatMap fun g => g.gap ++ g.text

@[simp] theorem laid_nil : laid [] = [] := rfl

@[simp] theorem laid_cons (g : Glyph) (gs : List Glyph) :
    laid (g :: gs) = g.gap ++ (g.text ++ laid gs) := by
  simp [laid]

@[simp] theorem laid_append (gs hs : List Glyph) : laid (gs ++ hs) = laid gs ++ laid hs := by
  simp [laid]

/-- Of which glyphs a text consists, with only space behind them. -/
inductive Scans : List Char → List Glyph → Prop where
  | done {tail : List Char} (htail : ∀ c ∈ tail, isSpace c) : Scans tail []
  | next {gap : List Char} {k : Kind} {c : Char} {w rest : List Char} {gs : List Glyph}
      (hgap : ∀ d ∈ gap, isSpace d) (hc : isSpace c = false)
      (hread : read c (w ++ rest) = ⟨k, w.length⟩) (hrest : Scans rest gs) :
      Scans (gap ++ (c :: w ++ rest)) (⟨gap, k, c :: w⟩ :: gs)

theorem readQuoted_le (quote : Char) : (cs : List Char) → (readQuoted quote cs).1 ≤ cs.length
  | [] => by simp [readQuoted]
  | [c] => by
    unfold readQuoted
    split
    · simp
    · split
      · simp
      · split
        · simp
        · simp [readQuoted]
  | c :: d :: cs => by
    have h := readQuoted_le quote cs
    have h' := readQuoted_le quote (d :: cs)
    unfold readQuoted
    split
    · simp
    · split
      · simp
      · split
        · simpa using h
        · simpa using h'

theorem wordLength_le (cs : List Char) : wordLength cs ≤ cs.length := by
  induction cs with
  | nil => simp [wordLength]
  | cons c cs ih =>
    unfold wordLength
    split
    · simpa using ih
    · split
      · simpa using ih
      · simp

/-- No lexeme is longer than the text that it is read from. -/
theorem more_le (c : Char) (cs : List Char) : (Lexeme.read c cs).more ≤ cs.length := by
  unfold Lexeme.read
  split
  · exact (List.takeWhile_prefix _).length_le
  split
  · exact (List.takeWhile_prefix _).length_le
  split
  · exact readQuoted_le c cs
  split
  · exact readQuoted_le c cs
  split
  · exact (List.takeWhile_prefix _).length_le
  split
  · next m h =>
    obtain ⟨rest, hrest⟩ := prefix_of_mark? h
    have hlength := congrArg List.length hrest
    rw [List.length_cons, List.length_append, String.length_toList] at hlength
    simp only
    omega
  · split
    · exact wordLength_le cs
    · simp

/-- Every text consists of glyphs. -/
theorem exists_scans (cs : List Char) : ∃ gs, Scans cs gs := by
  induction hn : cs.length using Nat.strongRecOn generalizing cs with
  | ind n ih =>
    obtain ⟨gap, rest, rfl, hgap, hrest⟩ : ∃ gap rest, cs = gap ++ rest ∧ (∀ d ∈ gap, isSpace d) ∧
        ∀ d ∈ rest.head?, isSpace d = false := by
      refine ⟨_, _, List.takeWhile_append_dropWhile.symm, List.all_eq_true.1 List.all_takeWhile, ?_⟩
      intro d hd
      have h := List.head?_dropWhile_not isSpace cs
      rw [Option.mem_def.1 hd] at h
      simpa using h
    cases rest with
    | nil => exact ⟨[], by rw [List.append_nil]; exact .done hgap⟩
    | cons c tail =>
      have hmore : (tail.take (Lexeme.read c tail).more).length = (Lexeme.read c tail).more :=
        List.length_take_of_le (more_le c tail)
      rw [List.length_append, List.length_cons] at hn
      obtain ⟨gs, hgs⟩ := ih _ (by rw [List.length_drop]; omega)
        (tail.drop (Lexeme.read c tail).more) rfl
      refine ⟨⟨gap, (Lexeme.read c tail).kind, c :: tail.take (Lexeme.read c tail).more⟩ :: gs, ?_⟩
      have := Scans.next (k := (Lexeme.read c tail).kind) hgap (hrest c rfl)
        (by rw [List.take_append_drop, hmore]) hgs
      rwa [List.cons_append, List.take_append_drop] at this

theorem eq_of_append_eq {gap gap' rest rest' : List Char} {c c' : Char}
    (h : gap ++ c :: rest = gap' ++ c' :: rest') (hgap : ∀ d ∈ gap, isSpace d)
    (hgap' : ∀ d ∈ gap', isSpace d) (hc : isSpace c = false) (hc' : isSpace c' = false) :
    gap = gap' ∧ c = c' ∧ rest = rest' := by
  have hg := congrArg (List.takeWhile isSpace) h
  rw [List.takeWhile_append_of_pos hgap, List.takeWhile_append_of_pos hgap',
    List.takeWhile_cons_of_neg (by simp [hc]), List.takeWhile_cons_of_neg (by simp [hc']),
    List.append_nil, List.append_nil] at hg
  subst hg
  simpa using h

/-- A text consists of its glyphs only. -/
theorem Scans.unique {cs : List Char} {gs gs' : List Glyph} (h : Scans cs gs) (h' : Scans cs gs') :
    gs = gs' := by
  induction h generalizing gs' with
  | done htail =>
    generalize hcs : ‹List Char› = cs at h'
    cases h' with
    | done => rfl
    | next _ hc =>
      subst hcs
      rw [htail _ (by simp)] at hc
      cases hc
  | @next gap k c w rest gs hgap hc hread hrest ih =>
    generalize hcs : gap ++ (c :: w ++ rest) = cs at h'
    cases h' with
    | done htail =>
      subst hcs
      rw [htail c (by simp)] at hc
      cases hc
    | @next gap' k' c' w' rest' gs' hgap' hc' hread' hrest' =>
      obtain ⟨rfl, rfl, heq⟩ := eq_of_append_eq hcs hgap hgap' hc hc'
      replace heq : w ++ rest = w' ++ rest' := heq
      rw [heq, hread', Lexeme.mk.injEq] at hread
      obtain ⟨rfl, hlength⟩ := hread
      obtain ⟨rfl, rfl⟩ := List.append_inj heq hlength.symm
      rw [ih hrest']

/-! ## Glyphs and tokens -/

/-- The tokens of glyphs, the first of which starts at a position, space included. -/
def placed (file : String) : Position → List Glyph → List Token
  | _, [] => []
  | p, g :: gs =>
    let q := p.behind g.gap
    ⟨g.kind, String.ofList g.text, ⟨file, q.line, q.column, Stream.boundedLength g.text.length⟩⟩ ::
      placed file (q.behind g.text) gs

theorem behind_append (p : Position) (cs ds : List Char) :
    p.behind (cs ++ ds) = (p.behind cs).behind ds := by
  simp [Position.behind]

theorem scan_space (file : String) (p : Position) {gap : List Char} (hgap : ∀ d ∈ gap, isSpace d)
    (cs : List Char) :
    Stream.scan file p 0 (gap ++ cs) = Stream.scan file (p.behind gap) 0 cs := by
  induction gap generalizing p with
  | nil => rfl
  | cons c gap ih =>
    obtain ⟨hc, hgap⟩ := List.forall_mem_cons.1 hgap
    rw [List.cons_append, Stream.scan, if_pos hc, ih _ hgap]
    rfl

/-- The spelling of a mark is what it is read from, like the text of any other token. -/
theorem tokenText_eq {c : Char} {k : Kind} {w rest : List Char}
    (h : Lexeme.read c (w ++ rest) = ⟨k, w.length⟩) :
    Stream.tokenText k (c :: w) = String.ofList (c :: w) := by
  cases k with
  | mark m => rw [Stream.tokenText, eq_spelling_of_read h, String.ofList_toList]
  | _ => rfl

/-- The tokens that are read are the glyphs, each at its place. -/
theorem Scans.tokens {cs : List Char} {gs : List Glyph} (h : Scans cs gs) (file : String)
    (p : Position) : (Stream.scan file p 0 cs).map Reading.token = placed file p gs := by
  induction h generalizing p with
  | done htail =>
    rename_i tail
    have := scan_space file p htail []
    rw [List.append_nil] at this
    rw [this]
    rfl
  | @next gap k c w rest gs hgap hc hread hrest ih =>
    rw [scan_space file p hgap, List.cons_append, Stream.scan]
    simp only [hc, Bool.false_eq_true, if_false, hread, List.map_cons, placed]
    rw [Stream.scan_skip, List.take_left, List.drop_left, ih]
    simp only [Stream.readingOf, Stream.tokenAt, hread, List.take_left, tokenText_eq hread,
      List.length_cons, Nat.add_comm 1]
    rfl

theorem Scans.tokens_ofText {text : String} {gs : List Glyph} (h : Scans text.toList gs)
    (file : String) : (Stream.ofText text file).tokens = placed file .start gs :=
  h.tokens file .start

theorem placed_append (file : String) (p : Position) (gs hs : List Glyph) :
    placed file p (gs ++ hs) = placed file p gs ++ placed file (p.behind (laid gs)) hs := by
  induction gs generalizing p with
  | nil => rfl
  | cons g gs ih => simp [placed, ih, behind_append]

theorem map_placed (file : String) (p : Position) (gs : List Glyph) :
    ((placed file p gs).map fun t => (t.kind, t.text.toList)) = gs.map fun g =>
      (g.kind, g.text) := by
  induction gs generalizing p with
  | nil => rfl
  | cons g gs ih => simp [placed, ih]

theorem map_kind_placed (file : String) (p : Position) (gs : List Glyph) :
    (placed file p gs).map Token.kind = gs.map kind := by
  simpa [Function.comp_def] using congrArg (List.map Prod.fst) (map_placed file p gs)

theorem map_text_placed (file : String) (p : Position) (gs : List Glyph) :
    (placed file p gs).map Token.text = gs.map fun g => String.ofList g.text := by
  simpa [Function.comp_def] using congrArg (List.map fun t => String.ofList t.2)
    (map_placed file p gs)

theorem mem_placed {file : String} {p : Position} {gs : List Glyph} {t : Token}
    (h : t ∈ placed file p gs) : ∃ g ∈ gs, ∃ o, t = ⟨g.kind, String.ofList g.text, o⟩ := by
  induction gs generalizing p with
  | nil => simp [placed] at h
  | cons g gs ih =>
    rcases List.mem_cons.1 h with rfl | h
    · exact ⟨g, List.mem_cons_self, _, rfl⟩
    · obtain ⟨g', hg', o, ht⟩ := ih h
      exact ⟨g', List.mem_cons_of_mem _ hg', o, ht⟩

theorem exists_mem_placed {gs : List Glyph} {g : Glyph} (h : g ∈ gs) (file : String)
    (p : Position) :
    ∃ o, ⟨g.kind, String.ofList g.text, o⟩ ∈ placed file p gs := by
  induction gs generalizing p with
  | nil => cases h
  | cons g' gs ih =>
    rcases List.mem_cons.1 h with rfl | h
    · exact ⟨_, List.mem_cons_self⟩
    · obtain ⟨o, ho⟩ := ih h (p.behind g'.gap |>.behind g'.text)
      exact ⟨o, List.mem_cons_of_mem _ ho⟩

/-! ## Texts that are scanned as they were laid -/

/-- Whether a glyph does not extend the one before it. -/
def Follows (g h : Glyph) : Prop := ∀ c ∈ (h.gap ++ h.text).head?, g.kind.extendedBy c = false

/-- Whether a glyph is a lexeme with space before it. -/
def IsLexeme (g : Glyph) : Prop := (∀ c ∈ g.gap, isSpace c) ∧ Stable g.kind g.text

/-- Every glyph of a text is what is read at its place. -/
theorem Scans.read {cs : List Char} {gs : List Glyph} (h : Scans cs gs) : ∀ g ∈ gs,
    (∀ c ∈ g.gap, isSpace c) ∧ ∃ c w rest, g.text = c :: w ∧ isSpace c = false ∧
      Lexeme.read c (w ++ rest) = ⟨g.kind, w.length⟩ := by
  induction h with
  | done => simp
  | next hgap hc hread hrest ih =>
    exact List.forall_mem_cons.2 ⟨⟨hgap, _, _, _, rfl, hc, hread⟩, ih⟩

theorem Scans.isLexeme {cs : List Char} {gs : List Glyph} (h : Scans cs gs) {g : Glyph}
    (hg : g ∈ gs) (hk : g.kind.isFault = false) : g.IsLexeme := by
  obtain ⟨hgap, c, w, rest, htext, hc, hread⟩ := h.read g hg
  exact ⟨hgap, htext ▸ stable_of_read rest hread hk hc⟩

/-- No text has the end of the input, a block or the operator of documentation in it. -/
theorem Scans.kind_ne {cs : List Char} {gs : List Glyph} (h : Scans cs gs) {g : Glyph}
    (hg : g ∈ gs) : g.kind ≠ .eof ∧ (∀ b, g.kind ≠ .block b) ∧ g.kind ≠ .document := by
  obtain ⟨-, c, w, rest, -, -, hread⟩ := h.read g hg
  have := read_kind_ne c (w ++ rest)
  rwa [hread] at this

/-- Lexemes that do not extend each other are scanned as they were laid. -/
theorem scans_laid {gs : List Glyph} {tail : List Char} (hgs : ∀ g ∈ gs, g.IsLexeme)
    (hchain : gs.IsChain Follows) (htail : ∀ c ∈ tail, isSpace c)
    (hlast : ∀ g ∈ gs.getLast?, ∀ c ∈ tail.head?, g.kind.extendedBy c = false) :
    Scans (laid gs ++ tail) gs := by
  induction gs with
  | nil => exact .done htail
  | cons g gs ih =>
    obtain ⟨gap, k, text⟩ := g
    obtain ⟨⟨hgap, c, w, rfl, hc, hstable⟩, hothers⟩ := List.forall_mem_cons.1 hgs
    have hread : read c (w ++ (laid gs ++ tail)) = ⟨k, w.length⟩ := by
      refine hstable _ fun d hd => ?_
      cases gs with
      | nil => exact hlast _ rfl d hd
      | cons h gs =>
        obtain ⟨⟨-, c', w', hw', -, -⟩, -⟩ := List.forall_mem_cons.1 hothers
        refine (List.isChain_cons_cons.1 hchain).1 d ?_
        simpa [hw', List.head?_append] using hd
    have hrest := ih hothers hchain.tail fun h hh => by
      cases gs with
      | nil => cases hh
      | cons h' gs => exact hlast h (by simpa using hh)
    simpa using Scans.next hgap hc hread hrest

end Glyph

end DocExpr
