import DocExpr.Proofs.Lexing.Edges
import DocExpr.Proofs.Lexing.Glyph

/-!
# Skimming a text for its comments

Comments can be found without telling the other lexemes apart: it takes to know whether a character
is between quotes, on a back-ticked line, in a comment, or none of these (`Mode`). A text can be
skimmed so piece by piece (`Skim.through_append`), and what is found in a whole text are the
comments that are read in it (`Glyph.Scans.skim`).
-/

namespace DocExpr

open Lexeme

/-- Where in a text a character can be. -/
inductive Mode where
  | code
  /-- Behind a slash, which may be the first of two. -/
  | slash
  | quoted (quote : Char)
  /-- Between quotes, behind a backslash. -/
  | escaped (quote : Char)
  | ticked
  /-- In a comment, of which some text has been read. -/
  | comment (text : List Char)
deriving DecidableEq

/-- What has been seen of a text that is read for its comments only. -/
structure Skim where
  mode : Mode
  /-- The comments that are complete, trimmed. -/
  found : List (List Char)
deriving DecidableEq

namespace Skim

/-- The start of a text. -/
def start : Skim := ⟨.code, []⟩

/-- The comments that have been found, if the text ends here. -/
def finish (s : Skim) : List (List Char) :=
  match s.mode with
  | .comment text => s.found ++ [Text.trim text]
  | _ => s.found

/-- What a character begins that is neither quoted nor in a comment. -/
def opened (c : Char) : Mode :=
  if c = '/' then .slash
  else if c = '\x60' then .ticked
  else if c = '\x22' ∨ c = '\x27' then .quoted c
  else .code

/-- Reads one more character. -/
def next (s : Skim) (c : Char) : Skim :=
  match s.mode with
  | .code => ⟨opened c, s.found⟩
  | .slash => if c = '/' then ⟨.comment ['/', '/'], s.found⟩ else ⟨opened c, s.found⟩
  | .quoted quote =>
    if endsLine c || c = quote then ⟨.code, s.found⟩
    else if c = '\\' then ⟨.escaped quote, s.found⟩
    else s
  | .escaped quote => ⟨.quoted quote, s.found⟩
  | .ticked => if endsLine c then ⟨.code, s.found⟩ else s
  | .comment text =>
    if endsLine c then ⟨.code, s.finish⟩ else ⟨.comment (text ++ [c]), s.found⟩

/-- Reads more of a text. -/
def through (s : Skim) (cs : List Char) : Skim := cs.foldl next s

@[simp] theorem through_nil (s : Skim) : s.through [] = s := rfl

@[simp] theorem through_cons (s : Skim) (c : Char) (cs : List Char) :
    s.through (c :: cs) = (s.next c).through cs := rfl

theorem through_append (s : Skim) (cs ds : List Char) :
    s.through (cs ++ ds) = (s.through cs).through ds := by
  simp [through]

variable {found : List (List Char)} {cs w rest : List Char} {c : Char} {k : Kind}

/-! ## Parts of lexemes -/

/-- What is neither quote, back tick nor slash leaves code behind. -/
theorem opened_eq_code (h : c ≠ '/' ∧ c ≠ '\x60' ∧ c ≠ '\x22' ∧ c ≠ '\x27') : opened c = .code := by
  simp [opened, h]

theorem through_plain (h : ∀ c ∈ cs, opened c = .code) :
    (⟨.code, found⟩ : Skim).through cs = ⟨.code, found⟩ := by
  induction cs with
  | nil => rfl
  | cons c cs ih =>
    obtain ⟨hc, hcs⟩ := List.forall_mem_cons.1 h
    rw [through_cons, next, hc]
    exact ih hcs

/-- Behind a single slash the text goes on as behind other code. -/
theorem next_slash (h : c ≠ '/') :
    (⟨.slash, found⟩ : Skim).next c = (⟨.code, found⟩ : Skim).next c := by
  simp [next, h]

theorem through_comment (text : List Char) (h : ∀ c ∈ cs, endsLine c = false) :
    (⟨.comment text, found⟩ : Skim).through cs = ⟨.comment (text ++ cs), found⟩ := by
  induction cs generalizing text with
  | nil => simp
  | cons c cs ih =>
    obtain ⟨hc, hcs⟩ := List.forall_mem_cons.1 h
    have hnext : (⟨.comment text, found⟩ : Skim).next c = ⟨.comment (text ++ [c]), found⟩ := by
      simp [next, hc]
    rw [through_cons, hnext, ih _ hcs, List.append_assoc, List.singleton_append]

theorem through_ticked (h : ∀ c ∈ cs, endsLine c = false) :
    (⟨.ticked, found⟩ : Skim).through cs = ⟨.ticked, found⟩ := by
  induction cs with
  | nil => rfl
  | cons c cs ih =>
    obtain ⟨hc, hcs⟩ := List.forall_mem_cons.1 h
    have hnext : (⟨.ticked, found⟩ : Skim).next c = ⟨.ticked, found⟩ := by simp [next, hc]
    rw [through_cons, hnext, ih hcs]

/-- A literal is left at its closing quote, or where it lacks one at the end of its line. -/
theorem through_quoted (found : List (List Char)) (quote : Char) : (cs : List Char) →
    ∃ m, (⟨.quoted quote, found⟩ : Skim).through (cs.take (readQuoted quote cs).1) = ⟨m, found⟩ ∧
      ((readQuoted quote cs).2 = true → m = .code) ∧
      ((readQuoted quote cs).2 = false →
        m = .quoted quote ∧ (∀ c ∈ (cs.drop (readQuoted quote cs).1).head?, endsLine c) ∨
          m = .escaped quote ∧ cs.drop (readQuoted quote cs).1 = [])
  | [] => ⟨.quoted quote, rfl, by simp [readQuoted], by simp [readQuoted]⟩
  | c :: cs => by
    by_cases hend : endsLine c
    · have hread : readQuoted quote (c :: cs) = (0, false) := by unfold readQuoted; simp [hend]
      exact ⟨.quoted quote, by simp [hread], by simp [hread], by simp [hread, hend]⟩
    by_cases hquote : c = quote
    · have hread : readQuoted quote (c :: cs) = (1, true) := by
        unfold readQuoted
        simp_all
      exact ⟨.code, by rw [hread]; simp [next, hquote], by simp, by simp [hread]⟩
    by_cases hescape : c = '\\'
    · have hnext : (⟨.quoted quote, found⟩ : Skim).next c = ⟨.escaped quote, found⟩ := by
        simp_all [next]
      cases cs with
      | nil =>
        have hread : readQuoted quote [c] = (1, false) := by
          unfold readQuoted
          simp_all
        exact ⟨.escaped quote, by simp [hread, hnext], by simp [hread], by simp [hread]⟩
      | cons d cs =>
        have hread : readQuoted quote (c :: d :: cs) =
            ((readQuoted quote cs).1 + 2, (readQuoted quote cs).2) := by
          rw [readQuoted.eq_def]
          simp_all
        obtain ⟨m, hm, hclosed, hopen⟩ := through_quoted found quote cs
        rw [hread]
        refine ⟨m, ?_, hclosed, hopen⟩
        rw [List.take_succ_cons, List.take_succ_cons, through_cons, through_cons, hnext]
        exact hm
    · have hnext : (⟨.quoted quote, found⟩ : Skim).next c = ⟨.quoted quote, found⟩ := by
        simp_all [next]
      have hread : readQuoted quote (c :: cs) =
          ((readQuoted quote cs).1 + 1, (readQuoted quote cs).2) := by
        rw [readQuoted.eq_def]
        simp_all
      obtain ⟨m, hm, hclosed, hopen⟩ := through_quoted found quote cs
      rw [hread]
      refine ⟨m, ?_, hclosed, hopen⟩
      rw [List.take_succ_cons, through_cons, hnext]
      exact hm

/-! ## Lexemes -/

/-- Where a lexeme of a kind leaves the text, before the rest of it. -/
inductive Leaves (k : Kind) (text rest : List Char) : Mode → Prop where
  | code (hk : k ≠ .comment ∧ k ≠ .tickedLine) : Leaves k text rest .code
  | slash (hk : k = .mark .slash) (hrest : rest.head? ≠ some '/') : Leaves k text rest .slash
  | ticked (hk : k = .tickedLine) (hrest : ∀ c ∈ rest.head?, endsLine c) :
      Leaves k text rest .ticked
  | comment (hk : k = .comment) (hrest : ∀ c ∈ rest.head?, endsLine c) :
    Leaves k text rest (.comment text)
  | quoted (quote : Char) (hk : k.isFault) (hrest : ∀ c ∈ rest.head?, endsLine c) :
    Leaves k text rest (.quoted quote)
  | escaped (quote : Char) (hk : k.isFault) (hrest : rest = []) :
      Leaves k text rest (.escaped quote)

theorem opened_of_continuesWord (h : continuesWord c) : opened c = .code := by
  refine opened_eq_code ⟨?_, ?_, ?_, ?_⟩ <;> rintro rfl <;> revert h <;> decide

theorem through_mark (m : Mark) : (⟨.code, found⟩ : Skim).through m.spelling.toList =
    ⟨if m = .slash then .slash else .code, found⟩ := by
  cases m <;> rfl

theorem leaves_quoted {quote : Char} {closed : Bool} (hopened : opened quote = .quoted quote)
    (h : readQuoted quote (w ++ rest) = (w.length, closed)) (hk : closed = false → k.isFault)
    (hk' : k ≠ .comment ∧ k ≠ .tickedLine) :
    ∃ m, (⟨.code, found⟩ : Skim).through (quote :: w) = ⟨m, found⟩ ∧
      Leaves k (quote :: w) rest m := by
  obtain ⟨m, hm, hclosed, hopen⟩ := through_quoted found quote (w ++ rest)
  rw [h, List.take_left] at hm
  rw [h, List.drop_left] at hopen
  rw [h] at hclosed
  refine ⟨m, ?_, ?_⟩
  · rw [through_cons, next, hopened]
    exact hm
  · cases closed with
    | true => exact hclosed rfl ▸ .code hk'
    | false =>
      rcases hopen rfl with ⟨rfl, hrest⟩ | ⟨rfl, hrest⟩
      · exact .quoted quote (hk rfl) hrest
      · exact .escaped quote (hk rfl) hrest

theorem head?_of_lineLength (h : lineLength (w ++ rest) = w.length) :
    (∀ d ∈ w, endsLine d = false) ∧ ∀ d ∈ rest.head?, endsLine d := by
  have hw : ∀ d ∈ w, !endsLine d := forall_of_length_takeWhile rest h
  refine ⟨fun d hd => by simpa using hw d hd, fun d hd => ?_⟩
  have hlength : lineLength (w ++ rest) = w.length + lineLength rest := by
    rw [lineLength, List.takeWhile_append_of_pos hw, List.length_append]
    rfl
  obtain ⟨tail, rfl⟩ := List.head?_eq_some_iff.1 hd
  have hzero : lineLength (d :: tail) = 0 := by omega
  cases hend : endsLine d with
  | true => rfl
  | false => simp [lineLength, hend] at hzero

theorem classify_ne (text : List Char) :
    Literal.classify text ≠ .comment ∧ Literal.classify text ≠ .tickedLine := by
  rcases classify_eq text with ⟨a, h, -⟩ | ⟨v, h⟩ | ⟨f, h⟩ <;> simp [h]

theorem leaves_plain (found : List (List Char)) (h : ∀ d ∈ cs, opened d = .code)
    (hk : k ≠ .comment ∧ k ≠ .tickedLine) :
    ∃ m, (⟨.code, found⟩ : Skim).through cs = ⟨m, found⟩ ∧ Leaves k cs rest m :=
  ⟨.code, through_plain h, .code hk⟩

theorem leaves_tickedLine (found : List (List Char)) (h : lineLength (w ++ rest) = w.length) :
    ∃ m, (⟨.code, found⟩ : Skim).through ('\x60' :: w) = ⟨m, found⟩ ∧
      Leaves .tickedLine ('\x60' :: w) rest m := by
  obtain ⟨hw, hrest⟩ := head?_of_lineLength h
  exact ⟨.ticked, through_ticked hw, .ticked rfl hrest⟩

theorem leaves_comment (found : List (List Char)) (hslash : (w ++ rest).head? = some '/')
    (h : lineLength (w ++ rest) = w.length) :
    ∃ m, (⟨.code, found⟩ : Skim).through ('/' :: w) = ⟨m, found⟩ ∧
      Leaves .comment ('/' :: w) rest m := by
  obtain ⟨hw, hrest⟩ := head?_of_lineLength h
  refine ⟨.comment ('/' :: w), ?_, .comment rfl hrest⟩
  cases w with
  | nil => exact absurd (hrest '/' hslash) (by decide)
  | cons d w =>
    obtain rfl : d = '/' := by simpa using hslash
    exact through_comment ['/', '/'] (List.forall_mem_cons.1 hw).2

/-- A slash is left open if another one may follow. -/
theorem leaves_mark (found : List (List Char)) {m : Mark} (h : c :: w = m.spelling.toList)
    (hslash : c = '/' → (w ++ rest).head? ≠ some '/') :
    ∃ m', (⟨.code, found⟩ : Skim).through (c :: w) = ⟨m', found⟩ ∧
      Leaves (.mark m) (c :: w) rest m' := by
  refine ⟨_, by rw [h]; exact through_mark m, ?_⟩
  split
  · next hm =>
    subst hm
    obtain ⟨rfl, rfl⟩ : c = '/' ∧ w = [] := by simpa [Mark.spelling] using h
    exact .slash rfl (hslash rfl)
  · exact .code (by simp)

theorem leaves_word (found : List (List Char)) (hstart : startsWord c)
    (h : wordLength (w ++ rest) = w.length) (text : List Char) :
    ∃ m, (⟨.code, found⟩ : Skim).through (c :: w) = ⟨m, found⟩ ∧
      Leaves (wordKind text) (c :: w) rest m := by
  have hw : wordLength w = w.length := by
    have hend : wordLength (w ++ []) = w.length := wordLength_append h (by simp)
    rwa [List.append_nil] at hend
  apply leaves_plain
  · refine List.forall_mem_cons.2 ⟨opened_of_continuesWord (by simp [continuesWord, hstart]), ?_⟩
    intro d hd
    rcases wordLength_eq hw d hd with hd | rfl
    · exact opened_of_continuesWord hd
    · rfl
  · rcases wordKind_eq text with ⟨w', hk⟩ | hk <;> simp [hk]

/-- What a lexeme leaves of a text that is skimmed. -/
theorem leaves_read (found : List (List Char)) (h : Lexeme.read c (w ++ rest) = ⟨k, w.length⟩) :
    ∃ m, (⟨.code, found⟩ : Skim).through (c :: w) = ⟨m, found⟩ ∧ Leaves k (c :: w) rest m := by
  unfold Lexeme.read at h
  split at h <;> rename_i hdigit
  · obtain ⟨rfl, hlength⟩ := Lexeme.mk.inj h
    have hw : ∀ d ∈ c :: w, Literal.isDigit d :=
      List.forall_mem_cons.2 ⟨hdigit, forall_of_length_takeWhile rest hlength⟩
    apply leaves_plain
    · intro d hd
      exact opened_of_continuesWord (by simp [continuesWord, hw d hd])
    · simp
  split at h <;> rename_i htick
  · obtain ⟨rfl, hlength⟩ := Lexeme.mk.inj h
    exact htick ▸ leaves_tickedLine found hlength
  split at h <;> rename_i hdouble
  · cases hread : readQuoted c (w ++ rest) with
    | mk n closed =>
      rw [hread] at h
      obtain ⟨rfl, rfl⟩ := Lexeme.mk.inj h
      apply leaves_quoted (by simp [opened, hdouble]) hread
      · intro hopen
        simp [hopen, Kind.isFault, Kind.fault?]
      · split <;> simp
  split at h <;> rename_i hsingle
  · cases hread : readQuoted c (w ++ rest) with
    | mk n closed =>
      rw [hread] at h
      obtain ⟨rfl, rfl⟩ := Lexeme.mk.inj h
      apply leaves_quoted (by simp [opened, hsingle]) hread
      · intro hopen
        simp [hopen, Kind.isFault, Kind.fault?]
      · split
        · exact classify_ne _
        · simp
  split at h <;> rename_i hcomment
  · obtain ⟨rfl, hlength⟩ := Lexeme.mk.inj h
    simp only [Bool.and_eq_true, decide_eq_true_eq, beq_iff_eq] at hcomment
    obtain ⟨rfl, hslash⟩ := hcomment
    exact leaves_comment found hslash hlength
  simp only [Bool.and_eq_true, decide_eq_true_eq, beq_iff_eq, not_and] at hcomment
  split at h <;> rename_i hmark
  · obtain ⟨rfl, hlength⟩ := Lexeme.mk.inj h
    exact leaves_mark found (eq_spelling_of_mark? hmark hlength) hcomment
  · split at h <;> rename_i hword
    · obtain ⟨rfl, hlength⟩ := Lexeme.mk.inj h
      exact leaves_word found hword hlength _
    · obtain ⟨rfl, hlength⟩ := Lexeme.mk.inj h
      obtain rfl := List.length_eq_zero_iff.1 hlength.symm
      have hslash : c ≠ '/' := by
        rintro rfl
        have := List.find?_eq_none.1 hmark .slash Mark.slash.mem_longestFirst
        simp [Mark.spelling, List.isPrefixOf] at this
      have hopened : opened c = .code := opened_eq_code ⟨hslash, htick, hdouble, hsingle⟩
      exact leaves_plain found (by simp [hopened]) (by simp)

/-! ## Blanks and the ends of lines -/

theorem ne_slash_of_isBlank (h : Text.isBlank c) : c ≠ '/' := by
  rintro rfl
  exact absurd h (by decide)

theorem opened_of_isBlank (h : Text.isBlank c) : opened c = .code := by
  apply opened_eq_code
  refine ⟨ne_slash_of_isBlank h, ?_, ?_, ?_⟩ <;> rintro rfl <;> exact absurd h (by decide)

theorem through_blank_code (h : ∀ c ∈ cs, Text.isBlank c) :
    (⟨.code, found⟩ : Skim).through cs = ⟨.code, found⟩ :=
  through_plain fun c hc => opened_of_isBlank (h c hc)

/-- Blanks leave code as it is, and what is behind a slash becomes code. -/
theorem through_blank {m : Mode} (hm : m = .code ∨ m = .slash) (h : ∀ c ∈ cs, Text.isBlank c) :
    (⟨m, found⟩ : Skim).through cs = ⟨if cs = [] then m else .code, found⟩ := by
  cases cs with
  | nil => rfl
  | cons c cs =>
    obtain ⟨hc, hcs⟩ := List.forall_mem_cons.1 h
    have hslash := ne_slash_of_isBlank hc
    have hnext : (⟨m, found⟩ : Skim).next c = ⟨.code, found⟩ := by
      rcases hm with rfl | rfl
      · simp [next, opened_of_isBlank hc]
      · simp [next, opened_of_isBlank hc, hslash]
    rw [through_cons, hnext, if_neg (List.cons_ne_nil c cs)]
    exact through_blank_code hcs

/-- Blanks at the end of a text do not change what is found in it. -/
theorem finish_through_blank (s : Skim) (h : ∀ c ∈ cs, Text.isBlank c) :
    (s.through cs).finish = s.finish := by
  induction cs generalizing s with
  | nil => rfl
  | cons c cs ih =>
    obtain ⟨hc, hcs⟩ := List.forall_mem_cons.1 h
    rw [through_cons, ih _ hcs]
    have hopened := opened_of_isBlank hc
    have hslash := ne_slash_of_isBlank hc
    obtain ⟨m, found⟩ := s
    cases m with
    | code => simp [next, hopened, finish]
    | slash => simp [next, hopened, finish, hslash]
    | quoted quote =>
      unfold next
      simp only
      split
      · rfl
      · split <;> rfl
    | escaped quote => rfl
    | ticked =>
      unfold next
      simp only
      split <;> rfl
    | comment text =>
      unfold next
      simp only
      split
      · rfl
      · have htrim : Text.trim (text ++ [c]) = Text.trim text :=
          Text.trim_append_blank text (by simpa using hc)
        simp only [finish, htrim]

/-- The end of a line ends everything but a literal behind a backslash. -/
theorem next_of_endsLine {s : Skim} (hs : ∀ quote, s.mode ≠ .escaped quote) (hc : endsLine c) :
    s.next c = ⟨.code, s.finish⟩ := by
  have hblank := isBlank_of_endsLine hc
  have hopened := opened_of_isBlank hblank
  obtain ⟨m, found⟩ := s
  cases m with
  | code => simp [next, hopened, finish]
  | slash => simp [next, hopened, finish, ne_slash_of_isBlank hblank]
  | quoted quote => simp [next, hc, finish]
  | escaped quote => exact absurd rfl (hs quote)
  | ticked => simp [next, hc, finish]
  | comment text => simp [next, hc]

theorem mode_next_newline (s : Skim) : (s.next '\n').mode ≠ .slash := by
  obtain ⟨m, found⟩ := s
  by_cases hescaped : ∃ quote, m = .escaped quote
  · obtain ⟨quote, rfl⟩ := hescaped
    simp [next]
  · rw [next_of_endsLine (by simpa using hescaped) (by decide)]
    simp

/-- A comment behind blanks, and the end of its line. -/
theorem through_commentLine {m : Mode} (hm : m = .code ∨ m = .slash) {blanks line : List Char}
    (hblanks : ∀ c ∈ blanks, Text.isBlank c) (hn : m = .slash → blanks ≠ [])
    (hline : Stable .comment line) (hsolid : Solid line) :
    (⟨m, found⟩ : Skim).through (blanks ++ line ++ ['\n']) = ⟨.code, found ++ [line]⟩ := by
  have hcode : (⟨m, found⟩ : Skim).through blanks = ⟨.code, found⟩ := by
    rw [through_blank hm hblanks]
    split
    · next h => rcases hm with rfl | rfl; exacts [rfl, absurd h (hn rfl)]
    · rfl
  obtain ⟨w, rfl, hw⟩ := stable_comment_iff.1 hline
  have hcomment : (⟨.code, found⟩ : Skim).through ('/' :: '/' :: w) =
      ⟨.comment ('/' :: '/' :: w), found⟩ :=
    through_comment ['/', '/'] hw
  rw [through_append, through_append, hcode, hcomment, through_cons,
    next_of_endsLine (by simp) (by decide)]
  simp [finish, hsolid.trim_eq]

/-! ## Whole texts -/

/-- Behind what the end of a line ends, the text goes on as behind code. -/
theorem finish_through_of_endsLine {s : Skim} (hs : ∀ quote, s.mode = .escaped quote → cs = [])
    (hcs : ∀ c ∈ cs.head?, endsLine c) :
    (s.through cs).finish = ((⟨.code, s.finish⟩ : Skim).through cs).finish := by
  cases cs with
  | nil => rfl
  | cons c cs =>
    have hc : endsLine c := hcs c rfl
    rw [through_cons, through_cons,
      next_of_endsLine (fun quote h => absurd (hs quote h) (by simp)) hc,
      next_of_endsLine (by simp) hc]
    rfl

theorem finish_through_slash (hcs : cs.head? ≠ some '/') :
    ((⟨.slash, found⟩ : Skim).through cs).finish = ((⟨.code, found⟩ : Skim).through cs).finish := by
  cases cs with
  | nil => rfl
  | cons c cs => rw [through_cons, next_slash (by simpa using hcs), through_cons]

end Skim

namespace Glyph

open Skim

/-- The comments among glyphs, trimmed. -/
def comments (gs : List Glyph) : List (List Char) :=
  (gs.filter fun g => g.kind = .comment).map fun g => Text.trim g.text

theorem comments_cons (g : Glyph) (gs : List Glyph) :
    comments (g :: gs) = if g.kind = .comment then
      Text.trim g.text :: comments gs else comments gs := by
  by_cases hg : g.kind = .comment <;> simp [comments, hg]

/-- The comments that are found in a text are those that are read in it. -/
theorem Scans.skim {cs : List Char} {gs : List Glyph} (h : Scans cs gs) (found : List (List Char)) :
    ((⟨.code, found⟩ : Skim).through cs).finish = found ++ comments gs := by
  induction h generalizing found with
  | done htail =>
    have hblank : ∀ c ∈ _, Text.isBlank c := fun c hc => isBlank_of_isSpace (htail c hc)
    rw [finish_through_blank _ hblank]
    simp [finish, comments]
  | @next gap k c w rest gs hgap hc hread hrest ih =>
    obtain ⟨m, hm, hleaves⟩ := leaves_read found hread
    have hblank : ∀ c ∈ gap, Text.isBlank c := fun c hc => isBlank_of_isSpace (hgap c hc)
    rw [through_append, through_blank_code hblank, through_append, hm, comments_cons]
    cases hleaves with
    | code hk => rw [if_neg hk.1, ih]
    | slash hk hslash => rw [if_neg (by simp [hk]), finish_through_slash hslash, ih]
    | ticked hk hend =>
      rw [if_neg (by simp [hk]), finish_through_of_endsLine (by simp) hend]
      exact ih found
    | comment hk hend =>
      rw [if_pos hk, finish_through_of_endsLine (by simp) hend, List.append_cons]
      exact ih (found ++ [Text.trim (c :: w)])
    | quoted quote hk hend =>
      rw [if_neg (by rintro rfl; cases hk), finish_through_of_endsLine (by simp) hend]
      exact ih found
    | escaped quote hk hend =>
      rw [if_neg (by rintro rfl; cases hk),
        finish_through_of_endsLine (fun _ _ => hend) (by simp [hend])]
      exact ih found

end Glyph

end DocExpr
