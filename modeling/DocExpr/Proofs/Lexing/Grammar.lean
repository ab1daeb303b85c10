import DocExpr.Proofs.Lexing.Glyph
import DocExpr.Proofs.Lexing.Quoted
import Mathlib.Computability.Language

/-!
# The lexical grammar

Which texts are lexemes can be said by regular expressions. `Lexeme.Starts` is the grammar: a lexeme
is the longest piece of its language at the start of a text, or the shortest where quotes close it.
`LexesAs` takes a whole text apart by the grammar.

What is read of a language is its longest piece (`Lexeme.longest_words` and its like). So the
grammar allows one lexeme at the start of a text, which is the one that is read there
(`Lexeme.starts_iff`), and the tokens of a source text are what the grammar makes of it
(`Stream.lexesAs_iff`).
-/

namespace DocExpr

open scoped Computability

namespace Lexeme

/-! ## Languages -/

/-- The texts of one character that passes a test. -/
def one (p : Char → Bool) : Language Char := {w | ∃ c, p c ∧ w = [c]}

/-- Digits, at least one. -/
def integers : Language Char := one Literal.isDigit * (one Literal.isDigit)∗

/-- A piece, and what comes behind it on its line. -/
def lines (start : List Char) : Language Char := {start} * (one fun c => !endsLine c)∗

/-- What can be between quotes by itself. -/
def isPlain (quote c : Char) : Bool := !endsLine c && c != quote && c != '\\'

/-- What can be behind a quote. A backslash takes any character with it. -/
def quotedChars (quote : Char) : Language Char :=
  (one (isPlain quote) + {['\\']} * one fun _ => true)∗

/-- A quote, and what can be behind it. -/
def opened (quote : Char) : Language Char := {[quote]} * quotedChars quote

/-- A quote, what can be behind it, and the same quote again. -/
def closed (quote : Char) : Language Char := opened quote * {[quote]}

/-- The spellings of marks. -/
def marks : Language Char := {w | ∃ m : Mark, w = m.spelling.toList}

/-- The marks, and what comments begin with. -/
def punctuation : Language Char := marks + {['/', '/']}

/-- Words, of parts with single dashes between them. -/
def words : Language Char :=
  one startsWord * (one continuesWord)∗ * ({['-']} * (one continuesWord * (one continuesWord)∗))∗

/-! ## The grammar -/

/-- Whether a piece at the start of a text is the longest one there of a language. -/
structure Longest (l : Language Char) (text w : List Char) : Prop where
  mem : w ∈ l
  start : w <+: text
  longest : ∀ v ∈ l, v <+: text → v.length ≤ w.length

/-- Whether a piece at the start of a text is the shortest one there of a language. -/
structure Shortest (l : Language Char) (text w : List Char) : Prop where
  mem : w ∈ l
  start : w <+: text
  shortest : ∀ v ∈ l, v <+: text → w.length ≤ v.length

/-- What there can be at the start of a text. -/
def languages : List (Language Char) :=
  [integers, lines ['\x60'], opened '\x22', opened '\x27', punctuation, words]

/-- A piece at the start of a text, with what is left of the text if that is a backslash. -/
def withLastBackslash (text w : List Char) : List Char := if text = w ++ ['\\'] then text else w

/-- The grammar: which lexeme can be at the start of a text, and of which kind it is. -/
inductive Starts : List Char → Kind → List Char → Prop where
  | integer {text w : List Char} (h : Longest integers text w) : Starts text (.atom .integer) w
  | tickedLine {text w : List Char} (h : Longest (lines ['\x60']) text w) :
      Starts text .tickedLine w
  | string {text w : List Char} (h : Shortest (closed '\x22') text w) :
      Starts text (.atom .string) w
  | literal {text w : List Char} (h : Shortest (closed '\x27') text w) :
      Starts text (Literal.classify w) w
  /-- Where nothing closes the quote, as much is read as can be behind it. -/
  | unclosedString {text w : List Char} (unclosed : ∀ v ∈ closed '\x22', ¬v <+: text)
      (h : Longest (opened '\x22') text w) :
      Starts text (.fault .unclosedString) (withLastBackslash text w)
  | unclosedLiteral {text w : List Char} (unclosed : ∀ v ∈ closed '\x27', ¬v <+: text)
      (h : Longest (opened '\x27') text w) :
      Starts text (.fault .unclosedLiteral) (withLastBackslash text w)
  /-- What comments begin with is tried like a mark. -/
  | comment {text w : List Char} (entry : Longest punctuation text ['/', '/'])
      (h : Longest (lines ['/', '/']) text w) : Starts text .comment w
  | mark {text : List Char} {m : Mark} (h : Longest punctuation text m.spelling.toList) :
      Starts text (.mark m) m.spelling.toList
  | keyword {text : List Char} {k : Keyword} (h : Longest words text k.spelling.toList) :
      Starts text (.keyword k) k.spelling.toList
  | identifier {text w : List Char} (h : Longest words text w)
      (name : ∀ k : Keyword, w ≠ k.spelling.toList) :
      Starts text (.atom .identifier) w
  /-- Where there is nothing else, one character. -/
  | unrecognized {c : Char} {cs : List Char} (none : ∀ l ∈ languages, ∀ v ∈ l, ¬v <+: c :: cs) :
      Starts (c :: cs) (.fault .unrecognizedChar) [c]

variable {l : Language Char} {p : Char → Bool} {quote c : Char} {text v w rest cs : List Char}
  {m : Mark}

theorem withLastBackslash_cons (c : Char) (text w : List Char) :
    withLastBackslash (c :: text) (c :: w) = c :: withLastBackslash text w := by
  simp only [withLastBackslash, List.cons_append, List.cons.injEq, true_and]
  split <;> rfl

theorem Longest.unique (h : Longest l text v) (h' : Longest l text w) : v = w :=
  (List.prefix_of_prefix_length_le h.start h'.start (h'.longest v h.mem h.start)).eq_of_length
    (Nat.le_antisymm (h'.longest v h.mem h.start) (h.longest w h'.mem h'.start))

theorem Shortest.unique (h : Shortest l text v) (h' : Shortest l text w) : v = w :=
  (List.prefix_of_prefix_length_le h.start h'.start (h.shortest w h'.mem h'.start)).eq_of_length
    (Nat.le_antisymm (h.shortest w h'.mem h'.start) (h'.shortest v h.mem h.start))

/-- A piece at the start of a text has its first character. -/
theorem head_eq {d : Char} (h : w <+: c :: cs) (hw : w = d :: v) : d = c :=
  (List.cons_prefix_cons.1 (hw ▸ h)).1

/-! ## Repetitions -/

/-- What holds of nothing, and of a text with a piece before it if it holds of the text, holds of
every repetition of pieces. -/
theorem forall_kstar {P : List Char → Prop} (hnil : P [])
    (happend : ∀ v ∈ l, ∀ w, P w → P (v ++ w)) :
    ∀ w ∈ l∗, P w := by
  intro w hw
  obtain ⟨pieces, rfl, hpieces⟩ := Language.mem_kstar.1 hw
  clear hw
  induction pieces with
  | nil => exact hnil
  | cons v pieces ih =>
    obtain ⟨hv, hpieces⟩ := List.forall_mem_cons.1 hpieces
    exact happend v hv _ (ih hpieces)

theorem append_mem_kstar (hv : v ∈ l) (hw : w ∈ l∗) : v ++ w ∈ l∗ :=
  Set.mem_of_mem_of_subset (Language.append_mem_mul hv hw) (mul_kstar_le_kstar (a := l))

theorem mem_kstar_one : w ∈ (one p)∗ ↔ ∀ c ∈ w, p c := by
  constructor
  · refine forall_kstar (P := fun w => ∀ c ∈ w, p c) (by simp) ?_ w
    rintro _ ⟨c, hc, rfl⟩ w hw
    exact List.forall_mem_cons.2 ⟨hc, hw⟩
  · intro h
    induction w with
    | nil => exact Language.nil_mem_kstar _
    | cons c w ih =>
      obtain ⟨hc, hw⟩ := List.forall_mem_cons.1 h
      exact append_mem_kstar (v := [c]) ⟨c, hc, rfl⟩ (ih hw)

theorem mem_integers :
    w ∈ integers ↔ ∃ c v, w = c :: v ∧ Literal.isDigit c ∧ ∀ d ∈ v, Literal.isDigit d := by
  rw [integers, Language.mem_mul]
  constructor
  · rintro ⟨_, ⟨c, hc, rfl⟩, v, hv, rfl⟩
    exact ⟨c, v, rfl, hc, mem_kstar_one.1 hv⟩
  · rintro ⟨c, v, rfl, hc, hv⟩
    exact ⟨[c], ⟨c, hc, rfl⟩, v, mem_kstar_one.2 hv, rfl⟩

theorem mem_lines {start : List Char} :
    w ∈ lines start ↔ ∃ v, w = start ++ v ∧ ∀ d ∈ v, !endsLine d := by
  rw [lines, Language.mem_mul]
  constructor
  · rintro ⟨_, rfl, v, hv, rfl⟩
    exact ⟨v, rfl, mem_kstar_one.1 hv⟩
  · rintro ⟨v, rfl, hv⟩
    exact ⟨start, rfl, v, mem_kstar_one.2 hv, rfl⟩

/-- The longest run of characters that pass a test. -/
theorem length_le_takeWhile (h : v <+: cs) (hv : ∀ c ∈ v, p c) :
    v.length ≤ (cs.takeWhile p).length := by
  obtain ⟨rest, rfl⟩ := h
  rw [List.takeWhile_append_of_pos hv, List.length_append]
  exact Nat.le_add_right _ _

theorem take_length_takeWhile (p : Char → Bool) (cs : List Char) :
    cs.take (cs.takeWhile p).length = cs.takeWhile p :=
  (List.prefix_iff_eq_take.1 (List.takeWhile_prefix p)).symm

theorem longest_integers (hc : Literal.isDigit c) (cs : List Char) :
    Longest integers (c :: cs) (c :: cs.take (cs.takeWhile Literal.isDigit).length) := by
  rw [take_length_takeWhile]
  refine ⟨mem_integers.2 ⟨c, _, rfl, hc, List.all_eq_true.1 List.all_takeWhile⟩, ?_, ?_⟩
  · exact List.cons_prefix_cons.2 ⟨rfl, List.takeWhile_prefix _⟩
  · rintro _ hv hstart
    obtain ⟨d, v, rfl, -, hv⟩ := mem_integers.1 hv
    exact Nat.succ_le_succ (length_le_takeWhile (List.cons_prefix_cons.1 hstart).2 hv)

theorem longest_lines (start cs : List Char) :
    Longest (lines start) (start ++ cs) (start ++ cs.take (lineLength cs)) := by
  rw [lineLength, take_length_takeWhile]
  refine ⟨mem_lines.2 ⟨_, rfl, List.all_eq_true.1 List.all_takeWhile⟩, ?_, ?_⟩
  · exact (List.prefix_append_right_inj start).2 (List.takeWhile_prefix _)
  · rintro _ hmem hstart
    obtain ⟨v, rfl, hv⟩ := mem_lines.1 hmem
    have hv' : ∀ d ∈ v, (fun c => !endsLine c) d := hv
    rw [List.length_append, List.length_append]
    exact Nat.add_le_add_left
      (length_le_takeWhile ((List.prefix_append_right_inj start).1 hstart) hv') _

/-! ## Quotes -/

theorem isPlain_iff : isPlain quote c ↔ endsLine c = false ∧ c ≠ quote ∧ c ≠ '\\' := by
  simp [isPlain, and_assoc]

theorem mem_quotedChars : w ∈ quotedChars quote ↔ Within quote w := by
  constructor
  · refine forall_kstar (P := Within quote) .nil ?_ w
    rintro _ (⟨c, hc, rfl⟩ | hescape) w hw
    · exact .plain (isPlain_iff.1 hc) hw
    · obtain ⟨_, rfl, _, ⟨c, -, rfl⟩, rfl⟩ := Language.mem_mul.1 hescape
      exact .escape c hw
  · intro h
    induction h with
    | nil => exact Language.nil_mem_kstar _
    | @escape c w h ih =>
      exact append_mem_kstar (v := ['\\', c])
        (.inr (Language.mem_mul.2 ⟨_, rfl, [c], ⟨c, rfl, rfl⟩, rfl⟩)) ih
    | @plain c w hc h ih => exact append_mem_kstar (v := [c]) (.inl ⟨c, isPlain_iff.2 hc, rfl⟩) ih

theorem mem_opened : w ∈ opened quote ↔ ∃ v, w = quote :: v ∧ v ∈ quotedChars quote := by
  rw [opened, Language.mem_mul]
  constructor
  · rintro ⟨_, rfl, v, hv, rfl⟩
    exact ⟨v, rfl, hv⟩
  · rintro ⟨v, rfl, hv⟩
    exact ⟨[quote], rfl, v, hv, rfl⟩

theorem body_iff : Body quote w ↔ ∃ v, w = v ++ [quote] ∧ Within quote v := by
  constructor
  · intro h
    induction h with
    | close => exact ⟨[], rfl, .nil⟩
    | escape c h ih =>
      obtain ⟨v, rfl, hv⟩ := ih
      exact ⟨_, rfl, .escape c hv⟩
    | plain hc h ih =>
      obtain ⟨v, rfl, hv⟩ := ih
      exact ⟨_, rfl, .plain hc hv⟩
  · rintro ⟨v, rfl, hv⟩
    exact hv.body .close

theorem mem_closed : w ∈ closed quote ↔ ∃ v, w = quote :: v ∧ Body quote v := by
  rw [closed, Language.mem_mul]
  constructor
  · rintro ⟨_, hopened, _, rfl, rfl⟩
    obtain ⟨v, rfl, hv⟩ := mem_opened.1 hopened
    exact ⟨_, rfl, body_iff.2 ⟨v, rfl, mem_quotedChars.1 hv⟩⟩
  · rintro ⟨_, rfl, h⟩
    obtain ⟨v, rfl, hv⟩ := body_iff.1 h
    exact ⟨_, mem_opened.2 ⟨v, rfl, mem_quotedChars.2 hv⟩, [quote], rfl, rfl⟩

section Quotes

variable (hquote : endsLine quote = false ∧ quote ≠ '\\')

include hquote

/-- A closed text is read as far as it goes, whatever is behind it. -/
theorem readQuoted_of_closed (h : v ∈ closed quote) (hstart : v <+: quote :: cs) :
    readQuoted quote cs = (v.length - 1, true) := by
  obtain ⟨u, rfl, hu⟩ := mem_closed.1 h
  obtain ⟨rest, rfl⟩ := (List.cons_prefix_cons.1 hstart).2
  exact readQuoted_append quote u [] rest (by rw [List.append_nil]; exact hu.readQuoted hquote)

/-- What is read up to a closing quote is the only closed text there. -/
theorem shortest_closed (h : (readQuoted quote cs).2 = true) :
    Shortest (closed quote) (quote :: cs) (quote :: cs.take (readQuoted quote cs).1) := by
  have hlength : (cs.take (readQuoted quote cs).1).length = (readQuoted quote cs).1 :=
    List.length_take_of_le (Glyph.readQuoted_le quote cs)
  have hbody : Body quote (cs.take (readQuoted quote cs).1) := by
    have hread :=
      readQuoted_append quote (cs.take (readQuoted quote cs).1) (cs.drop (readQuoted quote cs).1) []
      (by rw [List.take_append_drop, hlength, ← h])
    rw [List.append_nil] at hread
    exact body_of_readQuoted hread
  refine ⟨mem_closed.2 ⟨_, rfl, hbody⟩, List.cons_prefix_cons.2 ⟨rfl, List.take_prefix _ _⟩,
    fun v hv hstart => ?_⟩
  have hread := congrArg Prod.fst (readQuoted_of_closed hquote hv hstart)
  rw [List.length_cons, hlength, hread]
  obtain ⟨u, rfl, -⟩ := mem_closed.1 hv
  exact Nat.le_refl _

/-- What is read up to the end of a line, with no closing quote before it. -/
theorem longest_quotedChars : (cs : List Char) → (readQuoted quote cs).2 = false →
    ∃ v, Longest (quotedChars quote) cs v ∧ withLastBackslash cs v = cs.take (readQuoted quote cs).1
  | [], _ => by
    refine ⟨[], ⟨mem_quotedChars.2 .nil, List.prefix_rfl, fun v _ hv => hv.length_le⟩, rfl⟩
  | c :: cs, h => by
    by_cases hend : endsLine c
    · have hescape : c ≠ '\\' := by
        rintro rfl
        cases hend
      refine ⟨[], ⟨mem_quotedChars.2 .nil, List.nil_prefix, fun v hv hstart => ?_⟩, ?_⟩
      · cases mem_quotedChars.1 hv with
        | nil => exact Nat.le_refl 0
        | escape d h => exact absurd (List.cons_prefix_cons.1 hstart).1.symm hescape
        | plain hd h =>
          rw [(List.cons_prefix_cons.1 hstart).1, hend] at hd
          cases hd.1
      · rw [readQuoted_end hend, withLastBackslash, if_neg (by simp [hescape])]
        rfl
    by_cases hclose : c = quote
    · subst hclose
      rw [readQuoted_close hquote.1] at h
      cases h
    by_cases hescape : c = '\\'
    · subst hescape
      match cs with
      | [] =>
        rw [readQuoted_lone hquote.2]
        refine ⟨[], ⟨mem_quotedChars.2 .nil, List.nil_prefix, fun v hv hstart => ?_⟩, rfl⟩
        cases mem_quotedChars.1 hv with
        | nil => exact Nat.le_refl 0
        | escape d h => exact absurd hstart.length_le (by simp)
        | plain hd h => exact absurd (List.cons_prefix_cons.1 hstart).1 hd.2.2
      | d :: cs =>
        rw [readQuoted_escape hquote.2] at h ⊢
        obtain ⟨v, hv, hlast⟩ := longest_quotedChars cs h
        refine ⟨'\\' :: d :: v, ⟨mem_quotedChars.2 (.escape d (mem_quotedChars.1 hv.mem)), ?_,
          fun w hmem hstart => ?_⟩, ?_⟩
        · simpa using hv.start
        · cases mem_quotedChars.1 hmem with
          | nil => exact Nat.zero_le _
          | escape e hw =>
            simp only [List.cons_prefix_cons, true_and] at hstart
            exact Nat.add_le_add_right (hv.longest _ (mem_quotedChars.2 hw) hstart.2) 2
          | plain he hw => exact absurd (List.cons_prefix_cons.1 hstart).1 he.2.2
        · rw [withLastBackslash_cons, withLastBackslash_cons, hlast]
          rfl
    · have hplain : endsLine c = false ∧ c ≠ quote ∧ c ≠ '\\' :=
        ⟨by simpa using hend, hclose, hescape⟩
      rw [readQuoted_plain hplain] at h ⊢
      obtain ⟨v, hv, hlast⟩ := longest_quotedChars cs h
      refine ⟨c :: v, ⟨mem_quotedChars.2 (.plain hplain (mem_quotedChars.1 hv.mem)), ?_,
        fun w hmem hstart => ?_⟩, ?_⟩
      · exact List.cons_prefix_cons.2 ⟨rfl, hv.start⟩
      · cases mem_quotedChars.1 hmem with
        | nil => exact Nat.zero_le _
        | escape e hw => exact absurd (List.cons_prefix_cons.1 hstart).1.symm hescape
        | plain he hw =>
          exact Nat.succ_le_succ
            (hv.longest _ (mem_quotedChars.2 hw) (List.cons_prefix_cons.1 hstart).2)
      · rw [withLastBackslash_cons, hlast]
        rfl

/-- Where no closing quote is found there is none, and as much is read as can be. -/
theorem longest_opened (h : (readQuoted quote cs).2 = false) :
    (∀ v ∈ closed quote, ¬v <+: quote :: cs) ∧ ∃ w, Longest (opened quote) (quote :: cs) w ∧
      withLastBackslash (quote :: cs) w = quote :: cs.take (readQuoted quote cs).1 := by
  refine ⟨fun v hv hstart => ?_, ?_⟩
  · rw [readQuoted_of_closed hquote hv hstart] at h
    cases h
  · obtain ⟨w, hw, hlast⟩ := longest_quotedChars hquote cs h
    refine ⟨quote :: w,
      ⟨mem_opened.2 ⟨w, rfl, hw.mem⟩, List.cons_prefix_cons.2 ⟨rfl, hw.start⟩, ?_⟩, ?_⟩
    · rintro _ hmem hstart
      obtain ⟨v, rfl, hv⟩ := mem_opened.1 hmem
      exact Nat.succ_le_succ (hw.longest v hv (List.cons_prefix_cons.1 hstart).2)
    · rw [withLastBackslash_cons, hlast]

/-- The closed text at the start of a text. -/
theorem Shortest.closed_eq (h : Shortest (closed quote) (c :: cs) w) :
    c = quote ∧ (readQuoted quote cs).2 = true ∧ w = c :: cs.take (readQuoted quote cs).1 := by
  obtain ⟨v, hv, -⟩ := mem_closed.1 h.mem
  obtain rfl : quote = c := head_eq h.start hv
  cases hread : (readQuoted quote cs).2 with
  | true => exact ⟨rfl, rfl, h.unique (shortest_closed hquote hread)⟩
  | false => exact absurd h.start ((longest_opened hquote hread).1 w h.mem)

/-- The unclosed text at the start of a text. -/
theorem Longest.opened_eq (h : Longest (opened quote) (c :: cs) w)
    (unclosed : ∀ v ∈ closed quote, ¬v <+: c :: cs) : c = quote ∧ (readQuoted quote cs).2 = false ∧
      withLastBackslash (c :: cs) w = c :: cs.take (readQuoted quote cs).1 := by
  obtain ⟨v, hv, -⟩ := mem_opened.1 h.mem
  obtain rfl : quote = c := head_eq h.start hv
  cases hread : (readQuoted quote cs).2 with
  | true =>
    have hclosed := shortest_closed hquote hread
    exact absurd hclosed.start (unclosed _ hclosed.mem)
  | false =>
    obtain ⟨-, w', hw', hlast⟩ := longest_opened hquote hread
    exact ⟨rfl, rfl, h.unique hw' ▸ hlast⟩

end Quotes

/-! ## Punctuation -/

theorem spelling_inj {m m' : Mark} (h : m.spelling.toList = m'.spelling.toList) : m = m' := by
  have hpair : Mark.longestFirst.Pairwise fun m m' => m.spelling.toList ≠ m'.spelling.toList :=
    pairwise_longestFirst.imp fun {m m'} hstart heq => hstart (by rw [heq])
  have : Std.Symm fun m m' : Mark => m.spelling.toList ≠ m'.spelling.toList := ⟨fun _ _ => Ne.symm⟩
  by_contra hne
  exact hpair.forall m.mem_longestFirst m'.mem_longestFirst hne h

/-- What is read as a mark is the longest one, if no comment begins there. -/
theorem longest_mark (h : mark? text = some m) (hcomment : ¬['/', '/'] <+: text) :
    Longest punctuation text m.spelling.toList := by
  obtain ⟨hstart, before, behind, hlist, hbefore⟩ := List.find?_eq_some_iff_append.1 h
  refine ⟨.inl ⟨m, rfl⟩, List.isPrefixOf_iff_prefix.1 hstart, ?_⟩
  rintro v (⟨m', rfl⟩ | rfl) hv
  · have hpair := pairwise_longestFirst
    have hmem := m'.mem_longestFirst
    rw [hlist, List.pairwise_append, List.pairwise_cons] at hpair
    rw [hlist, List.mem_append, List.mem_cons] at hmem
    rcases hmem with hm' | rfl | hm'
    · have := hbefore m' hm'
      rw [Bool.not_eq_true', ← Bool.not_eq_true, List.isPrefixOf_iff_prefix] at this
      exact absurd hv this
    · exact Nat.le_refl _
    · refine Nat.le_of_not_le fun hlength => hpair.2.1.1 m' hm' ?_
      exact List.prefix_of_prefix_length_le (List.isPrefixOf_iff_prefix.1 hstart) hv hlength
  · exact absurd hv hcomment

theorem longest_comment (cs : List Char) : Longest punctuation ('/' :: '/' :: cs) ['/', '/'] := by
  have hslash : ∀ m ∈ Mark.longestFirst, ∀ c ∈ m.spelling.toList.head?, c = '/' →
      m.spelling.toList.length ≤ 2 := by decide
  refine ⟨.inr rfl, ⟨cs, rfl⟩, ?_⟩
  rintro v (⟨m, rfl⟩ | rfl) hv
  · obtain ⟨d, w, hw⟩ := List.exists_cons_of_ne_nil (spelling_ne_nil m)
    refine hslash m m.mem_longestFirst d (by rw [hw]; rfl) ?_
    rw [hw] at hv
    exact (List.cons_prefix_cons.1 hv).1
  · exact Nat.le_refl 2

/-! ## Words -/

/-- What can be behind the first character of a word. -/
inductive Tail : List Char → Prop where
  | nil : Tail []
  | plain {c : Char} {w : List Char} (hc : continuesWord c) (h : Tail w) : Tail (c :: w)
  | dash {c : Char} {w : List Char} (hc : continuesWord c) (h : Tail w) : Tail ('-' :: c :: w)

theorem Tail.append_left (hv : ∀ c ∈ v, continuesWord c) (hw : Tail w) : Tail (v ++ w) := by
  induction v with
  | nil => exact hw
  | cons c v ih =>
    obtain ⟨hc, hv⟩ := List.forall_mem_cons.1 hv
    exact .plain hc (ih hv)

theorem mem_words : w ∈ words ↔ ∃ c v, w = c :: v ∧ startsWord c ∧ Tail v := by
  rw [words, Language.mem_mul]
  constructor
  · rintro ⟨_, hfirst, w, hw, rfl⟩
    obtain ⟨_, ⟨c, hc, rfl⟩, v, hv, rfl⟩ := Language.mem_mul.1 hfirst
    refine ⟨c, v ++ w, rfl, hc, .append_left (mem_kstar_one.1 hv) ?_⟩
    refine forall_kstar (P := Tail) .nil ?_ w hw
    rintro u hu w hw
    obtain ⟨_, rfl, _, hpart, rfl⟩ := Language.mem_mul.1 hu
    obtain ⟨_, ⟨d, hd, rfl⟩, v, hv, rfl⟩ := Language.mem_mul.1 hpart
    exact .dash hd (.append_left (mem_kstar_one.1 hv) hw)
  · rintro ⟨c, v, rfl, hc, hv⟩
    suffices hparts : ∃ a b, v = a ++ b ∧ (∀ d ∈ a, continuesWord d) ∧
        b ∈ ({['-']} * (one continuesWord * (one continuesWord)∗))∗ by
      obtain ⟨a, b, rfl, ha, hb⟩ := hparts
      exact ⟨c :: a, Language.mem_mul.2 ⟨[c], ⟨c, hc, rfl⟩, a, mem_kstar_one.2 ha, rfl⟩, b, hb, rfl⟩
    induction hv with
    | nil => exact ⟨[], [], rfl, by simp, Language.nil_mem_kstar _⟩
    | @plain d v hd hv ih =>
      obtain ⟨a, b, rfl, ha, hb⟩ := ih
      exact ⟨d :: a, b, rfl, List.forall_mem_cons.2 ⟨hd, ha⟩, hb⟩
    | @dash d v hd hv ih =>
      obtain ⟨a, b, rfl, ha, hb⟩ := ih
      refine ⟨[], '-' :: d :: a ++ b, rfl, by simp, append_mem_kstar (v := '-' :: d :: a) ?_ hb⟩
      exact Language.mem_mul.2 ⟨_, rfl, d :: a, Language.mem_mul.2
        ⟨[d], ⟨d, hd, rfl⟩, a, mem_kstar_one.2 ha, rfl⟩, rfl⟩

theorem wordLength_plain (hc : continuesWord c) (cs : List Char) :
    wordLength (c :: cs) = wordLength cs + 1 := by
  rw [wordLength, if_pos hc]

theorem wordLength_dash (hc : continuesWord c) (cs : List Char) :
    wordLength ('-' :: c :: cs) = wordLength cs + 2 := by
  rw [wordLength, if_neg (by decide), if_pos (by simp [hc]), wordLength_plain hc]

/-- What is read behind the first character of a word is a tail. -/
theorem tail_take : (cs : List Char) → Tail (cs.take (wordLength cs))
  | [] => .nil
  | c :: cs => by
    by_cases hc : continuesWord c
    · rw [wordLength_plain hc]
      exact .plain hc (tail_take cs)
    by_cases hdash : c = '-' && cs.head?.any continuesWord
    · rw [Bool.and_eq_true, decide_eq_true_iff] at hdash
      obtain ⟨rfl, hnext⟩ := hdash
      match cs, hnext with
      | d :: cs, hd =>
        rw [wordLength_dash hd]
        exact .dash hd (tail_take cs)
    · rw [wordLength, if_neg hc, if_neg hdash]
      exact .nil

/-- No tail goes on behind what is read. -/
theorem Tail.length_le (h : Tail v) (hstart : v <+: cs) : v.length ≤ wordLength cs := by
  induction h generalizing cs with
  | nil => exact Nat.zero_le _
  | plain hc h ih =>
    obtain ⟨rest, rfl⟩ := hstart
    rw [List.cons_append, wordLength_plain hc]
    exact Nat.succ_le_succ (ih (List.prefix_append _ _))
  | dash hc h ih =>
    obtain ⟨rest, rfl⟩ := hstart
    rw [List.cons_append, List.cons_append, wordLength_dash hc]
    exact Nat.add_le_add_right (ih (List.prefix_append _ _)) 2

theorem longest_words (hc : startsWord c) (cs : List Char) :
    Longest words (c :: cs) (c :: cs.take (wordLength cs)) := by
  refine ⟨mem_words.2 ⟨c, _, rfl, hc, tail_take cs⟩,
    List.cons_prefix_cons.2 ⟨rfl, List.take_prefix _ _⟩, ?_⟩
  rintro _ hv hstart
  obtain ⟨d, v, rfl, -, hv⟩ := mem_words.1 hv
  rw [List.length_cons, List.length_cons, List.length_take_of_le (Glyph.wordLength_le cs)]
  exact Nat.succ_le_succ (hv.length_le (List.cons_prefix_cons.1 hstart).2)

/-! ## Lexemes -/

/-- Whether a comment begins. -/
theorem isComment_iff : (c = '/' && cs.head? == some '/') = true ↔ ['/', '/'] <+: c :: cs := by
  cases cs with
  | nil => simp
  | cons d cs => simp [eq_comm (a := '/')]

/-- The longest entry of a text is what is read as a mark. -/
theorem read_mark (h : Longest punctuation (c :: cs) m.spelling.toList) :
    read c cs = ⟨.mark m, m.spelling.length - 1⟩ := by
  obtain ⟨d, v, hv⟩ := List.exists_cons_of_ne_nil (spelling_ne_nil m)
  obtain rfl : d = c := head_eq h.start hv
  have hplain : ∀ m ∈ Mark.longestFirst, ∀ d ∈ m.spelling.toList.head?,
      Literal.isDigit d = false ∧ d ≠ '\x60' ∧ d ≠ '\x22' ∧ d ≠ '\x27' := by decide
  obtain ⟨hdigit, hquotes⟩ := hplain m m.mem_longestFirst d (by rw [hv]; rfl)
  have hcomment : ¬['/', '/'] <+: d :: cs := by
    rintro ⟨tail, htail⟩
    have hspelling : ∀ m ∈ Mark.longestFirst, m.spelling.toList ≠ ['/', '/'] := by decide
    exact hspelling m m.mem_longestFirst ((htail ▸ h).unique (longest_comment tail))
  have hmark : mark? (d :: cs) = some m := by
    cases hm : mark? (d :: cs) with
    | none =>
      exact absurd (List.isPrefixOf_iff_prefix.2 h.start)
        (List.find?_eq_none.1 hm m m.mem_longestFirst)
    | some m' => rw [spelling_inj ((longest_mark hm hcomment).unique h)]
  rw [read_other hdigit hquotes, if_neg (mt isComment_iff.1 hcomment), hmark]

/-- When no language has a piece at the start of a text. -/
theorem forall_languages_iff : (∀ l ∈ languages, ∀ v ∈ l, ¬v <+: c :: cs) ↔
    Literal.isDigit c = false ∧
    (c ≠ '\x60' ∧ c ≠ '\x22' ∧ c ≠ '\x27') ∧ mark? (c :: cs) = none ∧ startsWord c = false := by
  simp only [languages, List.forall_mem_cons, List.not_mem_nil, false_imp_iff,
    implies_true, and_true]
  constructor
  · rintro ⟨hinteger, hticked, hdouble, hsingle, hentry, hword⟩
    have hhead : ∀ {d}, c = d → [d] <+: c :: cs := fun h => ⟨cs, h ▸ rfl⟩
    refine ⟨Bool.eq_false_iff.2 fun hc => ?_, ⟨fun hc => ?_, fun hc => ?_, fun hc => ?_⟩, ?_,
      Bool.eq_false_iff.2 fun hc => ?_⟩
    · exact hinteger [c] (mem_integers.2 ⟨c, [], rfl, hc, by simp⟩) (hhead rfl)
    · exact hticked _ (mem_lines.2 ⟨[], rfl, by simp⟩) (hhead hc)
    · exact hdouble _ (mem_opened.2 ⟨[], rfl, mem_quotedChars.2 .nil⟩) (hhead hc)
    · exact hsingle _ (mem_opened.2 ⟨[], rfl, mem_quotedChars.2 .nil⟩) (hhead hc)
    · exact List.find?_eq_none.2 fun m _ hm =>
        hentry _ (.inl ⟨m, rfl⟩) (List.isPrefixOf_iff_prefix.1 hm)
    · exact hword [c] (mem_words.2 ⟨c, [], rfl, hc, .nil⟩) (hhead rfl)
  · rintro ⟨hdigit, ⟨htick, hdouble, hsingle⟩, hmark, hword⟩
    have hentry : ∀ m : Mark, ¬m.spelling.toList <+: c :: cs := fun m hm =>
      List.find?_eq_none.1 hmark m m.mem_longestFirst (List.isPrefixOf_iff_prefix.2 hm)
    refine ⟨fun v hv hstart => ?_, fun v hv hstart => ?_, fun v hv hstart => ?_,
      fun v hv hstart => ?_,
      fun v hv hstart => ?_, fun v hv hstart => ?_⟩
    · obtain ⟨d, v, hv, hd, -⟩ := mem_integers.1 hv
      rw [head_eq hstart hv, hdigit] at hd
      cases hd
    · obtain ⟨v, hv, -⟩ := mem_lines.1 hv
      exact htick (head_eq hstart hv).symm
    · obtain ⟨v, hv, -⟩ := mem_opened.1 hv
      exact hdouble (head_eq hstart hv).symm
    · obtain ⟨v, hv, -⟩ := mem_opened.1 hv
      exact hsingle (head_eq hstart hv).symm
    · rcases hv with ⟨m, rfl⟩ | rfl
      · exact hentry m hstart
      · -- what comments begin with starts with a mark
        exact hentry .slash ((List.prefix_append ['/'] ['/']).trans hstart)
    · obtain ⟨d, v, hv, hd, -⟩ := mem_words.1 hv
      rw [head_eq hstart hv, hword] at hd
      cases hd

theorem wordKind_spelling (k : Keyword) : wordKind k.spelling.toList = .keyword k := by
  cases k <;> decide

theorem Longest.words_eq (h : Longest words (c :: cs) w) :
    startsWord c ∧ w = c :: cs.take (wordLength cs) := by
  obtain ⟨d, v, hv, hd, -⟩ := mem_words.1 h.mem
  obtain rfl : d = c := head_eq h.start hv
  exact ⟨hd, h.unique (longest_words hd cs)⟩

/-- By the grammar there is a lexeme at the start of every text. -/
theorem exists_starts (c : Char) (cs : List Char) : ∃ k w, Starts (c :: cs) k w := by
  by_cases hdigit : Literal.isDigit c
  · exact ⟨_, _, .integer (longest_integers hdigit cs)⟩
  by_cases htick : c = '\x60'
  · subst htick
    exact ⟨_, _, .tickedLine (longest_lines ['\x60'] cs)⟩
  by_cases hdouble : c = '\x22'
  · subst hdouble
    cases hread : (readQuoted '\x22' cs).2 with
    | true => exact ⟨_, _, .string (shortest_closed (by decide) hread)⟩
    | false =>
      obtain ⟨hunclosed, w, hw, -⟩ := longest_opened (by decide) hread
      exact ⟨_, _, .unclosedString hunclosed hw⟩
  by_cases hsingle : c = '\x27'
  · subst hsingle
    cases hread : (readQuoted '\x27' cs).2 with
    | true => exact ⟨_, _, .literal (shortest_closed (by decide) hread)⟩
    | false =>
      obtain ⟨hunclosed, w, hw, -⟩ := longest_opened (by decide) hread
      exact ⟨_, _, .unclosedLiteral hunclosed hw⟩
  by_cases hcomment : ['/', '/'] <+: c :: cs
  · obtain ⟨rest, hrest⟩ := hcomment
    obtain ⟨rfl, rfl⟩ := List.cons.inj hrest
    exact ⟨_, _, .comment (longest_comment rest) (longest_lines ['/', '/'] rest)⟩
  cases hmark : mark? (c :: cs) with
  | some m => exact ⟨_, _, .mark (longest_mark hmark hcomment)⟩
  | none =>
    by_cases hword : startsWord c
    · have hlongest := longest_words hword cs
      by_cases hkeyword : ∃ k : Keyword, c :: cs.take (wordLength cs) = k.spelling.toList
      · obtain ⟨k, hk⟩ := hkeyword
        exact ⟨_, _, .keyword (k := k) (hk ▸ hlongest)⟩
      · exact ⟨_, _, .identifier hlongest (not_exists.1 hkeyword)⟩
    · exact ⟨_, _, .unrecognized (forall_languages_iff.2
        ⟨by simpa using hdigit, ⟨htick, hdouble, hsingle⟩, hmark, by simpa using hword⟩)⟩

/-- The grammar allows no lexeme but the one that is read. -/
theorem Starts.eq_read {k : Kind} (h : Starts (c :: cs) k w) :
    k = (read c cs).kind ∧ w = c :: cs.take (read c cs).more := by
  cases h with
  | integer h =>
    obtain ⟨d, v, hv, hd, -⟩ := mem_integers.1 h.mem
    obtain rfl : d = c := head_eq h.start hv
    rw [read_digit hd]
    exact ⟨rfl, h.unique (longest_integers hd cs)⟩
  | tickedLine h =>
    obtain ⟨v, hv, -⟩ := mem_lines.1 h.mem
    obtain rfl : '\x60' = c := head_eq h.start hv
    exact ⟨rfl, h.unique (longest_lines ['\x60'] cs)⟩
  | string h =>
    obtain ⟨rfl, hread, hw⟩ := h.closed_eq (by decide)
    rw [read_doubleQuote, hread]
    exact ⟨rfl, hw⟩
  | literal h =>
    obtain ⟨rfl, hread, hw⟩ := h.closed_eq (by decide)
    rw [read_singleQuote, hread]
    exact ⟨congrArg _ hw, hw⟩
  | unclosedString unclosed h =>
    obtain ⟨rfl, hread, hw⟩ := h.opened_eq (by decide) unclosed
    rw [read_doubleQuote, hread]
    exact ⟨rfl, hw⟩
  | unclosedLiteral unclosed h =>
    obtain ⟨rfl, hread, hw⟩ := h.opened_eq (by decide) unclosed
    rw [read_singleQuote, hread]
    exact ⟨rfl, hw⟩
  | comment entry h =>
    obtain ⟨rest, hrest⟩ := entry.start
    obtain ⟨rfl, rfl⟩ := List.cons.inj hrest
    exact ⟨rfl, h.unique (longest_lines ['/', '/'] rest)⟩
  | @mark _ m h =>
    have hpos := List.length_pos_iff.2 (spelling_ne_nil m)
    have htake := List.prefix_iff_eq_take.1 h.start
    rw [read_mark h]
    refine ⟨rfl, htake.trans ?_⟩
    rw [← List.take_succ_cons, ← String.length_toList, Nat.sub_add_cancel hpos]
  | keyword h =>
    obtain ⟨hc, hw⟩ := h.words_eq
    rw [read_word hc, ← hw, wordKind_spelling]
    exact ⟨rfl, rfl⟩
  | identifier h name =>
    obtain ⟨hc, hw⟩ := h.words_eq
    rw [read_word hc, ← hw, wordKind_name name]
    exact ⟨rfl, rfl⟩
  | unrecognized none =>
    obtain ⟨hdigit, hquotes, hmark, hword⟩ := forall_languages_iff.1 none
    have hcomment : ¬['/', '/'] <+: c :: cs := none punctuation (by simp [languages]) _ (.inr rfl)
    rw [read_other hdigit hquotes, if_neg (mt isComment_iff.1 hcomment), hmark, hword]
    exact ⟨rfl, rfl⟩

/-- By the grammar the lexeme at the start of a text is the one that is read, and no other. -/
theorem starts_iff (c : Char) (cs : List Char) (k : Kind) (w : List Char) :
    Starts (c :: cs) k w ↔ k = (read c cs).kind ∧ w = c :: cs.take (read c cs).more := by
  refine ⟨Starts.eq_read, ?_⟩
  rintro ⟨rfl, rfl⟩
  obtain ⟨k, w, h⟩ := exists_starts c cs
  obtain ⟨rfl, rfl⟩ := h.eq_read
  exact h

end Lexeme

/-! ## Texts -/

open Lexeme

/-- Which lexemes a text consists of by the grammar, with space between them. -/
inductive LexesAs : List Char → List (Kind × List Char) → Prop where
  | done {tail : List Char} (space : ∀ c ∈ tail, isSpace c) : LexesAs tail []
  | next {gap w rest : List Char} {c : Char} {k : Kind} {ls : List (Kind × List Char)}
      (space : ∀ d ∈ gap, isSpace d) (start : isSpace c = false)
      (h : Starts (c :: w ++ rest) k (c :: w))
      (others : LexesAs rest ls) : LexesAs (gap ++ (c :: w ++ rest)) ((k, c :: w) :: ls)

namespace Glyph

/-- A text consists of the lexemes of its glyphs. -/
theorem Scans.lexesAs {cs : List Char} {gs : List Glyph} (h : Scans cs gs) :
    LexesAs cs (gs.map fun g => (g.kind, g.text)) := by
  induction h with
  | done htail => exact .done htail
  | @next gap k c w rest gs hgap hc hread hrest ih =>
    refine .next hgap hc ((starts_iff c (w ++ rest) k (c :: w)).2 ?_) ih
    rw [hread]
    exact ⟨rfl, by rw [List.take_left]⟩

/-- What a text consists of by the grammar are its glyphs. -/
theorem exists_scans_of_lexesAs {cs : List Char} {ls : List (Kind × List Char)}
    (h : LexesAs cs ls) :
    ∃ gs, Scans cs gs ∧ (gs.map fun g => (g.kind, g.text)) = ls := by
  induction h with
  | done space => exact ⟨[], .done space, rfl⟩
  | @next gap w rest c k ls space start h others ih =>
    obtain ⟨gs, hgs, rfl⟩ := ih
    obtain ⟨rfl, hw⟩ := (starts_iff c (w ++ rest) k (c :: w)).1 h
    have hmore : w.length = (Lexeme.read c (w ++ rest)).more := by
      have hlength := congrArg List.length (List.cons.inj hw).2
      rwa [List.length_take_of_le (more_le c (w ++ rest))] at hlength
    exact ⟨⟨gap, _, c :: w⟩ :: gs, .next space start (by rw [hmore]) hgs, rfl⟩

end Glyph

/-- The tokens of a source text are the lexemes of which it consists by the grammar, and there is no
other way to take the text apart. -/
theorem Stream.lexesAs_iff (text file : String) (ls : List (Kind × List Char)) :
    LexesAs text.toList ls ↔
    ((ofText text file).tokens.map fun t => (t.kind, t.text.toList)) = ls := by
  obtain ⟨gs, hgs⟩ := Glyph.exists_scans text.toList
  rw [hgs.tokens_ofText file, Glyph.map_placed]
  constructor
  · intro h
    obtain ⟨gs', hgs', rfl⟩ := Glyph.exists_scans_of_lexesAs h
    rw [hgs.unique hgs']
  · rintro rfl
    exact hgs.lexesAs

end DocExpr
