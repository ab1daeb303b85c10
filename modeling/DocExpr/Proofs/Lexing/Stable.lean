import DocExpr.Token.Lexeme

/-!
# Lexemes in other places

What is read as one lexeme in one text is read as the same lexeme in another, if what comes behind
it there does not extend it. `Kind.extendedBy` says which characters extend a lexeme of a kind, and
`Lexeme.Stable` that a text is read as a lexeme wherever no such character is behind it. Everything
that is read anywhere without a fault is stable (`Lexeme.stable_of_read`), and so are the spellings
of marks (`Lexeme.stable_mark`) and keywords (`Lexeme.stable_keyword`).
-/

namespace DocExpr

/-- What is said of all characters of a text is decided along the text, not for every character
there is. -/
instance (priority := high) decidableForallChars {p : Char → Prop} [DecidablePred p]
    (cs : List Char) :
    Decidable (∀ c ∈ cs, p c) := List.decidableBAll p cs

instance (priority := high) decidableForallChar? {p : Char → Prop} [DecidablePred p]
    (c? : Option Char) :
    Decidable (∀ c ∈ c?, p c) := Option.decidableForallMem c?

/-- Whether an atom is written between quotes. -/
def Atom.isQuoted : Atom → Bool
  | integer | identifier => false
  | _ => true

/-- Whether a character behind a lexeme of a kind could have become part of it. -/
def Kind.extendedBy : Kind → Char → Bool
  | .atom .integer, c => Literal.isDigit c
  | .atom .identifier, c | .keyword _, c => Lexeme.continuesWord c || c = '-'
  | .comment, c | .tickedLine, c => !Lexeme.endsLine c
  | .mark m, c =>
    m = .slash && c = '/' ||
      Mark.longestFirst.any fun m' => (m.spelling.toList ++ [c]).isPrefixOf m'.spelling.toList
  | _, _ => false

theorem Kind.extendedBy_newline (k : Kind) : k.extendedBy '\n' = false := by
  cases k with
  | mark m => cases m <;> decide
  | atom a => cases a <;> rfl
  | _ => rfl

namespace Lexeme

/-- Whether a text is read as a lexeme of a kind wherever nothing behind it extends it. -/
def Stable (k : Kind) (text : List Char) : Prop :=
  ∃ c w, text = c :: w ∧ isSpace c = false ∧
    ∀ rest, (∀ d ∈ rest.head?, k.extendedBy d = false) → read c (w ++ rest) = ⟨k, w.length⟩

variable {p : Char → Bool} {w rest rest' : List Char} {c : Char} {k : Kind} {m : Mark}

/-! ## The parts of lexemes -/

theorem length_takeWhile_append (hw : ∀ c ∈ w, p c) (hrest : ∀ c ∈ rest.head?, p c = false) :
    ((w ++ rest).takeWhile p).length = w.length := by
  rw [List.takeWhile_append_of_pos hw]
  cases rest with
  | nil => simp
  | cons d rest => simp [hrest d rfl]

theorem forall_of_length_takeWhile (rest : List Char)
    (h : ((w ++ rest).takeWhile p).length = w.length) :
    ∀ c ∈ w, p c := by
  have hw : (w ++ rest).takeWhile p = w :=
    (List.prefix_of_prefix_length_le (List.takeWhile_prefix p) (List.prefix_append w rest)
      (Nat.le_of_eq h)).eq_of_length h
  rw [← hw]
  exact List.all_eq_true.1 List.all_takeWhile

theorem readQuoted_end {quote : Char} (h : endsLine c) (cs : List Char) :
    readQuoted quote (c :: cs) = (0, false) := by
  unfold readQuoted
  rw [if_pos h]

theorem readQuoted_close {quote : Char} (h : endsLine quote = false) (cs : List Char) :
    readQuoted quote (quote :: cs) = (1, true) := by
  unfold readQuoted
  rw [if_neg (by simp [h]), if_pos rfl]

theorem readQuoted_lone {quote : Char} (h : quote ≠ '\\') :
    readQuoted quote ['\\'] = (1, false) := by
  unfold readQuoted
  rw [if_neg (by decide), if_neg (Ne.symm h), if_pos rfl]

theorem readQuoted_escape {quote : Char} (h : quote ≠ '\\') (d : Char) (cs : List Char) :
    readQuoted quote ('\\' :: d :: cs) =
    ((readQuoted quote cs).1 + 2, (readQuoted quote cs).2) := by
  rw [readQuoted, if_neg (by decide), if_neg (Ne.symm h), if_pos rfl]

theorem readQuoted_plain {quote : Char} (h : endsLine c = false ∧ c ≠ quote ∧ c ≠ '\\')
    (cs : List Char) :
    readQuoted quote (c :: cs) = ((readQuoted quote cs).1 + 1, (readQuoted quote cs).2) := by
  rw [readQuoted.eq_def]
  simp only [h.1, h.2.1, h.2.2, Bool.false_eq_true, if_false]

theorem readQuoted_pos (quote : Char) (cs : List Char) (h : (readQuoted quote cs).2 = true) :
    0 < (readQuoted quote cs).1 := by
  unfold readQuoted at h ⊢
  split
  · simp at h
  · split
    · simp_all
    · split
      · simp
      · split
        · split <;> simp
        · simp

/-- A quoted text that is closed is read alike before anything. -/
theorem readQuoted_append (quote : Char) : (w rest rest' : List Char) →
    readQuoted quote (w ++ rest) = (w.length, true) →
    readQuoted quote (w ++ rest') = (w.length, true)
  | [], rest, _, h => by
    have := readQuoted_pos quote rest (by rw [List.nil_append] at h; rw [h])
    rw [List.nil_append] at h
    rw [h] at this
    cases this
  | c :: w, rest, rest', h => by
    rw [List.cons_append] at h ⊢
    by_cases hend : endsLine c
    · rw [readQuoted_end hend] at h
      cases h
    by_cases hquote : c = quote
    · subst hquote
      rw [readQuoted_close (by simpa using hend)] at h ⊢
      exact h
    by_cases hescape : c = '\\'
    · subst hescape
      cases w with
      | nil =>
        -- the backslash takes a character of the rest
        cases rest with
        | nil =>
          rw [List.nil_append, readQuoted_lone (Ne.symm hquote)] at h
          cases congrArg Prod.snd h
        | cons d rest =>
          rw [List.nil_append, readQuoted_escape (Ne.symm hquote)] at h
          simp at h
      | cons d w =>
        rw [List.cons_append, readQuoted_escape (Ne.symm hquote), List.length_cons,
          List.length_cons, Prod.mk.injEq, Nat.add_right_cancel_iff] at h
        rw [List.cons_append, readQuoted_escape (Ne.symm hquote),
          readQuoted_append quote w rest rest' (Prod.ext h.1 h.2), List.length_cons,
          List.length_cons]
    · have hplain : endsLine c = false ∧ c ≠ quote ∧ c ≠ '\\' :=
        ⟨by simpa using hend, hquote, hescape⟩
      rw [readQuoted_plain hplain, List.length_cons, Prod.mk.injEq, Nat.add_right_cancel_iff] at h
      rw [readQuoted_plain hplain, readQuoted_append quote w rest rest' (Prod.ext h.1 h.2),
        List.length_cons]

theorem wordLength_pos (rest : List Char) (h : ∃ c ∈ rest.head?, continuesWord c) :
    0 < wordLength rest := by
  obtain ⟨c, hc, hcont⟩ := h
  obtain ⟨tail, rfl⟩ := List.head?_eq_some_iff.1 hc
  simp [wordLength, hcont]

/-- The rest of a word is read alike before anything that cannot continue it. -/
theorem wordLength_append (h : wordLength (w ++ rest) = w.length)
    (hrest : ∀ d ∈ rest'.head?, continuesWord d = false ∧ d ≠ '-') :
    wordLength (w ++ rest') = w.length := by
  induction w with
  | nil =>
    cases rest' with
    | nil => rfl
    | cons d rest' =>
      obtain ⟨hd, hdash⟩ := hrest d rfl
      simp [wordLength, hd, hdash]
  | cons c w ih =>
    rw [List.cons_append, wordLength] at h ⊢
    by_cases hc : continuesWord c
    · simp only [hc, if_true, List.length_cons, Nat.add_right_cancel_iff] at h ⊢
      exact ih h
    · simp only [hc, Bool.false_eq_true, if_false] at h ⊢
      split at h <;> rename_i hdash
      · rw [List.length_cons, Nat.add_right_cancel_iff] at h
        cases w with
        | nil =>
          have := wordLength_pos rest (by
            simp only [Bool.and_eq_true, List.nil_append, Option.any_eq_true] at hdash
            exact hdash.2)
          rw [List.nil_append] at h
          rw [h] at this
          cases this
        | cons d w =>
          rw [List.cons_append, List.head?_cons] at hdash ⊢
          rw [if_pos hdash, ← List.cons_append, ih h]
          rfl
      · cases h

/-! ## Marks -/

/-- No mark is tried before one whose spelling goes on where its own ends. -/
theorem pairwise_longestFirst :
    Mark.longestFirst.Pairwise fun m m' => ¬m.spelling.toList <+: m'.spelling.toList := by decide

theorem mark?_append (hrest : ∀ d ∈ rest.head?, (Kind.mark m).extendedBy d = false) :
    mark? (m.spelling.toList ++ rest) = some m := by
  obtain ⟨before, behind, hlist⟩ := List.append_of_mem m.mem_longestFirst
  have hpair := pairwise_longestFirst
  rw [hlist, List.pairwise_append] at hpair
  refine List.find?_eq_some_iff_append.2 ⟨?_, before, behind, hlist, fun m' hm' => ?_⟩
  · exact List.isPrefixOf_iff_prefix.2 (List.prefix_append _ _)
  · rw [Bool.not_eq_true', ← Bool.not_eq_true, List.isPrefixOf_iff_prefix]
    intro hpre
    rcases List.prefix_or_prefix_of_prefix hpre (List.prefix_append _ _) with h | ⟨t, ht⟩
    · exact hpair.2.2 m' hm' m (by simp) h
    · -- a longer mark would extend this one with the first character behind it
      rw [← ht, List.prefix_append_right_inj] at hpre
      cases t with
      | nil => exact hpair.2.2 m' hm' m (by simp) (by simp [← ht])
      | cons d t =>
        obtain ⟨tail, rfl⟩ := hpre
        have hd := hrest d rfl
        simp only [Kind.extendedBy, Bool.or_eq_false_iff, List.any_eq_false] at hd
        refine hd.2 m' m'.mem_longestFirst (List.isPrefixOf_iff_prefix.2 ⟨t, ?_⟩)
        simp [← ht]

/-- A mark that is found is at the start of the text. -/
theorem prefix_of_mark? {cs : List Char} (h : mark? cs = some m) :
    ∃ rest, cs = m.spelling.toList ++ rest := by
  obtain ⟨rest, hrest⟩ := List.isPrefixOf_iff_prefix.1 (List.find?_some h :)
  exact ⟨rest, hrest.symm⟩

theorem spelling_ne_nil (m : Mark) : m.spelling.toList ≠ [] := by cases m <;> decide

/-- The text of a mark is its spelling. -/
theorem eq_spelling_of_mark? (h : mark? (c :: (w ++ rest)) = some m)
    (hlength : m.spelling.length - 1 = w.length) : c :: w = m.spelling.toList := by
  obtain ⟨tail, htail⟩ := prefix_of_mark? h
  have hn := List.length_pos_iff.2 (spelling_ne_nil m)
  refine (List.append_inj (show c :: w ++ rest = _ from htail) ?_).1
  rw [String.length_toList] at hn ⊢
  rw [List.length_cons]
  omega

theorem extendedBy_wordKind (word : List Char) (c : Char) :
    (wordKind word).extendedBy c = (continuesWord c || c = '-') := by
  unfold wordKind
  split <;> rfl

theorem eq_slash (h : m.spelling.toList = ['/']) : m = .slash := by
  cases m <;> first | rfl | exact absurd h (by decide)

/-- No mark starts like a word. -/
theorem mark?_of_startsWord {cs : List Char} (h : startsWord c) : mark? (c :: cs) = none := by
  have none : ∀ m ∈ Mark.longestFirst, ∀ d ∈ m.spelling.toList.head?, startsWord d = false := by
    decide
  refine List.find?_eq_none.2 fun m hm hpre => ?_
  obtain ⟨tail, htail⟩ := List.isPrefixOf_iff_prefix.1 hpre
  cases hs : m.spelling.toList with
  | nil => exact spelling_ne_nil m hs
  | cons d ds =>
    rw [hs, List.cons_append, List.cons.injEq] at htail
    have := none m hm d (by simp [hs])
    rw [htail.1, h] at this
    cases this

/-! ## Lexemes -/

theorem read_digit (h : Literal.isDigit c) (cs : List Char) :
    read c cs = ⟨.atom .integer, (cs.takeWhile Literal.isDigit).length⟩ := by
  rw [read, if_pos h]

theorem read_tick (cs : List Char) : read '\x60' cs = ⟨.tickedLine, lineLength cs⟩ := rfl

theorem read_doubleQuote (cs : List Char) :
    read '\x22' cs = ⟨if (readQuoted '\x22' cs).2 then .atom .string else .fault .unclosedString,
      (readQuoted '\x22' cs).1⟩ := rfl

theorem read_singleQuote (cs : List Char) :
    read '\x27' cs = ⟨if (readQuoted '\x27' cs).2 then
      Literal.classify ('\x27' :: cs.take (readQuoted '\x27' cs).1) else .fault .unclosedLiteral,
        (readQuoted '\x27' cs).1⟩ := rfl

/-- What starts with no digit, back tick or quote is a comment, a mark, a word or a fault. -/
theorem read_other (hdigit : Literal.isDigit c = false) (hc : c ≠ '\x60' ∧ c ≠ '\x22' ∧ c ≠ '\x27')
    (cs : List Char) :
    read c cs =
      if c = '/' && cs.head? == some '/' then ⟨.comment, lineLength cs⟩
      else
        match mark? (c :: cs) with
        | some m => ⟨.mark m, m.spelling.length - 1⟩
        | none =>
          if startsWord c then ⟨wordKind (c :: cs.take (wordLength cs)), wordLength cs⟩
          else ⟨.fault .unrecognizedChar, 0⟩ := by
  unfold read
  exact (if_neg (by simp [hdigit])).trans
    ((if_neg hc.1).trans ((if_neg hc.2.1).trans (if_neg hc.2.2)))

/-- What starts a word starts nothing else. -/
theorem ne_of_startsWord {c : Char} (h : startsWord c) :
    Literal.isDigit c = false ∧ c ≠ '\x60' ∧ c ≠ '\x22' ∧ c ≠ '\x27' ∧ c ≠ '/' := by
  refine ⟨Bool.eq_false_iff.2 fun hdigit => ?_, ?_⟩
  · simp only [startsWord, Literal.isDigit, Bool.or_eq_true, Bool.and_eq_true, decide_eq_true_eq,
      beq_iff_eq, Char.le_def, UInt32.le_iff_toNat_le] at h hdigit
    change 48 ≤ c.val.toNat ∧ c.val.toNat ≤ 57 at hdigit
    rcases h with (h | h) | rfl
    · change 97 ≤ c.val.toNat ∧ c.val.toNat ≤ 122 at h
      omega
    · change 65 ≤ c.val.toNat ∧ c.val.toNat ≤ 90 at h
      omega
    · exact absurd hdigit.2 (by decide)
  · refine ⟨?_, ?_, ?_, ?_⟩ <;> rintro rfl <;> revert h <;> decide

theorem read_word (hc : startsWord c) (cs : List Char) :
    read c cs = ⟨wordKind (c :: cs.take (wordLength cs)), wordLength cs⟩ := by
  obtain ⟨hdigit, htick, hdouble, hsingle, hslash⟩ := ne_of_startsWord hc
  rw [read_other hdigit ⟨htick, hdouble, hsingle⟩, if_neg (by simp [hslash]),
    mark?_of_startsWord hc]
  exact if_pos hc

/-- What is spelled like no keyword is a name. -/
theorem wordKind_name (h : ∀ k : Keyword, w ≠ k.spelling.toList) :
    wordKind w = .atom .identifier := by
  unfold wordKind
  split
  · next k hk => exact absurd (eq_of_beq (List.find?_some hk :)).symm (h k)
  · rfl

theorem lineLength_append (h : lineLength (w ++ rest) = w.length)
    (hrest : ∀ d ∈ rest'.head?, endsLine d) : lineLength (w ++ rest') = w.length :=
  length_takeWhile_append (forall_of_length_takeWhile rest h) fun d hd => by simp [hrest d hd]

/-- A quoted text that is read without a fault is closed. -/
theorem readQuoted_of_read (hc : c = '\x22' ∨ c = '\x27') (h : read c (w ++ rest) = ⟨k, w.length⟩)
    (hk : k.isFault = false) : readQuoted c (w ++ rest) = (w.length, true) := by
  cases hq : readQuoted c (w ++ rest) with
  | mk n closed =>
    have hlength : n = w.length := by
      rcases hc with rfl | rfl
      · exact (congrArg Prod.fst hq).symm.trans (congrArg Lexeme.more h)
      · exact (congrArg Prod.fst hq).symm.trans (congrArg Lexeme.more h)
    cases closed with
    | true => rw [hlength]
    | false =>
      rcases hc with rfl | rfl
      · rw [read_doubleQuote, hq] at h
        obtain ⟨rfl, -⟩ := Lexeme.mk.inj h
        cases hk
      · rw [read_singleQuote, hq] at h
        obtain ⟨rfl, -⟩ := Lexeme.mk.inj h
        cases hk

theorem read_append_quoted (hc : c = '\x22' ∨ c = '\x27') (h : read c (w ++ rest) = ⟨k, w.length⟩)
    (hk : k.isFault = false) : read c (w ++ rest') = ⟨k, w.length⟩ := by
  have hq := readQuoted_of_read hc h hk
  have hq' := readQuoted_append c w rest rest' hq
  rcases hc with rfl | rfl
  · rw [read_doubleQuote, hq] at h
    rw [read_doubleQuote, hq']
    exact h
  · rw [read_singleQuote, hq, List.take_left] at h
    rw [read_singleQuote, hq', List.take_left]
    exact h

/-- A mark is read alike before anything that does not extend it, and is no start of a comment
then. -/
theorem mark?_append_of_read (hmark : mark? (c :: (w ++ rest)) = some m)
    (hlength : m.spelling.length - 1 = w.length)
    (hcomment : (c = '/' && (w ++ rest).head? == some '/') ≠ true)
    (hrest : ∀ d ∈ rest'.head?, (Kind.mark m).extendedBy d = false) :
    (c = '/' && (w ++ rest').head? == some '/') ≠ true ∧ mark? (c :: (w ++ rest')) = some m := by
  have hw := eq_spelling_of_mark? hmark hlength
  constructor
  · intro hslash
    simp only [Bool.and_eq_true, decide_eq_true_eq, beq_iff_eq] at hslash hcomment
    cases w with
    | nil =>
      obtain rfl := eq_slash (m := m) (by rw [← hw, hslash.1])
      have := hrest '/' (by simpa using hslash.2)
      simp [Kind.extendedBy] at this
    | cons d w => exact hcomment (by simpa using hslash)
  · rw [← List.cons_append, hw]
    exact mark?_append hrest

/-- What is read without a fault is read alike before anything that does not extend it. -/
theorem read_append (h : read c (w ++ rest) = ⟨k, w.length⟩) (hk : k.isFault = false)
    (hrest : ∀ d ∈ rest'.head?, k.extendedBy d = false) :
    read c (w ++ rest') = ⟨k, w.length⟩ := by
  by_cases hdigit : Literal.isDigit c
  · rw [read_digit hdigit] at h ⊢
    obtain ⟨rfl, hlength⟩ := Lexeme.mk.inj h
    rw [length_takeWhile_append (forall_of_length_takeWhile rest hlength) hrest]
  by_cases htick : c = '\x60'
  · subst htick
    rw [read_tick] at h ⊢
    obtain ⟨rfl, hlength⟩ := Lexeme.mk.inj h
    rw [lineLength_append hlength fun d hd => by simpa [Kind.extendedBy] using hrest d hd]
  by_cases hquote : c = '\x22' ∨ c = '\x27'
  · exact read_append_quoted hquote h hk
  have hother := read_other (by simpa using hdigit) ⟨htick, not_or.1 hquote⟩
  rw [hother] at h
  split at h <;> rename_i hcomment
  · -- of the two slashes of a comment the second is in its text
    obtain ⟨rfl, hlength⟩ := Lexeme.mk.inj h
    have hslashes : (c = '/' && (w ++ rest').head? == some '/') = true := by
      simp only [Bool.and_eq_true, decide_eq_true_eq, beq_iff_eq] at hcomment ⊢
      cases w with
      | nil =>
        obtain ⟨tail, rfl⟩ := List.head?_eq_some_iff.1 (List.nil_append rest ▸ hcomment.2)
        cases hlength
      | cons d w => simpa using hcomment
    rw [hother, if_pos hslashes,
      lineLength_append hlength fun d hd => by simpa [Kind.extendedBy] using hrest d hd]
  split at h <;> rename_i hmark
  · obtain ⟨rfl, hlength⟩ := Lexeme.mk.inj h
    obtain ⟨hslash, hmark'⟩ := mark?_append_of_read hmark hlength hcomment hrest
    rw [hother, if_neg hslash, hmark']
    exact congrArg _ hlength
  split at h <;> rename_i hword
  · obtain ⟨rfl, hlength⟩ := Lexeme.mk.inj h
    have hw : wordLength (w ++ rest') = w.length := by
      refine wordLength_append hlength fun d hd => ?_
      simpa [extendedBy_wordKind] using hrest d hd
    rw [read_word hword, hw, hlength, List.take_left, List.take_left]
  · obtain ⟨rfl, -⟩ := Lexeme.mk.inj h
    cases hk

/-! ## Kinds of lexemes -/

theorem classify_eq (text : List Char) : (∃ a, Literal.classify text = .atom a ∧ a.isQuoted) ∨
    (∃ v, Literal.classify text = .address v) ∨ ∃ f, Literal.classify text = .fault f := by
  unfold Literal.classify
  split
  · next form h =>
    have hm := List.mem_of_find?_eq_some h
    simp only [Literal.forms, List.mem_cons, List.not_mem_nil, or_false] at hm
    rcases hm with rfl | rfl | rfl | rfl | rfl | rfl <;> simp [Atom.isQuoted]
  · simp

theorem wordKind_eq (word : List Char) :
    (∃ w, wordKind word = .keyword w) ∨ wordKind word = .atom .identifier := by
  unfold wordKind
  split <;> simp

/-- How a lexeme starts whose kind is that of no word, no literal and no mark. -/
theorem read_cases (c : Char) (cs : List Char) :
    (∃ m, mark? (c :: cs) = some m ∧ read c cs = ⟨.mark m, m.spelling.length - 1⟩) ∨
    (∃ w, (read c cs).kind = .keyword w) ∨
    (∃ a, (read c cs).kind = .atom a) ∨ (∃ v, (read c cs).kind = .address v) ∨
    (∃ f, (read c cs).kind = .fault f) ∨
    c = '\x60' ∧ read c cs = ⟨.tickedLine, lineLength cs⟩ ∨
    (c = '/' ∧ cs.head? = some '/') ∧ read c cs = ⟨.comment, lineLength cs⟩ := by
  unfold read
  split
  · simp
  split
  · simp_all
  split
  · simp only
    split <;> simp
  split
  · simp only
    split
    · have := classify_eq (c :: cs.take (readQuoted c cs).1)
      grind
    · simp
  split
  · simp_all
  split
  · next m hm => exact .inl ⟨m, hm, rfl⟩
  · split
    · have := wordKind_eq (c :: cs.take (wordLength cs))
      grind
    · simp

theorem read_tickedLine {cs : List Char} (h : (read c cs).kind = .tickedLine) :
    c = '\x60' ∧ (read c cs).more = lineLength cs := by
  rcases read_cases c cs with
    ⟨_, _, hr⟩ | ⟨_, hk⟩ | ⟨_, hk⟩ | ⟨_, hk⟩ | ⟨_, hk⟩ | ⟨hc, hr⟩ | ⟨-, hr⟩
  case inr.inr.inr.inr.inr.inl => exact ⟨hc, by rw [hr]⟩
  case inl | inr.inr.inr.inr.inr.inr => rw [hr] at h; cases h
  all_goals rw [h] at hk; cases hk

/-- What is read as a mark is its spelling. -/
theorem eq_spelling_of_read (h : read c (w ++ rest) = ⟨.mark m, w.length⟩) :
    c :: w = m.spelling.toList := by
  rcases read_cases c (w ++ rest) with
    ⟨m', hm, hr⟩ | ⟨_, hk⟩ | ⟨_, hk⟩ | ⟨_, hk⟩ | ⟨_, hk⟩ | ⟨-, hr⟩ | ⟨-, hr⟩
  case inl =>
    rw [h, Lexeme.mk.injEq] at hr
    obtain ⟨hk, hlength⟩ := hr
    obtain rfl := Kind.mark.inj hk
    exact eq_spelling_of_mark? hm hlength.symm
  case inr.inr.inr.inr.inr.inl | inr.inr.inr.inr.inr.inr => rw [h] at hr; cases hr
  all_goals rw [h] at hk; cases hk

/-- No text is read as the end of the input, a block or the operator of documentation. -/
theorem read_kind_ne (c : Char) (cs : List Char) : (read c cs).kind ≠ .eof ∧
    (∀ b, (read c cs).kind ≠ .block b) ∧ (read c cs).kind ≠ .document := by
  rcases read_cases c cs with ⟨_, _, hr⟩ | ⟨_, hk⟩ | ⟨_, hk⟩ | ⟨_, hk⟩ | ⟨_, hk⟩ | ⟨-, hr⟩ | ⟨-, hr⟩
  case inl | inr.inr.inr.inr.inr.inl | inr.inr.inr.inr.inr.inr => simp [hr]
  all_goals simp [hk]

/-! ## Stability -/

theorem stable_of_read (rest : List Char) (h : read c (w ++ rest) = ⟨k, w.length⟩)
    (hk : k.isFault = false) (hc : isSpace c = false) : Stable k (c :: w) :=
  ⟨c, w, rfl, hc, fun _ hrest => read_append h hk hrest⟩

theorem stable_mark (m : Mark) : Stable (.mark m) m.spelling.toList := by
  cases m <;> exact stable_of_read [] (by decide) rfl (by decide)

theorem stable_keyword (w : Keyword) : Stable (.keyword w) w.spelling.toList := by
  cases w <;> exact stable_of_read [] (by decide) rfl (by decide)

theorem Stable.eq_spelling {text : List Char} (h : Stable (.mark m) text) :
    text = m.spelling.toList := by
  obtain ⟨c, w, rfl, -, hread⟩ := h
  exact eq_spelling_of_read (hread [] (by simp))

/-- A back-ticked line has a back tick at its start, and nothing that ends lines in it. -/
theorem stable_tickedLine_iff {text : List Char} :
    Stable .tickedLine text ↔ ∃ w, text = '\x60' :: w ∧ ∀ c ∈ w, endsLine c = false := by
  constructor
  · rintro ⟨c, w, rfl, -, hread⟩
    replace hread := hread [] (by simp)
    obtain ⟨rfl, hmore⟩ := read_tickedLine (congrArg kind hread)
    have hw := forall_of_length_takeWhile [] (hmore.symm.trans (congrArg more hread))
    exact ⟨w, rfl, by simpa using hw⟩
  · rintro ⟨w, rfl, hw⟩
    have hlength : lineLength (w ++ []) = w.length :=
      length_takeWhile_append (by simpa using hw) (by simp)
    refine stable_of_read [] ?_ rfl (by decide)
    rw [← hlength]
    rfl

/-- A comment has two slashes at its start, and nothing that ends lines in it. -/
theorem stable_comment_iff {text : List Char} :
    Stable .comment text ↔ ∃ w, text = '/' :: '/' :: w ∧ ∀ c ∈ w, endsLine c = false := by
  constructor
  · rintro ⟨c, w, rfl, -, hread⟩
    replace hread := hread [] (by simp)
    rw [List.append_nil] at hread
    rcases read_cases c w with
      ⟨_, _, hr⟩ | ⟨_, hk⟩ | ⟨_, hk⟩ | ⟨_, hk⟩ | ⟨_, hk⟩ | ⟨-, hr⟩ | ⟨⟨rfl, hslash⟩, hr⟩
    case inr.inr.inr.inr.inr.inr =>
      obtain ⟨w, rfl⟩ := List.head?_eq_some_iff.1 hslash
      have hlength := congrArg more (hr.symm.trans hread)
      have hw := forall_of_length_takeWhile [] (by rw [List.append_nil]; exact hlength)
      exact ⟨w, rfl, by simpa using (List.forall_mem_cons.1 hw).2⟩
    case inl | inr.inr.inr.inr.inr.inl => rw [hr] at hread; cases hread
    all_goals rw [hread] at hk; cases hk
  · rintro ⟨w, rfl, hw⟩
    have hlength : lineLength ('/' :: w ++ []) = ('/' :: w).length :=
      length_takeWhile_append (List.forall_mem_cons.2 ⟨by decide, by simpa using hw⟩) (by simp)
    refine stable_of_read [] ?_ rfl (by decide)
    rw [← hlength]
    rfl

theorem not_mem_of_comment {text : List Char} (h : Stable .comment text) : '\n' ∉ text := by
  obtain ⟨w, rfl, hw⟩ := stable_comment_iff.1 h
  intro hm
  simp only [List.mem_cons, Char.reduceEq, false_or] at hm
  exact absurd (hw _ hm) (by decide)

theorem not_mem_of_tickedLine {text : List Char} (h : Stable .tickedLine text) : '\n' ∉ text := by
  obtain ⟨w, rfl, hw⟩ := stable_tickedLine_iff.1 h
  intro hm
  rcases List.mem_cons.1 hm with h | h
  · exact absurd h (by decide)
  · exact absurd (hw _ h) (by decide)

end Lexeme

end DocExpr
