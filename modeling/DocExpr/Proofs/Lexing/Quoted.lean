import DocExpr.Proofs.Lexing.Edges

/-!
# Literals with line breaks

What is behind the opening quote of a closed literal is a `Lexeme.Body`. A line break in it is
behind a backslash (`Lexeme.Body.split`), and only strings have one: no literal in single quotes has
a backslash before a line break (`Lexeme.not_mem_of_classify`). What is before such a line break,
and blanks behind it, are parts of a body that can be exchanged for others (`Lexeme.Within`).
-/

namespace DocExpr

/-! ## Patterns without a character -/

namespace Pattern

/-- Whether a pattern has no place for a character. -/
def rejects (d : Char) : Pattern → Bool
  | one test => !test d
  | empty => true
  | seq p q | either p q => rejects d p && rejects d q
  | repeated _ _ p => rejects d p

/-- Whether a reader only reads from the start of a text, and reads no such character. -/
def Skips (d : Char) (read : List Char → List (List Char)) : Prop :=
  ∀ cs, ∀ rest ∈ read cs, ∃ front, cs = front ++ rest ∧ d ∉ front

theorem Skips.flatMap {d : Char} {read read' : List Char → List (List Char)} (h : Skips d read)
    (h' : Skips d read') : Skips d fun cs => (read cs).flatMap read' := by
  intro cs rest hrest
  obtain ⟨mid, hmid, hrest'⟩ := List.mem_flatMap.1 hrest
  obtain ⟨front, rfl, hfront⟩ := h cs mid hmid
  obtain ⟨front', rfl, hfront'⟩ := h' mid rest hrest'
  exact ⟨front ++ front', by simp, by simp [hfront, hfront']⟩

theorem skips_repeatedRests {d : Char} {read : List Char → List (List Char)} (h : Skips d read)
    (least more : Nat) : Skips d (repeatedRests read least more) := by
  have self : Skips d fun cs => [cs] := by
    intro cs rest hrest
    obtain rfl := List.mem_singleton.1 hrest
    exact ⟨[], rfl, by simp⟩
  induction least generalizing more with
  | zero =>
    induction more with
    | zero =>
      intro cs rest hrest
      rw [repeatedRests] at hrest
      exact self cs rest hrest
    | succ more ih =>
      intro cs rest hrest
      rw [repeatedRests] at hrest
      rcases List.mem_cons.1 hrest with rfl | hrest
      · exact self rest rest (by simp)
      · exact h.flatMap ih cs rest hrest
  | succ least ih =>
    intro cs rest hrest
    rw [repeatedRests] at hrest
    exact h.flatMap (ih more) cs rest hrest

theorem skips_rests {d : Char} {p : Pattern} (h : p.rejects d) : Skips d p.rests := by
  induction p with
  | one test =>
    rintro (_ | ⟨c, cs⟩) rest hrest
    · cases hrest
    · rw [rests] at hrest
      split at hrest
      · next hc =>
        obtain rfl := List.mem_singleton.1 hrest
        refine ⟨[c], rfl, fun hd => ?_⟩
        obtain rfl := List.mem_singleton.1 hd
        simp [rejects, hc] at h
      · cases hrest
  | empty =>
    intro cs rest hrest
    obtain rfl := List.mem_singleton.1 hrest
    exact ⟨[], rfl, by simp⟩
  | seq p q hp hq =>
    obtain ⟨h, h'⟩ := Bool.and_eq_true_iff.1 h
    exact (hp h).flatMap (hq h')
  | either p q hp hq =>
    obtain ⟨h, h'⟩ := Bool.and_eq_true_iff.1 h
    intro cs rest hrest
    rcases mem_rests_either.1 hrest with hrest | hrest
    · exact hp h cs rest hrest
    · exact hq h' cs rest hrest
  | repeated least more p hp => exact skips_repeatedRests (hp h) least more

/-- A text that a pattern matches has no character for which the pattern has no place. -/
theorem not_mem_of_accepts {d : Char} {p : Pattern} (h : p.rejects d) {cs : List Char}
    (hcs : p.accepts cs) : d ∉ cs := by
  obtain ⟨rest, hrest, hempty⟩ := List.any_eq_true.1 hcs
  obtain ⟨front, rfl, hfront⟩ := skips_rests h cs rest hrest
  rw [List.isEmpty_iff.1 hempty, List.append_nil]
  exact hfront

end Pattern

namespace Lexeme

variable {quote : Char} {w front piece rest blanks : List Char}

/-! ## Bodies -/

/-- What is behind the opening quote of a closed literal. -/
inductive Body (quote : Char) : List Char → Prop where
  | close : Body quote [quote]
  | escape (c : Char) {w : List Char} (h : Body quote w) : Body quote ('\\' :: c :: w)
  | plain {c : Char} {w : List Char} (hc : endsLine c = false ∧ c ≠ quote ∧ c ≠ '\\')
    (h : Body quote w) : Body quote (c :: w)

/-- What can be before a body in a literal. -/
inductive Within (quote : Char) : List Char → Prop where
  | nil : Within quote []
  | escape (c : Char) {w : List Char} (h : Within quote w) : Within quote ('\\' :: c :: w)
  | plain {c : Char} {w : List Char} (hc : endsLine c = false ∧ c ≠ quote ∧ c ≠ '\\')
    (h : Within quote w) : Within quote (c :: w)

theorem body_of_readQuoted : {w : List Char} → readQuoted quote w = (w.length, true) → Body quote w
  | [], h => by simp [readQuoted] at h
  | c :: w, h => by
    by_cases hend : endsLine c
    · rw [readQuoted_end hend] at h
      cases h
    by_cases hquote : c = quote
    · subst hquote
      rw [readQuoted_close (by simpa using hend)] at h
      obtain rfl : w = [] := by simpa using (congrArg Prod.fst h).symm
      exact .close
    by_cases hescape : c = '\\'
    · subst hescape
      cases w with
      | nil =>
        rw [readQuoted_lone (Ne.symm hquote)] at h
        cases congrArg Prod.snd h
      | cons d w =>
        rw [readQuoted_escape (Ne.symm hquote), List.length_cons, List.length_cons, Prod.mk.injEq,
          Nat.add_right_cancel_iff] at h
        exact .escape d (body_of_readQuoted (Prod.ext h.1 h.2))
    · have hplain : endsLine c = false ∧ c ≠ quote ∧ c ≠ '\\' :=
        ⟨by simpa using hend, hquote, hescape⟩
      rw [readQuoted_plain hplain, List.length_cons, Prod.mk.injEq, Nat.add_right_cancel_iff] at h
      exact .plain hplain (body_of_readQuoted (Prod.ext h.1 h.2))

theorem Body.readQuoted (hquote : endsLine quote = false ∧ quote ≠ '\\') (h : Body quote w) :
    readQuoted quote w = (w.length, true) := by
  induction h with
  | close => exact readQuoted_close hquote.1 []
  | escape c h ih => rw [readQuoted_escape hquote.2, ih, List.length_cons, List.length_cons]
  | plain hc h ih => rw [readQuoted_plain hc, ih, List.length_cons]

theorem Body.ne_nil (h : Body quote w) : w ≠ [] := by cases h <;> simp

theorem Body.getLast? (h : Body quote w) : w.getLast? = some quote := by
  induction h with
  | close => rfl
  | escape c h ih => rw [List.getLast?_cons_cons, List.getLast?_cons_of_ne_nil h.ne_nil, ih]
  | plain hc h ih => rw [List.getLast?_cons_of_ne_nil h.ne_nil, ih]

theorem Within.body (h : Within quote front) (hrest : Body quote rest) :
    Body quote (front ++ rest) := by
  induction h with
  | nil => exact hrest
  | escape c h ih => exact .escape c ih
  | plain hc h ih => exact .plain hc ih

theorem within_of_forall (h : ∀ c ∈ w, endsLine c = false ∧ c ≠ quote ∧ c ≠ '\\') :
    Within quote w := by
  induction w with
  | nil => exact .nil
  | cons c w ih =>
    obtain ⟨hc, hw⟩ := List.forall_mem_cons.1 h
    exact .plain hc (ih hw)

/-- A line break in a literal is behind a backslash, and the rest of the literal goes on behind
it. -/
theorem Body.split (hquote : quote ≠ '\n') (h : Body quote (piece ++ '\n' :: rest))
    (hpiece : '\n' ∉ piece) :
    Body quote rest ∧ ∃ front, piece = front ++ ['\\'] ∧ Within quote front := by
  generalize hw : piece ++ '\n' :: rest = w at h
  induction h generalizing piece with
  | close =>
    cases piece with
    | nil => exact absurd (List.cons.inj hw).1.symm hquote
    | cons d piece => exact absurd (List.cons.inj hw).2 (by simp)
  | @escape c w h ih =>
    rcases piece with _ | ⟨d, _ | ⟨e, piece⟩⟩
    · exact absurd (List.cons.inj hw).1 (by decide)
    · obtain ⟨rfl, hw'⟩ := List.cons.inj hw
      obtain rfl : rest = w := (List.cons.inj hw').2
      exact ⟨h, [], rfl, .nil⟩
    · obtain ⟨rfl, hw'⟩ := List.cons.inj hw
      have hpiece' : '\n' ∉ piece := fun hm =>
        hpiece (List.mem_cons_of_mem _ (List.mem_cons_of_mem _ hm))
      obtain ⟨hrest, front, rfl, hfront⟩ := ih hpiece' (List.cons.inj hw').2
      exact ⟨hrest, _, rfl, .escape e hfront⟩
  | @plain c w hc h ih =>
    cases piece with
    | nil =>
      obtain rfl : '\n' = c := (List.cons.inj hw).1
      exact absurd hc.1 (by decide)
    | cons d piece =>
      obtain ⟨rfl, hw'⟩ := List.cons.inj hw
      have hpiece' : '\n' ∉ piece := fun hm => hpiece (List.mem_cons_of_mem _ hm)
      obtain ⟨hrest, front, rfl, hfront⟩ := ih hpiece' hw'
      exact ⟨hrest, _, rfl, .plain hc hfront⟩

/-- Blanks at the start of a body are before another body. -/
theorem Body.drop_blanks (hquote : Text.isBlank quote = false)
    (hblanks : ∀ c ∈ blanks, Text.isBlank c)
    (h : Body quote (blanks ++ w)) : Body quote w ∧ Within quote blanks := by
  induction blanks with
  | nil => exact ⟨h, .nil⟩
  | cons c blanks ih =>
    obtain ⟨hc, hblanks⟩ := List.forall_mem_cons.1 hblanks
    rw [List.cons_append] at h
    generalize hrest : blanks ++ w = v at h ih
    cases h with
    | close => exact absurd (hc.symm.trans hquote) (by simp)
    | escape => exact absurd hc (by decide)
    | plain hplain h =>
      obtain ⟨hw, hwithin⟩ := ih hblanks h
      exact ⟨hw, .plain hplain hwithin⟩

/-! ## Which literals have line breaks -/

/-- A text between double quotes is a string wherever it is. -/
theorem Body.stable (h : Body '\x22' w) : Stable (.atom .string) ('\x22' :: w) := by
  refine stable_of_read [] ?_ rfl (by decide)
  have hread := h.readQuoted (by decide)
  rw [List.append_nil]
  simp [read, hread, show Literal.isDigit '\x22' = false by decide]

theorem mem_backslash_of_mem (h : Body '\x27' w) (hm : '\n' ∈ w) :
    ∃ front rest, w = front ++ '\\' :: '\n' :: rest := by
  obtain ⟨piece, rest, rfl, hpiece⟩ := List.eq_append_cons_of_mem hm
  obtain ⟨-, front, rfl, -⟩ := h.split (by decide) hpiece
  exact ⟨front, rest, by simp⟩

/-- The patterns of literals have no backslash before a line break: only a character can have a
backslash, and then it is one of the known escapes. -/
theorem not_accepts {form : Kind × Pattern} (hform : form ∈ Literal.forms)
    (front rest : List Char) :
    (Literal.quoted form.2).accepts ('\x27' :: (front ++ '\\' :: '\n' :: rest)) = false := by
  rw [Bool.eq_false_iff]
  intro haccepts
  rcases List.mem_cons.1 hform with rfl | hform
  · rcases front with _ | ⟨c, _ | ⟨d, _ | ⟨e, front⟩⟩⟩
    all_goals
      simp [Pattern.accepts, Literal.quoted, Literal.character, Pattern.all, Pattern.rests,
        Pattern.char, Pattern.oneOf] at haccepts
  · have hrejects : ∀ form ∈ Literal.forms.tail, (Literal.quoted form.2).rejects '\\' := by decide
    exact Pattern.not_mem_of_accepts (hrejects form hform) haccepts (by simp)

/-- Only strings have line breaks, and these are behind double quotes. -/
theorem Stable.string_of_mem {a : Atom} {text : List Char} (h : Stable (.atom a) text)
    (hm : '\n' ∈ text) : a = .string ∧ ∃ w, text = '\x22' :: w ∧ Body '\x22' w := by
  obtain ⟨-, quote, w, rfl, hquote, hread⟩ := h.readQuoted_of_mem hm
  have hbody := body_of_readQuoted hread
  obtain ⟨c, w', heq, -, hstable⟩ := h
  obtain ⟨rfl, rfl⟩ := List.cons.inj heq
  replace hstable := congrArg kind (hstable [] (by simp))
  rw [List.append_nil] at hstable
  rcases hquote with rfl | rfl
  · refine ⟨?_, w, rfl, hbody⟩
    simpa [read, hread, show Literal.isDigit '\x22' = false by decide] using hstable.symm
  · -- what is between single quotes is of none of the known forms
    have hmw : '\n' ∈ w := (List.mem_cons.1 hm).resolve_left (by decide)
    have hclassify : Literal.classify ('\x27' :: w) = .atom a := by
      simpa [read, hread, show Literal.isDigit '\x27' = false by decide] using hstable
    obtain ⟨front, rest, rfl⟩ := mem_backslash_of_mem hbody hmw
    unfold Literal.classify at hclassify
    split at hclassify
    · next form hfind =>
      have haccepts := List.find?_some hfind
      rw [not_accepts (List.mem_of_find?_eq_some hfind)] at haccepts
      cases haccepts
    · cases hclassify

end Lexeme

end DocExpr
