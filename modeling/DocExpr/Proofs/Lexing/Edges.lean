import DocExpr.Proofs.Lexing.Stable
import DocExpr.Proofs.Text

/-!
# The first and the last character of a lexeme

No lexeme that stands for itself starts or ends in a blank (`Lexeme.Solid`): names and literals have
a letter, a digit, an underscore or a quote there (`Lexeme.solid_atom`).
-/

namespace DocExpr.Lexeme

/-- Whether a text has something visible at either end. -/
def Solid (text : List Char) : Prop :=
  text ≠ [] ∧ (∀ c ∈ text.head?, Text.isBlank c = false) ∧
    ∀ c ∈ text.getLast?, Text.isBlank c = false

theorem Solid.trim_eq {text : List Char} (h : Solid text) : Text.trim text = text := by
  rw [Text.trim, Text.trimStart_of_head h.2.1, Text.trimEnd_of_getLast h.2.2]

theorem Solid.allBlank {text : List Char} (h : Solid text) : Text.allBlank text = false := by
  obtain ⟨c, w, rfl⟩ := List.exists_cons_of_ne_nil h.1
  rw [Text.allBlank, List.all_cons, h.2.1 c rfl, Bool.false_and]

theorem isBlank_of_isSpace {c : Char} (h : isSpace c) : Text.isBlank c = true := by
  simp only [isSpace, Bool.or_eq_true, beq_iff_eq] at h
  rcases h with ((rfl | rfl) | rfl) | rfl <;> decide

theorem isBlank_of_endsLine {c : Char} (h : endsLine c) : Text.isBlank c = true := by
  simp only [endsLine, Bool.or_eq_true, beq_iff_eq] at h
  rcases h with rfl | rfl <;> decide

/-- What names and literals start and end with. -/
def isEdge (c : Char) : Bool := continuesWord c || c = '\x22' || c = '\x27'

theorem toNat_of_isEdge {c : Char} (h : isEdge c) :
    c.toNat = 34 ∨ c.toNat = 39 ∨ 48 ≤ c.toNat ∧ c.toNat ≤ 57 ∨ 65 ≤ c.toNat ∧ c.toNat ≤ 122 := by
  simp only [isEdge, continuesWord, startsWord, Literal.isDigit, Bool.or_eq_true, Bool.and_eq_true,
    decide_eq_true_eq, beq_iff_eq, Char.le_def, UInt32.le_iff_toNat_le] at h
  unfold Char.toNat
  rcases h with ((((h | h) | rfl) | h) | rfl) | rfl
  · change 97 ≤ c.val.toNat ∧ c.val.toNat ≤ 122 at h
    omega
  · change 65 ≤ c.val.toNat ∧ c.val.toNat ≤ 90 at h
    omega
  · decide
  · change 48 ≤ c.val.toNat ∧ c.val.toNat ≤ 57 at h
    omega
  · decide
  · decide

theorem isBlank_of_isEdge {c : Char} (h : isEdge c) : Text.isBlank c = false := by
  have := toNat_of_isEdge h
  simp [Text.isBlank, Text.blankRanges]
  omega

theorem isSpace_of_isEdge {c : Char} (h : isEdge c) : isSpace c = false := by
  refine Bool.eq_false_iff.2 fun hspace => ?_
  have hblank := isBlank_of_isEdge h
  rw [isBlank_of_isSpace hspace] at hblank
  cases hblank

theorem getLast?_readQuoted (quote : Char) : (w : List Char) →
    readQuoted quote w = (w.length, true) → w.getLast? = some quote
  | [], h => by simp [readQuoted] at h
  | [c], h => by
    unfold readQuoted at h
    split at h
    · simp at h
    · split at h <;> rename_i hquote
      · simp [hquote]
      · split at h <;> simp [readQuoted] at h
  | c :: d :: w, h => by
    unfold readQuoted at h
    split at h
    · simp at h
    · split at h
      · simp at h
      · split at h
        · simp only [List.length_cons, Prod.mk.injEq, Nat.add_right_cancel_iff] at h
          have := getLast?_readQuoted quote w (Prod.ext (by simpa using h.1) h.2)
          cases w with
          | nil => cases this
          | cons e w => simpa using this
        · simp only [List.length_cons, Prod.mk.injEq, Nat.add_right_cancel_iff] at h
          have := getLast?_readQuoted quote (d :: w) (Prod.ext (by simpa using h.1) h.2)
          simpa using this

theorem getLast?_word {w : List Char} (h : wordLength w = w.length) :
    ∀ d ∈ w.getLast?, continuesWord d := by
  induction w with
  | nil => simp
  | cons c w ih =>
    intro d hd
    rw [wordLength] at h
    split at h <;> rename_i hc
    · cases w with
      | nil => simpa using (show c = d by simpa using hd) ▸ hc
      | cons e w => exact ih (by simpa using h) d (by simpa using hd)
    · split at h <;> rename_i hdash
      · cases w with
        | nil => simp at hdash
        | cons e w => exact ih (by simpa using h) d (by simpa using hd)
      · simp at h

/-- Names and literals are digits, a closed text between quotes, or a word. -/
theorem read_atom {c : Char} {w : List Char} {a : Atom} (h : read c w = ⟨.atom a, w.length⟩) :
    (Literal.isDigit c ∧ ∀ d ∈ w, Literal.isDigit d) ∨
      ((c = '\x22' ∨ c = '\x27') ∧ a.isQuoted ∧ readQuoted c w = (w.length, true)) ∨
      (startsWord c ∧ wordLength w = w.length) := by
  unfold read at h
  split at h <;> rename_i hdigit
  · exact .inl ⟨hdigit, forall_of_length_takeWhile [] (by simpa using congrArg more h)⟩
  split at h
  · cases h
  split at h <;> rename_i hdouble
  · cases hq : readQuoted c w with
    | mk n closed =>
      rw [hq] at h
      obtain ⟨hk, rfl⟩ := Lexeme.mk.inj h
      cases closed with
      | false => cases hk
      | true =>
        obtain rfl : .string = a := Kind.atom.inj hk
        exact .inr (.inl ⟨.inl hdouble, rfl, rfl⟩)
  split at h <;> rename_i hsingle
  · cases hq : readQuoted c w with
    | mk n closed =>
      rw [hq] at h
      obtain ⟨hk, rfl⟩ := Lexeme.mk.inj h
      cases closed with
      | false => cases hk
      | true =>
        rw [if_pos rfl] at hk
        rcases classify_eq (c :: w.take w.length) with ⟨a', hk', ha'⟩ | ⟨v, hk'⟩ | ⟨f, hk'⟩
        · obtain rfl := Kind.atom.inj (hk'.symm.trans hk)
          exact .inr (.inl ⟨.inr hsingle, ha', rfl⟩)
        · cases hk'.symm.trans hk
        · cases hk'.symm.trans hk
  split at h
  · cases h
  split at h
  · cases h
  split at h <;> rename_i hword
  · exact .inr (.inr ⟨hword, congrArg more h⟩)
  · cases h

/-- Words that are no names are words, too. -/
theorem read_keyword {c : Char} {w : List Char} {k : Keyword}
    (h : read c w = ⟨.keyword k, w.length⟩) :
    startsWord c ∧ wordLength w = w.length := by
  unfold read at h
  split at h
  · cases h
  split at h
  · cases h
  split at h
  · simp only [Lexeme.mk.injEq] at h
    split at h <;> cases h.1
  split at h
  · simp only [Lexeme.mk.injEq] at h
    split at h
    · rcases classify_eq (c :: w.take (readQuoted c w).1) with ⟨a, hk, -⟩ | ⟨v, hk⟩ | ⟨f, hk⟩
      all_goals cases hk.symm.trans h.1
    · cases h.1
  split at h
  · cases h
  split at h
  · cases h
  split at h <;> rename_i hword
  · exact ⟨hword, congrArg more h⟩
  · cases h

/-- A name or a literal has an edge at either end. -/
theorem isEdge_of_read {c : Char} {w : List Char} {a : Atom} (h : read c w = ⟨.atom a, w.length⟩) :
    isEdge c ∧ ∀ d ∈ (c :: w).getLast?, isEdge d := by
  have last : ∀ {p : Char → Prop}, p c → (∀ d ∈ w.getLast?, p d) →
      ∀ d ∈ (c :: w).getLast?, p d := by
    intro p hc hw d hd
    cases w with
    | nil => exact (show c = d by simpa using hd) ▸ hc
    | cons e w => exact hw d (by simpa using hd)
  have edge : ∀ d, continuesWord d → isEdge d := fun d hd => by simp [isEdge, hd]
  rcases read_atom h with ⟨hc, hw⟩ | ⟨hc, -, hq⟩ | ⟨hc, hw⟩
  · have digit : ∀ d, Literal.isDigit d → isEdge d :=
      fun d hd => edge d (by simp [continuesWord, hd])
    exact ⟨digit c hc, last (digit c hc) fun d hd => digit d (hw d (List.mem_of_getLast? hd))⟩
  · have hquote : isEdge c := by rcases hc with rfl | rfl <;> decide
    refine ⟨hquote, last hquote fun d hd => ?_⟩
    obtain rfl : c = d := Option.some.inj ((getLast?_readQuoted c w hq).symm.trans hd)
    exact hquote
  · have hstart : continuesWord c := by simp [continuesWord, hc]
    exact ⟨edge c hstart, last (edge c hstart) fun d hd => edge d (getLast?_word hw d hd)⟩

/-- A name or a literal starts with an edge and ends with one. -/
theorem Stable.edges {a : Atom} {text : List Char} (h : Stable (.atom a) text) :
    text ≠ [] ∧ (∀ c ∈ text.head?, isEdge c) ∧ ∀ c ∈ text.getLast?, isEdge c := by
  obtain ⟨c, w, rfl, -, hread⟩ := h
  replace hread := hread [] (by simp)
  rw [List.append_nil] at hread
  obtain ⟨hc, hlast⟩ := isEdge_of_read hread
  exact ⟨by simp, by simpa using hc, hlast⟩

theorem solid_atom {a : Atom} {text : List Char} (h : Stable (.atom a) text) : Solid text :=
  ⟨h.edges.1, fun c hc => isBlank_of_isEdge (h.edges.2.1 c hc),
    fun c hc => isBlank_of_isEdge (h.edges.2.2 c hc)⟩

theorem wordLength_eq {w : List Char} (h : wordLength w = w.length) :
    ∀ d ∈ w, continuesWord d ∨ d = '-' := by
  induction w with
  | nil => simp
  | cons c w ih =>
    rw [wordLength] at h
    split at h <;> rename_i hc
    · exact List.forall_mem_cons.2 ⟨.inl hc, ih (by simpa using h)⟩
    · split at h <;> rename_i hdash
      · simp only [Bool.and_eq_true, decide_eq_true_eq] at hdash
        exact List.forall_mem_cons.2 ⟨.inr hdash.1, ih (by simpa using h)⟩
      · simp at h

/-- Only what is between quotes can have a line break in it. -/
theorem Stable.readQuoted_of_mem {a : Atom} {text : List Char} (h : Stable (.atom a) text)
    (hm : '\n' ∈ text) : a.isQuoted ∧ ∃ quote w, text = quote :: w ∧
      (quote = '\x22' ∨ quote = '\x27') ∧ readQuoted quote w = (w.length, true) := by
  obtain ⟨c, w, rfl, hspace, hread⟩ := h
  replace hread := hread [] (by simp)
  rw [List.append_nil] at hread
  have hmw : '\n' ∈ w := by
    rcases List.mem_cons.1 hm with rfl | hm
    · exact absurd hspace (by decide)
    · exact hm
  rcases read_atom hread with ⟨-, hw⟩ | ⟨hc, ha, hq⟩ | ⟨-, hw⟩
  · exact absurd (hw _ hmw) (by decide)
  · exact ⟨ha, c, w, rfl, hc, hq⟩
  · exact absurd (wordLength_eq hw _ hmw) (by decide)

theorem not_mem_of_not_isQuoted {a : Atom} {text : List Char} (h : Stable (.atom a) text)
    (ha : a.isQuoted = false) : '\n' ∉ text := by
  intro hm
  rw [(h.readQuoted_of_mem hm).1] at ha
  cases ha

theorem solid_mark (m : Mark) : Solid m.spelling.toList := by
  cases m <;> exact ⟨by decide, by decide, by decide⟩

theorem solid_keyword (w : Keyword) : Solid w.spelling.toList := by
  cases w <;> exact ⟨by decide, by decide, by decide⟩

end DocExpr.Lexeme
