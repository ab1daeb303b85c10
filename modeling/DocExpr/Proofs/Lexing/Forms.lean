import DocExpr.Proofs.Lexing.Patterns
import Mathlib.Data.List.Find
import Mathlib.Data.List.Permutation

/-!
# The forms of single-quoted literals

No text is a literal of two forms: for any two forms there is a character, or a length, that tells
their texts apart (`Literal.pairwise_forms`). So the order in which the forms are tried does not
matter (`Literal.classifyBy_perm`), and a literal has a form exactly if the pattern of the form
matches what is between its quotes (`Literal.classify_quoted_iff`).
-/

namespace DocExpr.Literal

open Pattern

variable {p : Pattern} {form form' : Kind × Pattern} {text u w : List Char}

/-- A text between single quotes. -/
def inQuotes (u : List Char) : List Char := '\x27' :: (u ++ ['\x27'])

theorem inQuotes_injective : Function.Injective inQuotes := fun _ _ h =>
  List.append_cancel_right (List.cons.inj h).2

theorem mem_language_quoted : text ∈ (quoted p).language ↔ ∃ u ∈ p.language, text = inQuotes u := by
  simp only [quoted, language_all, List.map_cons, List.map_nil, List.prod_cons,
    List.prod_nil, mul_one, language_char, Language.mem_mul]
  constructor
  · rintro ⟨_, rfl, _, ⟨u, hu, _, rfl, rfl⟩, rfl⟩
    exact ⟨u, hu, rfl⟩
  · rintro ⟨u, hu, rfl⟩
    exact ⟨_, rfl, _, ⟨u, hu, _, rfl, rfl⟩, rfl⟩

theorem inQuotes_mem_language_quoted : inQuotes u ∈ (quoted p).language ↔ u ∈ p.language := by
  rw [mem_language_quoted]
  constructor
  · rintro ⟨v, hv, h⟩
    rwa [inQuotes_injective h]
  · exact fun hu => ⟨u, hu, rfl⟩

/-! ## What tells the forms apart -/

theorem needs_uuid : uuid.Needs '-' := needs_all (by simp) (needs_char '-')

theorem needs_date : date.Needs '-' := needs_all (by simp) (needs_char '-')

theorem needs_dateTime : dateTime.Needs 'T' := needs_all (by simp) (needs_char 'T')

theorem needs_gap : gap.Needs ':' := .inl (needs_char ':')

theorem needs_ipv6 : ipv6.Needs ':' := by
  refine needs_anyOf (.inl ⟨by decide, .inr (needs_char ':')⟩) ?_
  simp only [List.forall_mem_cons, List.not_mem_nil, false_implies, implies_true, and_true]
  refine ⟨?_, ?_, ?_, ?_, ?_, ?_, ?_, ?_⟩ <;> exact needs_all (by simp) needs_gap

/-- A character is one character, or begins with a backslash. -/
theorem notMem_character (hshort : 1 < p.shortest) (hslash : p.lacks '\\') (hw : w ∈ p.language) :
    w ∉ character.language := by
  have hescaped : (seq (char '\\') (oneOf ['t', 'r', 'n', '\x27', '\\'])).Needs '\\' :=
    .inl (needs_char '\\')
  rintro (hone | hescape)
  · exact notMem_of_length (p := one (· != '\\')) hshort hw hone
  · exact notMem_of_needs hslash hescaped hescape hw

/-- No two forms have a text in common. -/
theorem pairwise_forms :
    forms.Pairwise fun form form' => ∀ w ∈ form.2.language, w ∉ form'.2.language := by
  simp only [forms, List.pairwise_cons, List.forall_mem_cons, List.not_mem_nil, false_implies,
    implies_true, and_true, List.Pairwise.nil]
  have character_swap : ∀ {q : Pattern}, 1 < q.shortest → q.lacks '\\' →
      ∀ w ∈ character.language, w ∉ q.language :=
    fun hshort hslash w hw hq => notMem_character hshort hslash hq hw
  have needs_swap : ∀ {c : Char} {p q : Pattern}, p.lacks c → q.Needs c →
      ∀ w ∈ p.language, w ∉ q.language :=
    fun hp hq w hw hwq => notMem_of_needs hp hq hwq hw
  refine ⟨⟨?_, ?_, ?_, ?_, ?_⟩, ⟨?_, ?_, ?_, ?_⟩, ⟨?_, ?_, ?_⟩, ⟨?_, ?_⟩, ?_⟩
  -- Only characters have a backslash or are as short as one character.
  · exact character_swap (by decide) (by decide)
  · exact character_swap (by decide) (by decide)
  · exact character_swap (by decide) (by decide)
  · exact character_swap (by decide) (by decide)
  · exact character_swap (by decide) (by decide)
  -- UUIDs are longer than dates, have no letter T, and unlike addresses have dashes.
  · exact fun w => notMem_of_length (by decide)
  · exact needs_swap (by decide) needs_dateTime
  · exact fun w => notMem_of_needs (by decide) needs_uuid
  · exact fun w => notMem_of_needs (by decide) needs_uuid
  -- Dates have no letter T, and unlike addresses have dashes.
  · exact needs_swap (by decide) needs_dateTime
  · exact fun w => notMem_of_needs (by decide) needs_date
  · exact fun w => notMem_of_needs (by decide) needs_date
  -- Addresses have no letter T.
  · exact fun w => notMem_of_needs (by decide) needs_dateTime
  · exact fun w => notMem_of_needs (by decide) needs_dateTime
  -- Addresses of version 4 have no colon.
  · exact needs_swap (by decide) needs_ipv6

/-- At most one form matches a text. -/
theorem subsingleton_forms (text : List Char) :
    {form | form ∈ forms ∧ text ∈ (quoted form.2).language}.Subsingleton := by
  rintro form ⟨hform, htext⟩ form' ⟨hform', htext'⟩
  obtain ⟨u, hu, rfl⟩ := mem_language_quoted.1 htext
  rw [inQuotes_mem_language_quoted] at htext'
  by_contra hne
  have : Std.Symm fun form form' : Kind × Pattern => ∀ w ∈ form.2.language, w ∉ form'.2.language :=
    ⟨fun _ _ h w hw hw' => h w hw' hw⟩
  exact pairwise_forms.forall hform hform' hne u hu htext'

/-! ## Classification -/

/-- The kind of the first of some forms that matches a single-quoted literal. -/
def classifyBy (order : List (Kind × Pattern)) (text : List Char) : Kind :=
  match order.find? fun form => (quoted form.2).accepts text with
  | some form => form.1
  | none => .fault .unrecognizedLiteral

theorem classifyBy_forms : classifyBy forms = classify := rfl

/-- The order of the forms does not matter. -/
theorem classifyBy_perm {order : List (Kind × Pattern)} (h : order.Perm forms) (text : List Char) :
    classifyBy order text = classify text := by
  have hunique : {form ∈ forms | (quoted form.2).accepts text}.Subsingleton := by
    simpa only [accepts_iff] using subsingleton_forms text
  rw [← classifyBy_forms, classifyBy, classifyBy, List.find?_eq_find?_of_perm h.symm hunique]

theorem not_fault_of_mem_forms (h : form ∈ forms) (fault : Fault) : form.1 ≠ .fault fault := by
  simp only [forms, List.mem_cons, List.not_mem_nil, or_false] at h
  rcases h with rfl | rfl | rfl | rfl | rfl | rfl <;> simp

/-- What no form matches, and nothing else, is of no known form. -/
theorem classify_eq_unrecognized :
    classify text = .fault .unrecognizedLiteral ↔
    ∀ form ∈ forms, text ∉ (quoted form.2).language := by
  simp only [← accepts_iff]
  unfold classify
  split
  · next form h =>
    have hform := List.mem_of_find?_eq_some h
    have haccepts := List.find?_some h
    exact iff_of_false (not_fault_of_mem_forms hform _) fun hnone => hnone form hform haccepts
  · next h => exact iff_of_true rfl (List.find?_eq_none.1 h)

/-- A literal is of a form if the pattern of the form matches what is between the quotes. -/
theorem classify_quoted_iff (hform : form ∈ forms) : classify (inQuotes u) = form.1 ↔
    u ∈ form.2.language := by
  have hkinds : ∀ form ∈ forms, ∀ form' ∈ forms, form.1 = form'.1 → form = form' := by
    simp [forms]
  rw [← inQuotes_mem_language_quoted]
  unfold classify
  split
  · next form' h =>
    have hform' := List.mem_of_find?_eq_some h
    have haccepts := List.find?_some h
    constructor
    · intro hkind
      rw [← hkinds form' hform' form hform hkind]
      exact accepts_iff.1 haccepts
    · intro hu
      rw [subsingleton_forms _ ⟨hform', accepts_iff.1 haccepts⟩ ⟨hform, hu⟩]
  · next h =>
    refine iff_of_false (not_fault_of_mem_forms hform _).symm fun hu => ?_
    exact List.find?_eq_none.1 h form hform (accepts_iff.2 hu)

/-- How a literal is classified does not depend on the order of the forms: at most one form matches
a text, the first match is the same in every order, and what no form matches is of no known form. -/
theorem classifyBy_eq_classify (text : List Char) :
    {form | form ∈ forms ∧ text ∈ (quoted form.2).language}.Subsingleton ∧
      (∀ order, order.Perm forms → classifyBy order text = classify text) ∧
      (classify text = .fault .unrecognizedLiteral ↔
        ∀ form ∈ forms, text ∉ (quoted form.2).language) :=
  ⟨subsingleton_forms text, fun _ h => classifyBy_perm h text, classify_eq_unrecognized⟩

/-- An address of version 6 that ends in one of version 4, with the forms tried from the last to the
first. -/
theorem classifyBy_reverse_forms :
    forms.reverse.Perm forms ∧
      classifyBy forms.reverse "\x27::ffff:10.0.0.1\x27".toList =
        classify "\x27::ffff:10.0.0.1\x27".toList ∧
      classify "\x27::ffff:10.0.0.1\x27".toList = .address .v6 :=
  have h : forms.reverse.Perm forms := List.reverse_perm forms
  ⟨h, (classifyBy_eq_classify _).2.1 _ h, by cbv⟩

end DocExpr.Literal
