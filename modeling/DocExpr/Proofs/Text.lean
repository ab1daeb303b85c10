import DocExpr.Text.Lines
import Mathlib.Data.List.Basic
import Mathlib.Data.List.TakeWhile

/-!
# Trimmed texts and lines

What trimming takes away is blank (`Text.trimEnd_spec`), and blanks at the end of a text do not
matter to it (`Text.trim_append_blank`). A text is cut at a line feed whatever stands on its two
sides (`Text.splitLines_append`), so that lines that are put together can be cut apart again
(`Text.splitLines_joinLines`).
-/

namespace DocExpr.Text

variable {cs ds tail : List Char} {lines lines' : List (List Char)}

/-! ## Trimming -/

/-- What is trimmed off the end of a text is blank, and what is left ends in something visible. -/
theorem trimEnd_spec (cs : List Char) : ∃ tail, cs = trimEnd cs ++ tail ∧
    (∀ c ∈ tail, isBlank c) ∧ ∀ c ∈ (trimEnd cs).getLast?, isBlank c = false := by
  refine ⟨(cs.reverse.takeWhile isBlank).reverse, ?_, ?_, ?_⟩
  · rw [trimEnd, ← List.reverse_append, List.takeWhile_append_dropWhile, List.reverse_reverse]
  · intro c hc
    exact List.all_eq_true.1 List.all_takeWhile c (List.mem_reverse.1 hc)
  · intro c hc
    rw [trimEnd, List.getLast?_reverse] at hc
    have h := List.head?_dropWhile_not isBlank cs.reverse
    rw [Option.mem_def.1 hc] at h
    simpa using h

theorem trimStart_of_head (h : ∀ c ∈ cs.head?, isBlank c = false) : trimStart cs = cs := by
  cases cs with
  | nil => rfl
  | cons c cs => simp [trimStart, h c rfl]

theorem trimEnd_of_getLast (h : ∀ c ∈ cs.getLast?, isBlank c = false) : trimEnd cs = cs := by
  rcases List.eq_nil_or_concat' cs with rfl | ⟨init, c, rfl⟩
  · rfl
  · exact trimEnd_append_singleton (h c (by simp)) init

/-- Of a text that starts in something visible, trimming takes blanks off the end only. -/
theorem trim_spec (cs : List Char) (h : ∀ c ∈ cs.head?, isBlank c = false) :
    ∃ tail, cs = trim cs ++ tail ∧ (∀ c ∈ tail, isBlank c) ∧
      ∀ c ∈ (trim cs).getLast?, isBlank c = false := by
  rw [trim, trimStart_of_head h]
  exact trimEnd_spec cs

theorem takeWhile_append_trimStart (cs : List Char) : cs.takeWhile isBlank ++ trimStart cs = cs :=
  List.takeWhile_append_dropWhile

theorem allBlank_append (cs ds : List Char) : allBlank (cs ++ ds) = (allBlank cs && allBlank ds) :=
  List.all_append

theorem ne_nil_of_visible (h : allBlank cs = false) : cs ≠ [] := by
  rintro rfl
  cases h

theorem allBlank_trimStart (cs : List Char) : allBlank (trimStart cs) = allBlank cs := by
  have h : allBlank (cs.takeWhile isBlank ++ trimStart cs) = allBlank (trimStart cs) := by
    rw [allBlank_append, allBlank, List.all_takeWhile, Bool.true_and]
  rw [← h, takeWhile_append_trimStart]

theorem allBlank_trimEnd (cs : List Char) : allBlank (trimEnd cs) = allBlank cs := by
  obtain ⟨tail, hsplit, htail, -⟩ := trimEnd_spec cs
  have hblank : allBlank tail := List.all_eq_true.2 htail
  conv_rhs => rw [hsplit, allBlank_append, hblank, Bool.and_true]

theorem trimEnd_append_blank (cs : List Char) (h : ∀ c ∈ tail, isBlank c) :
    trimEnd (cs ++ tail) = trimEnd cs := by
  rw [trimEnd, List.reverse_append,
    List.dropWhile_append_of_pos fun c hc => h c (List.mem_reverse.1 hc), trimEnd]

theorem trimEnd_of_allBlank (h : allBlank cs) : trimEnd cs = [] :=
  trimEnd_append_blank [] (List.all_eq_true.1 h)

theorem trim_append_blank (cs : List Char) (h : ∀ c ∈ tail, isBlank c) :
    trim (cs ++ tail) = trim cs := by
  by_cases hcs : ∀ c ∈ cs, isBlank c
  · have hstart : trimStart cs = [] := List.dropWhile_eq_nil_iff.2 hcs
    have hboth : trimStart (cs ++ tail) = [] :=
      List.dropWhile_eq_nil_iff.2 (List.forall_mem_append.2 ⟨hcs, h⟩)
    rw [trim, trim, hstart, hboth]
  · have hstart : trimStart (cs ++ tail) = trimStart cs ++ tail := by
      have hvisible : ¬(cs.dropWhile isBlank).isEmpty := by
        rwa [List.isEmpty_iff, List.dropWhile_eq_nil_iff]
      rw [trimStart, List.dropWhile_append, if_neg hvisible, trimStart]
    rw [trim, hstart, trimEnd_append_blank _ h, trim]

/-- What is trimmed off the end of a text that has something visible behind another one. -/
theorem trimEnd_append_of_visible (cs : List Char) (h : allBlank ds = false) :
    trimEnd (cs ++ ds) = cs ++ trimEnd ds := by
  have hvisible : ¬(ds.reverse.dropWhile isBlank).isEmpty := by
    rw [List.isEmpty_iff, List.dropWhile_eq_nil_iff]
    simpa [allBlank] using h
  rw [trimEnd, List.reverse_append, List.dropWhile_append, if_neg hvisible, List.reverse_append,
    List.reverse_reverse, trimEnd]

/-! ## Lines -/

theorem splitLines_append (cs ds : List Char) :
    splitLines (cs ++ '\n' :: ds) = splitLines cs ++ splitLines ds := by
  induction cs with
  | nil => simp [splitLines]
  | cons c cs ih =>
    rw [List.cons_append, splitLines, splitLines, ih]
    split
    · rfl
    · obtain ⟨line, lines, hlines⟩ := List.exists_cons_of_ne_nil (splitLines_ne_nil cs)
      rw [hlines]
      rfl

theorem splitLines_append_newline (h : '\n' ∉ cs) (rest : List Char) :
    splitLines (cs ++ '\n' :: rest) = cs :: splitLines rest := by
  rw [splitLines_append, splitLines_of_not_mem h, List.singleton_append]

theorem not_mem_of_mem_splitLines (cs : List Char) : ∀ line ∈ splitLines cs, '\n' ∉ line := by
  induction cs with
  | nil => simp [splitLines]
  | cons c cs ih =>
    rw [splitLines]
    split
    · exact List.forall_mem_cons.2 ⟨by simp, ih⟩
    · next hc =>
      obtain ⟨first, others, hlines⟩ := List.exists_cons_of_ne_nil (splitLines_ne_nil cs)
      rw [hlines, List.forall_mem_cons] at ih
      rw [hlines, List.modifyHead_cons, List.forall_mem_cons]
      exact ⟨by simp [Ne.symm hc, ih.1], ih.2⟩

theorem splitLines_joinLines (hn : lines ≠ []) (h : ∀ line ∈ lines, '\n' ∉ line) :
    splitLines (joinLines lines) = lines := by
  induction lines with
  | nil => exact absurd rfl hn
  | cons line lines ih =>
    obtain ⟨hline, hlines⟩ := List.forall_mem_cons.1 h
    cases lines with
    | nil => exact splitLines_of_not_mem hline
    | cons next lines =>
      rw [joinLines_cons (by simp), splitLines_append_newline hline, ih (by simp) hlines]

theorem joinLines_append (hn : lines ≠ []) (hn' : lines' ≠ []) :
    joinLines (lines ++ lines') = joinLines lines ++ '\n' :: joinLines lines' := by
  induction lines with
  | nil => exact absurd rfl hn
  | cons line lines ih =>
    cases lines with
    | nil => exact joinLines_cons hn'
    | cons next lines =>
      rw [List.cons_append, joinLines_cons (by simp), ih (by simp),
        joinLines_cons (List.cons_ne_nil next lines), List.append_assoc, List.cons_append]

/-- The visible lines of a text with one more line. -/
theorem visibleLines_append (run text : String) :
    visibleLines (run ++ "\n" ++ text) = visibleLines run ++ visibleLines text := by
  have h : (run ++ "\n" ++ text).toList = run.toList ++ '\n' :: text.toList := by simp
  simp [visibleLines, h, splitLines_append]

theorem visibleLines_intercalate {texts : List String} (h : texts ≠ []) :
    visibleLines ("\n".intercalate texts) = texts.flatMap visibleLines := by
  obtain ⟨text, texts, rfl⟩ := List.exists_cons_of_ne_nil h
  induction texts generalizing text with
  | nil => simp
  | cons next texts ih =>
    rw [String.intercalate_cons_cons, visibleLines_append, ih next (by simp)]
    rfl

/-- A text without line breaks that is not blank is a visible line. -/
theorem visibleLines_of_not_mem {text : String} (hline : '\n' ∉ text.toList)
    (hvisible : trim text.toList ≠ []) :
    visibleLines text = [String.ofList (trim text.toList)] := by
  simp [visibleLines, splitLines_of_not_mem hline, hvisible]

end DocExpr.Text
