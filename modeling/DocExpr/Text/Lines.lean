import DocExpr.Text.Blank

/-!
# Lines of a text

`splitLines` cuts a text at its line feeds and `joinLines` puts it together again
(`joinLines_splitLines`). A text without a line feed is one line (`splitLines_of_not_mem`).
-/

namespace DocExpr.Text

/-- The pieces of a text between its line feeds: one more than it has line feeds. -/
def splitLines : List Char → List (List Char)
  | [] => [[]]
  | c :: cs => if c = '\n' then [] :: splitLines cs else (splitLines cs).modifyHead (c :: ·)

/-- Lines with a line feed between each two. -/
def joinLines : List (List Char) → List Char
  | [] => []
  | [line] => line
  | line :: lines => line ++ '\n' :: joinLines lines

/-- The visible lines of a text, trimmed. -/
def visibleLines (text : String) : List String :=
  ((splitLines text.toList).map trim).filter (fun line => !line.isEmpty) |>.map String.ofList

theorem splitLines_ne_nil (cs : List Char) : splitLines cs ≠ [] := by
  induction cs with
  | nil => simp [splitLines]
  | cons c cs ih =>
    unfold splitLines
    split
    · simp
    · cases h : splitLines cs with
      | nil => exact absurd h ih
      | cons line lines => simp

theorem joinLines_cons {line : List Char} {lines : List (List Char)} (h : lines ≠ []) :
    joinLines (line :: lines) = line ++ '\n' :: joinLines lines := by
  cases lines with
  | nil => exact absurd rfl h
  | cons next lines => rfl

theorem joinLines_modifyHead_cons (c : Char) {lines : List (List Char)} (h : lines ≠ []) :
    joinLines (lines.modifyHead (c :: ·)) = c :: joinLines lines := by
  cases lines with
  | nil => exact absurd rfl h
  | cons line lines => cases lines <;> rfl

theorem joinLines_splitLines (cs : List Char) : joinLines (splitLines cs) = cs := by
  induction cs with
  | nil => rfl
  | cons c cs ih =>
    unfold splitLines
    split
    · next h => rw [joinLines_cons (splitLines_ne_nil cs), ih, h]; rfl
    · rw [joinLines_modifyHead_cons c (splitLines_ne_nil cs), ih]

theorem splitLines_of_not_mem {cs : List Char} (h : '\n' ∉ cs) : splitLines cs = [cs] := by
  induction cs with
  | nil => rfl
  | cons c cs ih =>
    simp only [List.mem_cons, not_or] at h
    simp [splitLines, ih h.2, Ne.symm h.1]

end DocExpr.Text
